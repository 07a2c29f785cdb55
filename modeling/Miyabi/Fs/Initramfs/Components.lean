import Miyabi.Fs.Initramfs.Tar

namespace Miyabi.Fs

open Miyabi.Base

-- The path with the given components.
def pathOf (names : List CString) : CString := [slash].intercalate names

-- Components that make a path in the normal form.
structure Proper (names : List CString) : Prop where
  word : ∀ name ∈ names, name ≠ [] ∧ slash ∉ name
  visible : ∀ name ∈ names.head?, name.head? ≠ some dot

namespace Proper

variable {names rest : List CString}

theorem components_pathOf (h : Proper names) : components (pathOf names) = names := by
  rw [components_eq]
  exact words_intercalate h.word

theorem of_append (h : Proper (names ++ rest)) : Proper names where
  word name hname := h.word name (List.mem_append_left _ hname)
  visible name hname := by
    apply h.visible
    cases names with
    | nil => cases hname
    | cons first names => exact hname

theorem of_front (h : Proper rest) (hpre : names <+: rest) : Proper names := by
  obtain ⟨more, rfl⟩ := hpre
  exact h.of_append

theorem pathOf_ne_nil (h : Proper names) (hne : names ≠ []) : pathOf names ≠ [] := by
  intro hnil
  have hsame := h.components_pathOf
  rw [hnil] at hsame
  exact hne hsame.symm

theorem pathOf_concat (hne : names ≠ []) (name : CString) :
    pathOf (names ++ [name]) = pathOf names ++ slash :: name := by
  rw [pathOf, intercalate_append hne (List.cons_ne_nil _ _), List.intercalate_singleton]
  rfl

-- A path is searched for under its components.
theorem foldl_joinPath (h : Proper names) : names.foldl joinPath [] = pathOf names := by
  induction names using List.reverseRecOn with
  | nil => rfl
  | append_singleton names name ih =>
    rw [List.foldl_append, List.foldl_cons, List.foldl_nil, ih h.of_append]
    by_cases hnames : names = []
    · subst hnames
      have hclean : Clean name := by
        intro c hc
        refine ⟨fun hdot => ?_, fun hslash => ?_⟩
        · exact h.visible name rfl (hdot ▸ hc)
        · exact (h.word name List.mem_cons_self).2 (hslash ▸ List.mem_of_mem_head? hc)
      have hnil : pathOf [] = [] := rfl
      rw [hnil, joinPath, if_pos rfl, sanitizePath_of_clean hclean]
      exact List.intercalate_singleton.symm
    · rw [joinPath, if_neg (h.of_append.pathOf_ne_nil hnames), pathOf_concat hnames]

theorem isKey (h : Proper names) : IsKey (pathOf names) := by
  rw [← h.foldl_joinPath]
  exact isKey_foldl h.word isKey_nil

theorem injective (h : Proper names) (h' : Proper rest) (heq : pathOf names = pathOf rest) :
    names = rest := by
  rw [← h.components_pathOf, heq, h'.components_pathOf]

end Proper

theorem NormalForm.components_eq {path : CString} (h : NormalForm path) :
    components path = path.splitOn slash := by
  rw [components, List.filter_eq_self]
  exact fun name hname => decide_eq_true (h.named name hname).1

theorem NormalForm.pathOf_components {path : CString} (h : NormalForm path) :
    pathOf (components path) = path := by
  rw [h.components_eq]
  exact List.intercalate_splitOn slash

theorem NormalForm.proper {path : CString} (h : NormalForm path) :
    Proper (components path) ∧ components path ≠ [] := by
  have hword : ∀ name ∈ components path, name ≠ [] ∧ slash ∉ name := by
    intro name hname
    rw [Fs.components_eq] at hname
    exact words_spec hname
  have hne : components path ≠ [] := by
    rw [h.components_eq]
    exact List.splitOn_ne_nil _ _
  refine ⟨⟨hword, fun name hname => ?_⟩, hne⟩
  obtain ⟨rest, hnames⟩ := List.head?_eq_some_iff.mp hname
  have hnameNe : name ≠ [] := (hword name (hnames ▸ List.mem_cons_self)).1
  have hhead : path.head? = name.head? := by
    rw [← h.pathOf_components, hnames]
    cases rest with
    | nil => rw [pathOf, List.intercalate_singleton]
    | cons other rest =>
      rw [pathOf, List.intercalate_cons_cons, List.append_assoc,
        List.head?_append_of_ne_nil _ hnameNe]
  rw [← hhead]
  exact h.visible

theorem sanitizePath_trimFront (path : CString) :
    sanitizePath (trimFront path) = sanitizePath path := by
  have hdrop : ∀ c rest, c = dot ∨ c = slash → sanitizePath (c :: rest) = sanitizePath rest :=
    fun c rest hc => List.dropWhile_cons_of_pos (decide_eq_true hc)
  cases path with
  | nil => rfl
  | cons c rest =>
    cases rest with
    | nil =>
      rw [trimFront]
      split
      · next hc => rw [hdrop c [] (Or.inr hc)]
      · rfl
    | cons d rest =>
      rw [trimFront]
      split
      · next hcd => rw [hdrop c _ (Or.inl hcd.1), hdrop d _ (Or.inr hcd.2)]
      split
      · next hc => rw [hdrop c _ (Or.inr hc)]
      · rfl

theorem trimSlash_of_last {path : CString} (h : path.getLast? ≠ some slash) :
    trimSlash path = path := if_neg h

namespace TarEntry

-- The components of the path of an entry.
def names (e : TarEntry) : List CString := components e.path

theorem file_not_extension {e : TarEntry} (h : e.IsFile) : ¬e.IsExtension := by
  rw [IsFile, List.mem_pair] at h
  rw [IsExtension]
  rcases h with h | h
  · rw [h]
    decide
  · rw [h]
    decide

theorem directory_not_extension {e : TarEntry} (h : e.IsDirectory) : ¬e.IsExtension := by
  rw [IsDirectory] at h
  rw [IsExtension, h]
  decide

theorem directory_not_file {e : TarEntry} (h : e.IsDirectory) : ¬e.IsFile := by
  rw [IsDirectory] at h
  rw [IsFile, h]
  decide

end TarEntry

section ProperEntry

variable {e : TarEntry} (h : ProperEntry e)

include h

-- The path of an entry by its components.
theorem ProperEntry.path_cases : Proper e.names ∧ (e.path = pathOf e.names ∨
    e.IsDirectory ∧ e.names ≠ [] ∧ e.path = pathOf e.names ++ [slash]) := by
  rcases h.typeflag with hfile | hdir
  · have hform := (h.file hfile).1
    exact ⟨hform.proper.1, Or.inl hform.pathOf_components.symm⟩
  rcases h.directory hdir with hnil | ⟨-, hform⟩
  · have hnames : e.names = [] := by
      rw [TarEntry.names, hnil]
      rfl
    rw [hnames, hnil]
    refine ⟨⟨fun _ hname => absurd hname List.not_mem_nil, fun _ hname => ?_⟩, Or.inl rfl⟩
    cases hname
  by_cases hlast : e.path.getLast? = some slash
  · obtain ⟨front, hfront⟩ := List.getLast?_eq_some_iff.mp hlast
    have htrim : trimSlash e.path = front := by
      rw [trimSlash, if_pos hlast, hfront, List.dropLast_concat]
    have hnames : e.names = components front := by
      rw [TarEntry.names, hfront, Vfs.components_trailing]
    rw [htrim] at hform
    rw [hnames, hform.pathOf_components]
    exact ⟨hform.proper.1, Or.inr ⟨hdir, hform.proper.2, hfront⟩⟩
  · rw [trimSlash_of_last hlast] at hform
    exact ⟨hform.proper.1, Or.inl hform.pathOf_components.symm⟩

theorem ProperEntry.proper : Proper e.names := h.path_cases.1

theorem ProperEntry.clean : Clean e.path := by
  obtain ⟨hproper, hpath⟩ := h.path_cases
  rcases hpath with hpath | ⟨-, hne, hpath⟩
  · rw [hpath]
    exact hproper.isKey.clean
  · rw [hpath]
    exact hproper.isKey.clean.append (hproper.pathOf_ne_nil hne) _

theorem ProperEntry.sanitized : sanitizePath e.filename = e.path := by
  rw [← sanitizePath_trimFront]
  exact sanitizePath_of_clean h.clean

theorem ProperEntry.normal_eq : normal e.filename = pathOf e.names := by
  obtain ⟨hproper, hpath⟩ := h.path_cases
  show trimSlash e.path = pathOf e.names
  rcases hpath with hpath | ⟨-, -, hpath⟩
  · rw [hpath]
    exact trimSlash_of_last hproper.isKey.last
  · rw [hpath, trimSlash, if_pos List.getLast?_concat, List.dropLast_concat]

theorem ProperEntry.length_le : e.path.length ≤ 99 := by
  rcases h.typeflag with hfile | hdir
  · exact (h.file hfile).1.short
  rcases h.directory hdir with hnil | ⟨hshort, -⟩
  · rw [hnil]
    exact Nat.zero_le _
  · exact hshort

theorem ProperEntry.stored : stored e.path = e.path := List.take_of_length_le h.length_le

-- The node of an entry is found under its components.
theorem ProperEntry.name_matches : tarMatchName e.path (pathOf e.names) = true := by
  rw [match_key h.clean h.proper.isKey]
  rcases h.path_cases.2 with hpath | ⟨-, -, hpath⟩
  · exact Or.inl hpath
  · exact Or.inr hpath

-- The directories that a path goes through are the paths of fewer components,
-- and the directory itself where the path ends with a slash.
theorem ProperEntry.parents_names {dir : CString} (hdir : dir ∈ parents e.path) :
    ∃ names, names ≠ [] ∧ names <+: e.names ∧ (e.IsFile → names ≠ e.names) ∧
      dir = pathOf names := by
  obtain ⟨hproper, hpath⟩ := h.path_cases
  obtain ⟨-, back, hback⟩ := mem_parents.mp hdir
  have hsplit : ∀ back, pathOf e.names = dir ++ slash :: back →
      ∃ names, names ≠ [] ∧ names <+: e.names ∧ (e.IsFile → names ≠ e.names) ∧
        dir = pathOf names := by
    intro back hback
    obtain ⟨us, vs, hus, hvs, hnames, hfront⟩ :=
      intercalate_split (fun w hw => (hproper.word w hw).2) hback
    refine ⟨us, hus, ⟨vs, hnames.symm⟩, fun _ heq => hvs ?_, hfront.symm⟩
    rw [hnames] at heq
    exact List.self_eq_append_right.mp heq
  rcases hpath with hpath | ⟨hdirectory, hne, hpath⟩
  · exact hsplit back (hpath ▸ hback)
  rw [hpath] at hback
  cases back using List.reverseRecOn with
  | nil =>
    refine ⟨e.names, hne, List.prefix_refl _, fun hfile => ?_, ?_⟩
    · exact absurd hfile (TarEntry.directory_not_file hdirectory)
    · exact (List.append_cancel_right hback).symm
  | append_singleton back c =>
    rw [← List.cons_append, ← List.append_assoc] at hback
    exact hsplit back (List.append_inj_left' hback rfl)

theorem ProperEntry.names_parents {names : List CString} (hne : names ≠ [])
    (hpre : names <+: e.names) (hproper : names ≠ e.names) :
    pathOf names ∈ parents e.path := by
  obtain ⟨rest, hrest⟩ := hpre
  have hrestNe : rest ≠ [] := by
    rintro rfl
    exact hproper (by rwa [List.append_nil] at hrest)
  have hsplit : pathOf e.names = pathOf names ++ slash :: pathOf rest := by
    rw [← hrest]
    exact intercalate_append hne hrestNe
  have hnames : Proper names := h.proper.of_front ⟨rest, hrest⟩
  refine mem_parents.mpr ⟨hnames.pathOf_ne_nil hne, ?_⟩
  rcases h.path_cases.2 with hpath | ⟨-, -, hpath⟩
  · exact ⟨pathOf rest, hpath.trans hsplit⟩
  · refine ⟨pathOf rest ++ [slash], ?_⟩
    rw [hpath, hsplit, List.append_assoc, List.cons_append]

end ProperEntry

end Miyabi.Fs
