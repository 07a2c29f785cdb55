import Mathlib.Algebra.Group.Nat.Even
import Mathlib.Data.List.Dedup
import Miyabi.Fs.Initramfs.Bounds

namespace Miyabi.Fs

open Miyabi.Base

-- The slashes at the end of a name.
def endSlashes (name : CString) : Nat := (name.reverse.takeWhile (· = slash)).length

def EvenEnd (name : CString) : Prop := Even (endSlashes name)

instance (name : CString) : Decidable (EvenEnd name) := inferInstanceAs (Decidable (Even _))

theorem endSlashes_slash (name : CString) : endSlashes (name ++ [slash]) = endSlashes name + 1 := by
  rw [endSlashes, endSlashes, List.reverse_append, List.reverse_singleton, List.singleton_append,
    List.takeWhile_cons_of_pos (by simp), List.length_cons]

theorem evenEnd_slash (name : CString) : EvenEnd (name ++ [slash]) ↔ ¬EvenEnd name := by
  rw [EvenEnd, EvenEnd, endSlashes_slash, Nat.even_add_one]

-- A name with an odd number of them has a slash to lose.
theorem exists_slash {name : CString} (h : ¬EvenEnd name) :
    ∃ front, name = front ++ [slash] ∧ EvenEnd front := by
  cases name using List.reverseRecOn with
  | nil => exact absurd (by decide) h
  | append_singleton front c =>
    by_cases hc : c = slash
    · subst hc
      rw [evenEnd_slash, not_not] at h
      exact ⟨front, rfl, h⟩
    · refine absurd ?_ h
      rw [EvenEnd, endSlashes, List.reverse_append, List.reverse_singleton, List.singleton_append,
        List.takeWhile_cons_of_neg (by simpa using hc)]
      exact Nat.even_iff.mpr rfl

-- Names with an even number of slashes at the end match only if they are equal.
theorem eq_of_match {a b : CString} (ha : EvenEnd a) (hb : EvenEnd b)
    (hmatch : matchClean a b = true) : a = b := by
  rcases (matchClean_iff a b).mp hmatch with rfl | rfl | rfl
  · rfl
  · exact absurd hb ((evenEnd_slash b).mp ha)
  · exact absurd ha ((evenEnd_slash a).mp hb)

-- No two names match.
def OneEach (names : List CString) : Prop :=
  names.Pairwise fun a b => tarMatchName a b = false

structure Tidy (names : List CString) : Prop where
  clean : ∀ name ∈ names, Clean name
  even : ∀ name ∈ names, EvenEnd name
  nodup : names.Nodup

theorem tidy_nil : Tidy [] where
  clean _ hn := absurd hn List.not_mem_nil
  even _ hn := absurd hn List.not_mem_nil
  nodup := List.nodup_nil

theorem Tidy.eq_of_match {names : List CString} (h : Tidy names) {name path : CString}
    (hname : name ∈ names) (hclean : Clean path) (heven : EvenEnd path)
    (hmatch : tarMatchName name path = true) : name = path := by
  rw [tarMatchName_clean (h.clean name hname) hclean] at hmatch
  exact Miyabi.Fs.eq_of_match (h.even name hname) heven hmatch

theorem Tidy.oneEach {names : List CString} (h : Tidy names) : OneEach names := by
  refine h.nodup.imp_of_mem fun {a b} ha hb hne => ?_
  rw [← Bool.not_eq_true]
  exact fun hmatch => hne (h.eq_of_match ha (h.clean b hb) (h.even b hb) hmatch)

theorem Tidy.append {names : List CString} (h : Tidy names) {name : CString} (hclean : Clean name)
    (heven : EvenEnd name) (hnew : name ∉ names) : Tidy (names ++ [name]) where
  clean n hn := by
    rcases List.mem_append.mp hn with hn | hn
    · exact h.clean n hn
    · rwa [List.mem_singleton.mp hn]
  even n hn := by
    rcases List.mem_append.mp hn with hn | hn
    · exact h.even n hn
    · rwa [List.mem_singleton.mp hn]
  nodup := by
    rw [List.nodup_append]
    refine ⟨h.nodup, List.nodup_singleton _, ?_⟩
    rintro a ha b hb rfl
    exact hnew (List.mem_singleton.mp hb ▸ ha)

theorem tarMatchName_self (name : CString) : tarMatchName name name = true :=
  (matchClean_iff _ _).mpr (Or.inl rfl)

theorem imply_mono (names : List CString) (dir : CString) : ∀ n ∈ names, n ∈ imply names dir := by
  intro n hn
  rw [imply]
  split
  · exact List.mem_append_left _ hn
  · exact hn

-- A directory with an even end is named, by a name that is new or by itself.
theorem Tidy.named {names : List CString} (h : Tidy names) {dir : CString} (hclean : Clean dir)
    (heven : EvenEnd dir) :
    Tidy (imply names dir) ∧ dir ∈ imply names dir ∧ ∀ n ∈ imply names dir, n ∈ names ∨ n = dir := by
  by_cases hmissing : Missing names dir
  · rw [imply_missing hmissing]
    have hnew : dir ∉ names := by
      intro hmem
      have hno := hmissing dir hmem
      rw [tarMatchName_self] at hno
      cases hno
    refine ⟨h.append hclean heven hnew, by simp, fun n hn => ?_⟩
    rcases List.mem_append.mp hn with hn | hn
    · exact Or.inl hn
    · exact Or.inr (List.mem_singleton.mp hn)
  · rw [imply_found hmissing]
    obtain ⟨name, hname, hmatch⟩ := not_missing.mp hmissing
    obtain rfl := h.eq_of_match hname hclean heven hmatch
    exact ⟨h, hname, fun n hn => Or.inl hn⟩

theorem match_slash {name : CString} (hclean : Clean (name ++ [slash])) :
    tarMatchName name (name ++ [slash]) = true := by
  rw [tarMatchName_clean hclean.of_append hclean, matchClean_iff]
  exact Or.inr (Or.inr rfl)

-- The names once `dirs` have theirs.
structure Implied (names dirs names' : List CString) : Prop where
  tidy : Tidy names'
  kept : ∀ n ∈ names, n ∈ names'
  named : ∀ dir ∈ dirs, EvenEnd dir → dir ∈ names'
  new : ∀ n ∈ names', n ∈ names ∨ n ∈ dirs ∧ EvenEnd n

theorem Tidy.implied_nil {names : List CString} (h : Tidy names) : Implied names [] names where
  tidy := h
  kept _ hn := hn
  named _ hd := by cases hd
  new _ hn := Or.inl hn

theorem Implied.cons_even {names dirs names' : List CString} {dir : CString} (hnames : Tidy names)
    (hclean : Clean dir) (heven : EvenEnd dir) (h : Implied (imply names dir) dirs names') :
    Implied names (dir :: dirs) names' := by
  obtain ⟨-, hmem, hsub⟩ := hnames.named hclean heven
  constructor
  case tidy => exact h.tidy
  case kept => exact fun n hn => h.kept n (imply_mono names dir n hn)
  case named =>
    intro d hd hdEven
    rcases List.mem_cons.mp hd with rfl | hd
    · exact h.kept _ hmem
    · exact h.named d hd hdEven
  case new =>
    intro n hn
    rcases h.new n hn with hn | ⟨hn, hnEven⟩
    · rcases hsub n hn with hn | rfl
      · exact Or.inl hn
      · exact Or.inr ⟨List.mem_cons_self, heven⟩
    · exact Or.inr ⟨List.mem_cons_of_mem _ hn, hnEven⟩

theorem Implied.cons_odd {names dirs names' : List CString} {dir : CString} (hodd : ¬EvenEnd dir)
    (h : Implied names dirs names') : Implied names (dir :: dirs) names' := by
  constructor
  case tidy => exact h.tidy
  case kept => exact h.kept
  case named =>
    intro d hd hdEven
    rcases List.mem_cons.mp hd with rfl | hd
    · exact absurd hdEven hodd
    · exact h.named d hd hdEven
  case new =>
    intro n hn
    rcases h.new n hn with hn | ⟨hn, hnEven⟩
    · exact Or.inl hn
    · exact Or.inr ⟨List.mem_cons_of_mem _ hn, hnEven⟩

-- The directories of a path are named from the first on. One with an odd end
-- is found by the name without its last slash, which comes right before it.
theorem Tidy.foldl_parents {rest : CString} : ∀ {names front back : List CString}
    {dirPath : CString}, Tidy names → Clean (dirPath ++ rest) →
    (∀ dir, dirPath = dir ++ [slash] → EvenEnd dir → dir ∈ names) →
    parentsFrom dirPath rest = front ++ back → Implied names front (front.foldl imply names) := by
  induction rest with
  | nil =>
    intro names front back dirPath h _ _ hsplit
    obtain ⟨rfl, rfl⟩ := List.append_eq_nil_iff.mp hsplit.symm
    exact h.implied_nil
  | cons c rest ih =>
    intro names front back dirPath h hclean hready hsplit
    have hnext : Clean (dirPath ++ [c] ++ rest) := by simpa using hclean
    rw [parentsFrom] at hsplit
    by_cases hdir : c = slash ∧ dirPath ≠ []
    · obtain ⟨rfl, hne⟩ := hdir
      rw [if_pos ⟨rfl, hne⟩] at hsplit
      cases front with
      | nil => exact h.implied_nil
      | cons dir front =>
        obtain ⟨rfl, hrest⟩ := List.cons.inj hsplit
        rw [List.foldl_cons]
        by_cases heven : EvenEnd dirPath
        · obtain ⟨htidy, hmem, -⟩ := h.named hclean.of_append heven
          refine (ih htidy hnext (fun dir hslash _ => ?_) hrest).cons_even h hclean.of_append heven
          rwa [← List.append_cancel_right hslash]
        · obtain ⟨dir, rfl, hdirEven⟩ := exists_slash heven
          have hfound : imply names (dir ++ [slash]) = names := by
            apply imply_found
            exact not_missing.mpr ⟨dir, hready dir rfl hdirEven, match_slash hclean.of_append⟩
          rw [hfound]
          refine (ih h hnext (fun dir' hslash heven' => ?_) hrest).cons_odd heven
          rw [← List.append_cancel_right hslash] at heven'
          exact absurd heven' heven
    · rw [if_neg hdir] at hsplit
      refine ih h hnext (fun dir heq _ => ?_) hsplit
      -- the first character of a clean path is no slash
      have hlast := congrArg List.getLast? heq
      rw [List.getLast?_concat, List.getLast?_concat, Option.some.injEq] at hlast
      have hnil : dirPath = [] := by
        by_contra hne
        exact hdir ⟨hlast, hne⟩
      subst hnil hlast
      exact absurd rfl (hclean slash rfl).2

-- The directories of a path that get a name of their own.
def dirsOf (path : CString) : List CString := (parents path).filter fun dir => EvenEnd dir

-- The paths that are listed or implied.
def pathsOf (listing : List CString) : List CString :=
  listing.flatMap fun path => dirsOf path ++ [stored path]

-- An entry whose path is new when it comes.
def InOrder (before : List CString) (path : CString) : Prop :=
  EvenEnd (stored path) ∧ stored path ∉ pathsOf before ++ dirsOf path

instance (before : List CString) (path : CString) : Decidable (InOrder before path) :=
  inferInstanceAs (Decidable (_ ∧ _))

def AllInOrder (before : List CString) : List CString → Prop
  | [] => True
  | path :: rest => InOrder before path ∧ AllInOrder (before ++ [path]) rest

-- Fewer paths than the table holds.
def RoomFor (before : List CString) (path : CString) : Prop :=
  (pathsOf before ++ dirsOf path).dedup.length < MAX_RAMFS_NODES

-- Every entry for which there is room comes with a new path.
def NewWhileRoom (before : List CString) : List CString → Prop
  | [] => True
  | path :: rest =>
      (RoomFor before path → InOrder before path) ∧ NewWhileRoom (before ++ [path]) rest

-- The sanitized paths of the entries from a header on.
def listing (m : Memory 64) (fuel : Nat) : Nat → BitVec 64 → List CString
  | 0, _ => []
  | turns + 1, header =>
      if m header = 0 then []
      else if IsExtension m header then listing m fuel turns (nextHeader m header)
      else
        match cString m fuel header with
        | .error _ => []
        | .ok filename => sanitizePath filename :: listing m fuel turns (nextHeader m header)

theorem mem_dirsOf {path dir : CString} : dir ∈ dirsOf path ↔ dir ∈ parents path ∧ EvenEnd dir := by
  rw [dirsOf, List.mem_filter, decide_eq_true_eq]

theorem pathsOf_append (before : List CString) (path : CString) :
    pathsOf (before ++ [path]) = pathsOf before ++ dirsOf path ++ [stored path] := by
  rw [pathsOf, List.flatMap_append, List.flatMap_singleton, List.append_assoc]
  rfl

-- As many names as there are paths at most.
theorem length_le_dedup {names paths : List CString} (hnodup : names.Nodup)
    (hsub : ∀ n ∈ names, n ∈ paths) : names.length ≤ paths.dedup.length := by
  apply List.Subperm.length_le
  apply List.subperm_of_subset hnodup
  exact fun n hn => List.mem_dedup.mpr (hsub n hn)

-- Once the paths fill the table nothing more is asked of the entries.
theorem newWhileRoom_full {rest : List CString} : ∀ {before : List CString},
    MAX_RAMFS_NODES ≤ (pathsOf before).dedup.length → NewWhileRoom before rest := by
  induction rest with
  | nil => exact fun _ => trivial
  | cons path rest ih =>
    intro before hfull
    have hmore : (pathsOf before).dedup.length ≤ (pathsOf before ++ dirsOf path).dedup.length :=
      length_le_dedup (List.nodup_dedup _)
        fun n hn => List.mem_append_left _ (List.mem_dedup.mp hn)
    have hlater : (pathsOf before).dedup.length ≤ (pathsOf (before ++ [path])).dedup.length := by
      rw [pathsOf_append, List.append_assoc]
      exact length_le_dedup (List.nodup_dedup _)
        fun n hn => List.mem_append_left _ (List.mem_dedup.mp hn)
    exact ⟨fun hroom => absurd hroom (by rw [RoomFor]; omega), ih (hfull.trans hlater)⟩

-- A name that is stored although its path is not new matches another name.
theorem inOrder_of_oneEach {names before : List CString} {path : CString} (hclean : Clean path)
    (hall : ∀ n ∈ pathsOf before ++ dirsOf path, n ∈ names)
    (hone : OneEach (names ++ [stored path])) : InOrder before path := by
  have hapart : ∀ n ∈ names, tarMatchName n (stored path) = false :=
    fun n hn => (List.pairwise_append.mp hone).2.2 n hn _ (List.mem_singleton_self _)
  constructor
  · by_contra hodd
    obtain ⟨dir, hdir, heven⟩ := exists_slash hodd
    have hpath : path = dir ++ slash :: path.drop 99 := by
      rw [← List.singleton_append, ← List.append_assoc, ← hdir]
      exact (List.take_append_drop 99 path).symm
    have hne : dir ≠ [] := by
      rintro rfl
      rw [hpath] at hclean
      exact absurd rfl (hclean slash rfl).2
    have hmem : dir ∈ dirsOf path :=
      mem_dirsOf.mpr ⟨mem_parents.mpr ⟨hne, path.drop 99, hpath⟩, heven⟩
    have hno := hapart dir (hall dir (List.mem_append_right _ hmem))
    have hclean' : Clean (stored path) := hclean.take 99
    rw [hdir] at hno hclean'
    rw [match_slash hclean'] at hno
    cases hno
  · intro hmem
    have hno := hapart (stored path) (hall _ hmem)
    rw [tarMatchName_self] at hno
    cases hno

namespace State

variable {blocks : Nat → BitVec 64} {m : Memory 64} {fuel : Nat} {s s' : State}

-- One of the calls of kmalloc so far gave NULL.
def NullBlock (blocks : Nat → BitVec 64) (s : State) : Prop := ∃ i < s.kmallocs, blocks i = 0

-- After the entries `before`, all of which came with a new path.
structure Done (blocks : Nat → BitVec 64) (before : List CString) (s : State) : Prop where
  tabled : Tabled blocks s
  tidy : Tidy s.names
  sub : ∀ n ∈ s.names, n ∈ pathsOf before
  all : NullBlock blocks s ∨ ∀ n ∈ pathsOf before, n ∈ s.names

-- After the directories of one more path.
structure Ensured (blocks : Nat → BitVec 64) (before : List CString) (path : CString)
    (s : State) : Prop where
  tabled : Tabled blocks s
  tidy : Tidy s.names
  sub : ∀ n ∈ s.names, n ∈ pathsOf before ++ dirsOf path
  all : Stopped blocks s ∨ ∀ n ∈ pathsOf before ++ dirsOf path, n ∈ s.names

-- No node goes, no name changes and no block is taken back.
theorem grown_kept (hfresh : Fresh blocks) (k : ℕ) (names : List CString) :
    Kept blocks fun s => Tabled blocks s ∧ k ≤ s.kmallocs ∧ names <+: s.names where
  kmalloc s h := ⟨h.1.kmalloc, Nat.le_succ_of_le h.2.1, h.2.2⟩
  plant s node h hnode hblock := by
    obtain ⟨htabled, hk, hnames⟩ := h
    refine ⟨htabled.plant hfresh hnode hblock, Nat.le_succ_of_le hk, ?_⟩
    rw [htabled.names_plant hfresh]
    exact hnames.trans (List.prefix_append _ _)

theorem NullBlock.mono (h : NullBlock blocks s) (hk : s.kmallocs ≤ s'.kmallocs) :
    NullBlock blocks s' := by
  obtain ⟨i, hi, hblock⟩ := h
  exact ⟨i, by omega, hblock⟩

section Step

variable (hfresh : Fresh blocks) {before : List CString} {path : CString} (hclean : Clean path)

include hfresh hclean

theorem Done.ensure (h : Done blocks before s)
    (hrun : s.ensureDirs blocks [] path = .ok s') : Ensured blocks before path s' := by
  have hpath : Clean ([] ++ path) := hclean
  obtain ⟨htabled, front, back, hsplit, hnames, hend⟩ := ensureDirs_names hfresh h.tabled hpath hrun
  have hgrown := (grown_kept hfresh s.kmallocs s.names).ensureDirs
    ⟨h.tabled, le_refl _, List.prefix_refl _⟩ hpath hrun
  have hstart : ∀ dir, [] = dir ++ [slash] → EvenEnd dir → dir ∈ s.names := by
    intro dir hnil _
    simp at hnil
  have himplied := h.tidy.foldl_parents hpath hstart hsplit
  rw [← hnames] at himplied
  have hfront : ∀ dir ∈ front, dir ∈ parents path := by
    intro dir hdir
    rw [parents, hsplit]
    exact List.mem_append_left _ hdir
  constructor
  case tabled => exact htabled
  case tidy => exact himplied.tidy
  case sub =>
    intro n hn
    rcases himplied.new n hn with hn | ⟨hn, heven⟩
    · exact List.mem_append_left _ (h.sub n hn)
    · exact List.mem_append_right _ (mem_dirsOf.mpr ⟨hfront n hn, heven⟩)
  case all =>
    rcases hend with rfl | hstop
    · rcases h.all with hnull | hall
      · exact Or.inl (Or.inr (hnull.mono hgrown.2.1))
      · refine Or.inr fun n hn => ?_
        rcases List.mem_append.mp hn with hn | hn
        · exact himplied.kept n (hall n hn)
        · obtain ⟨hparent, heven⟩ := mem_dirsOf.mp hn
          rw [parents, hsplit, List.append_nil] at hparent
          exact himplied.named n hparent heven
    · exact Or.inl hstop

-- A node for an entry with a new path.
theorem Ensured.entry (h : Ensured blocks before path s) (horder : InOrder before path)
    {header : BitVec 64} (hadd : s.addNode blocks (entryNode m header path) = (true, s')) :
    Done blocks (before ++ [path]) s' := by
  obtain ⟨hroom, hblock, rfl⟩ := addNode_made hadd
  have hname := entryNode_name m header path
  obtain ⟨heven, hnew⟩ := horder
  have hnode := entryNode_isRamfs m header hclean
  constructor
  case tabled => exact h.tabled.plant hfresh hnode hblock
  case tidy =>
    rw [h.tabled.names_plant hfresh, hname]
    exact h.tidy.append (hclean.take 99) heven fun hmem => hnew (h.sub _ hmem)
  case sub =>
    rw [h.tabled.names_plant hfresh, hname, pathsOf_append]
    intro n hn
    rcases List.mem_append.mp hn with hn | hn
    · exact List.mem_append_left _ (h.sub n hn)
    · exact List.mem_append_right _ hn
  case all =>
    rw [h.tabled.names_plant hfresh, hname, pathsOf_append]
    rcases h.all with (hfull | ⟨i, hi, hnull⟩) | hall
    · omega
    · exact Or.inl ⟨i, Nat.lt_succ_of_lt hi, hnull⟩
    · refine Or.inr fun n hn => ?_
      rcases List.mem_append.mp hn with hn | hn
      · exact List.mem_append_left _ (hall n hn)
      · exact List.mem_append_right _ hn

end Step

-- How the loop ends: at the zero block, at an entry without a node, or after
-- an entry whose path was not new.
inductive Outcome (blocks : Nat → BitVec 64) (s' : State) : List CString → List CString → Prop
  | done {before : List CString} : Done blocks before s' → Outcome blocks s' before []
  | next {before rest : List CString} {path : CString} : InOrder before path →
      Outcome blocks s' (before ++ [path]) rest → Outcome blocks s' before (path :: rest)
  | stopped {before rest : List CString} {path : CString} : Ensured blocks before path s' →
      Stopped blocks s' → Outcome blocks s' before (path :: rest)
  | twice {before rest : List CString} {path : CString} (s₁ : State) : Clean path →
      ¬InOrder before path → Ensured blocks before path s₁ →
      s₁.ramfsNodes.length < MAX_RAMFS_NODES → s₁.kmallocs ≤ s'.kmallocs →
      s₁.names ++ [stored path] <+: s'.names → Outcome blocks s' before (path :: rest)

theorem entriesFrom_outcome (hfresh : Fresh blocks) {turns : ℕ} :
    ∀ {header : BitVec 64} {s : State} {before : List CString}, Done blocks before s →
      s.entriesFrom blocks m fuel turns header = .ok s' →
      Outcome blocks s' before (listing m fuel turns header) := by
  induction turns with
  | zero =>
    intro header s before _ hrun
    cases hrun
  | succ turns ih =>
    intro header s before h hrun
    rw [entriesFrom_eq_loop, loop] at hrun
    have hcase := turn_case blocks m fuel header s
    have hensured : ∀ {filename : CString} {s₁ : State},
        s.ensureParentDirsExist blocks (sanitizePath filename) = .ok s₁ →
        Ensured blocks before (sanitizePath filename) s₁ := by
      intro filename s₁ hensure
      rw [ensureParentDirsExist_sanitized] at hensure
      exact h.ensure hfresh (sanitizePath_clean filename) hensure
    rw [listing]
    generalize turn blocks m fuel (header, s) = result at hrun hcase
    cases hcase with
    | zero hzero =>
      cases hrun
      rw [if_pos hzero]
      exact .done h
    | extension hne hext =>
      rw [if_neg hne, if_pos hext]
      exact ih h ((entriesFrom_eq_loop turns _ _).trans hrun)
    | runsOn fault _ _ _ => cases hrun
    | fault filename fault _ _ _ _ => cases hrun
    | full filename s₁ s₂ hne hext hname hensure hadd =>
      cases hrun
      obtain ⟨htabled, hnames, hfull⟩ := (hensured hensure).tabled.full hadd
      rw [if_neg hne, if_neg hext, hname]
      refine .stopped ⟨htabled, ?_, ?_, Or.inl hfull⟩ hfull
      · rw [hnames]
        exact (hensured hensure).tidy
      · rw [hnames]
        exact (hensured hensure).sub
    | made filename s₁ s₂ hentry =>
      have hclean := sanitizePath_clean filename
      have hs₁ := hensured hentry.ensure
      have hrest := (entriesFrom_eq_loop turns _ _).trans hrun
      rw [if_neg hentry.ne_zero, if_neg hentry.entry, hentry.name]
      by_cases horder : InOrder before (sanitizePath filename)
      · exact .next horder (ih (hs₁.entry hfresh hclean horder hentry.add) hrest)
      · obtain ⟨hroom, hblock, rfl⟩ := addNode_made hentry.add
        have hnode := entryNode_isRamfs m header hclean
        have hstart := hs₁.tabled.plant hfresh hnode hblock
        obtain ⟨-, hk, hprefix⟩ := (grown_kept hfresh s₁.kmallocs _).entriesFrom
          ⟨hstart, Nat.le_succ _, List.prefix_refl _⟩ hrest
        rw [hs₁.tabled.names_plant hfresh, entryNode_name] at hprefix
        exact .twice s₁ hclean horder hs₁ hroom hk hprefix

section Outcome

variable {before rest : List CString} (h : Outcome blocks s' before rest)

include h

-- New paths make names of which no two match.
theorem Outcome.oneEach (hall : AllInOrder before rest) : OneEach s'.names := by
  induction h with
  | done hdone => exact hdone.tidy.oneEach
  | next _ _ ih => exact ih hall.2
  | stopped hensured _ => exact hensured.tidy.oneEach
  | twice s₁ _ hnot _ _ _ _ => exact absurd hall.1 hnot

theorem Outcome.oneEach_iff (hblocks : ¬NullBlock blocks s') :
    OneEach s'.names ↔ NewWhileRoom before rest := by
  induction h with
  | done hdone => exact iff_of_true hdone.tidy.oneEach trivial
  | next horder _ ih => exact ih.trans ⟨fun hrest => ⟨fun _ => horder, hrest⟩, fun hall => hall.2⟩
  | @stopped before rest path hensured hstop =>
    refine iff_of_true hensured.tidy.oneEach ?_
    have hfull := hstop.resolve_right hblocks
    have hle := length_le_dedup hensured.tidy.nodup hensured.sub
    rw [names_length] at hle
    refine ⟨fun hroom => ?_, newWhileRoom_full ?_⟩
    · rw [RoomFor] at hroom
      omega
    · have hmore : (pathsOf before ++ dirsOf path).dedup.length ≤
          (pathsOf (before ++ [path])).dedup.length := by
        rw [pathsOf_append]
        exact length_le_dedup (List.nodup_dedup _)
          fun n hn => List.mem_append_left _ (List.mem_dedup.mp hn)
      omega
  | @twice before rest path s₁ hclean hnot hensured hroom hk hprefix =>
    have hall : ∀ n ∈ pathsOf before ++ dirsOf path, n ∈ s₁.names := by
      rcases hensured.all with (hfull | hnull) | hall
      · omega
      · exact absurd (NullBlock.mono hnull hk) hblocks
      · exact hall
    have hlt : RoomFor before path := by
      rw [← names_length] at hroom
      refine lt_of_le_of_lt ?_ hroom
      apply List.Subperm.length_le
      apply List.subperm_of_subset (List.nodup_dedup _)
      exact fun n hn => hall n (List.mem_dedup.mp hn)
    refine iff_of_false (fun hone => ?_) fun hnew => hnot (hnew.1 hlt)
    exact hnot (inOrder_of_oneEach hclean hall (hone.sublist hprefix.sublist))

-- New paths that the table holds are all stored.
theorem Outcome.fits (hblocks : ¬NullBlock blocks s') (hall : AllInOrder before rest)
    (hcount : (pathsOf (before ++ rest)).dedup.length ≤ MAX_RAMFS_NODES) :
    s'.names.Perm (pathsOf (before ++ rest)).dedup := by
  induction h with
  | @done before hdone =>
    rw [List.append_nil]
    apply (List.perm_ext_iff_of_nodup hdone.tidy.nodup (List.nodup_dedup _)).mpr
    intro n
    rw [List.mem_dedup]
    exact ⟨hdone.sub n, (hdone.all.resolve_left hblocks) n⟩
  | @next before rest path _ _ ih =>
    rw [List.append_cons] at hcount ⊢
    exact ih hall.2 hcount
  | @stopped before rest path hensured hstop =>
    -- the table would hold one path more
    have hfull := hstop.resolve_right hblocks
    have hnew : (s'.names ++ [stored path]).Nodup := by
      rw [List.nodup_append]
      refine ⟨hensured.tidy.nodup, List.nodup_singleton _, ?_⟩
      rintro a ha b hb rfl
      obtain rfl := List.mem_singleton.mp hb
      exact hall.1.2 (hensured.sub _ ha)
    have hsub : ∀ n ∈ s'.names ++ [stored path], n ∈ pathsOf (before ++ path :: rest) := by
      intro n hn
      rw [List.append_cons, pathsOf, List.flatMap_append]
      apply List.mem_append_left
      show n ∈ pathsOf (before ++ [path])
      rw [pathsOf_append]
      rcases List.mem_append.mp hn with hn | hn
      · exact List.mem_append_left _ (hensured.sub n hn)
      · exact List.mem_append_right _ hn
    have hle := length_le_dedup hnew hsub
    rw [List.length_append, List.length_singleton, names_length] at hle
    omega
  | twice s₁ _ hnot _ _ _ _ => exact absurd hall.1 hnot

end Outcome

-- No two nodes match if the entries come with new paths, and where kmalloc gives no NULL that
-- is so if and only if each entry does for which there is room. The paths then fit as long as
-- the table holds them.
theorem one_node_iff (hfresh : Fresh blocks) (hnone : s.ramfsNodes = []) {ramfsAddr : BitVec 64}
    (hrun : s.initInitramfs blocks m fuel ramfsAddr = .ok s') :
    let paths := listing m fuel fuel ramfsAddr
    (AllInOrder [] paths → OneEach s'.names) ∧
      (¬NullBlock blocks s' → (OneEach s'.names ↔ NewWhileRoom [] paths) ∧
        (AllInOrder [] paths → (pathsOf paths).dedup.length ≤ MAX_RAMFS_NODES →
          s'.names.Perm (pathsOf paths).dedup)) := by
  by_cases hroot : blocks s.kmallocs = 0
  · rw [initInitramfs_null hroot] at hrun
    cases hrun
    refine ⟨fun _ => ?_, fun hblocks => ?_⟩
    · rw [OneEach, names, hnone]
      exact List.Pairwise.nil
    · exact absurd ⟨s.kmallocs, Nat.lt_succ_self _, hroot⟩ hblocks
  obtain ⟨s₁, hentries, rfl⟩ := initInitramfs_run hroot hrun
  have hnames : (loopStart blocks s).names = [] := by
    rw [names, loopStart_nodes hnone, List.map_nil]
  have hstart : Done blocks [] (loopStart blocks s) := by
    constructor
    case tabled => exact loopStart_tabled hnone
    case tidy =>
      rw [hnames]
      exact tidy_nil
    case sub =>
      rw [hnames]
      exact fun _ hn => absurd hn List.not_mem_nil
    case all => exact Or.inr fun _ hn => absurd hn List.not_mem_nil
  have houtcome := entriesFrom_outcome hfresh hstart hentries
  exact ⟨houtcome.oneEach, fun hblocks =>
    ⟨houtcome.oneEach_iff hblocks, fun hall hcount => houtcome.fits hblocks hall hcount⟩⟩

-- A file "bin/ls" of three bytes and a file "./bin/sh".
def treeArchive : Memory 64 := fun a =>
  if 0x1000 ≤ a ∧ a < 0x1006 then [0x62, 0x69, 0x6E, 0x2F, 0x6C, 0x73].getD (a - 0x1000).toNat 0
  else if 0x107C ≤ a ∧ a < 0x1086 then 0x30
  else if a = 0x1086 then 0x33
  else if 0x1400 ≤ a ∧ a < 0x1408 then
    [0x2E, 0x2F, 0x62, 0x69, 0x6E, 0x2F, 0x73, 0x68].getD (a - 0x1400).toNat 0
  else 0

theorem treeArchive_headers : Archive treeArchive 0x1000 [0x1000, 0x1400] := by
  have hfirst : nextHeader treeArchive 0x1000 = 0x1400 := by decide +kernel
  refine .entry (by decide) (fun _ => ⟨6, by decide, by decide⟩) ?_
  rw [hfirst]
  exact .entry (by decide) (fun _ => ⟨8, by decide, by decide⟩) (.zero (by decide +kernel))

def binName : CString := chars [0x62, 0x69, 0x6E]
def lsPath : CString := chars [0x62, 0x69, 0x6E, 0x2F, 0x6C, 0x73]
def shPath : CString := chars [0x62, 0x69, 0x6E, 0x2F, 0x73, 0x68]

-- The directory of the two files is listed nowhere.
theorem one_node_tree : ∃ s', sampleState.initInitramfs sampleBlocks treeArchive 102 0x1000 = .ok s' ∧
    OneEach s'.names ∧ s'.names.Perm [binName, lsPath, shPath] := by
  obtain ⟨s', hrun⟩ := initInitramfs_ok sampleBlocks treeArchive_headers
    (by decide : [0x1000, 0x1400].length + 100 ≤ 102) sampleState
  have hcalls : (sampleState.initInitramfs sampleBlocks treeArchive 102 0x1000).map
      (fun s => s.kmallocs) = .ok 4 := by
    decide +kernel
  rw [hrun] at hcalls
  have hcalls : s'.kmallocs = 4 := Except.ok.inj hcalls
  have hblocks : ¬NullBlock sampleBlocks s' := by
    have hgiven : ∀ i < 4, sampleBlocks i ≠ 0 := by decide
    rintro ⟨i, hi, hnull⟩
    exact hgiven i (hcalls ▸ hi) hnull
  have hlisting : listing treeArchive 102 102 0x1000 = [lsPath, shPath] := by
    decide +kernel
  obtain ⟨hone, hiff⟩ := one_node_iff sampleBlocks_fresh (rfl : sampleState.ramfsNodes = []) hrun
  rw [hlisting] at hone hiff
  have horder : AllInOrder [] [lsPath, shPath] := ⟨by decide, by decide, trivial⟩
  have hpaths : (pathsOf [lsPath, shPath]).dedup = [lsPath, binName, shPath] := by
    decide
  have hperm := (hiff hblocks).2 horder (by rw [hpaths]; decide)
  rw [hpaths] at hperm
  exact ⟨s', hrun, hone horder, hperm.trans (List.Perm.swap _ _ _)⟩

-- One directory "dev/", which is given a second node "dev".
theorem two_nodes_dev : listing sampleArchive 101 101 0x1000 = [devName ++ [slash]] ∧
    ∃ s', sampleState.initInitramfs sampleBlocks sampleArchive 101 0x1000 = .ok s' ∧
      s'.names = [devName, devName ++ [slash]] ∧ ¬OneEach s'.names := by
  refine ⟨by decide +kernel, ?_⟩
  obtain ⟨s', hrun⟩ := initInitramfs_ok sampleBlocks sampleArchive_headers
    (by decide : [0x1000].length + 100 ≤ 101) sampleState
  have hnames : (sampleState.initInitramfs sampleBlocks sampleArchive 101 0x1000).map
      (fun s => s.names) = .ok [devName, devName ++ [slash]] := by
    decide +kernel
  rw [hrun] at hnames
  have hnames : s'.names = [devName, devName ++ [slash]] := Except.ok.inj hnames
  refine ⟨s', hrun, hnames, fun hone => ?_⟩
  rw [hnames] at hone
  have hno := List.rel_of_pairwise_cons hone (List.mem_singleton_self _)
  exact absurd hno (by decide)

end State

end Miyabi.Fs
