import Miyabi.Fs.Vfs.Lookup

namespace Miyabi.Fs

open Miyabi.Base

-- A pointer that is not NULL.
def nonNull (p : BitVec 64) : Option (BitVec 64) := if p = 0 then none else some p

@[simp] theorem nonNull_zero : nonNull 0 = none := rfl

theorem nonNull_of_ne {p : BitVec 64} (h : p ≠ 0) : nonNull p = some p := if_neg h

@[simp] theorem getD_nonNull (p : BitVec 64) : (nonNull p).getD 0 = p := by
  by_cases h : p = 0
  · rw [h, nonNull_zero, Option.getD_none]
  · rw [nonNull_of_ne h, Option.getD_some]

-- The parts of a path between its slashes that are not empty.
def components (path : CString) : List CString := (path.splitOn slash).filter (· ≠ [])

theorem components_eq (path : CString) : components path = words slash path :=
  (words_eq_splitOn path).symm

namespace Vfs

variable (v : Vfs)

-- One component: a mount link, a directory, and its finddir.
def step (node : BitVec 64) (name : CString) : Option (BitVec 64) := do
  let dir ← nonNull (v.follow node)
  guard (v.IsDirectory dir)
  let find ← v.finddir dir
  nonNull (find name)

-- Where the components lead from a node, if they lead anywhere.
def reachFrom (node : BitVec 64) (names : List CString) : Option (BitVec 64) := do
  let start ← nonNull node
  names.foldlM v.step start

-- What a path means by its components.
def resolve (names : List CString) : Option (BitVec 64) := do
  let last ← v.reachFrom v.fsRoot names
  nonNull (v.follow last)

theorem step_eq {node : BitVec 64} (hne : node ≠ 0) (name : CString) :
    v.step node name = nonNull (v.descend node name) := by
  rw [descend, if_neg hne, step]
  by_cases hfollow : v.follow node = 0
  · rw [hfollow, if_pos rfl, nonNull_zero]
    rfl
  rw [nonNull_of_ne hfollow, if_neg hfollow, Option.bind_eq_bind, Option.bind_some]
  by_cases hdir : v.IsDirectory (v.follow node)
  · rw [if_neg (not_not.mpr hdir), guard, if_pos hdir]
    cases v.finddir (v.follow node) <;> rfl
  · rw [if_pos hdir, guard, if_neg hdir]
    rfl

theorem reachFrom_zero (names : List CString) : v.reachFrom 0 names = none := rfl

theorem reachFrom_nil (node : BitVec 64) : v.reachFrom node [] = nonNull node := by
  rw [reachFrom]
  cases nonNull node <;> rfl

theorem reachFrom_cons (node : BitVec 64) (name : CString) (rest : List CString) :
    v.reachFrom node (name :: rest) = v.reachFrom (v.descend node name) rest := by
  by_cases hne : node = 0
  · rw [hne, descend_zero, reachFrom_zero, reachFrom_zero]
  · rw [reachFrom, nonNull_of_ne hne, Option.bind_eq_bind, Option.bind_some, List.foldlM_cons,
      step_eq v hne]
    rfl

-- Where a part of the way fails, the whole does.
theorem reachFrom_take {names : List CString} : ∀ {node : BitVec 64} {k : ℕ},
    v.reachFrom node (names.take k) = none → v.reachFrom node names = none := by
  induction names with
  | nil =>
    intro node k h
    rwa [List.take_nil] at h
  | cons name rest ih =>
    intro node k h
    cases k with
    | zero =>
      have hzero : node = 0 := by
        rw [List.take_zero, reachFrom_nil] at h
        by_contra hne
        rw [nonNull_of_ne hne] at h
        cases h
      rw [hzero, reachFrom_zero]
    | succ k =>
      rw [List.take_succ_cons, reachFrom_cons] at h
      rw [reachFrom_cons]
      exact ih h

-- A walk that comes to an end ends where the components lead.
theorem walkWords_reachFrom {names : List CString} : ∀ {node last : BitVec 64},
    v.walkWords node names = .ok last → last = (v.reachFrom node names).getD 0 := by
  induction names with
  | nil =>
    intro node last h
    cases h
    rw [reachFrom_nil, getD_nonNull]
  | cons name rest ih =>
    intro node last h
    rw [walkWords] at h
    split at h
    · cases h
    rw [reachFrom_cons]
    split at h
    · next hzero =>
      cases h
      rw [hzero, reachFrom_zero, Option.getD_none]
    · exact ih h

-- It comes to an end unless it reaches a component that does not fit the token.
theorem walkWords_ok_iff {names : List CString} : ∀ {node : BitVec 64},
    (∃ last, v.walkWords node names = .ok last) ↔
      ∀ k, ∀ name ∈ names[k]?, tokenSize ≤ name.length →
        k ≠ 0 ∧ v.reachFrom node (names.take k) = none := by
  induction names with
  | nil => exact fun {node} => ⟨fun _ k name hname => by simp at hname, fun _ => ⟨node, rfl⟩⟩
  | cons name rest ih =>
    intro node
    by_cases hlong : tokenSize ≤ name.length
    · rw [walkWords, if_pos hlong]
      constructor
      · rintro ⟨last, h⟩
        cases h
      · intro h
        exact absurd rfl (h 0 name rfl hlong).1
    rw [walkWords_cons v (by omega)]
    by_cases hzero : v.descend node name = 0
    · rw [if_pos hzero]
      refine ⟨fun _ k other hother hother' => ?_, fun _ => ⟨0, rfl⟩⟩
      cases k with
      | zero =>
        cases hother
        exact absurd hother' hlong
      | succ k =>
        refine ⟨Nat.succ_ne_zero k, ?_⟩
        rw [List.take_succ_cons, reachFrom_cons, hzero, reachFrom_zero]
    · rw [if_neg hzero, ih]
      constructor
      · intro h k other hother hother'
        cases k with
        | zero =>
          cases hother
          exact absurd hother' hlong
        | succ k =>
          refine ⟨Nat.succ_ne_zero k, ?_⟩
          rw [List.take_succ_cons, reachFrom_cons]
          exact (h k other hother hother').2
      · intro h k other hother hother'
        obtain ⟨-, hreach⟩ := h (k + 1) other hother hother'
        rw [List.take_succ_cons, reachFrom_cons] at hreach
        refine ⟨?_, hreach⟩
        rintro rfl
        rw [List.take_zero, reachFrom_nil, nonNull_of_ne hzero] at hreach
        cases hreach

theorem finish_eq (last : Option (BitVec 64)) (hne : ∀ node ∈ last, node ≠ 0) :
    v.finish (last.getD 0) = (last.bind fun node => nonNull (v.follow node)).getD 0 := by
  cases last with
  | none => exact if_pos rfl
  | some node =>
    rw [Option.getD_some, Option.bind_some, getD_nonNull]
    exact if_neg (hne node rfl)

theorem reachFrom_ne_zero {names : List CString} : ∀ {node : BitVec 64},
    ∀ last ∈ v.reachFrom node names, last ≠ 0 := by
  induction names with
  | nil =>
    intro node last h hzero
    rw [reachFrom_nil, hzero] at h
    by_cases hnode : node = 0
    · rw [hnode, nonNull_zero] at h
      cases h
    · rw [nonNull_of_ne hnode] at h
      exact hnode (Option.some.inj h)
  | cons name rest ih =>
    intro node
    rw [reachFrom_cons]
    exact ih

theorem lookupWords_ok {names : List CString} {node : BitVec 64}
    (h : v.lookupWords names = .ok node) : node = (v.resolve names).getD 0 := by
  rw [lookupWords] at h
  cases hwalk : v.walkWords v.fsRoot names with
  | error fault =>
    rw [hwalk] at h
    cases h
  | ok last =>
    rw [hwalk] at h
    cases h
    rw [walkWords_reachFrom v hwalk, finish_eq v _ (reachFrom_ne_zero v)]
    rfl

theorem lookupWords_ok_iff (names : List CString) :
    (∃ node, v.lookupWords names = .ok node) ↔
      ∀ k, ∀ name ∈ names[k]?, tokenSize ≤ name.length →
        k ≠ 0 ∧ v.reachFrom v.fsRoot (names.take k) = none := by
  rw [← walkWords_ok_iff, lookupWords]
  cases v.walkWords v.fsRoot names with
  | error fault =>
    constructor
    · rintro ⟨node, h⟩
      cases h
    · rintro ⟨node, h⟩
      cases h
  | ok last => exact ⟨fun _ => ⟨last, rfl⟩, fun _ => ⟨v.finish last, rfl⟩⟩

theorem lookup_eq {path : CString} (habsolute : path.head? = some slash) :
    v.vfsGetNodeByPath path = v.lookupWords (components path) := by
  obtain ⟨rest, rfl⟩ := List.head?_eq_some_iff.mp habsolute
  rw [vfsGetNodeByPath_eq, components_eq, words_sep]

theorem components_repeated (front rest : CString) :
    components (front ++ slash :: slash :: rest) = components (front ++ slash :: rest) := by
  simp only [components_eq]
  rw [words_append_sep, words_sep, words_append_sep]

theorem components_trailing (path : CString) : components (path ++ [slash]) = components path := by
  simp only [components_eq]
  rw [words_append_sep, words_nil, List.append_nil]

theorem head_append {path : CString} (habsolute : path.head? = some slash) (rest : CString) :
    (path ++ rest).head? = some slash := by
  obtain ⟨tail, rfl⟩ := List.head?_eq_some_iff.mp habsolute
  rfl

-- The walk is the fold over the components, whatever slashes stand between them.
theorem resolve_components (path : CString) (habsolute : path.head? = some slash)
    (hshort : ∀ name ∈ components path, name.length < tokenSize) :
    v.vfsGetNodeByPath path = .ok ((v.resolve (components path)).getD 0) ∧
      (∀ front rest, path = front ++ slash :: rest →
        v.vfsGetNodeByPath (front ++ slash :: slash :: rest) = v.vfsGetNodeByPath path) ∧
      v.vfsGetNodeByPath (path ++ [slash]) = v.vfsGetNodeByPath path := by
  refine ⟨?_, ?_, ?_⟩
  · have hfits : ∀ k, ∀ name ∈ (components path)[k]?, tokenSize ≤ name.length →
        k ≠ 0 ∧ v.reachFrom v.fsRoot ((components path).take k) = none := by
      intro k name hname hlong
      have := hshort name (List.mem_of_getElem? hname)
      omega
    obtain ⟨node, hnode⟩ := (lookupWords_ok_iff v _).mpr hfits
    rw [lookup_eq v habsolute, hnode, lookupWords_ok v hnode]
  · rintro front rest rfl
    have hlonger : (front ++ slash :: slash :: rest).head? = some slash := by
      cases front with
      | nil => rfl
      | cons c front => exact habsolute
    rw [lookup_eq v hlonger, lookup_eq v habsolute, components_repeated]
  · rw [lookup_eq v (head_append habsolute [slash]), lookup_eq v habsolute, components_trailing]

def bin : CString := chars [0x62, 0x69, 0x6E]
def sh : CString := chars [0x73, 0x68]

-- A root directory with a mount point "bin". The root of what is mounted there has a file "sh".
def mountedTree : Vfs where
  fsRoot := 0x1000
  flags node :=
    if node = 0x2000 then FS_DIRECTORY ||| FS_MOUNTPOINT
    else if node = 0x4000 then FS_FILE
    else FS_DIRECTORY
  ptr node := if node = 0x2000 then 0x3000 else 0
  finddir node :=
    if node = 0x1000 then some fun name => if name = bin then 0x2000 else 0
    else if node = 0x3000 then some fun name => if name = sh then 0x4000 else 0
    else none

-- "/bin/sh", "/bin//sh" and "/bin/sh/"
theorem resolve_components_mounted :
    mountedTree.vfsGetNodeByPath (slash :: bin ++ slash :: sh) = .ok 0x4000 ∧
      mountedTree.vfsGetNodeByPath (slash :: bin ++ slash :: slash :: sh) = .ok 0x4000 ∧
      mountedTree.vfsGetNodeByPath ((slash :: bin ++ slash :: sh) ++ [slash]) = .ok 0x4000 := by
  obtain ⟨hnode, hrepeated, htrailing⟩ :=
    resolve_components mountedTree (slash :: bin ++ slash :: sh) rfl (by decide)
  have hsh : mountedTree.vfsGetNodeByPath (slash :: bin ++ slash :: sh) = .ok 0x4000 := hnode
  exact ⟨hsh, (hrepeated (slash :: bin) sh rfl).trans hsh, htrailing.trans hsh⟩

-- A root directory in which every name finds one file.
def oneFile : Vfs where
  fsRoot := 0x1000
  flags node := if node = 0x1000 then FS_DIRECTORY else FS_FILE
  ptr _ := 0
  finddir node := if node = 0x1000 then some fun _ => 0x2000 else none

-- The token fits exactly when no component of 128 characters is reached.
theorem token_fits_iff (path : CString) :
    (∃ node, v.vfsGetNodeByPath path = .ok node ∧
        ((∃ name ∈ components path, tokenSize ≤ name.length) → node = 0)) ↔
      (path.head? = some slash → ∀ k, ∀ name ∈ (components path)[k]?, tokenSize ≤ name.length →
        k ≠ 0 ∧ v.reachFrom v.fsRoot ((components path).take k) = none) := by
  by_cases habsolute : path.head? = some slash
  · rw [lookup_eq v habsolute, forall_prop_of_true habsolute, ← lookupWords_ok_iff]
    constructor
    · rintro ⟨node, hnode, -⟩
      exact ⟨node, hnode⟩
    · rintro ⟨node, hnode⟩
      refine ⟨node, hnode, ?_⟩
      rintro ⟨name, hname, hlong⟩
      obtain ⟨k, hk⟩ := List.mem_iff_getElem?.mp hname
      obtain ⟨-, hreach⟩ := (lookupWords_ok_iff v _).mp ⟨node, hnode⟩ k name hk hlong
      rw [lookupWords_ok v hnode, resolve, reachFrom_take v hreach]
      rfl
  · rw [vfsGetNodeByPath_relative v habsolute]
    exact ⟨fun _ h => absurd h habsolute, fun _ => ⟨0, rfl, fun _ => rfl⟩⟩

theorem token_overrun :
    oneFile.vfsGetNodeByPath (slash :: List.replicate 128 dot) = .error .overrun := by
  have hword : words slash (List.replicate 128 dot) = [List.replicate 128 dot] :=
    words_word (by simp) (by simp [dot, slash])
  have hlong : tokenSize ≤ (List.replicate 128 dot).length := by
    rw [List.length_replicate, tokenSize]
  rw [vfsGetNodeByPath_eq, hword, lookupWords, walkWords, if_pos hlong]
  rfl

end Vfs

end Miyabi.Fs
