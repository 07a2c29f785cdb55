import Miyabi.Fs.Vfs.Resolve

namespace Miyabi.Fs.Vfs

open Miyabi.Base

variable (v : Vfs)

-- A component looked up in the directory itself, behind the mount link.
def entry (dir : BitVec 64) (token : CString) : BitVec 64 :=
  if dir = 0 then 0
  else if ¬v.IsDirectory dir then 0
  else
    match v.finddir dir with
    | none => 0
    | some find => find token

-- What the components find in `dir`, which is itself where there are none.
def lookupInside (dir : BitVec 64) : List CString → Except Fault (BitVec 64)
  | [] => .ok dir
  | token :: rest =>
      if tokenSize ≤ token.length then .error .overrun
      else if v.entry dir token = 0 then .ok 0
      else (v.walkWords (v.entry dir token) rest).map v.finish

-- The nodes that the walk comes to.
def visits (current : BitVec 64) : List CString → List (BitVec 64)
  | [] => [current]
  | token :: rest =>
      if tokenSize ≤ token.length ∨ v.descend current token = 0 then [current]
      else current :: visits (v.descend current token) rest

-- The walk of the path comes to the node at its end, and not before.
def EndsAt (path : CString) (node : BitVec 64) : Prop :=
  ∃ front, v.visits v.fsRoot (components path) = front ++ [node] ∧ node ∉ front

-- What a mount of `target` on `node`, which the path has led to, should do.
structure Visible (path : CString) (node target : BitVec 64) : Prop where
  here : (v.vfsMount node target).vfsGetNodeByPath path = .ok target
  below : ∀ rest, (v.vfsMount node target).vfsGetNodeByPath (path ++ slash :: rest) =
    (v.vfsMount node target).lookupInside target (components rest)
  elsewhere : ∀ other, node ∉ v.visits v.fsRoot (components other) →
    (v.vfsMount node target).vfsGetNodeByPath other = v.vfsGetNodeByPath other

theorem descend_entry (current : BitVec 64) (token : CString) :
    v.descend current token = if current = 0 then 0 else v.entry (v.follow current) token := rfl

section Mount

variable {v} {node target : BitVec 64} (hne : node ≠ 0)

include hne

theorem mount_flags : (v.vfsMount node target).flags =
    Function.update v.flags node (v.flags node ||| FS_MOUNTPOINT) := by
  rw [vfsMount, if_neg hne]

theorem mount_ptr : (v.vfsMount node target).ptr = Function.update v.ptr node target := by
  rw [vfsMount, if_neg hne]

theorem mount_rest : (v.vfsMount node target).fsRoot = v.fsRoot ∧
    (v.vfsMount node target).finddir = v.finddir := by
  rw [vfsMount, if_neg hne]
  exact ⟨rfl, rfl⟩

theorem mount_follow_same : (v.vfsMount node target).follow node = target := by
  have hlink : (v.vfsMount node target).IsMountpoint node := by
    rw [IsMountpoint, mount_flags hne, Function.update_self]
    exact mountpoint_or _
  rw [follow, if_pos hlink, mount_ptr hne, Function.update_self]

theorem mount_follow_ne {n : BitVec 64} (hn : n ≠ node) :
    (v.vfsMount node target).follow n = v.follow n := by
  have hlink : (v.vfsMount node target).IsMountpoint n ↔ v.IsMountpoint n := by
    rw [IsMountpoint, IsMountpoint, mount_flags hne, Function.update_of_ne hn]
  by_cases h : v.IsMountpoint n
  · rw [follow, follow, if_pos h, if_pos (hlink.mpr h), mount_ptr hne, Function.update_of_ne hn]
  · rw [follow, follow, if_neg h, if_neg (mt hlink.mp h)]

-- A mount keeps what a directory is and what it finds.
theorem mount_isDirectory (dir : BitVec 64) :
    (v.vfsMount node target).IsDirectory dir ↔ v.IsDirectory dir := by
  have hbits : (v.flags node ||| FS_MOUNTPOINT) &&& FS_DIRECTORY = v.flags node &&& FS_DIRECTORY := by
    have hother : FS_DIRECTORY &&& FS_MOUNTPOINT = 0 := by decide
    rw [BitVec.and_comm, BitVec.and_or_distrib_left, hother, BitVec.and_comm]
    exact BitVec.or_zero
  rw [IsDirectory, IsDirectory, mount_flags hne]
  by_cases hdir : dir = node
  · rw [hdir, Function.update_self, hbits]
  · rw [Function.update_of_ne hdir]

theorem mount_entry (dir : BitVec 64) (token : CString) :
    (v.vfsMount node target).entry dir token = v.entry dir token := by
  have hdir : (v.vfsMount node target).IsDirectory dir ↔ v.IsDirectory dir := mount_isDirectory hne dir
  have hfind : (v.vfsMount node target).finddir = v.finddir := (mount_rest hne).2
  rw [entry, entry, hfind]
  by_cases hzero : dir = 0
  · rw [if_pos hzero, if_pos hzero]
  by_cases h : v.IsDirectory dir
  · rw [if_neg hzero, if_neg hzero, if_neg (not_not.mpr h), if_neg (not_not.mpr (hdir.mpr h))]
  · rw [if_neg hzero, if_neg hzero, if_pos h, if_pos (mt hdir.mp h)]

theorem mount_descend_same (token : CString) :
    (v.vfsMount node target).descend node token = v.entry target token := by
  rw [descend_entry, if_neg hne, mount_follow_same hne, mount_entry hne]

theorem mount_descend_ne {n : BitVec 64} (hn : n ≠ node) (token : CString) :
    (v.vfsMount node target).descend n token = v.descend n token := by
  rw [descend_entry, descend_entry, mount_follow_ne hne hn, mount_entry hne]

end Mount

section Walk

variable {v}

-- A walk that goes on from a node comes to it first.
theorem walk_cons {token : CString} {rest : List CString} {current n : BitVec 64}
    (h : v.walkWords current (token :: rest) = .ok n) (hn : n ≠ 0) :
    token.length < tokenSize ∧ v.descend current token ≠ 0 ∧
      v.walkWords (v.descend current token) rest = .ok n ∧
      v.visits current (token :: rest) = current :: v.visits (v.descend current token) rest := by
  rw [walkWords] at h
  by_cases hlong : tokenSize ≤ token.length
  · rw [if_pos hlong] at h
    cases h
  by_cases hzero : v.descend current token = 0
  · rw [if_neg hlong, if_pos hzero] at h
    cases h
    exact absurd rfl hn
  · rw [if_neg hlong, if_neg hzero] at h
    exact ⟨by omega, hzero, h, if_neg (not_or.mpr ⟨hlong, hzero⟩)⟩

theorem walkWords_append {front : List CString} : ∀ {current n : BitVec 64},
    v.walkWords current front = .ok n → n ≠ 0 → ∀ back,
      v.walkWords current (front ++ back) = v.walkWords n back := by
  induction front with
  | nil =>
    intro current n h _ back
    cases h
    rfl
  | cons token rest ih =>
    intro current n h hn back
    obtain ⟨hshort, hzero, hrest, -⟩ := walk_cons h hn
    rw [List.cons_append, walkWords_cons v hshort, if_neg hzero]
    exact ih hrest hn back

theorem visits_last {names : List CString} : ∀ {current n : BitVec 64},
    v.walkWords current names = .ok n → n ≠ 0 → ∃ front, v.visits current names = front ++ [n] := by
  induction names with
  | nil =>
    intro current n h _
    cases h
    exact ⟨[], rfl⟩
  | cons token rest ih =>
    intro current n h hn
    obtain ⟨-, -, hrest, hvisits⟩ := walk_cons h hn
    obtain ⟨front, hfront⟩ := ih hrest hn
    exact ⟨current :: front, by rw [hvisits, hfront, List.cons_append]⟩

variable {node target : BitVec 64} (hne : node ≠ 0)

include hne

-- Before the mounted node the walk is as before.
theorem walk_kept {names : List CString} : ∀ {current n : BitVec 64} {front : List (BitVec 64)},
    v.walkWords current names = .ok n → n ≠ 0 → v.visits current names = front ++ [n] →
      node ∉ front → (v.vfsMount node target).walkWords current names = .ok n := by
  induction names with
  | nil =>
    intro current n front h _ _ _
    exact h
  | cons token rest ih =>
    intro current n front h hn hvisits hfront
    obtain ⟨hshort, hzero, hrest, hcons⟩ := walk_cons h hn
    obtain ⟨front', hlast⟩ := visits_last hrest hn
    have hsplit : front = current :: front' := by
      rw [hcons, hlast, ← List.cons_append] at hvisits
      exact (List.append_inj_left' hvisits rfl).symm
    rw [hsplit, List.mem_cons, not_or] at hfront
    rw [walkWords_cons _ hshort, mount_descend_ne hne (Ne.symm hfront.1), if_neg hzero]
    exact ih hrest hn hlast hfront.2

-- A walk that comes to the node before its end stops below a target that is no directory.
theorem walk_stopped (hleaf : ¬v.IsDirectory target) {names : List CString} :
    ∀ {current n : BitVec 64} {front : List (BitVec 64)},
    v.walkWords current names = .ok n → n ≠ 0 → v.visits current names = front ++ [n] →
      node ∈ front → (v.vfsMount node target).walkWords current names = .ok 0 := by
  have hentry : ∀ token, v.entry target token = 0 := by
    intro token
    rw [entry, if_pos hleaf]
    exact ite_self 0
  induction names with
  | nil =>
    intro current n front h _ hvisits hfront
    have hnil : front = [] := by
      have hlength := congrArg List.length hvisits
      rw [visits, List.length_append, List.length_singleton, List.length_singleton] at hlength
      exact List.length_eq_zero_iff.mp (by omega)
    rw [hnil] at hfront
    cases hfront
  | cons token rest ih =>
    intro current n front h hn hvisits hfront
    obtain ⟨hshort, hzero, hrest, hcons⟩ := walk_cons h hn
    obtain ⟨front', hlast⟩ := visits_last hrest hn
    have hsplit : front = current :: front' := by
      rw [hcons, hlast, ← List.cons_append] at hvisits
      exact (List.append_inj_left' hvisits rfl).symm
    rw [hsplit, List.mem_cons] at hfront
    rw [walkWords_cons _ hshort]
    by_cases hsame : current = node
    · rw [hsame, mount_descend_same hne, hentry, if_pos rfl]
    · rw [mount_descend_ne hne hsame, if_neg hzero]
      exact ih hrest hn hlast (hfront.resolve_left (Ne.symm hsame))

-- A walk that does not come to the node is as before, and so is what it ends at.
theorem walk_elsewhere {names : List CString} : ∀ {current : BitVec 64},
    node ∉ v.visits current names →
      (v.vfsMount node target).walkWords current names = v.walkWords current names ∧
        ∀ n, v.walkWords current names = .ok n → n = 0 ∨ n ≠ node := by
  induction names with
  | nil =>
    intro current hvisits
    refine ⟨rfl, fun n h => ?_⟩
    cases h
    exact Or.inr fun h => hvisits (h ▸ List.mem_singleton_self _)
  | cons token rest ih =>
    intro current hvisits
    rw [visits] at hvisits
    rw [walkWords, walkWords]
    by_cases hlong : tokenSize ≤ token.length
    · rw [if_pos hlong, if_pos hlong]
      exact ⟨rfl, fun n h => by cases h⟩
    have hcurrent : current ≠ node := by
      rintro rfl
      split at hvisits
      · exact hvisits (List.mem_singleton_self _)
      · exact hvisits List.mem_cons_self
    rw [if_neg hlong, if_neg hlong, mount_descend_ne hne hcurrent]
    by_cases hzero : v.descend current token = 0
    · rw [if_pos hzero, if_pos hzero]
      refine ⟨rfl, fun n h => ?_⟩
      cases h
      exact Or.inl rfl
    · rw [if_neg (not_or.mpr ⟨hlong, hzero⟩)] at hvisits
      rw [if_neg hzero, if_neg hzero]
      exact ih (mt (List.mem_cons_of_mem current) hvisits)

end Walk

variable {v} {path : CString} {node : BitVec 64}

-- A path that leads to a node is walked to its end.
theorem lookup_walk (h : v.vfsGetNodeByPath path = .ok node) (hne : node ≠ 0) :
    path.head? = some slash ∧
      ∃ last, v.walkWords v.fsRoot (components path) = .ok last ∧ last ≠ 0 ∧ v.follow last = node := by
  have habsolute : path.head? = some slash := by
    by_contra hrelative
    rw [vfsGetNodeByPath_relative v hrelative] at h
    cases h
    exact hne rfl
  refine ⟨habsolute, ?_⟩
  rw [lookup_eq v habsolute, lookupWords] at h
  cases hwalk : v.walkWords v.fsRoot (components path) with
  | error fault =>
    rw [hwalk] at h
    cases h
  | ok last =>
    rw [hwalk] at h
    have hfinish : v.finish last = node := Except.ok.inj h
    rw [finish] at hfinish
    split at hfinish
    · exact absurd hfinish.symm hne
    · next hlast => exact ⟨last, rfl, hlast, hfinish⟩

theorem lookup_of_walk {v : Vfs} {last : BitVec 64} (habsolute : path.head? = some slash)
    (h : v.walkWords v.fsRoot (components path) = .ok last) :
    v.vfsGetNodeByPath path = .ok (v.finish last) := by
  rw [lookup_eq v habsolute, lookupWords, h]
  rfl

theorem visible_of_endsAt (h : v.vfsGetNodeByPath path = .ok node) (hne : node ≠ 0)
    (hends : v.EndsAt path node) (target : BitVec 64) : v.Visible path node target := by
  obtain ⟨habsolute, last, hwalk, hlast, -⟩ := lookup_walk h hne
  obtain ⟨front, hvisits, hfront⟩ := hends
  have hroot : (v.vfsMount node target).fsRoot = v.fsRoot := (mount_rest hne).1
  have hsame : last = node := by
    obtain ⟨front', hlast'⟩ := visits_last hwalk hlast
    rw [hvisits] at hlast'
    exact (List.singleton_inj.mp (List.append_inj_right' hlast' rfl)).symm
  subst hsame
  have hkept : (v.vfsMount last target).walkWords v.fsRoot (components path) = .ok last :=
    walk_kept hne hwalk hne hvisits hfront
  have hfinish : (v.vfsMount last target).finish last = target := by
    rw [finish, if_neg hne, mount_follow_same hne]
  refine ⟨?_, fun rest => ?_, fun other hother => ?_⟩
  · rw [lookup_of_walk habsolute (hroot.symm ▸ hkept), hfinish]
  · have hparts : components (path ++ slash :: rest) = components path ++ components rest := by
      simp only [components_eq]
      exact words_append_sep path rest
    rw [lookup_eq _ (head_append habsolute _), hparts, lookupWords, hroot, walkWords_append hkept hne]
    cases components rest with
    | nil =>
      rw [walkWords, lookupInside, Except.map, hfinish]
    | cons token rest =>
      rw [walkWords, lookupInside, mount_descend_same hne, mount_entry hne]
      split
      · rfl
      · split
        · exact congrArg Except.ok (if_pos rfl)
        · rfl
  · by_cases hslash : other.head? = some slash
    · obtain ⟨hwalk', hend⟩ : (v.vfsMount last target).walkWords v.fsRoot (components other) =
          v.walkWords v.fsRoot (components other) ∧
            ∀ n, v.walkWords v.fsRoot (components other) = .ok n → n = 0 ∨ n ≠ last :=
        walk_elsewhere hne hother
      rw [lookup_eq _ hslash, lookup_eq _ hslash, lookupWords, lookupWords, hroot, hwalk']
      cases hn : v.walkWords v.fsRoot (components other) with
      | error fault => rfl
      | ok n =>
        refine congrArg Except.ok ?_
        rw [finish, finish]
        rcases hend n hn with hzero | hother'
        · rw [if_pos hzero, if_pos hzero]
        · rw [mount_follow_ne hne hother']
    · rw [vfsGetNodeByPath_relative _ hslash, vfsGetNodeByPath_relative _ hslash]

theorem endsAt_of_visible (h : v.vfsGetNodeByPath path = .ok node) (hne : node ≠ 0)
    (hleaf : ∃ leaf, leaf ≠ 0 ∧ ¬v.IsDirectory leaf)
    (hvisible : ∀ target, target ≠ 0 → v.Visible path node target) : v.EndsAt path node := by
  obtain ⟨habsolute, last, hwalk, hlast, hfollow⟩ := lookup_walk h hne
  obtain ⟨front, hvisits⟩ := visits_last hwalk hlast
  have hroot : ∀ target, (v.vfsMount node target).fsRoot = v.fsRoot := fun _ => (mount_rest hne).1
  have hfront : node ∉ front := by
    intro hmem
    obtain ⟨leaf, hleaf, hfile⟩ := hleaf
    have hstopped : (v.vfsMount node leaf).walkWords v.fsRoot (components path) = .ok 0 :=
      walk_stopped hne hfile hwalk hlast hvisits hmem
    have hhere := (hvisible leaf hleaf).here
    rw [lookup_of_walk habsolute ((hroot leaf).symm ▸ hstopped)] at hhere
    exact hleaf ((Except.ok.inj hhere).symm.trans (if_pos rfl))
  have hsame : last = node := by
    by_contra hother
    have hevery : ∀ target, target ≠ 0 → node = target := by
      intro target htarget
      have hkept : (v.vfsMount node target).walkWords v.fsRoot (components path) = .ok last :=
        walk_kept hne hwalk hlast hvisits hfront
      have hhere := (hvisible target htarget).here
      rw [lookup_of_walk habsolute ((hroot target).symm ▸ hkept), finish, if_neg hlast,
        mount_follow_ne hne hother, hfollow] at hhere
      exact Except.ok.inj hhere
    have hone := hevery 1 (by decide)
    have htwo := hevery 2 (by decide)
    rw [hone] at htwo
    exact absurd htwo (by decide)
  exact ⟨front, hsame ▸ hvisits, hfront⟩

-- A mount is visible where the walk of the path ends at the node itself: not behind a mount link of
-- the node that it ends at, and not at a node that it has come to before. In a graph with a node that
-- is no directory, nowhere else is every mount visible.
theorem mount_visible_iff (h : v.vfsGetNodeByPath path = .ok node) (hne : node ≠ 0) :
    (v.EndsAt path node → ∀ target, v.Visible path node target) ∧
      ((∃ leaf, leaf ≠ 0 ∧ ¬v.IsDirectory leaf) → (∀ target, target ≠ 0 → v.Visible path node target) →
        v.EndsAt path node) :=
  ⟨visible_of_endsAt h hne, endsAt_of_visible h hne⟩

theorem mount_visible_file : oneFile.Visible (chars [0x2F, 0x61]) 0x2000 0x3000 := by
  have hlookup : oneFile.vfsGetNodeByPath (chars [0x2F, 0x61]) = .ok 0x2000 := by
    rw [lookup_eq _ rfl]
    decide
  refine (mount_visible_iff hlookup (by decide)).1 ⟨[0x1000], ?_, ?_⟩ 0x3000
  · decide
  · decide

-- The second of two mounts on one path.
theorem stacked_mount_hidden :
    (oneFile.vfsMount 0x2000 0x3000).vfsGetNodeByPath (chars [0x2F, 0x61]) = .ok 0x3000 ∧
    ((oneFile.vfsMount 0x2000 0x3000).vfsMount 0x3000 0x4000).vfsGetNodeByPath (chars [0x2F, 0x61]) =
      .ok 0x3000 := by
  rw [lookup_eq _ rfl, lookup_eq _ rfl]
  decide

end Miyabi.Fs.Vfs
