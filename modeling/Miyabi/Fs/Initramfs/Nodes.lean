import Miyabi.Fs.Devfs

namespace Miyabi.Fs

open Miyabi.Base

-- No leading character that sanitize_path drops.
def Clean (path : CString) : Prop := ∀ c ∈ path.head?, c ≠ dot ∧ c ≠ slash

def firstComponent (path : CString) : CString := path.takeWhile (· ≠ slash)

theorem sanitizePath_clean (path : CString) : Clean (sanitizePath path) := by
  intro c hc
  have h := List.head?_dropWhile_not (fun c => decide (c = dot ∨ c = slash)) path
  rw [sanitizePath, Option.mem_def] at hc
  rw [hc] at h
  simpa using h

theorem sanitizePath_of_clean {path : CString} (h : Clean path) : sanitizePath path = path := by
  cases path with
  | nil => rfl
  | cons c rest =>
    obtain ⟨hdot, hslash⟩ := h c rfl
    exact List.dropWhile_cons_of_neg (by simp [hdot, hslash])

theorem Clean.append {path : CString} (h : Clean path) (hne : path ≠ []) (rest : CString) :
    Clean (path ++ rest) := by
  intro c hc
  rw [List.head?_append_of_ne_nil _ hne] at hc
  exact h c hc

theorem Clean.of_append {path rest : CString} (h : Clean (path ++ rest)) : Clean path := by
  intro c hc
  have hne : path ≠ [] := by
    rintro rfl
    cases hc
  exact h c (by rwa [List.head?_append_of_ne_nil _ hne])

theorem Clean.take {path : CString} (h : Clean path) (n : Nat) : Clean (path.take n) := by
  rw [← List.take_append_drop n path] at h
  exact h.of_append

theorem firstComponent_append_slash (path rest : CString) :
    firstComponent (path ++ slash :: rest) = firstComponent path := by
  induction path with
  | nil => simp [firstComponent]
  | cons c path ih =>
    rw [firstComponent, firstComponent] at ih ⊢
    rw [List.cons_append, List.takeWhile_cons, List.takeWhile_cons, ih]

theorem firstComponent_of_not_mem {path : CString} (h : slash ∉ path) :
    firstComponent path = path := by
  rw [firstComponent, List.takeWhile_eq_self_iff]
  intro c hc
  exact decide_eq_true fun hslash => h (hslash ▸ hc)

-- Two names match if they are equal up to one slash at the end.
theorem matchClean_iff (a b : CString) :
    matchClean a b = true ↔ a = b ∨ a = b ++ [slash] ∨ b = a ++ [slash] := by
  induction a generalizing b with
  | nil =>
    cases b with
    | nil => simp [matchClean]
    | cons c b =>
      cases b with
      | nil => simp [matchClean]
      | cons d b => simp [matchClean]
  | cons c a ih =>
    cases b with
    | nil =>
      cases a with
      | nil => simp [matchClean]
      | cons d a => simp [matchClean]
    | cons d b =>
      simp only [matchClean, Bool.and_eq_true, decide_eq_true_eq, ih, List.cons_append,
        List.cons.injEq]
      constructor
      · rintro ⟨rfl, h⟩
        simpa using h
      · rintro (⟨rfl, h⟩ | ⟨rfl, h⟩ | ⟨rfl, h⟩)
        · exact ⟨rfl, Or.inl h⟩
        · exact ⟨rfl, Or.inr (Or.inl h)⟩
        · exact ⟨rfl, Or.inr (Or.inr h)⟩

theorem tarMatchName_clean {a b : CString} (ha : Clean a) (hb : Clean b) :
    tarMatchName a b = matchClean a b := by
  rw [tarMatchName, sanitizePath_of_clean ha, sanitizePath_of_clean hb]

theorem matchClean_firstComponent {a b : CString} (h : matchClean a b = true) :
    firstComponent a = firstComponent b := by
  rcases (matchClean_iff a b).mp h with rfl | rfl | rfl
  · rfl
  · exact firstComponent_append_slash b []
  · exact (firstComponent_append_slash a []).symm

-- What the initramfs makes of a node, as long as it is not mounted on.
structure IsRamfs (node : VfsNode) : Prop where
  clean : Clean node.name
  short : node.name.length < VfsNode.nameSize
  finddir : node.finddir = none ∨ node.finddir = some .ramfs
  unmounted : node.flags &&& FS_MOUNTPOINT = 0

theorem directory_not_mountpoint : FS_DIRECTORY &&& FS_MOUNTPOINT = 0 := by decide

theorem file_not_mountpoint : FS_FILE &&& FS_MOUNTPOINT = 0 := by decide

theorem dirNode_isRamfs {name : CString} (hclean : Clean name)
    (hshort : name.length < VfsNode.nameSize) : IsRamfs (State.dirNode name) where
  clean := hclean
  short := hshort
  finddir := Or.inr rfl
  unmounted := directory_not_mountpoint

theorem entryNode_isRamfs (m : Memory 64) (header : BitVec 64) {name : CString}
    (hclean : Clean name) : IsRamfs (entryNode m header name) := by
  have hshort : (name.take 99).length < VfsNode.nameSize := by
    rw [List.length_take, VfsNode.nameSize]
    omega
  rw [entryNode]
  split
  · exact dirNode_isRamfs (hclean.take 99) hshort
  · exact ⟨hclean.take 99, hshort, Or.inl rfl, file_not_mountpoint⟩

namespace State

variable {blocks : Nat → BitVec 64} {s s' : State}

-- The state in which the next block holds `node` and ramfs_nodes ends with it.
def plant (blocks : Nat → BitVec 64) (node : VfsNode) (s : State) : State :=
  { s with
    nodes := Function.update s.nodes (blocks s.kmallocs) node
    kmallocs := s.kmallocs + 1
    ramfsNodes := s.ramfsNodes ++ [blocks s.kmallocs] }

theorem plant_nodes_of_ne {node : VfsNode} {p : BitVec 64} (hp : p ≠ blocks s.kmallocs) :
    (s.plant blocks node).nodes p = s.nodes p := Function.update_of_ne hp _ _

theorem plant_nodes_self (node : VfsNode) :
    (s.plant blocks node).nodes (blocks s.kmallocs) = node := Function.update_self _ _ _

theorem kmalloc_eq (s : State) :
    s.kmalloc blocks = (blocks s.kmallocs, { s with kmallocs := s.kmallocs + 1 }) := rfl

theorem addNode_cases {node : VfsNode} {made : Bool} (h : s.addNode blocks node = (made, s')) :
    (made = false ∧ (s' = s ∨ s' = { s with kmallocs := s.kmallocs + 1 })) ∨
    (made = true ∧ s.ramfsNodes.length < MAX_RAMFS_NODES ∧ blocks s.kmallocs ≠ 0 ∧
      s' = s.plant blocks node) := by
  by_cases hroom : MAX_RAMFS_NODES ≤ s.ramfsNodes.length
  · rw [addNode, if_pos hroom] at h
    cases h
    exact Or.inl ⟨rfl, Or.inl rfl⟩
  rw [addNode, if_neg hroom, kmalloc_eq] at h
  by_cases hblock : blocks s.kmallocs = 0
  · simp only [if_pos hblock] at h
    cases h
    exact Or.inl ⟨rfl, Or.inr rfl⟩
  · simp only [if_neg hblock] at h
    cases h
    exact Or.inr ⟨rfl, by omega, hblock, rfl⟩

-- A property that no kmalloc and no new node breaks.
structure Kept (blocks : Nat → BitVec 64) (P : State → Prop) : Prop where
  kmalloc : ∀ s, P s → P { s with kmallocs := s.kmallocs + 1 }
  plant : ∀ s node, P s → IsRamfs node → blocks s.kmallocs ≠ 0 → P (s.plant blocks node)

namespace Kept

variable {P : State → Prop} (hP : Kept blocks P)

include hP

theorem addNode {node : VfsNode} {made : Bool} (h : P s) (hnode : made = true → IsRamfs node)
    (hadd : s.addNode blocks node = (made, s')) : P s' := by
  rcases addNode_cases hadd with ⟨-, rfl | rfl⟩ | ⟨hmade, -, hblock, rfl⟩
  · exact h
  · exact hP.kmalloc s h
  · exact hP.plant s node h (hnode hmade) hblock

theorem ensureDirs {rest : CString} : ∀ {s : State} {dirPath : CString}, P s →
    Clean (dirPath ++ rest) → s.ensureDirs blocks dirPath rest = .ok s' → P s' := by
  induction rest with
  | nil =>
    intro s dirPath h _ hrun
    cases hrun
    exact h
  | cons c rest ih =>
    intro s dirPath h hclean hrun
    have hnext : Clean (dirPath ++ [c] ++ rest) := by simpa using hclean
    rw [State.ensureDirs] at hrun
    split at hrun
    · cases hrun
    split at hrun
    · -- a directory that has no node yet
      split at hrun
      · next s₁ hfull =>
        cases hrun
        have hfalse : false = true → IsRamfs (dirNode dirPath) := Bool.noConfusion
        exact hP.addNode h hfalse hfull
      · next s₁ hmade =>
        split at hrun
        · cases hrun
        · next hshort =>
          have hdir : IsRamfs (dirNode dirPath) :=
            dirNode_isRamfs hclean.of_append (by omega)
          exact ih (hP.addNode h (fun _ => hdir) hmade) hnext hrun
    · exact ih h hnext hrun

theorem ensureParentDirsExist (h : P s) {path : CString}
    (hrun : s.ensureParentDirsExist blocks path = .ok s') : P s' :=
  hP.ensureDirs h (sanitizePath_clean path) hrun

theorem entriesFrom {m : Memory 64} {fuel turns : Nat} : ∀ {header : BitVec 64} {s : State},
    P s → s.entriesFrom blocks m fuel turns header = .ok s' → P s' := by
  induction turns with
  | zero =>
    intro header s _ hrun
    cases hrun
  | succ turns ih =>
    intro header s h hrun
    rw [State.entriesFrom] at hrun
    split at hrun
    · cases hrun
      exact h
    split at hrun
    · exact ih h hrun
    split at hrun
    · cases hrun
    · next filename _ =>
      split at hrun
      · cases hrun
      · next s₁ hensure =>
        have h₁ := hP.ensureParentDirsExist h hensure
        have hnode := entryNode_isRamfs m header (sanitizePath_clean filename)
        split at hrun
        · next s₂ hadd =>
          cases hrun
          exact hP.addNode h₁ (fun _ => hnode) hadd
        · next s₂ hadd => exact ih (hP.addNode h₁ (fun _ => hnode) hadd) hrun

end Kept

-- The root of devfs lies in a block of its own.
structure DevfsReady (blocks : Nat → BitVec 64) (s : State) : Prop where
  ne_zero : s.devfsRoot ≠ 0
  node : s.nodes s.devfsRoot = devfsNode
  given : ∃ i < s.kmallocs, blocks i = s.devfsRoot

-- The two roots and the nodes of the initramfs lie in blocks of their own.
structure Planted (blocks : Nat → BitVec 64) (s : State) : Prop where
  devfs : DevfsReady blocks s
  root : s.nodes s.ramfsRoot = dirNode [slash]
  root_ne_zero : s.ramfsRoot ≠ 0
  root_given : ∃ i < s.kmallocs, blocks i = s.ramfsRoot
  apart : s.ramfsRoot ≠ s.devfsRoot
  node : ∀ p ∈ s.ramfsNodes, p ≠ 0 ∧ p ≠ s.ramfsRoot ∧ p ≠ s.devfsRoot ∧ IsRamfs (s.nodes p) ∧
    ∃ i < s.kmallocs, blocks i = p

theorem Planted.statics (h : Planted blocks s) (fsRoot : BitVec 64) (devices : List (BitVec 64)) :
    Planted blocks { s with fsRoot := fsRoot, devices := devices } :=
  ⟨⟨h.devfs.ne_zero, h.devfs.node, h.devfs.given⟩, h.root, h.root_ne_zero, h.root_given, h.apart,
    h.node⟩

-- The next block is none that was given out before.
theorem given_ne_next (hfresh : Fresh blocks) {p : BitVec 64}
    (hgiven : ∃ i < s.kmallocs, blocks i = p) (hne : p ≠ 0) : p ≠ blocks s.kmallocs := by
  obtain ⟨i, hi, rfl⟩ := hgiven
  intro heq
  have := hfresh i s.kmallocs hne heq
  omega

theorem given_succ {p : BitVec 64} (hgiven : ∃ i < s.kmallocs, blocks i = p) :
    ∃ i < s.kmallocs + 1, blocks i = p := by
  obtain ⟨i, hi, hblock⟩ := hgiven
  exact ⟨i, Nat.lt_succ_of_lt hi, hblock⟩

theorem DevfsReady.plant (h : DevfsReady blocks s) (hfresh : Fresh blocks) (node : VfsNode) :
    DevfsReady blocks (s.plant blocks node) where
  ne_zero := h.ne_zero
  node := (plant_nodes_of_ne (given_ne_next hfresh h.given h.ne_zero)).trans h.node
  given := given_succ h.given

theorem planted_kept (hfresh : Fresh blocks) : Kept blocks (Planted blocks) where
  kmalloc s h := by
    constructor
    case devfs => exact ⟨h.devfs.ne_zero, h.devfs.node, given_succ h.devfs.given⟩
    case root => exact h.root
    case root_ne_zero => exact h.root_ne_zero
    case root_given => exact given_succ h.root_given
    case apart => exact h.apart
    case node =>
      intro p hp
      obtain ⟨hne, hroot, hdevfs, hnode, hgiven⟩ := h.node p hp
      exact ⟨hne, hroot, hdevfs, hnode, given_succ hgiven⟩
  plant s node h hnode hblock := by
    have hroot := given_ne_next hfresh h.root_given h.root_ne_zero
    have hdevfs := given_ne_next hfresh h.devfs.given h.devfs.ne_zero
    constructor
    case devfs => exact h.devfs.plant hfresh node
    case root => exact (plant_nodes_of_ne hroot).trans h.root
    case root_ne_zero => exact h.root_ne_zero
    case root_given => exact given_succ h.root_given
    case apart => exact h.apart
    case node =>
      intro p hp
      rcases List.mem_append.mp hp with hp | hp
      · obtain ⟨hne, hr, hd, hold, hgiven⟩ := h.node p hp
        have hkeep := given_ne_next hfresh hgiven hne
        refine ⟨hne, hr, hd, ?_, given_succ hgiven⟩
        rw [plant_nodes_of_ne hkeep]
        exact hold
      · obtain rfl := List.mem_singleton.mp hp
        refine ⟨hblock, hroot.symm, hdevfs.symm, ?_, s.kmallocs, Nat.lt_succ_self _, rfl⟩
        rw [plant_nodes_self]
        exact hnode

-- init_initramfs leaves the device table and the root of devfs alone.
theorem frame_kept (t : State) : Kept blocks fun s =>
    s.ramfsRoot = t.ramfsRoot ∧ s.devfsRoot = t.devfsRoot ∧ s.devices = t.devices where
  kmalloc _ h := h
  plant _ _ h _ _ := h

-- After init_initramfs with a root.
theorem initInitramfs_planted (hfresh : Fresh blocks) (hnone : s.ramfsNodes = [])
    (hdevfs : DevfsReady blocks s) {m : Memory 64} {fuel : Nat} {ramfsAddr : BitVec 64}
    (hrun : s.initInitramfs blocks m fuel ramfsAddr = .ok s') :
    s'.devices = s.devices ∧
      (s'.fsRoot ≠ 0 → Planted blocks s' ∧ s'.fsRoot = s'.ramfsRoot) := by
  rw [initInitramfs, kmalloc_eq] at hrun
  by_cases hroot : blocks s.kmallocs = 0
  · simp only [if_pos hroot] at hrun
    cases hrun
    exact ⟨rfl, fun hne => absurd rfl hne⟩
  simp only [if_neg hroot] at hrun
  have hready := hdevfs.plant hfresh (dirNode [slash])
  have hstart : Planted blocks
      (plantRoot (blocks s.kmallocs) { s with kmallocs := s.kmallocs + 1 }) :=
    { devfs := ⟨hready.ne_zero, hready.node, hready.given⟩
      root := Function.update_self _ _ _
      root_ne_zero := hroot
      root_given := ⟨s.kmallocs, Nat.lt_succ_self _, rfl⟩
      apart := (given_ne_next hfresh hdevfs.given hdevfs.ne_zero).symm
      node := by
        intro p hp
        simp only [plantRoot, setNode, hnone] at hp
        cases hp }
  split at hrun
  · cases hrun
  · next s₁ hentries =>
    cases hrun
    have hplanted := (planted_kept hfresh).entriesFrom hstart hentries
    have hframe := (frame_kept _).entriesFrom ⟨rfl, rfl, rfl⟩ hentries
    obtain ⟨hsame, -, hdevices⟩ := hframe
    exact ⟨hdevices, fun _ => ⟨hplanted.statics _ s₁.devices, hsame.symm⟩⟩

end State

end Miyabi.Fs
