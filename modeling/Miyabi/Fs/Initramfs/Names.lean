import Miyabi.Fs.Initramfs.Turns

namespace Miyabi.Fs

open Miyabi.Base

-- The directories that a path goes through, each as the path up to a slash.
def parentsFrom (dirPath : CString) : CString → List CString
  | [] => []
  | c :: rest =>
      if c = slash ∧ dirPath ≠ [] then dirPath :: parentsFrom (dirPath ++ [c]) rest
      else parentsFrom (dirPath ++ [c]) rest

def parents (path : CString) : List CString := parentsFrom [] path

-- No name matches the path.
def Missing (names : List CString) (path : CString) : Prop :=
  ∀ name ∈ names, tarMatchName name path = false

instance (names : List CString) (path : CString) : Decidable (Missing names path) :=
  inferInstanceAs (Decidable (∀ name ∈ names, _))

-- The names once a directory that has none is given one.
def imply (names : List CString) (dir : CString) : List CString :=
  if Missing names dir then names ++ [dir] else names

-- A directory of a path that is too long for a name has a node already.
def FitDirs (names : List CString) : List CString → Prop
  | [] => True
  | dir :: dirs =>
      (VfsNode.nameSize ≤ dir.length → ¬Missing names dir) ∧ FitDirs (imply names dir) dirs

-- Its directories get a name that fits, and so does the path in dir_path.
def Fits (names : List CString) (path : CString) : Prop :=
  path.length ≤ pathSize ∧ FitDirs names (parents path)

theorem mem_parentsFrom {rest : CString} : ∀ {dirPath dir : CString},
    dir ∈ parentsFrom dirPath rest ↔
      dir ≠ [] ∧ ∃ front back, rest = front ++ slash :: back ∧ dir = dirPath ++ front := by
  induction rest with
  | nil =>
    intro dirPath dir
    simp [parentsFrom]
  | cons c rest ih =>
    intro dirPath dir
    have hlater : dir ∈ parentsFrom (dirPath ++ [c]) rest ↔
        dir ≠ [] ∧ ∃ front back, rest = front ++ slash :: back ∧ dir = dirPath ++ c :: front := by
      rw [ih]
      simp only [List.append_assoc, List.singleton_append]
    have hnow : (∃ front back, c :: rest = front ++ slash :: back ∧ dir = dirPath ++ front) ↔
        c = slash ∧ dir = dirPath ∨
          ∃ front back, rest = front ++ slash :: back ∧ dir = dirPath ++ c :: front := by
      constructor
      · rintro ⟨front, back, hsplit, hdir⟩
        cases front with
        | nil =>
          obtain ⟨hc, -⟩ := List.cons.inj hsplit
          exact Or.inl ⟨hc, by simpa using hdir⟩
        | cons d front =>
          obtain ⟨rfl, hrest⟩ := List.cons.inj hsplit
          exact Or.inr ⟨front, back, hrest, hdir⟩
      · rintro (⟨rfl, rfl⟩ | ⟨front, back, rfl, hdir⟩)
        · exact ⟨[], rest, rfl, (List.append_nil _).symm⟩
        · exact ⟨c :: front, back, rfl, hdir⟩
    rw [hnow, parentsFrom]
    split
    · next hc =>
      rw [List.mem_cons, hlater]
      constructor
      · rintro (rfl | ⟨hne, hrest⟩)
        · exact ⟨hc.2, Or.inl ⟨hc.1, rfl⟩⟩
        · exact ⟨hne, Or.inr hrest⟩
      · rintro ⟨hne, ⟨-, hdir⟩ | hrest⟩
        · exact Or.inl hdir
        · exact Or.inr ⟨hne, hrest⟩
    · next hc =>
      rw [hlater]
      constructor
      · rintro ⟨hne, hrest⟩
        exact ⟨hne, Or.inr hrest⟩
      · rintro ⟨hne, ⟨hslash, rfl⟩ | hrest⟩
        · exact absurd ⟨hslash, hne⟩ hc
        · exact ⟨hne, hrest⟩

-- A directory of a path is what stands before one of its slashes.
theorem mem_parents {path dir : CString} :
    dir ∈ parents path ↔ dir ≠ [] ∧ ∃ back, path = dir ++ slash :: back := by
  rw [parents, mem_parentsFrom]
  constructor
  · rintro ⟨hne, front, back, hpath, rfl⟩
    exact ⟨hne, back, hpath⟩
  · rintro ⟨hne, back, hpath⟩
    exact ⟨hne, dir, back, hpath, rfl⟩

theorem imply_missing {names : List CString} {dir : CString} (h : Missing names dir) :
    imply names dir = names ++ [dir] := if_pos h

theorem imply_found {names : List CString} {dir : CString} (h : ¬Missing names dir) :
    imply names dir = names := if_neg h

theorem not_missing {names : List CString} {path : CString} :
    ¬Missing names path ↔ ∃ name ∈ names, tarMatchName name path = true := by
  simp [Missing]

-- The name that an entry is stored under.
def stored (path : CString) : CString := path.take 99

theorem entryNode_name (m : Memory 64) (header : BitVec 64) (path : CString) :
    (entryNode m header path).name = stored path := by
  rw [entryNode]
  split
  · rfl
  · rfl

namespace State

variable {blocks : Nat → BitVec 64} {s s' : State}

def names (s : State) : List CString := s.ramfsNodes.map fun p => (s.nodes p).name

theorem names_length (s : State) : s.names.length = s.ramfsNodes.length := List.length_map _

-- The nodes in ramfs_nodes lie in blocks of their own.
def Tabled (blocks : Nat → BitVec 64) (s : State) : Prop :=
  ∀ p ∈ s.ramfsNodes, p ≠ 0 ∧ IsRamfs (s.nodes p) ∧ ∃ i < s.kmallocs, blocks i = p

theorem Tabled.clean (h : Tabled blocks s) {name : CString} (hname : name ∈ s.names) :
    Clean name := by
  obtain ⟨p, hp, rfl⟩ := List.mem_map.mp hname
  exact (h p hp).2.1.clean

theorem Tabled.kmalloc (h : Tabled blocks s) :
    Tabled blocks { s with kmallocs := s.kmallocs + 1 } := by
  intro p hp
  obtain ⟨hne, hnode, hgiven⟩ := h p hp
  exact ⟨hne, hnode, given_succ hgiven⟩

section Plant

variable (hfresh : Fresh blocks) (h : Tabled blocks s)

include hfresh h

theorem Tabled.plant {node : VfsNode} (hnode : IsRamfs node) (hblock : blocks s.kmallocs ≠ 0) :
    Tabled blocks (s.plant blocks node) := by
  intro p hp
  rcases List.mem_append.mp hp with hp | hp
  · obtain ⟨hne, hold, hgiven⟩ := h p hp
    refine ⟨hne, ?_, given_succ hgiven⟩
    rw [plant_nodes_of_ne (given_ne_next hfresh hgiven hne)]
    exact hold
  · obtain rfl := List.mem_singleton.mp hp
    refine ⟨hblock, ?_, s.kmallocs, Nat.lt_succ_self _, rfl⟩
    rw [plant_nodes_self]
    exact hnode

-- A new node has its name at the end.
theorem Tabled.names_plant (node : VfsNode) :
    (s.plant blocks node).names = s.names ++ [node.name] := by
  have hold : s.ramfsNodes.map (fun p => ((s.plant blocks node).nodes p).name) = s.names := by
    apply List.map_congr_left
    intro p hp
    obtain ⟨hne, -, hgiven⟩ := h p hp
    rw [plant_nodes_of_ne (given_ne_next hfresh hgiven hne)]
  have hnodes : (s.plant blocks node).ramfsNodes = s.ramfsNodes ++ [blocks s.kmallocs] := rfl
  rw [names, hnodes, List.map_append, hold, List.map_singleton, plant_nodes_self]

end Plant

theorem tabled_kept (hfresh : Fresh blocks) : Kept blocks (Tabled blocks) where
  kmalloc _ h := h.kmalloc
  plant _ _ h hnode hblock := h.plant hfresh hnode hblock

theorem ramfsFind_eq_none (h : Tabled blocks s) (path : CString) :
    s.ramfsFind path = none ↔ Missing s.names path := by
  rw [ramfsFind, List.find?_eq_none, Missing, names, List.forall_mem_map]
  constructor
  · intro hnone p hp
    have hnot := hnone p hp
    rw [Bool.and_eq_true, not_and, decide_eq_true_eq, Bool.not_eq_true] at hnot
    exact hnot (h p hp).1
  · intro hmissing p hp
    simp [hmissing p hp]

-- No node can be made any more, or one could not be made before.
def Stopped (blocks : Nat → BitVec 64) (s : State) : Prop :=
  MAX_RAMFS_NODES ≤ s.ramfsNodes.length ∨ ∃ i < s.kmallocs, blocks i = 0

theorem addNode_full {node : VfsNode} (h : s.addNode blocks node = (false, s')) :
    Stopped blocks s' ∧ s'.nodes = s.nodes ∧ s'.ramfsNodes = s.ramfsNodes ∧
      s.kmallocs ≤ s'.kmallocs := by
  by_cases hroom : MAX_RAMFS_NODES ≤ s.ramfsNodes.length
  · rw [addNode, if_pos hroom] at h
    cases h
    exact ⟨Or.inl hroom, rfl, rfl, le_refl _⟩
  rw [addNode, if_neg hroom, kmalloc_eq] at h
  by_cases hblock : blocks s.kmallocs = 0
  · simp only [if_pos hblock] at h
    cases h
    exact ⟨Or.inr ⟨s.kmallocs, Nat.lt_succ_self _, hblock⟩, rfl, rfl, Nat.le_succ _⟩
  · simp only [if_neg hblock] at h
    cases h

theorem Tabled.full (h : Tabled blocks s) {node : VfsNode}
    (hadd : s.addNode blocks node = (false, s')) :
    Tabled blocks s' ∧ s'.names = s.names ∧ Stopped blocks s' := by
  obtain ⟨hfull, hnodes, hramfs, hkmallocs⟩ := addNode_full hadd
  refine ⟨?_, ?_, hfull⟩
  · intro p hp
    obtain ⟨hne, hnode, i, hi, hblock⟩ := h p (hramfs ▸ hp)
    exact ⟨hne, hnodes ▸ hnode, i, by omega, hblock⟩
  · rw [names, names, hnodes, hramfs]

theorem addNode_made {node : VfsNode} (h : s.addNode blocks node = (true, s')) :
    s.ramfsNodes.length < MAX_RAMFS_NODES ∧ blocks s.kmallocs ≠ 0 ∧
      s' = s.plant blocks node := by
  rcases addNode_cases h with ⟨hfalse, -⟩ | ⟨-, hmade⟩
  · cases hfalse
  · exact hmade

theorem addNode_room {node : VfsNode} (hroom : s.ramfsNodes.length < MAX_RAMFS_NODES)
    (hblock : blocks s.kmallocs ≠ 0) :
    s.addNode blocks node = (true, s.plant blocks node) := by
  rw [addNode, if_neg (by omega), kmalloc_eq]
  simp only [if_neg hblock]
  rfl

-- A turn of ensure_parent_dirs_exist by what stands before the character.
inductive EnsureTurn (blocks : Nat → BitVec 64) (s : State) (dirPath : CString) (c : Char8)
    (rest : CString) : Prop
  | letter
      (parents : parentsFrom dirPath (c :: rest) = parentsFrom (dirPath ++ [c]) rest)
      (run : s.ensureDirs blocks dirPath (c :: rest) = s.ensureDirs blocks (dirPath ++ [c]) rest)
  | found
      (parents : parentsFrom dirPath (c :: rest) = dirPath :: parentsFrom (dirPath ++ [c]) rest)
      (found : ¬Missing s.names dirPath)
      (run : s.ensureDirs blocks dirPath (c :: rest) = s.ensureDirs blocks (dirPath ++ [c]) rest)
  | full (s₁ : State)
      (parents : parentsFrom dirPath (c :: rest) = dirPath :: parentsFrom (dirPath ++ [c]) rest)
      (add : s.addNode blocks (dirNode dirPath) = (false, s₁))
      (run : s.ensureDirs blocks dirPath (c :: rest) = .ok s₁)
  | long
      (parents : parentsFrom dirPath (c :: rest) = dirPath :: parentsFrom (dirPath ++ [c]) rest)
      (missing : Missing s.names dirPath)
      (long : VfsNode.nameSize ≤ dirPath.length)
      (run : s.ensureDirs blocks dirPath (c :: rest) = .error .overrun)
  | made
      (parents : parentsFrom dirPath (c :: rest) = dirPath :: parentsFrom (dirPath ++ [c]) rest)
      (missing : Missing s.names dirPath)
      (short : dirPath.length < VfsNode.nameSize)
      (block : blocks s.kmallocs ≠ 0)
      (run : s.ensureDirs blocks dirPath (c :: rest) =
        (s.plant blocks (dirNode dirPath)).ensureDirs blocks (dirPath ++ [c]) rest)

theorem ensureDirs_turn (blocks : Nat → BitVec 64) (h : Tabled blocks s) {dirPath : CString} (c : Char8) (rest : CString)
    (hlen : dirPath.length < pathSize) : EnsureTurn blocks s dirPath c rest := by
  have hroom : ¬pathSize ≤ dirPath.length := by omega
  by_cases hdir : c = slash ∧ dirPath ≠ []
  · have hparents : parentsFrom dirPath (c :: rest) =
        dirPath :: parentsFrom (dirPath ++ [c]) rest := if_pos hdir
    by_cases hmissing : Missing s.names dirPath
    · have hfind := (ramfsFind_eq_none h dirPath).mpr hmissing
      rcases hadd : s.addNode blocks (dirNode dirPath) with ⟨made, s₁⟩
      have hrun : s.ensureDirs blocks dirPath (c :: rest) = match made with
          | false => .ok s₁
          | true =>
              if VfsNode.nameSize ≤ dirPath.length then .error .overrun
              else s₁.ensureDirs blocks (dirPath ++ [c]) rest := by
        rw [ensureDirs, if_neg hroom, if_pos ⟨hdir.1, hfind, hdir.2⟩]
        simp only [hadd]
        cases made with
        | false => rfl
        | true => rfl
      cases made with
      | false => exact .full s₁ hparents hadd hrun
      | true =>
        obtain ⟨-, hblock, rfl⟩ := addNode_made hadd
        by_cases hshort : VfsNode.nameSize ≤ dirPath.length
        · exact .long hparents hmissing hshort (hrun.trans (if_pos hshort))
        · exact .made hparents hmissing (by omega) hblock (hrun.trans (if_neg hshort))
    · have hfind : s.ramfsFind dirPath ≠ none :=
        fun hnone => hmissing ((ramfsFind_eq_none h dirPath).mp hnone)
      refine .found hparents hmissing ?_
      rw [ensureDirs, if_neg hroom, if_neg (fun hnot => hfind hnot.2.1)]
  · refine .letter (if_neg hdir) ?_
    rw [ensureDirs, if_neg hroom, if_neg (fun hnot => hdir ⟨hnot.1, hnot.2.2⟩)]

theorem Tabled.made (hfresh : Fresh blocks) (h : Tabled blocks s) {dirPath : CString}
    (hclean : Clean dirPath) (hmissing : Missing s.names dirPath)
    (hshort : dirPath.length < VfsNode.nameSize) (hblock : blocks s.kmallocs ≠ 0) :
    Tabled blocks (s.plant blocks (dirNode dirPath)) ∧
      (s.plant blocks (dirNode dirPath)).names = imply s.names dirPath := by
  rw [h.names_plant hfresh, imply_missing hmissing]
  exact ⟨h.plant hfresh (dirNode_isRamfs hclean hshort) hblock, rfl⟩

-- The directories are given a name from the first on, all of them or as many
-- as there are nodes for.
theorem ensureDirs_names (hfresh : Fresh blocks) {rest : CString} :
    ∀ {s : State} {dirPath : CString}, Tabled blocks s → Clean (dirPath ++ rest) →
      s.ensureDirs blocks dirPath rest = .ok s' →
      Tabled blocks s' ∧ ∃ front back, parentsFrom dirPath rest = front ++ back ∧
        s'.names = front.foldl imply s.names ∧ (back = [] ∨ Stopped blocks s') := by
  induction rest with
  | nil =>
    intro s dirPath h _ hrun
    cases hrun
    exact ⟨h, [], [], rfl, rfl, Or.inl rfl⟩
  | cons c rest ih =>
    intro s dirPath h hclean hrun
    have hnext : Clean (dirPath ++ [c] ++ rest) := by simpa using hclean
    by_cases hlen : pathSize ≤ dirPath.length
    · rw [ensureDirs, if_pos hlen] at hrun
      cases hrun
    cases ensureDirs_turn blocks h c rest (Nat.lt_of_not_le hlen) with
    | letter hparents hsame =>
      rw [hparents]
      exact ih h hnext (hsame ▸ hrun)
    | found hparents hfound hsame =>
      obtain ⟨h', front, back, hsplit, hnames, hend⟩ := ih h hnext (hsame ▸ hrun)
      refine ⟨h', dirPath :: front, back, ?_, ?_, hend⟩
      · rw [hparents, hsplit, List.cons_append]
      · rw [hnames, List.foldl_cons, imply_found hfound]
    | full s₁ hparents hadd hstop =>
      rw [hstop] at hrun
      cases hrun
      obtain ⟨h', hnames, hfull⟩ := h.full hadd
      exact ⟨h', [], _, (List.nil_append _).symm, hnames, Or.inr hfull⟩
    | long hparents hmissing hlong hover =>
      rw [hover] at hrun
      cases hrun
    | made hparents hmissing hshort hblock hsame =>
      obtain ⟨h₁, hnames₁⟩ := h.made hfresh hclean.of_append hmissing hshort hblock
      obtain ⟨h', front, back, hsplit, hnames, hend⟩ := ih h₁ hnext (hsame ▸ hrun)
      refine ⟨h', dirPath :: front, back, ?_, ?_, hend⟩
      · rw [hparents, hsplit, List.cons_append]
      · rw [hnames, List.foldl_cons, hnames₁]

-- The only fault is a store past the end of dir_path or of a name.
theorem ensureDirs_error {rest : CString} {fault : Fault} : ∀ {s : State} {dirPath : CString},
    s.ensureDirs blocks dirPath rest = .error fault → fault = .overrun := by
  induction rest with
  | nil =>
    intro s dirPath hrun
    cases hrun
  | cons c rest ih =>
    intro s dirPath hrun
    rw [ensureDirs] at hrun
    split at hrun
    · cases hrun
      rfl
    split at hrun
    · split at hrun
      · cases hrun
      · split at hrun
        · cases hrun
          rfl
        · exact ih hrun
    · exact ih hrun

-- A path that fits makes none.
theorem ensureDirs_fault (hfresh : Fresh blocks) {rest : CString} {fault : Fault} :
    ∀ {s : State} {dirPath : CString}, Tabled blocks s → Clean (dirPath ++ rest) →
      s.ensureDirs blocks dirPath rest = .error fault →
      ¬(dirPath.length + rest.length ≤ pathSize ∧
        FitDirs s.names (parentsFrom dirPath rest)) := by
  induction rest with
  | nil =>
    intro s dirPath _ _ hrun
    cases hrun
  | cons c rest ih =>
    intro s dirPath h hclean hrun
    have hnext : Clean (dirPath ++ [c] ++ rest) := by simpa using hclean
    have hlength : dirPath.length + (c :: rest).length =
        (dirPath ++ [c]).length + rest.length := by
      simp only [List.length_append, List.length_cons, List.length_nil]
      omega
    by_cases hlen : pathSize ≤ dirPath.length
    · rw [ensureDirs, if_pos hlen] at hrun
      rintro ⟨hfit, -⟩
      rw [List.length_cons] at hfit
      omega
    rw [hlength]
    cases ensureDirs_turn blocks h c rest (Nat.lt_of_not_le hlen) with
    | letter hparents hsame =>
      rw [hparents]
      exact ih h hnext (hsame ▸ hrun)
    | found hparents hfound hsame =>
      have hnot := ih h hnext (hsame ▸ hrun)
      rw [hparents, FitDirs, imply_found hfound]
      exact fun hfits => hnot ⟨hfits.1, hfits.2.2⟩
    | full s₁ hparents hadd hstop =>
      rw [hstop] at hrun
      cases hrun
    | long hparents hmissing hlong hover =>
      rw [hparents, FitDirs]
      exact fun hfits => hfits.2.1 hlong hmissing
    | made hparents hmissing hshort hblock hsame =>
      obtain ⟨h₁, hnames₁⟩ := h.made hfresh hclean.of_append hmissing hshort hblock
      have hnot := ih h₁ hnext (hsame ▸ hrun)
      rw [hparents, FitDirs, ← hnames₁]
      exact fun hfits => hnot ⟨hfits.1, hfits.2.2⟩

-- Blocks and entries of the table for `n` nodes.
def HasRoom (blocks : Nat → BitVec 64) (s : State) (n : Nat) : Prop :=
  s.ramfsNodes.length + n ≤ MAX_RAMFS_NODES ∧ ∀ i < n, blocks (s.kmallocs + i) ≠ 0

theorem HasRoom.mono {n k : Nat} (h : HasRoom blocks s n) (hk : k ≤ n) : HasRoom blocks s k :=
  ⟨by have := h.1; omega, fun i hi => h.2 i (by omega)⟩

theorem HasRoom.plant {n : Nat} (h : HasRoom blocks s (n + 1)) (node : VfsNode) :
    HasRoom blocks (s.plant blocks node) n := by
  obtain ⟨hroom, hblocks⟩ := h
  constructor
  · show (s.ramfsNodes ++ [blocks s.kmallocs]).length + n ≤ MAX_RAMFS_NODES
    rw [List.length_append, List.length_singleton]
    omega
  · intro i hi
    have hnext := hblocks (i + 1) (by omega)
    rw [← Nat.add_assoc, Nat.add_right_comm] at hnext
    exact hnext

-- Where there is room for the directories, a path that does not fit goes over.
theorem ensureDirs_misfit (hfresh : Fresh blocks) {rest : CString} :
    ∀ {s : State} {dirPath : CString}, Tabled blocks s → Clean (dirPath ++ rest) →
      dirPath.length ≤ pathSize → HasRoom blocks s (parentsFrom dirPath rest).length →
      ¬(dirPath.length + rest.length ≤ pathSize ∧ FitDirs s.names (parentsFrom dirPath rest)) →
      s.ensureDirs blocks dirPath rest = .error .overrun := by
  induction rest with
  | nil =>
    intro s dirPath _ _ hlen _ hnot
    exact absurd ⟨hlen, trivial⟩ hnot
  | cons c rest ih =>
    intro s dirPath h hclean hlen hroom hnot
    have hnext : Clean (dirPath ++ [c] ++ rest) := by simpa using hclean
    have hlength : dirPath.length + (c :: rest).length =
        (dirPath ++ [c]).length + rest.length := by
      simp only [List.length_append, List.length_cons, List.length_nil]
      omega
    by_cases hfull : pathSize ≤ dirPath.length
    · rw [ensureDirs, if_pos hfull]
    have hnextLen : (dirPath ++ [c]).length ≤ pathSize := by
      rw [List.length_append, List.length_singleton]
      omega
    rw [hlength] at hnot
    cases ensureDirs_turn blocks h c rest (Nat.lt_of_not_le hfull) with
    | letter hparents hsame =>
      rw [hparents] at hroom hnot
      rw [hsame]
      exact ih h hnext hnextLen hroom hnot
    | found hparents hfound hsame =>
      rw [hparents, List.length_cons] at hroom
      rw [hparents, FitDirs, imply_found hfound] at hnot
      rw [hsame]
      refine ih h hnext hnextLen (hroom.mono (Nat.le_succ _)) fun hfits => ?_
      exact hnot ⟨hfits.1, fun _ => hfound, hfits.2⟩
    | full s₁ hparents hadd hstop =>
      rw [hparents, List.length_cons] at hroom
      have hmore := hroom.1
      rw [addNode_room (by omega) (hroom.2 0 (Nat.succ_pos _))] at hadd
      cases hadd
    | long hparents hmissing hlong hover => exact hover
    | made hparents hmissing hshort hblock hsame =>
      obtain ⟨h₁, hnames₁⟩ := h.made hfresh hclean.of_append hmissing hshort hblock
      rw [hparents, List.length_cons] at hroom
      rw [hparents, FitDirs, ← hnames₁] at hnot
      rw [hsame]
      refine ih h₁ hnext hnextLen (hroom.plant _) fun hfits => ?_
      exact hnot ⟨hfits.1, fun hlong => absurd hlong (by omega), hfits.2⟩

end State

end Miyabi.Fs
