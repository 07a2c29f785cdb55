import Miyabi.Base.Copy
import Miyabi.Fs.Vfs.Lookup
import Miyabi.Modules.Loader.Booted

namespace Miyabi.Modules

open Miyabi.Base Miyabi.Base.Memory Miyabi.Fs Miyabi.Mm Miyabi.Mm.Heap

-- load_module_from_file in src/src/modules/loader.c, with vfs_open, vfs_read and
-- vfs_close in src/src/fs/vfs.c

-- The string at an address. none: it has no end.
def stringAt (m : Memory 64) : ℕ → BitVec 64 → Option CString
  | 0, _ => none
  | fuel + 1, addr =>
      if h : m addr = 0 then some []
      else (stringAt m fuel (addr + 1)).map fun rest => ⟨m addr, h⟩ :: rest

-- What the nodes in the memory are: path lookup's view of them, their lengths and their
-- functions, none for a NULL pointer. A function may do anything; none: it does not return.
structure FileSystem where
  vfs : Heap.System → Vfs
  length : Heap.System → BitVec 64 → BitVec 32
  onOpen : Heap.System → BitVec 64 → Option (BitVec 32 → Heap.System → Option Heap.System)
  onRead : Heap.System → BitVec 64 → Option (BitVec 64 → BitVec 64 → BitVec 64 → Heap.System →
    Option (BitVec 64 × Heap.System))
  onClose : Heap.System → BitVec 64 → Option (Heap.System → Option Heap.System)

section Vfs

variable (fs : FileSystem)

-- vfs_get_node_by_path. A NULL path leads nowhere.
def nodeAt (path : BitVec 64) (system : Heap.System) : Option (BitVec 64) :=
  if path = 0 then some 0
  else
    match stringAt system.mem (2 ^ 64) path with
    | none => none
    | some s =>
        match (fs.vfs system).vfsGetNodeByPath s with
        | .error _ => none
        | .ok node => some node

def vfsFlagRead : BitVec 32 := 0x01

def vfsOpen (path : BitVec 64) (flags : BitVec 32) (system : Heap.System) :
    Option (BitVec 64 × Heap.System) :=
  match nodeAt fs path system with
  | none => none
  | some node =>
      if node = 0 then some (0, system)
      else
        match fs.onOpen system node with
        | none => some (node, system)
        | some f => (f flags system).map fun system => (node, system)

def vfsRead (node buffer size offset : BitVec 64) (system : Heap.System) :
    Option (BitVec 64 × Heap.System) :=
  if node = 0 then some (0, system)
  else
    match fs.onRead system node with
    | none => some (0, system)
    | some f => f buffer size offset system

def vfsClose (node : BitVec 64) (system : Heap.System) : Option Heap.System :=
  if node = 0 then some system
  else
    match fs.onClose system node with
    | none => some system
    | some f => f system

end Vfs

-- The calls that load_module_from_file makes: vfs_open that found a node, vfs_close,
-- kmalloc that gave a buffer, kfree, and load_module after vfs_read has returned
-- `delivered` for `size` bytes.
inductive FileCall where
  | opened (node : BitVec 64)
  | closed (node : BitVec 64)
  | allocated (buffer : BitVec 64)
  | freed (buffer : BitVec 64)
  | loaded (delivered size : BitVec 64)
  deriving DecidableEq

-- What it returns and leaves, with its calls in order.
structure FileRun where
  mod : BitVec 64
  system : Heap.System
  calls : List FileCall

section Load

variable (ksymtab : KernelSymbols) (fs : FileSystem)
variable (call : BitVec 64 → Heap.System → Option Heap.System) (filepath : BitVec 64)

-- The branch with a buffer. The result of vfs_read is not used.
def loadBuffer (file buffer fileSize : BitVec 64) (system : Heap.System) : Option FileRun :=
  match vfsRead fs file buffer fileSize 0 system with
  | none => none
  | some (delivered, system) =>
      match loadModule ksymtab filepath buffer fileSize call system with
      | none => none
      | some l =>
          match l.system.kfree buffer with
          | none => none
          | some system =>
              match vfsClose fs file system with
              | none => none
              | some system => some ⟨l.mod, system, [.opened file, .allocated buffer,
                  .loaded delivered fileSize, .freed buffer, .closed file]⟩

def loadModuleFromFile (system : Heap.System) : Option FileRun :=
  match vfsOpen fs filepath vfsFlagRead system with
  | none => none
  | some (file, system) =>
      if file = 0 then some ⟨0, system, []⟩
      else if (fs.vfs system).flags file &&& FS_FILE = 0 then some ⟨0, system, [.opened file]⟩
      else
        let fileSize := (fs.length system file).setWidth 64
        match system.kmalloc fileSize with
        | none => none
        | some (buffer, system) =>
            if buffer = 0 then
              match vfsClose fs file system with
              | none => none
              | some system => some ⟨0, system, [.opened file, .closed file]⟩
            else loadBuffer ksymtab fs call filepath file buffer fileSize system

-- Opened nodes are closed once and buffers freed once, and a module is loaded only from a
-- whole file.
structure Balanced (calls : List FileCall) : Prop where
  closed : ∀ node, calls.count (.opened node) = calls.count (.closed node)
  freed : ∀ buffer, calls.count (.allocated buffer) = calls.count (.freed buffer)
  whole : ∀ delivered size, .loaded delivered size ∈ calls → delivered = size

-- The path leads to no node or to a file of which vfs_read delivers every byte if there is
-- a buffer for it.
def ReadsWhole (system : Heap.System) : Prop :=
  ∀ file system1, vfsOpen fs filepath vfsFlagRead system = some (file, system1) → file ≠ 0 →
    (fs.vfs system1).flags file &&& FS_FILE ≠ 0 ∧
      ∀ buffer system2, system1.kmalloc ((fs.length system1 file).setWidth 64) = some (buffer, system2) →
        buffer ≠ 0 → ∀ delivered system3,
          vfsRead fs file buffer ((fs.length system1 file).setWidth 64) 0 system2 =
            some (delivered, system3) → delivered = (fs.length system1 file).setWidth 64

end Load

section Calls

theorem balanced_nil : Balanced [] := ⟨fun _ => rfl, fun _ => rfl, fun _ _ h => nomatch h⟩

theorem balanced_closed (file : BitVec 64) : Balanced [.opened file, .closed file] := by
  refine ⟨fun node => ?_, fun buffer => ?_, fun delivered size h => ?_⟩
  · simp [List.count_cons]
  · simp
  · simp at h

theorem not_balanced_opened (file : BitVec 64) : ¬Balanced [.opened file] := by
  intro h
  have hclosed := h.closed file
  simp at hclosed

theorem balanced_loaded (file buffer delivered size : BitVec 64) :
    Balanced [.opened file, .allocated buffer, .loaded delivered size, .freed buffer,
      .closed file] ↔ delivered = size := by
  constructor
  · intro h
    exact h.whole delivered size (by simp)
  · intro h
    refine ⟨fun node => ?_, fun other => ?_, fun d n hmem => ?_⟩
    · simp [List.count_cons]
    · simp [List.count_cons]
    · simp at hmem
      rw [hmem.1, hmem.2, h]

end Calls

section Run

variable {ksymtab : KernelSymbols} {fs : FileSystem}
variable {call : BitVec 64 → Heap.System → Option Heap.System} {filepath : BitVec 64}

-- The branch with a buffer is balanced exactly if vfs_read has delivered the whole file.
theorem loadBuffer_balanced {file buffer fileSize : BitVec 64} {system : Heap.System} {r : FileRun}
    (h : loadBuffer ksymtab fs call filepath file buffer fileSize system = some r) :
    Balanced r.calls ↔ ∀ delivered system3,
      vfsRead fs file buffer fileSize 0 system = some (delivered, system3) → delivered = fileSize := by
  unfold loadBuffer at h
  split at h
  · cases h
  · rename_i delivered system1 hread
    split at h
    · cases h
    · split at h
      · cases h
      · split at h
        · cases h
        · rw [← Option.some.inj h, balanced_loaded]
          constructor
          · intro he d system3 hd
            rw [← (Prod.mk.inj (Option.some.inj (hread.symm.trans hd))).1]
            exact he
          · exact fun hall => hall delivered system1 hread

end Run

section Returned

variable (ksymtab : KernelSymbols) (fs : FileSystem)
variable (call : BitVec 64 → Heap.System → Option Heap.System) (filepath : BitVec 64)
variable (system : Heap.System) (r : FileRun)

end Returned

-- A root directory with a file of `size` bytes under every name, which has a function to
-- read it if they are zeroes, and the paths "/" and "/m".
def rootNode : BitVec 64 := 0xFFFF800000400000
def fileNode : BitVec 64 := 0xFFFF800000400200
def rootPath : BitVec 64 := 0xFFFF800000300000
def filePath : BitVec 64 := 0xFFFF800000300010

def sampleVfs : Vfs where
  fsRoot := rootNode
  flags node := if node = rootNode then FS_DIRECTORY else FS_FILE
  ptr _ := 0
  finddir node := if node = rootNode then some (fun _ => fileNode) else none

def sampleFiles (size : BitVec 32) (zeroes : Bool) : FileSystem where
  vfs _ := sampleVfs
  length _ _ := size
  onOpen _ _ := none
  onRead _ _ :=
    if zeroes then
      some fun buffer n _ system => some (n, system.setMem (fill system.mem buffer 0 n.toNat))
    else none
  onClose _ _ := none

def pathMemory : Memory 64 :=
  let m : Memory 64 := fun _ => 0
  let m := m.store8 rootPath 0x2F
  let m := m.store8 filePath 0x2F
  m.store8 (filePath + 1) 0x6D

theorem letterM_ne_zero : (0x6D : BitVec 8) ≠ 0 := by decide

def letterM : Char8 := ⟨0x6D, letterM_ne_zero⟩

section Sample

variable {frames : FrameSupply} {s0 : Heap.System} {size : BitVec 32} {zeroes : Bool}

theorem sample_root (hb : boot pathMemory frames = some s0) :
    vfsOpen (sampleFiles size zeroes) rootPath vfsFlagRead s0 = some (rootNode, s0) := by
  obtain ⟨hm, -, -, -⟩ := boot_state hb
  have hmem : s0.mem = firstHeader pathMemory := hm
  have hstring : stringAt (firstHeader pathMemory) (2 ^ 64) rootPath = some [slash] := by
    decide +kernel
  have hlookup : ((sampleFiles size zeroes).vfs s0).vfsGetNodeByPath [slash] = .ok rootNode := by
    rw [Vfs.vfsGetNodeByPath_eq, words_nil]
    show sampleVfs.lookupWords [] = .ok rootNode
    decide +kernel
  have hpath : rootPath ≠ 0 := by decide
  have hnode : rootNode ≠ 0 := by decide
  unfold vfsOpen nodeAt
  rw [if_neg hpath, hmem, hstring]
  dsimp only
  rw [hlookup]
  dsimp only
  rw [if_neg hnode]
  rfl

theorem sample_file (hb : boot pathMemory frames = some s0) :
    vfsOpen (sampleFiles size zeroes) filePath vfsFlagRead s0 = some (fileNode, s0) := by
  obtain ⟨hm, -, -, -⟩ := boot_state hb
  have hmem : s0.mem = firstHeader pathMemory := hm
  have hstring : stringAt (firstHeader pathMemory) (2 ^ 64) filePath = some [slash, letterM] := by
    decide +kernel
  have hlookup : ((sampleFiles size zeroes).vfs s0).vfsGetNodeByPath [slash, letterM] = .ok fileNode := by
    rw [Vfs.vfsGetNodeByPath_eq, words_word (by decide) (by decide)]
    show sampleVfs.lookupWords [[letterM]] = .ok fileNode
    decide +kernel
  have hpath : filePath ≠ 0 := by decide
  have hnode : fileNode ≠ 0 := by decide
  unfold vfsOpen nodeAt
  rw [if_neg hpath, hmem, hstring]
  dsimp only
  rw [hlookup]
  dsimp only
  rw [if_neg hnode]
  rfl

variable (call : BitVec 64 → Heap.System → Option Heap.System)

-- The root directory is opened and left so.
theorem sample_root_run (hb : boot pathMemory frames = some s0) :
    loadModuleFromFile [] (sampleFiles size zeroes) call rootPath s0 = some ⟨0, s0, [.opened rootNode]⟩ := by
  have hnode : rootNode ≠ 0 := by decide
  have hflags : ((sampleFiles size zeroes).vfs s0).flags rootNode &&& FS_FILE = 0 := by
    show sampleVfs.flags rootNode &&& FS_FILE = 0
    decide
  unfold loadModuleFromFile
  rw [sample_root hb]
  dsimp only
  rw [if_neg hnode, if_pos hflags]

theorem sample_is_file (s : Heap.System) : ¬((sampleFiles size zeroes).vfs s).flags fileNode &&& FS_FILE = 0 := by
  show ¬sampleVfs.flags fileNode &&& FS_FILE = 0
  decide

-- A node without a read function delivers nothing, and the buffer stays as it was.
theorem sample_read (zeroes : Bool) {system : Heap.System}
    (hmem : system.mem = carved (firstHeader pathMemory) heapStart 64) :
    ∃ m, vfsRead (sampleFiles 64 zeroes) fileNode sampleImage 64 0 system =
        some (if zeroes then 64 else 0, system.setMem m) ∧
      KeepsOutside system.mem m sampleImage 64 ∧ elfValidate m sampleImage 64 = false := by
  have hnode : fileNode ≠ 0 := by decide
  unfold vfsRead
  rw [if_neg hnode]
  cases zeroes with
  | false =>
      refine ⟨system.mem, rfl, fun _ _ => rfl, ?_⟩
      rw [hmem]
      decide +kernel
  | true =>
      refine ⟨fill system.mem sampleImage 0 64, rfl, fill_keeps _ _ _ _ (by decide), ?_⟩
      rw [hmem]
      decide +kernel

-- A file of 64 bytes is no module.
theorem sample_run (zeroes : Bool) (hb : boot pathMemory frames = some s0) :
    ∃ r, loadModuleFromFile [] (sampleFiles 64 zeroes) call filePath s0 = some r ∧
      r.calls = [.opened fileNode, .allocated sampleImage, .loaded (if zeroes then 64 else 0) 64,
        .freed sampleImage, .closed fileNode] := by
  have hnode : fileNode ≠ 0 := by decide
  have hpath : ¬(filePath = 0 ∨ sampleImage = 0) := by decide
  have hbuffer : sampleImage ≠ 0 := by decide
  obtain ⟨system1, hk, hmem, hend⟩ : ∃ system1, s0.kmalloc 64 = some (sampleImage, system1) ∧
      system1.mem = carved (firstHeader pathMemory) heapStart 64 ∧
      system1.heap.heapEnd = s0.heap.heapEnd :=
    ⟨_, first_kmalloc hb (by decide) (by decide), rfl, rfl⟩
  obtain ⟨m, hread, hkeeps, hinvalid⟩ := sample_read zeroes hmem
  have hload : loadModule [] filePath sampleImage 64 call (system1.setMem m) =
      some ⟨0, system1.setMem m, []⟩ := by
    unfold loadModule prepareModule
    dsimp only
    rw [if_neg hpath, show (system1.setMem m).mem = m from rfl, hinvalid]
    rfl
  obtain ⟨bs, ht⟩ := kmalloc_tidy (boot_returned hb).1 64
    (System.permitted_search ⟨by decide, by decide⟩ hk hend) (System.kmalloc_step hk)
  have hlive : (⟨sampleImage, 64⟩ : Alloc) ∈ system1.live := by
    rw [System.kmalloc_live hk, if_neg hbuffer]
    exact List.mem_cons_self
  have htidy : Tidy (system1.setMem m) bs :=
    ht.setMem fun b hb => hkeeps.agree (ht.payload_apart hlive b hb).symm
  obtain ⟨system2, hfree⟩ : ∃ system2, (system1.setMem m).kfree sampleImage = some system2 :=
    htidy.kfree_returns hlive
  refine ⟨⟨0, system2, _⟩, ?_, rfl⟩
  unfold loadModuleFromFile
  rw [sample_file hb]
  dsimp only
  rw [if_neg hnode, if_neg (sample_is_file s0)]
  have hsize : ((sampleFiles 64 zeroes).length s0 fileNode).setWidth 64 = (64 : BitVec 64) := rfl
  rw [hsize, hk]
  dsimp only
  rw [if_neg hbuffer]
  unfold loadBuffer
  rw [hread]
  dsimp only
  rw [hload]
  dsimp only
  rw [hfree]
  rfl

end Sample

end Miyabi.Modules
