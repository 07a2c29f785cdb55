import Miyabi.Fs.Ext2.Geometry
import Miyabi.Fs.Registry
import Miyabi.Fs.Vfs.Lookup

namespace Miyabi.Fs

open Miyabi.Base Miyabi.Base.Memory Miyabi.Mm Miyabi.Mm.Heap Miyabi.Drivers.Storage

-- sizeof(block_dev_t)
def blockDevSize : BitVec 64 := 80

-- A descriptor of the table at `table` and its address. strcmp does not return from a NULL
-- name.
def getBlockDevice (table : BitVec 64) (devices : BlockDevices) :
    Option String → Option (Option (BitVec 64 × BlockDev))
  | none => if devices.isEmpty then some none else none
  | some name =>
      some ((devices.zipIdx.find? fun p => p.1.name = name).map fun p =>
        (table + blockDevSize * BitVec.ofNat 64 p.2, p.1))

-- The nodes, the registered file systems, the block devices, the heap and the drive.
structure World where
  graph : State
  registry : Registry
  table : BitVec 64
  devices : BlockDevices
  host : Host

-- A mount operation that is not ext2's.
variable (other : Option (BitVec 64 × BlockDev) → Host → Option (BitVec 64 × Host))
variable (buf : BitVec 64)

def callMount (dev : BitVec 64 × BlockDev) (h : Host) : FsMount → Option (BitVec 64 × Host)
  | .ext2 => ext2Mount buf (some dev) h
  | .other => other (some dev) h

-- The rest of vfs_mount_by_name, after the call of the mount operation.
def attach (mountPath : Option CString) (rootNode : BitVec 64) (w : World) : Option (Int × World) :=
  if rootNode = 0 then some (-3, w)
  else
    match mountPath with
    | none => some (-4, w)
    | some path =>
        match w.graph.vfsGetNodeByPath path with
        | .error _ => none
        | .ok mountpoint =>
            if mountpoint = 0 then some (-4, w)
            else some (0, { w with graph := w.graph.vfsMount mountpoint rootNode })

-- none: the call does not return.
def vfsMountByName (deviceName : Option String) (mountPath fsTypeName : Option CString)
    (w : World) : Option (Int × World) :=
  match getBlockDevice w.table w.devices deviceName with
  | none => none
  | some none => some (-1, w)
  | some (some dev) =>
      match w.registry.vfsFindFilesystem (2 ^ 64) fsTypeName with
      | .error _ => none
      | .ok fs =>
          if fs = 0 then some (-2, w)
          else
            match (w.registry.types fs).mount with
            | none => none
            | some mount =>
                match callMount other buf dev w.host mount with
                | none => none
                | some (rootNode, host) => attach mountPath rootNode { w with host }

-- A call that fails leaves the nodes and the live allocations as they were.
def Atomic (deviceName : Option String) (mountPath fsTypeName : Option CString) (w : World) :
    Prop :=
  ∀ code w', vfsMountByName other buf deviceName mountPath fsTypeName w = some (code, w') →
    code < 0 → w'.graph = w.graph ∧ w'.host.heap.live = w.host.heap.live

-- ext2 is the registered file system.
def Ext2Registered (w : World) : Prop :=
  w.registry.head ≠ 0 ∧ w.registry.types w.registry.head = Registry.ext2FsType

-- There is no such device or file system, or the superblock cannot be read or has another
-- magic number, or there is no memory for the state, or the division by the blocks in a group
-- is by zero.
def Refused (deviceName : Option String) (fsTypeName : Option CString) (w : World) : Prop :=
  ∀ dev, getBlockDevice w.table w.devices deviceName = some (some dev) →
    fsTypeName = some Registry.ext2FsType.name →
    ∀ s, blockRead (some dev.2) 2 2 buf w.host.machine = (true, s) →
      superMagic s.mem buf = ext2Magic →
      ∀ fs heap, (w.host.heap.setMem s.mem).kmalloc ext2FsSize = some (fs, heap) →
        fs = 0 ∨ blocksPerGroup heap.mem buf = 0

theorem find_ext2 {w : World} (h : Ext2Registered w) :
    w.registry.vfsFindFilesystem (2 ^ 64) (some Registry.ext2FsType.name) = .ok w.registry.head := by
  obtain ⟨hhead, htype⟩ := h
  have hfuel : (2 ^ 64 : ℕ) = (2 ^ 64 - 1) + 1 := rfl
  rw [Registry.vfsFindFilesystem, hfuel, Registry.findFrom, if_neg hhead, htype,
    if_pos ((strcmp_eq_zero_iff _ _).mpr rfl)]

theorem find_other {w : World} (h : Ext2Registered w) {name : CString}
    (hname : name ≠ Registry.ext2FsType.name) :
    w.registry.vfsFindFilesystem (2 ^ 64) (some name) = .ok 0 := by
  obtain ⟨hhead, htype⟩ := h
  have hfuel : (2 ^ 64 : ℕ) = (2 ^ 64 - 2) + 1 + 1 := rfl
  rw [Registry.vfsFindFilesystem, hfuel, Registry.findFrom, if_neg hhead, htype,
    if_neg fun h => hname ((strcmp_eq_zero_iff _ _).mp h).symm, Registry.findFrom]
  exact if_pos rfl

section Ext2

variable {buf} {dev : BitVec 64 × BlockDev} {h h' : Host} {rootNode : BitVec 64}

-- ext2_mount never returns a node.
theorem ext2Mount_null (hrun : ext2Mount buf (some dev) h = some (rootNode, h')) : rootNode = 0 := by
  rw [ext2Mount] at hrun
  rcases hread : blockRead (some dev.2) 2 2 buf h.machine with ⟨_ | _, s⟩
  · simp only [hread] at hrun
    cases hrun
    rfl
  simp only [hread] at hrun
  by_cases hmagic : superMagic (h.setMachine s).heap.mem buf ≠ ext2Magic
  · rw [if_pos hmagic] at hrun
    cases hrun
    rfl
  rw [if_neg hmagic] at hrun
  cases hk : (h.setMachine s).heap.kmalloc ext2FsSize with
  | none =>
    simp only [hk] at hrun
    cases hrun
  | some r =>
    obtain ⟨fs, heap⟩ := r
    simp only [hk] at hrun
    by_cases hfs : fs = 0
    · rw [if_pos hfs] at hrun
      cases hrun
      rfl
    rw [if_neg hfs] at hrun
    by_cases hzero : blocksPerGroup heap.mem buf = 0
    · rw [if_pos hzero] at hrun
      cases hrun
    · rw [if_neg hzero] at hrun
      cases hrun
      rfl

-- It keeps the live allocations unless it comes to allocate a state.
theorem ext2Mount_live_iff :
    (∀ r h', ext2Mount buf (some dev) h = some (r, h') → h'.heap.live = h.heap.live) ↔
      ∀ s, blockRead (some dev.2) 2 2 buf h.machine = (true, s) →
        superMagic s.mem buf = ext2Magic →
        ∀ fs heap, (h.heap.setMem s.mem).kmalloc ext2FsSize = some (fs, heap) →
          fs = 0 ∨ blocksPerGroup heap.mem buf = 0 := by
  rw [ext2Mount]
  rcases hread : blockRead (some dev.2) 2 2 buf h.machine with ⟨_ | _, s⟩
  · constructor
    · intro _ s' hs'
      cases hs'
    · intro _ r h' hrun
      cases hrun
      rfl
  simp only [Prod.mk.injEq, true_and, forall_eq']
  have hmem : (h.setMachine s).heap.mem = s.mem := rfl
  rw [hmem]
  by_cases hmagic : superMagic s.mem buf ≠ ext2Magic
  · rw [if_pos hmagic]
    refine ⟨fun _ h => absurd h hmagic, fun _ r h' hrun => ?_⟩
    cases hrun
    rfl
  rw [if_neg hmagic, forall_prop_of_true (not_not.mp hmagic)]
  have hheap : (h.setMachine s).heap = h.heap.setMem s.mem := rfl
  rw [hheap]
  cases hk : (h.heap.setMem s.mem).kmalloc ext2FsSize with
  | none =>
    constructor
    · intro _ fs heap h
      cases h
    · intro _ r h' hrun
      cases hrun
  | some r =>
    obtain ⟨fs, heap⟩ := r
    simp only [Option.some.injEq, Prod.mk.injEq, and_imp]
    have hlive := Heap.System.kmalloc_live hk
    by_cases hfs : fs = 0
    · subst hfs
      rw [if_pos rfl] at hlive ⊢
      constructor
      · rintro _ fs _ rfl _
        exact Or.inl rfl
      · intro _ r h' hrun
        cases hrun
        exact hlive
    rw [if_neg hfs] at hlive ⊢
    by_cases hzero : blocksPerGroup heap.mem buf = 0
    · rw [if_pos hzero]
      constructor
      · rintro _ _ _ rfl rfl
        exact Or.inr hzero
      · intro _ r h' hrun
        cases hrun
    · rw [if_neg hzero]
      constructor
      · intro hkeep
        have hsame : heap.live = h.heap.live := hkeep _ _ rfl
        have hlength := congrArg List.length (hlive.symm.trans hsame)
        have hstart : (h.heap.setMem s.mem).live = h.heap.live := rfl
        rw [hstart, List.length_cons] at hlength
        omega
      · intro hrefused
        rcases hrefused fs heap rfl rfl with h | h
        · exact absurd h hfs
        · exact absurd h hzero

end Ext2

variable {buf} {w : World} {deviceName : Option String} {mountPath : Option CString}

-- With a device and the name of ext2, the call fails once ext2_mount has returned.
theorem vfsMountByName_ext2 (hext2 : Ext2Registered w) {dev : BitVec 64 × BlockDev}
    (hdev : getBlockDevice w.table w.devices deviceName = some (some dev)) :
    vfsMountByName other buf deviceName mountPath (some Registry.ext2FsType.name) w =
      (ext2Mount buf (some dev) w.host).map fun r => (-3, { w with host := r.2 }) := by
  have hmount : (w.registry.types w.registry.head).mount = some .ext2 := by
    rw [hext2.2]
    rfl
  simp only [vfsMountByName, hdev, find_ext2 hext2, if_neg hext2.1, hmount, callMount]
  cases hrun : ext2Mount buf (some dev) w.host with
  | none => rfl
  | some r =>
    obtain ⟨rootNode, host⟩ := r
    rw [ext2Mount_null hrun]
    rfl

theorem atomic_ext2_iff (hext2 : Ext2Registered w) {dev : BitVec 64 × BlockDev}
    (hdev : getBlockDevice w.table w.devices deviceName = some (some dev)) :
    Atomic other buf deviceName mountPath (some Registry.ext2FsType.name) w ↔
      ∀ r host, ext2Mount buf (some dev) w.host = some (r, host) →
        host.heap.live = w.host.heap.live := by
  rw [Atomic, vfsMountByName_ext2 other hext2 hdev]
  constructor
  · intro h r host hrun
    have hneg : (-3 : Int) < 0 := by decide
    exact (h (-3) { w with host } (by rw [hrun]; rfl) hneg).2
  · intro h code w' hrun _
    obtain ⟨r, hr, heq⟩ := Option.map_eq_some_iff.mp hrun
    cases heq
    exact ⟨rfl, h r.1 r.2 hr⟩

-- A call without a device or with another name changes nothing.
theorem vfsMountByName_early (hext2 : Ext2Registered w) {fsTypeName : Option CString}
    (h : (∀ dev, getBlockDevice w.table w.devices deviceName ≠ some (some dev)) ∨
      fsTypeName ≠ some Registry.ext2FsType.name) {r : Int × World}
    (hrun : vfsMountByName other buf deviceName mountPath fsTypeName w = some r) : r.2 = w := by
  rw [vfsMountByName] at hrun
  rcases hdev : getBlockDevice w.table w.devices deviceName with _ | _ | dev
  · simp only [hdev] at hrun
    cases hrun
  · simp only [hdev] at hrun
    cases hrun
    rfl
  · have hname : fsTypeName ≠ some Registry.ext2FsType.name := by
      rcases h with h | h
      · exact absurd hdev (h dev)
      · exact h
    have hfind : w.registry.vfsFindFilesystem (2 ^ 64) fsTypeName = .ok 0 := by
      cases fsTypeName with
      | none => rfl
      | some name => exact find_other hext2 fun h => hname (congrArg some h)
    simp only [hdev, hfind, if_true] at hrun
    cases hrun
    rfl

-- A failed mount is atomic if and only if ext2_mount does not come to allocate its state.
theorem mount_atomic_iff (deviceName : Option String) (mountPath fsTypeName : Option CString)
    (w : World) (hext2 : Ext2Registered w) :
    Atomic other buf deviceName mountPath fsTypeName w ↔ Refused buf deviceName fsTypeName w := by
  by_cases hearly : (∀ dev, getBlockDevice w.table w.devices deviceName ≠ some (some dev)) ∨
      fsTypeName ≠ some Registry.ext2FsType.name
  · constructor
    · intro _ dev hdev hname
      rcases hearly with h | h
      · exact absurd hdev (h dev)
      · exact absurd hname h
    · intro _ code w' hrun _
      obtain rfl : w' = w := vfsMountByName_early other hext2 hearly hrun
      exact ⟨rfl, rfl⟩
  rw [not_or, not_forall_not, not_not] at hearly
  obtain ⟨⟨dev, hdev⟩, rfl⟩ := hearly
  have hrefused : Refused buf deviceName (some Registry.ext2FsType.name) w ↔ _ :=
    ⟨fun h => h dev hdev rfl, fun h dev' hdev' _ => by cases hdev.symm.trans hdev'; exact h⟩
  rw [hrefused, ← ext2Mount_live_iff]
  exact atomic_ext2_iff other hext2 hdev

-- A superblock with one block in a group.
def superSector : Sector := fun i =>
  if i = 32 then 1 else if i = 56 then 0x53 else if i = 57 then 0xEF else 0

def emptyGraph : State where
  nodes _ := VfsNode.zero
  kmallocs := 0
  fsRoot := 0
  ramfsNodes := []
  ramfsRoot := 0
  devfsRoot := 0
  devices := []

-- A drive that holds a sector everywhere.
def patternedWorld (sector : Sector) (heap : Heap.System) : World where
  graph := emptyGraph
  registry := ⟨fun _ => Registry.ext2FsType, 0x1000⟩
  table := 0x2000
  devices := ataInit []
  host := ⟨heap, readyDrive fun _ => sector⟩

def superBuffer : BitVec 64 := 0x4000

def noMount (_ : Option (BitVec 64 × BlockDev)) (_ : Host) : Option (BitVec 64 × Host) := none

theorem patternedWorld_ext2 (sector : Sector) (heap : Heap.System) :
    Ext2Registered (patternedWorld sector heap) :=
  ⟨show (0x1000 : BitVec 64) ≠ 0 by decide, rfl⟩

theorem patternedWorld_sda (sector : Sector) (heap : Heap.System) :
    getBlockDevice (patternedWorld sector heap).table (patternedWorld sector heap).devices
      (some "sda") = some (some (0x2000, sda)) :=
  show getBlockDevice 0x2000 (ataInit []) (some "sda") = _ by decide

-- The memory already holds what ext2_mount reads.
theorem patternedWorld_read {sector : Sector} {heap : Heap.System}
    (hb : boot (patterned sector) sampleFrames = some heap) :
    ∃ s, blockRead (some sda) 2 2 superBuffer (patternedWorld sector heap).host.machine =
      (true, s) ∧ s.mem = firstHeader (patterned sector) :=
  patterned_read (boot_state hb).1 rfl (fun _ => rfl) (by decide) (by decide) (by decide)

-- A drive without a superblock, from which zeros are read.
theorem mount_atomic_blank :
    ∃ heap, boot (patterned fun _ => 0) sampleFrames = some heap ∧
      Atomic noMount superBuffer (some "sda") (some [slash]) (some Registry.ext2FsType.name)
        (patternedWorld (fun _ => 0) heap) := by
  obtain ⟨heap, hb, -⟩ := boot_invariant (patterned fun _ => 0) sampleFrames sampleFrames_ne
  refine ⟨heap, hb, (mount_atomic_iff noMount (some "sda") (some [slash])
    (some Registry.ext2FsType.name) _ (patternedWorld_ext2 _ heap)).mpr ?_⟩
  intro dev hdev _ s hs hmagic
  cases (patternedWorld_sda _ heap).symm.trans hdev
  obtain ⟨s', hs', hblank⟩ := patternedWorld_read hb
  cases hs'.symm.trans hs
  rw [hblank] at hmagic
  exact absurd hmagic (by decide +kernel)

-- A drive with a superblock: the call fails with -3, and its state stays allocated.
theorem mount_leaks_state :
    ∃ heap, boot (patterned superSector) sampleFrames = some heap ∧
      ¬Atomic noMount superBuffer (some "sda") (some [slash]) (some Registry.ext2FsType.name)
        (patternedWorld superSector heap) := by
  obtain ⟨heap, hb, -⟩ := boot_invariant (patterned superSector) sampleFrames sampleFrames_ne
  refine ⟨heap, hb, fun hatomic => ?_⟩
  obtain ⟨s, hs, hsuper⟩ := patternedWorld_read hb
  have hk : heap.kmalloc ext2FsSize = _ := first_kmalloc hb (by decide) (by decide)
  have hsame : heap.setMem s.mem = heap := by
    rw [hsuper, ← (boot_state hb).1]
    rfl
  have hmagic : superMagic s.mem superBuffer = ext2Magic := by
    rw [hsuper]
    decide +kernel
  have hblocks : blocksPerGroup (carved (firstHeader (patterned superSector)) heapStart
      (alignUp ext2FsSize 16)) superBuffer ≠ 0 := by decide +kernel
  have hlive := (atomic_ext2_iff noMount (patternedWorld_ext2 _ heap)
    (patternedWorld_sda _ heap)).mp hatomic
  have hstate := ext2Mount_live_iff.mp hlive s hs hmagic
  have hheap : (patternedWorld superSector heap).host.heap.setMem s.mem = heap := hsame
  rw [hheap] at hstate
  rcases hstate _ _ hk with h | h
  · exact absurd h (by decide)
  · exact absurd h hblocks

end Miyabi.Fs
