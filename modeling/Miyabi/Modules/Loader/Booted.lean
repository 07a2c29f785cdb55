import Miyabi.Mm.Heap.Fresh
import Miyabi.Modules.Loader.Steps

namespace Miyabi.Modules

open Miyabi.Base Miyabi.Base.Memory Miyabi.Elf Miyabi.Mm Miyabi.Mm.Heap

-- load_module as the first client of the heap.

section Boot

variable {mem : Memory 64} {frames : FrameSupply} {s0 : Heap.System} {size : BitVec 64}

-- So the image lies 24 bytes behind the start of the heap.
theorem first_imaged {fileBuffer fileSize total : BitVec 64} (hb : boot mem frames = some s0)
    (hvalid : elfValidate (firstHeader mem) fileBuffer fileSize = true)
    (htotal : totalMemorySize fileBuffer (fileBuffer + eShoff (firstHeader mem) fileBuffer) fileSize
      (firstHeader mem) (2 ^ 16) 0 0 = some total)
    (hsize : total ≠ 0) (hfit : alignUp total 16 ≤ heapInitialSize - headerSize) :
    Imaged fileBuffer fileSize s0 (fileBuffer + eShoff (firstHeader mem) fileBuffer) total
      (heapStart + headerSize)
      ⟨{ s0.heap with mem := carved (firstHeader mem) heapStart (alignUp total 16) },
        [⟨heapStart + headerSize, total⟩]⟩ := by
  obtain ⟨hm, -, -, -⟩ := boot_state hb
  have hmem : s0.mem = firstHeader mem := hm
  refine ⟨?_, ?_, ?_, first_kmalloc hb hsize hfit, by decide⟩
  · rw [hmem]
    exact hvalid
  · rw [hmem]
  · rw [hmem]
    exact htotal

end Boot

-- The record from a block on the list.
theorem prepareModule_found {ksymtab : KernelSymbols}
    {name fileBuffer fileSize shdrs total base current last : BitVec 64}
    {system system1 : Heap.System} {t : Tables} {w : Work} (hname : name ≠ 0)
    (hfile : fileBuffer ≠ 0) (himage : Imaged fileBuffer fileSize system shdrs total base system1)
    (htables : findTables fileBuffer fileSize (placedWork fileBuffer shdrs base system1).mem
      fileBuffer shdrs = some t)
    (hrelocated : relocateSections ksymtab t fileBuffer fileSize (2 ^ 16) 0
      (placedWork fileBuffer shdrs base system1) = .ok w)
    (hfound : findFit w.mem (alignUp moduleSize 16) (2 ^ 64) system1.heap.head 0 =
      some (current, last)) (hz : current ≠ 0) (hne : current + headerSize ≠ 0) :
    ∃ before, prepareModule ksymtab name fileBuffer fileSize system =
        some (.ready (current + headerSize) base total before (fillModule t name
          (current + headerSize) base total
          { w with mem := carved w.mem current (alignUp moduleSize 16) })) ∧
      before.mem = (fillModule t name (current + headerSize) base total
        { w with mem := carved w.mem current (alignUp moduleSize 16) }).mem := by
  obtain ⟨system2, hk, hmem⟩ : ∃ system2,
      (system1.setMem w.mem).kmalloc moduleSize = some (current + headerSize, system2) ∧
        system2.mem = carved w.mem current (alignUp moduleSize 16) := by
    have hfound' : findFit (system1.setMem w.mem).heap.mem (alignUp moduleSize 16) (2 ^ 64)
      (system1.setMem w.mem).heap.head 0 = some (current, last) := hfound
    have hk := Heap.System.kmalloc_search (by decide : moduleSize ≠ 0) hfound' hz hne
    rw [Heap.System.setMem_mem] at hk
    exact ⟨_, hk, rfl⟩
  have hlinked : Linked ksymtab fileBuffer fileSize shdrs system1
      (placedWork fileBuffer shdrs base system1) t w (current + headerSize) system2 :=
    ⟨htables, hrelocated, hk, hne⟩
  have hp := prepareModule_linked hname hfile himage hlinked
  rw [hmem] at hp
  exact ⟨_, hp, rfl⟩

-- A module of 404 bytes: ELF header; section headers at 64 (.bss of 8 bytes aligned to 16,
-- symbols at 320, strings at 392, relocations of .bss at 368). Symbol 0 is absolute with
-- value 2^32, symbol 1 is module_init at 0x1234 of the section of the strings. The only
-- relocation puts symbol 0 into .bss as R_X86_64_32.
def sampleFile : BitVec 64 := 0xFFFF800000100000

def sampleMemory : Memory 64 :=
  let m : Memory 64 := fun _ => 0
  let m := m.store64 sampleFile 0x00000002464C457F
  let m := m.store32 (sampleFile + 16) 0x003E0001
  let m := m.store64 (sampleFile + 40) 64
  let m := m.store32 (sampleFile + 58) 0x00040040
  let m := m.store32 (sampleFile + 68) 8
  let m := m.store64 (sampleFile + 72) 2
  let m := m.store64 (sampleFile + 96) 8
  let m := m.store64 (sampleFile + 112) 16
  let m := m.store32 (sampleFile + 132) 2
  let m := m.store64 (sampleFile + 152) 320
  let m := m.store64 (sampleFile + 160) 48
  let m := m.store32 (sampleFile + 168) 2
  let m := m.store32 (sampleFile + 196) 3
  let m := m.store64 (sampleFile + 216) 392
  let m := m.store64 (sampleFile + 224) 12
  let m := m.store32 (sampleFile + 260) 4
  let m := m.store64 (sampleFile + 280) 368
  let m := m.store64 (sampleFile + 288) 24
  let m := m.store16 (sampleFile + 326) 0xFFF1
  let m := m.store64 (sampleFile + 328) 0x100000000
  let m := m.store32 (sampleFile + 350) 2
  let m := m.store64 (sampleFile + 352) 0x1234
  let m := m.store64 (sampleFile + 376) 10
  let m := m.store64 (sampleFile + 392) 0x695F656C75646F6D
  m.store32 (sampleFile + 400) 0x0074696E

def sampleShdrs : BitVec 64 := sampleFile + 64

def sampleImage : BitVec 64 := heapStart + headerSize

def sampleTables : Tables :=
  ⟨sampleFile, sampleShdrs, sampleShdrs + 64, sampleShdrs + 128, sampleFile + 320, sampleFile + 392⟩

-- The heap with the image.
def sampleSystem (s0 : Heap.System) : Heap.System :=
  ⟨{ s0.heap with mem := carved (firstHeader sampleMemory) heapStart (alignUp 8 16) },
    [⟨sampleImage, 8⟩]⟩

def samplePlaced : Work :=
  (placeSections sampleFile sampleShdrs sampleFile sampleImage (2 ^ 16) 0 0
    ⟨carved (firstHeader sampleMemory) heapStart (alignUp 8 16), [], [], []⟩).2

def sampleLinked : Work :=
  resultOf (relocateSections [] sampleTables sampleFile 404 (2 ^ 16) 0 samplePlaced)

def sampleMod : BitVec 64 := heapStart + 40 + headerSize

def sampleName : BitVec 64 := 0xFFFF800000200000

def sampleWork : Work :=
  fillModule sampleTables sampleName sampleMod sampleImage 8
    { sampleLinked with mem := carved sampleLinked.mem (heapStart + 40) (alignUp moduleSize 16) }

def sampleEnd (s0 : Heap.System) : Heap.System :=
  ⟨{ s0.heap with mem := sampleWork.mem }, [⟨sampleMod, moduleSize⟩, ⟨sampleImage, 8⟩]⟩

section Sample

variable {frames : FrameSupply} {s0 : Heap.System}

theorem sample_imaged (hb : boot sampleMemory frames = some s0) :
    Imaged sampleFile 404 s0 sampleShdrs 8 sampleImage (sampleSystem s0) := by
  have hvalid : elfValidate (firstHeader sampleMemory) sampleFile 404 = true := by decide +kernel
  have hshdrs : sampleFile + eShoff (firstHeader sampleMemory) sampleFile = sampleShdrs := by
    decide +kernel
  have htotal : totalMemorySize sampleFile sampleShdrs 404 (firstHeader sampleMemory) (2 ^ 16) 0 0 =
      some 8 := by decide +kernel
  have himage := first_imaged hb hvalid (hshdrs.symm ▸ htotal) (by decide) (by decide)
  rw [hshdrs] at himage
  exact himage

theorem sample_tables : findTables sampleFile 404 samplePlaced.mem sampleFile sampleShdrs =
    some sampleTables := by decide +kernel

theorem sample_relocated : relocateSections [] sampleTables sampleFile 404 (2 ^ 16) 0 samplePlaced =
    .ok sampleLinked := by
  have hok : (relocateSections [] sampleTables sampleFile 404 (2 ^ 16) 0 samplePlaced).isOk = true := by
    decide +kernel
  unfold sampleLinked
  cases h : relocateSections [] sampleTables sampleFile 404 (2 ^ 16) 0 samplePlaced with
  | error w =>
      rw [h] at hok
      cases hok
  | ok w => rfl

theorem sample_recorded (hb : boot sampleMemory frames = some s0) :
    ((sampleSystem s0).setMem sampleLinked.mem).kmalloc moduleSize = some (sampleMod,
      ⟨{ s0.heap with mem := carved sampleLinked.mem (heapStart + 40) (alignUp moduleSize 16) },
        [⟨sampleMod, moduleSize⟩, ⟨sampleImage, 8⟩]⟩) := by
  obtain ⟨-, hh, -, -⟩ := boot_state hb
  have hsearch : findFit sampleLinked.mem (alignUp moduleSize 16) (2 ^ 64) heapStart 0 =
      some (heapStart + 40, heapStart) := by decide +kernel
  have hfound : findFit ((sampleSystem s0).setMem sampleLinked.mem).heap.mem (alignUp moduleSize 16)
      (2 ^ 64) ((sampleSystem s0).setMem sampleLinked.mem).heap.head 0 =
      some (heapStart + 40, heapStart) := by
    rw [Heap.System.setMem_mem, Heap.System.setMem_head]
    exact (congrArg (fun p => findFit sampleLinked.mem (alignUp moduleSize 16) (2 ^ 64) p 0) hh).trans
      hsearch
  have hk := Heap.System.kmalloc_search (by decide) hfound (by decide) (by decide)
  rw [Heap.System.setMem_mem] at hk
  exact hk

theorem sample_placedWork (s0 : Heap.System) :
    placedWork sampleFile sampleShdrs sampleImage (sampleSystem s0) = samplePlaced := by
  unfold placedWork samplePlaced sampleSystem
  rfl

-- load_module accepts the sample as the first module.
theorem sample_prepared (hb : boot sampleMemory frames = some s0) :
    prepareModule [] sampleName sampleFile 404 s0 =
      some (.ready sampleMod sampleImage 8 (sampleEnd s0) sampleWork) := by
  have htables := sample_tables
  have hrelocated := sample_relocated
  rw [← sample_placedWork s0] at htables hrelocated
  have hname : sampleName ≠ 0 := by decide
  have hfile : sampleFile ≠ 0 := by decide
  have hlinked : Linked [] sampleFile 404 sampleShdrs (sampleSystem s0)
      (placedWork sampleFile sampleShdrs sampleImage (sampleSystem s0)) sampleTables sampleLinked
      sampleMod _ := ⟨htables, hrelocated, sample_recorded hb, by decide⟩
  rw [prepareModule_linked hname hfile (sample_imaged hb) hlinked]
  unfold sampleEnd sampleWork
  rfl

theorem sample_placed : sampleWork.placed = [⟨sampleShdrs, 16, 8, sampleImage⟩] := by decide +kernel

theorem sample_applied :
    sampleWork.applied = [⟨rX866432, 0x100000000, 0, sampleImage, 0⟩] := by decide +kernel

theorem sample_init : sampleWork.mem.load64 (sampleMod + 80) = 0x1234 := by decide +kernel

theorem sampleMod_ne : sampleMod ≠ 0 := by decide

-- It then calls 0x1234.
theorem sample_loaded (hb : boot sampleMemory frames = some s0) :
    loadModule [] sampleName sampleFile 404 (fun _ s => some s) s0 =
      some ⟨sampleMod, sampleEnd s0, [0x1234]⟩ := by
  have hinit : (sampleEnd s0).mem.load64 (sampleMod + 80) = 0x1234 := by
    unfold sampleEnd Heap.System.mem
    dsimp only
    rw [sample_init]
  have hne : (0x1234 : BitVec 64) ≠ 0 := by decide
  unfold loadModule
  rw [sample_prepared hb]
  dsimp only
  rw [hinit, if_neg hne]

end Sample

end Miyabi.Modules
