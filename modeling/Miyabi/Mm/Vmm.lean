import Miyabi.Base.Memory
import Miyabi.Mm.Paging

namespace Miyabi.Mm.Vmm

open Miyabi.Base

-- src/mm/vmm.c

-- Memory as the direct map shows it, and the statics of vmm.c. `frames` is what
-- pmm_alloc keeps, `handed` what it has returned so far.
structure State (σ : Type) where
  mem : Memory 64
  hhdmOffset : BitVec 64
  pml4 : BitVec 64
  frames : σ
  handed : List (BitVec 64)

variable {σ : Type}

def State.physToVirt (s : State σ) (phys : BitVec 64) : BitVec 64 := phys + s.hhdmOffset

-- table[index] for a uint64_t *table.
def readEntry (m : Memory 64) (table index : BitVec 64) : BitVec 64 := m.load64 (table + 8 * index)

def writeEntry (m : Memory 64) (table index value : BitVec 64) : Memory 64 :=
  m.store64 (table + 8 * index) value

def pml4Index (virt : BitVec 64) : BitVec 64 := (virt >>> 39) &&& 0x1FF
def pdptIndex (virt : BitVec 64) : BitVec 64 := (virt >>> 30) &&& 0x1FF
def pdIndex (virt : BitVec 64) : BitVec 64 := (virt >>> 21) &&& 0x1FF
def ptIndex (virt : BitVec 64) : BitVec 64 := (virt >>> 12) &&& 0x1FF

section Allocating

-- pmm_alloc: it may use and change the memory as well as its own state.
variable (alloc : Memory 64 → σ → BitVec 64 × Memory 64 × σ)

def State.pmmAlloc (s : State σ) : BitVec 64 × State σ :=
  let (page, mem, frames) := alloc s.mem s.frames
  (page, { s with mem, frames, handed := s.handed ++ [page] })

-- The first n turns of the loop that clears a table.
def zeroTable (m : Memory 64) (pt : BitVec 64) : Nat → Memory 64
  | 0 => m
  | n + 1 => writeEntry (zeroTable m pt n) pt (BitVec.ofNat 64 n) 0

-- It halts (none) when pmm_alloc returns NULL.
def allocPageTable (s : State σ) : Option (BitVec 64 × State σ) :=
  let (page, s) := s.pmmAlloc alloc
  if page = 0 then none
  else some (page, { s with mem := zeroTable s.mem (s.physToVirt page) 512 })

def ensureTable (table index : BitVec 64) (s : State σ) : Option (BitVec 64 × State σ) :=
  if readEntry s.mem table index &&& ptePresent = 0 then
    match allocPageTable alloc s with
    | none => none
    | some (newTable, s) =>
        let mem := writeEntry s.mem table index (newTable ||| ptePresent ||| pteWrite ||| pteUser)
        some (s.physToVirt (readEntry mem table index &&& ~~~0xFFF), { s with mem })
  else
    let mem := writeEntry s.mem table index (readEntry s.mem table index ||| (pteUser ||| pteWrite))
    some (s.physToVirt (readEntry mem table index &&& ~~~0xFFF), { s with mem })

def vmmMapPage (virt phys flags : BitVec 64) (s : State σ) : Option (State σ) :=
  match ensureTable alloc s.pml4 (pml4Index virt) s with
  | none => none
  | some (pdpt, s) =>
      match ensureTable alloc pdpt (pdptIndex virt) s with
      | none => none
      | some (pd, s) =>
          match ensureTable alloc pd (pdIndex virt) s with
          | none => none
          | some (pt, s) =>
              some { s with
                mem := writeEntry s.mem pt (ptIndex virt)
                  ((phys &&& ~~~0xFFF) ||| flags ||| ptePresent) }

-- The first n turns of vmm_map_range's loop.
def mapTurns (virt phys flags : BitVec 64) : Nat → State σ → Option (State σ)
  | 0, s => some s
  | n + 1, s =>
      match mapTurns virt phys flags n s with
      | none => none
      | some s =>
          vmmMapPage alloc (virt + BitVec.ofNat 64 n * pageSize) (phys + BitVec.ofNat 64 n * pageSize)
            flags s

end Allocating

def vmmUnmapPage (virt : BitVec 64) (s : State σ) : State σ :=
  let pdpt := s.physToVirt (readEntry s.mem s.pml4 (pml4Index virt) &&& ~~~0xFFF)
  if pdpt = 0 then s
  else
    let pd := s.physToVirt (readEntry s.mem pdpt (pdptIndex virt) &&& ~~~0xFFF)
    if pd = 0 then s
    else
      let pt := s.physToVirt (readEntry s.mem pd (pdIndex virt) &&& ~~~0xFFF)
      if pt = 0 then s
      else { s with mem := writeEntry s.mem pt (ptIndex virt) 0 }

-- The page count of both range functions.
def rangePages (size : BitVec 64) : BitVec 64 := (size + pageSize - 1) / pageSize

def vmmMapRange (alloc : Memory 64 → σ → BitVec 64 × Memory 64 × σ)
    (virt phys size flags : BitVec 64) (s : State σ) : Option (State σ) :=
  mapTurns alloc virt phys flags (rangePages size).toNat s

def unmapTurns (virt : BitVec 64) : Nat → State σ → State σ
  | 0, s => s
  | n + 1, s => vmmUnmapPage (virt + BitVec.ofNat 64 n * pageSize) (unmapTurns virt n s)

def vmmUnmapRange (virt size : BitVec 64) (s : State σ) : State σ :=
  unmapTurns virt (rangePages size).toNat s

def vmmVirtToPhys (virt : BitVec 64) (s : State σ) : BitVec 64 :=
  let pdpt := s.physToVirt (readEntry s.mem s.pml4 (pml4Index virt) &&& ~~~0xFFF)
  if pdpt = 0 then 0
  else
    let pd := s.physToVirt (readEntry s.mem pdpt (pdptIndex virt) &&& ~~~0xFFF)
    if pd = 0 then 0
    else
      let pt := s.physToVirt (readEntry s.mem pd (pdIndex virt) &&& ~~~0xFFF)
      if pt = 0 then 0
      else readEntry s.mem pt (ptIndex virt) &&& ~~~0xFFF

-- init_vmm adopts the tree the boot loader left in cr3; none: it halts.
def initVmm (cr3 : BitVec 64) (s : State σ) : Option (State σ) :=
  let pml4 := s.physToVirt (cr3 &&& ~~~0xFFF)
  if pml4 = 0 then none else some { s with pml4 }

end Miyabi.Mm.Vmm
