import Miyabi.Base.Memory
import Miyabi.Mm.Paging

namespace Miyabi.Mm.Heap

open Miyabi.Base

-- src/mm/heap.c

def heapStart : BitVec 64 := 0xFFFFFFFFC0000000
def heapInitialSize : BitVec 64 := 16 * 1024 * 1024
def heapPageFlags : BitVec 64 := ptePresent ||| pteWrite

-- sizeof(heap_block_t): size at 0, is_free at 8, next at 16.
def headerSize : BitVec 64 := 24

-- One vmm_map_page call made by heap_expand.
structure Mapping where
  virt : BitVec 64
  phys : BitVec 64
  flags : BitVec 64

-- The kernel's virtual memory and the statics of heap.c. A byte of a page not
-- mapped yet is the byte that the page will show once it is mapped.
structure State where
  mem : Memory 64
  head : BitVec 64
  heapEnd : BitVec 64
  frames : FrameSupply
  mapped : List Mapping

def blockSize (m : Memory 64) (block : BitVec 64) : BitVec 64 := m.load64 block
def blockIsFree (m : Memory 64) (block : BitVec 64) : Bool := m (block + 8) != 0
def blockNext (m : Memory 64) (block : BitVec 64) : BitVec 64 := m.load64 (block + 16)

def setSize (m : Memory 64) (block size : BitVec 64) : Memory 64 := m.store64 block size

def setIsFree (m : Memory 64) (block : BitVec 64) (isFree : Bool) : Memory 64 :=
  m.store8 (block + 8) (if isFree then 1 else 0)

def setNext (m : Memory 64) (block next : BitVec 64) : Memory 64 := m.store64 (block + 16) next

def alignUp (x align : BitVec 64) : BitVec 64 := (x + align - 1) &&& ~~~(align - 1)

-- The loop of heap_expand. It halts (none) when pmm_alloc returns NULL.
def mapPages : Nat → State → Option State
  | 0, h => some h
  | n + 1, h =>
      let (phys, frames) := h.frames.pmmAlloc
      if phys = 0 then none
      else mapPages n
        { h with
          frames
          mapped := ⟨h.heapEnd, phys, heapPageFlags⟩ :: h.mapped
          heapEnd := h.heapEnd + pageSize }

def heapExpand (bytes : BitVec 64) (h : State) : Option (BitVec 64 × State) :=
  let needed := alignUp bytes pageSize
  let pages := needed / pageSize
  let startVirt := h.heapEnd
  match mapPages pages.toNat h with
  | none => none
  | some h =>
      let m := setSize h.mem startVirt (needed - headerSize)
      let m := setIsFree m startVirt true
      let m := setNext m startVirt 0
      some (startVirt, { h with mem := m })

def initHeap (h : State) : Option State :=
  match heapExpand heapInitialSize h with
  | none => none
  | some (head, h) => some { h with head }

-- The search loop of kmalloc: the block found (NULL if none) and `last`.
-- A walk that ends visits no address twice, so 2^64 steps are enough.
def findFit (m : Memory 64) (size : BitVec 64) :
    Nat → BitVec 64 → BitVec 64 → Option (BitVec 64 × BitVec 64)
  | 0, _, _ => none
  | fuel + 1, current, last =>
      if current = 0 then some (0, last)
      else if blockIsFree m current ∧ size ≤ blockSize m current then some (current, last)
      else findFit m size fuel (blockNext m current) current

-- The two places of kmalloc that cut the rest off a block do the same steps.
def splitBlock (m : Memory 64) (block size : BitVec 64) : Memory 64 :=
  if size + headerSize + 16 ≤ blockSize m block then
    let newBlock := block + headerSize + size
    let m := setSize m newBlock (blockSize m block - size - headerSize)
    let m := setIsFree m newBlock true
    let m := setNext m newBlock (blockNext m block)
    let m := setSize m block size
    setNext m block newBlock
  else m

def kmalloc (size : BitVec 64) (h : State) : Option (BitVec 64 × State) :=
  if size = 0 then some (0, h)
  else
    let size := alignUp size 16
    match findFit h.mem size (2 ^ 64) h.head 0 with
    | none => none
    | some (current, last) =>
        if current ≠ 0 then
          let m := splitBlock h.mem current size
          let m := setIsFree m current false
          some (current + headerSize, { h with mem := m })
        else
          match heapExpand (size + headerSize) h with
          | none => none
          | some (newBlock, h) =>
              let m := if last ≠ 0 then setNext h.mem last newBlock else h.mem
              let head := if last = 0 ∧ h.head = 0 then newBlock else h.head
              let m := splitBlock m newBlock size
              let m := setIsFree m newBlock false
              some (newBlock + headerSize, { h with mem := m, head })

-- The inner loop of kfree.
def mergeNext (m : Memory 64) (current : BitVec 64) : Nat → Option (Memory 64)
  | 0 => none
  | fuel + 1 =>
      if blockIsFree m current ∧ blockNext m current ≠ 0 ∧
          blockIsFree m (blockNext m current) then
        let next := blockNext m current
        let m := setSize m current (blockSize m current + (headerSize + blockSize m next))
        let m := setNext m current (blockNext m next)
        mergeNext m current fuel
      else some m

-- The outer loop of kfree.
def coalesce (m : Memory 64) (current : BitVec 64) : Nat → Option (Memory 64)
  | 0 => none
  | fuel + 1 =>
      if current = 0 then some m
      else
        match mergeNext m current (2 ^ 64) with
        | none => none
        | some m => coalesce m (blockNext m current) fuel

def kfree (ptr : BitVec 64) (h : State) : Option State :=
  if ptr = 0 then some h
  else
    let m := setIsFree h.mem (ptr - headerSize) true
    match coalesce m h.head (2 ^ 64) with
    | none => none
    | some m => some { h with mem := m }

end Miyabi.Mm.Heap
