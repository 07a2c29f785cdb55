import Miyabi.Mm.Heap.Theorems

namespace Miyabi.Mm.Heap

open Miyabi.Base

namespace System

-- The calls of the heap's interface with their results. none: the call does not return.
def kmalloc (s : System) (size : BitVec 64) : Option (BitVec 64 × System) :=
  match Heap.kmalloc size s.heap with
  | none => none
  | some (ptr, heap) => some (ptr, ⟨heap, if ptr = 0 then s.live else ⟨ptr, size⟩ :: s.live⟩)

def kfree (s : System) (ptr : BitVec 64) : Option System := s.step (.kfree ptr)

def mem (s : System) : Memory 64 := s.heap.mem

-- A client has written to the memory.
def setMem (s : System) (m : Memory 64) : System := { s with heap := { s.heap with mem := m } }

@[simp] theorem setMem_mem (s : System) (m : Memory 64) : (s.setMem m).heap.mem = m := rfl

@[simp] theorem setMem_head (s : System) (m : Memory 64) : (s.setMem m).heap.head = s.heap.head := rfl

theorem kmalloc_step {s s' : System} {size ptr : BitVec 64} (h : s.kmalloc size = some (ptr, s')) :
    s.step (.kmalloc size) = some s' := by
  unfold System.kmalloc at h
  unfold System.step
  cases hk : Heap.kmalloc size s.heap with
  | none => simp [hk] at h
  | some r =>
      simp only [hk, Option.some.injEq, Prod.mk.injEq] at h ⊢
      obtain ⟨rfl, rfl⟩ := h
      rfl

theorem kmalloc_search {s : System} {size current last : BitVec 64} (hsize : size ≠ 0)
    (hf : findFit s.heap.mem (alignUp size 16) (2 ^ 64) s.heap.head 0 = some (current, last))
    (hz : current ≠ 0) (hne : current + headerSize ≠ 0) :
    s.kmalloc size = some (current + headerSize,
      ⟨{ s.heap with mem := carved s.heap.mem current (alignUp size 16) },
        ⟨current + headerSize, size⟩ :: s.live⟩) := by
  unfold System.kmalloc
  rw [kmalloc_found hsize hf hz]
  dsimp only
  rw [if_neg hne]

-- A request that does not move heap_end is permitted.
theorem permitted_search {s s' : System} {size ptr : BitVec 64} (hreq : RequestFits size)
    (h : s.kmalloc size = some (ptr, s')) (hend : s'.heap.heapEnd = s.heap.heapEnd) :
    Permitted s (.kmalloc size) := by
  refine ⟨hreq, fun s2 hs2 => ?_⟩
  rw [Option.some.inj (hs2.symm.trans (kmalloc_step h)), hend]
  exact BitVec.le_refl _

end System

end Miyabi.Mm.Heap
