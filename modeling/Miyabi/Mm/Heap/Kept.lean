import Miyabi.Mm.Heap.Fresh
import Miyabi.Mm.Heap.Window

namespace Miyabi.Mm.Heap

open Miyabi.Base Miyabi.Base.Memory Miyabi.Base.Linked Miyabi.Base.Tiling

section Served

variable {s s' : System} {bs : List Block} {size ptr : BitVec 64}

-- The allocation of a call: a used block of its own behind the start of the heap, and
-- the contents of the others kept.
theorem Tidy.kmalloc_cases (h : Tidy s bs) (hp : Permitted s (.kmalloc size))
    (hk : s.kmalloc size = some (ptr, s')) (hne : ptr ≠ 0) :
    Heap.kmalloc size s.heap = some (ptr, s'.heap) ∧
      ∃ bs' b, ptr = b.payload ∧ Allocated size s.heap bs s'.heap bs' b := by
  have hsize : size ≠ 0 := by
    rintro rfl
    unfold System.kmalloc at hk
    simp only [Heap.kmalloc, if_true, Option.some.injEq, Prod.mk.injEq] at hk
    exact hne hk.1.symm
  have hend := hp.2 s' (System.kmalloc_step hk)
  unfold System.kmalloc at hk
  split at hk
  · cases hk
  · rename_i p heap hheap
    obtain ⟨rfl, rfl⟩ := Prod.mk.inj (Option.some.inj hk)
    obtain ⟨bs', b, hptr, -, ha⟩ := kmalloc_served h.layout h.nonempty hsize hp.1 hheap hend
    exact ⟨hheap, bs', b, hptr, ha⟩

theorem Tidy.kmalloc_live_spared (h : Tidy s bs) (hp : Permitted s (.kmalloc size))
    (hk : s.kmalloc size = some (ptr, s')) (hne : ptr ≠ 0) {a : Alloc} (ha : a ∈ s.live) :
    Agree s.mem s'.mem a.ptr a.size.toNat ∧ Apart ptr size.toNat a.ptr a.size.toNat := by
  obtain ⟨-, bs', b, rfl, hall⟩ := h.kmalloc_cases hp hk hne
  obtain ⟨x, hx, hxp⟩ := h.owners.exists_block ha
  have hxs := h.owners.sizes a ha x hx hxp
  refine ⟨fun y hy => hall.keeps x hx y (hxp ▸ inRange_mono _ y hxs hy), ?_⟩
  have hlt := s'.heap.heapEnd.isLt
  have hmem {c : Block} (hc : c ∈ b :: usedBlocks bs) : c ∈ bs' :=
    (mem_usedBlocks.mp (hall.used.mem_iff.mpr hc)).1
  have hnodup := (hall.used.map Block.payload).nodup_iff.mp (usedBlocks_nodup hall.layout.tiles hlt)
  have hdistinct : b ≠ x := by
    rintro rfl
    exact (List.nodup_cons.mp hnodup).1 (List.mem_map_of_mem hx)
  rw [← hxp]
  exact (payloads_apart hall.layout.tiles hlt (hmem List.mem_cons_self)
    (hmem (List.mem_cons_of_mem b hx)) hdistinct).mono hall.size_le hxs

theorem Tidy.kmalloc_below_spared (h : Tidy s bs) (hp : Permitted s (.kmalloc size))
    (hk : s.kmalloc size = some (ptr, s')) (hne : ptr ≠ 0) {a : BitVec 64} {n : ℕ}
    (ha : a.toNat + n ≤ heapStart.toNat) :
    Agree s.mem s'.mem a n ∧ Apart ptr size.toNat a n := by
  obtain ⟨hheap, bs', b, rfl, hall⟩ := h.kmalloc_cases hp hk hne
  have hstart := heapStart.isLt
  constructor
  · intro x hx
    rw [inRange_iff a x n (by omega)] at hx
    exact kmalloc_below h (hasRoom_of_permitted h hp (System.kmalloc_step hk)) hheap x (by omega)
  · have hlt := s'.heap.heapEnd.isLt
    have hb : b ∈ bs' := (mem_usedBlocks.mp (hall.used.mem_iff.mpr List.mem_cons_self)).1
    have hpayload := payload_toNat hall.layout.tiles hlt hb
    have hbounds := tiles_bounds hall.layout.tiles hb
    have hfit := BitVec.le_def.mp hall.size_le
    simp only [Block.start, Block.len] at hbounds hpayload
    exact (apart_of_le a b.payload n size.toNat (by omega) (by omega)).symm

end Served

end Miyabi.Mm.Heap
