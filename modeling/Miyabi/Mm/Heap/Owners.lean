import Mathlib.Data.List.Nodup
import Miyabi.Mm.Heap.Kfree

namespace Miyabi.Mm.Heap

open Miyabi.Base Miyabi.Base.Memory Miyabi.Base.Linked Miyabi.Base.Tiling

def usedBlocks (bs : List Block) : List Block := bs.filter (fun b => !b.isFree)

theorem mem_usedBlocks {bs : List Block} {b : Block} :
    b ∈ usedBlocks bs ↔ b ∈ bs ∧ b.isFree = false := by
  simp [usedBlocks]

-- The used part of a carved block.
def front (size : BitVec 64) (b : Block) : Block :=
  ⟨b.addr, if size + headerSize + 16 ≤ b.size then size else b.size, false⟩

theorem usedBlocks_carve (size : BitVec 64) (b : Block) :
    usedBlocks (carve size b) = [front size b] := by
  simp only [usedBlocks, carve, front]
  split <;> rfl

theorem carve_ne_nil (size : BitVec 64) (b : Block) : carve size b ≠ [] := by
  unfold carve
  split <;> simp

theorem size_le_front {size : BitVec 64} {b : Block} (h : size ≤ b.size) :
    size ≤ (front size b).size := by
  simp only [front]
  split
  · exact BitVec.le_refl size
  · exact h

theorem usedBlocks_coalesceFrom (b : Block) (rest : List Block) :
    usedBlocks (coalesceFrom b rest) = usedBlocks (b :: rest) := by
  induction rest generalizing b with
  | nil => rfl
  | cons c rest ih =>
      simp only [coalesceFrom]
      split
      · rename_i hf
        rw [ih]
        simp [usedBlocks, Block.merge, hf.1, hf.2]
      · have hi := ih c
        unfold usedBlocks at hi ⊢
        rw [List.filter_cons, hi, List.filter_cons (x := b)]

theorem usedBlocks_coalesced (bs : List Block) : usedBlocks (coalesced bs) = usedBlocks bs := by
  cases bs with
  | nil => rfl
  | cons b rest => exact usedBlocks_coalesceFrom b rest

theorem coalesceFrom_ne_nil (b : Block) (rest : List Block) : coalesceFrom b rest ≠ [] := by
  induction rest generalizing b with
  | nil => simp [coalesceFrom]
  | cons c rest ih =>
      simp only [coalesceFrom]
      split
      · exact ih _
      · simp

section Apartness

variable {lo hi : Nat} {bs : List Block}

theorem payload_toNat (ht : BlockTiles lo bs hi) (hhi : hi < 2 ^ 64) {b : Block} (hb : b ∈ bs) :
    b.payload.toNat = b.start + 24 ∧ b.payload.toNat + b.size.toNat = b.start + b.len := by
  have hbound := tiles_bounds ht hb
  simp only [Block.start, Block.len] at hbound
  simp only [Block.payload, Block.start, Block.len, headerSize]
  bv_omega

theorem payload_injective (ht : BlockTiles lo bs hi) (hhi : hi < 2 ^ 64) {a b : Block}
    (ha : a ∈ bs) (hb : b ∈ bs) (he : a.payload = b.payload) : a = b := by
  have hpa := payload_toNat ht hhi ha
  have hpb := payload_toNat ht hhi hb
  rw [he] at hpa
  rcases tiles_apart ht ha hb with h | h | h
  · exact h
  · simp only [Block.len] at h
    omega
  · simp only [Block.len] at h
    omega

theorem payload_header_apart (ht : BlockTiles lo bs hi) (hhi : hi < 2 ^ 64) {a b : Block}
    (ha : a ∈ bs) (hb : b ∈ bs) : Apart a.payload a.size.toNat b.addr 24 := by
  have hpa := payload_toNat ht hhi ha
  have hba := tiles_bounds ht ha
  have hbb := tiles_bounds ht hb
  have hlb : 24 ≤ b.len := by simp only [Block.len]; omega
  rcases tiles_apart ht ha hb with rfl | h | h
  · exact (apart_of_le _ _ 24 _ (by simp only [Block.start] at *; omega) (by omega)).symm
  · exact apart_of_le _ _ _ 24 (by simp only [Block.start] at *; omega)
      (by simp only [Block.start] at *; omega)
  · exact (apart_of_le _ _ 24 _ (by simp only [Block.start] at *; omega) (by omega)).symm

theorem payload_block_apart (ht : BlockTiles lo bs hi) (hhi : hi < 2 ^ 64) {a b : Block}
    (ha : a ∈ bs) (hb : b ∈ bs) (hne : a ≠ b) : Apart a.payload a.size.toNat b.addr b.len := by
  have hpa := payload_toNat ht hhi ha
  have hba := tiles_bounds ht ha
  have hbb := tiles_bounds ht hb
  rcases tiles_apart ht ha hb with h | h | h
  · exact absurd h hne
  · exact apart_of_le _ _ _ _ (by simp only [Block.start] at *; omega)
      (by simp only [Block.start] at *; omega)
  · exact (apart_of_le _ _ _ _ (by simp only [Block.start] at *; omega) (by omega)).symm

theorem payloads_apart (ht : BlockTiles lo bs hi) (hhi : hi < 2 ^ 64) {a b : Block}
    (ha : a ∈ bs) (hb : b ∈ bs) (hne : a ≠ b) :
    Apart a.payload a.size.toNat b.payload b.size.toNat := by
  have hpa := payload_toNat ht hhi ha
  have hpb := payload_toNat ht hhi hb
  have hba := tiles_bounds ht ha
  have hbb := tiles_bounds ht hb
  rcases tiles_apart ht ha hb with h | h | h
  · exact absurd h hne
  · exact apart_of_le _ _ _ _ (by omega) (by omega)
  · exact (apart_of_le _ _ _ _ (by omega) (by omega)).symm

theorem usedBlocks_nodup (ht : BlockTiles lo bs hi) (hhi : hi < 2 ^ 64) :
    ((usedBlocks bs).map Block.payload).Nodup := by
  have hp : bs.Pairwise (fun a b => a.payload ≠ b.payload) := by
    refine (tiles_pairwise ht).imp_of_mem ?_
    intro a b ha hb hab he
    have hpa := payload_toNat ht hhi ha
    have hpb := payload_toNat ht hhi hb
    rw [he] at hpa
    simp only [Block.len] at hab
    omega
  exact List.pairwise_map.mpr (hp.filter _)

end Apartness

-- A client's view of one successful request.
structure Alloc where
  ptr : BitVec 64
  size : BitVec 64

-- The live allocations are exactly the payloads of the used blocks.
structure Owners (used : List Block) (live : List Alloc) : Prop where
  pointers : (live.map Alloc.ptr).Perm (used.map Block.payload)
  sizes : ∀ a ∈ live, ∀ b ∈ used, b.payload = a.ptr → a.size ≤ b.size

theorem Owners.exists_block {used : List Block} {live : List Alloc} (h : Owners used live)
    {a : Alloc} (ha : a ∈ live) : ∃ b ∈ used, b.payload = a.ptr := by
  have hm := h.pointers.mem_iff.mp (List.mem_map_of_mem ha)
  exact List.mem_map.mp hm

theorem Owners.exists_alloc {used : List Block} {live : List Alloc} (h : Owners used live)
    {b : Block} (hb : b ∈ used) : ∃ a ∈ live, a.ptr = b.payload := by
  have hm := h.pointers.mem_iff.mpr (List.mem_map_of_mem hb)
  exact List.mem_map.mp hm

theorem Owners.alloc {used used' : List Block} {live : List Alloc} {b : Block}
    {size : BitVec 64} (h : Owners used live) (hp : used'.Perm (b :: used))
    (hnd : (used'.map Block.payload).Nodup) (hsize : size ≤ b.size) :
    Owners used' (⟨b.payload, size⟩ :: live) := by
  have hpp : (used'.map Block.payload).Perm (b.payload :: used.map Block.payload) := hp.map _
  have hfresh := (List.nodup_cons.mp (hpp.nodup_iff.mp hnd)).1
  refine ⟨(h.pointers.cons b.payload).trans hpp.symm, ?_⟩
  intro a ha c hc he
  rw [hp.mem_iff] at hc
  rw [List.mem_cons] at ha hc
  rcases ha with rfl | ha <;> rcases hc with rfl | hc
  · exact hsize
  · exact absurd (List.mem_map.mpr ⟨c, hc, he⟩) hfresh
  · have hm := h.pointers.mem_iff.mp (List.mem_map_of_mem ha)
    rw [← he] at hm
    exact absurd hm hfresh
  · exact h.sizes a ha c hc he

theorem Owners.free {used used' : List Block} {live : List Alloc} {b : Block}
    (h : Owners used live) (hp : used.Perm (b :: used'))
    (hnd : (used.map Block.payload).Nodup) :
    Owners used' (live.filter (fun a => a.ptr ≠ b.payload)) := by
  have hpp : (used.map Block.payload).Perm (b.payload :: used'.map Block.payload) := hp.map _
  have hfresh := (List.nodup_cons.mp (hpp.nodup_iff.mp hnd)).1
  constructor
  · have hf := (h.pointers.trans hpp).filter (fun p => decide (p ≠ b.payload))
    have hself : (used'.map Block.payload).filter (fun p => decide (p ≠ b.payload)) =
        used'.map Block.payload := by
      refine List.filter_eq_self.mpr (fun p hpm => ?_)
      have hne : p ≠ b.payload := fun he => hfresh (he ▸ hpm)
      simpa using hne
    rw [List.filter_cons_of_neg (by simp), hself, List.filter_map] at hf
    exact hf
  · intro a ha c hc he
    exact h.sizes a (List.mem_filter.mp ha).1 c (hp.mem_iff.mpr (List.mem_cons_of_mem _ hc)) he

end Miyabi.Mm.Heap
