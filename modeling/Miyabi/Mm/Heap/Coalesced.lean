import Mathlib.Data.List.Chain
import Miyabi.Mm.Heap.Steps

namespace Miyabi.Mm.Heap

open Miyabi.Base Miyabi.Base.Memory Miyabi.Base.Linked Miyabi.Base.Tiling

-- No two consecutive blocks are both free.
def NoFreePair (bs : List Block) : Prop :=
  bs.IsChain fun a b => ¬(a.isFree = true ∧ b.isFree = true)

-- Coalescing keeps the first block's place and flag.
theorem coalesceFrom_head (b : Block) (rest : List Block) :
    ∃ c tail, coalesceFrom b rest = c :: tail ∧ c.isFree = b.isFree := by
  induction rest generalizing b with
  | nil => exact ⟨b, [], rfl, rfl⟩
  | cons c rest ih =>
      simp only [coalesceFrom]
      split
      · exact ih (b.merge c)
      · exact ⟨b, coalesceFrom c rest, rfl, rfl⟩

theorem noFreePair_coalesceFrom (b : Block) (rest : List Block) :
    NoFreePair (coalesceFrom b rest) := by
  induction rest generalizing b with
  | nil => exact List.isChain_singleton b
  | cons c rest ih =>
      simp only [coalesceFrom]
      split
      · exact ih (b.merge c)
      · rename_i hf
        obtain ⟨d, tail, he, hd⟩ := coalesceFrom_head c rest
        have hc := ih c
        rw [he] at hc ⊢
        exact List.isChain_cons_cons.mpr ⟨by rwa [hd], hc⟩

theorem noFreePair_coalesced (bs : List Block) : NoFreePair (coalesced bs) := by
  cases bs with
  | nil => exact List.isChain_nil
  | cons b rest => exact noFreePair_coalesceFrom b rest

-- A part of the list without a free pair, seam included, is passed over.
theorem coalesced_append (pre rest : List Block) (b : Block) (h : NoFreePair (pre ++ [b])) :
    coalesced (pre ++ b :: rest) = pre ++ coalesceFrom b rest := by
  induction pre with
  | nil => rfl
  | cons a pre ih =>
      have ht : NoFreePair (pre ++ [b]) := List.IsChain.tail h
      cases pre with
      | nil =>
          have hab := (List.isChain_cons_cons.mp h).1
          simp only [List.cons_append, List.nil_append, coalesced, coalesceFrom, hab, if_false]
      | cons c pre =>
          have hac := (List.isChain_cons_cons.mp h).1
          have hi := ih ht
          simp only [List.cons_append, coalesced] at hi
          simp only [List.cons_append, coalesced, coalesceFrom, hac, if_false, hi]

theorem coalesceFrom_of_noFreePair (b : Block) (rest : List Block) (h : NoFreePair (b :: rest)) :
    coalesceFrom b rest = b :: rest := by
  induction rest generalizing b with
  | nil => rfl
  | cons c rest ih =>
      obtain ⟨hbc, hc⟩ := List.isChain_cons_cons.mp h
      simp only [coalesceFrom, hbc, if_false, ih c hc]

-- The flags alone decide, so a block may be exchanged for one with its flag.
theorem noFreePair_middle (pre post : List Block) (b : Block) :
    NoFreePair (pre ++ b :: post) ↔ NoFreePair (pre ++ [b]) ∧ NoFreePair (b :: post) :=
  List.isChain_split

theorem noFreePair_congr_last {pre : List Block} {b c : Block} (hf : b.isFree = c.isFree)
    (h : NoFreePair (pre ++ [b])) : NoFreePair (pre ++ [c]) := by
  obtain ⟨hpre, -, hlast⟩ := List.isChain_append.mp h
  refine List.isChain_append.mpr ⟨hpre, List.isChain_singleton c, fun x hx y hy => ?_⟩
  cases hy
  rw [← hf]
  exact hlast x hx b rfl

theorem noFreePair_last_used {pre : List Block} {b : Block} (h : NoFreePair pre)
    (hb : b.isFree = false) : NoFreePair (pre ++ [b]) := by
  refine List.isChain_append.mpr ⟨h, List.isChain_singleton b, fun x _ y hy => ?_⟩
  cases hy
  simp [hb]

theorem noFreePair_cons_used {b : Block} {post : List Block} (h : NoFreePair post)
    (hb : b.isFree = false) : NoFreePair (b :: post) :=
  List.isChain_cons.mpr ⟨fun y _ => by simp [hb], h⟩

-- What an allocation leaves of the block it takes, behind the used front.
def back (size : BitVec 64) (b : Block) : List Block :=
  if size + headerSize + 16 ≤ b.size then
    [⟨b.addr + headerSize + size, b.size - size - headerSize, true⟩]
  else []

theorem carve_eq (size : BitVec 64) (b : Block) : carve size b = front size b :: back size b := by
  unfold carve front back
  split <;> rfl

-- A free block in front of `post` may be carved.
theorem noFreePair_carve (size : BitVec 64) {b : Block} (post : List Block)
    (hb : b.isFree = true) (h : NoFreePair (b :: post)) : NoFreePair (carve size b ++ post) := by
  rw [carve_eq, List.cons_append]
  apply noFreePair_cons_used _ rfl
  unfold back
  split
  · obtain ⟨hhead, htail⟩ := List.isChain_cons.mp h
    refine List.isChain_cons.mpr ⟨fun y hy => ?_, htail⟩
    simpa [hb] using hhead y hy
  · exact List.IsChain.tail h

theorem noFreePair_reuse (size : BitVec 64) {pre post : List Block} {b : Block}
    (hb : b.isFree = true) (h : NoFreePair (pre ++ b :: post)) :
    NoFreePair (pre ++ carve size b ++ post) := by
  obtain ⟨hpre, hpost⟩ := (noFreePair_middle pre post b).mp h
  have hc := noFreePair_carve size post hb hpost
  rw [List.append_assoc]
  rw [carve_eq, List.cons_append] at hc ⊢
  refine (noFreePair_middle pre _ _).mpr ⟨?_, hc⟩
  exact noFreePair_last_used (List.isChain_append.mp hpre).1 rfl

theorem noFreePair_grow (size : BitVec 64) {bs : List Block} {b : Block} (hb : b.isFree = true)
    (h : NoFreePair bs) : NoFreePair (bs ++ carve size b) := by
  have hc := noFreePair_carve size [] hb (List.isChain_singleton b)
  rw [List.append_nil] at hc
  rw [carve_eq] at hc ⊢
  exact (noFreePair_middle bs _ _).mpr ⟨noFreePair_last_used h rfl, hc⟩

-- Giving the front of a carved block back restores the block: the rest is
-- merged into it again.
theorem coalesceFrom_front {size : BitVec 64} {b : Block} (hb : b.isFree = true)
    (post : List Block) :
    coalesceFrom (front size b).freed (back size b ++ post) = coalesceFrom b post := by
  unfold front back
  split
  · have hm : (Block.freed ⟨b.addr, size, false⟩).merge
        ⟨b.addr + headerSize + size, b.size - size - headerSize, true⟩ = b := by
      have hs : size + (headerSize + (b.size - size - headerSize)) = b.size := by ring
      cases b
      simp_all [Block.merge, Block.freed]
    simp only [List.cons_append, List.nil_append, coalesceFrom, hm]
    simp [Block.freed]
  · cases b
    simp_all [Block.freed]

-- The same behind a free block that ends where the carved one starts.
theorem coalesceFrom_front_merge {size : BitVec 64} {a b : Block} (ha : a.isFree = true)
    (post : List Block) :
    coalesceFrom a ((front size b).freed :: (back size b ++ post)) =
      coalesceFrom (a.merge b) post := by
  have hf : (front size b).freed.isFree = true := rfl
  simp only [coalesceFrom, ha, hf, and_self, if_true]
  unfold front back
  split
  · have hm : (a.merge (Block.freed ⟨b.addr, size, false⟩)).merge
        ⟨b.addr + headerSize + size, b.size - size - headerSize, true⟩ = a.merge b := by
      have hs : a.size + (headerSize + size) + (headerSize + (b.size - size - headerSize)) =
          a.size + (headerSize + b.size) := by ring
      simp only [Block.merge, Block.freed, hs]
    simp only [List.cons_append, List.nil_append, coalesceFrom, hm]
    simp [Block.merge, ha]
  · rfl

end Miyabi.Mm.Heap
