import Miyabi.Base.Linked
import Miyabi.Base.Tiling
import Miyabi.Mm.Heap.Header

namespace Miyabi.Mm.Heap

open Miyabi.Base Miyabi.Base.Memory Miyabi.Base.Linked Miyabi.Base.Tiling

-- A heap block as the allocator's clients think of it.
structure Block where
  addr : BitVec 64
  size : BitVec 64
  isFree : Bool

def Block.start (b : Block) : Nat := b.addr.toNat

-- Header and payload.
def Block.len (b : Block) : Nat := 24 + b.size.toNat

def Block.payload (b : Block) : BitVec 64 := b.addr + headerSize

def Block.Holds (m : Memory 64) (b : Block) : Prop :=
  blockSize m b.addr = b.size ∧ blockIsFree m b.addr = b.isFree

abbrev Chain (m : Memory 64) : BitVec 64 → List Block → BitVec 64 → Prop :=
  Segment (blockNext m) Block.addr (Block.Holds m)

abbrev BlockTiles : Nat → List Block → Nat → Prop := Tiles Block.start Block.len

-- The block list in memory is `bs`, and it tiles the heap.
structure Layout (h : State) (bs : List Block) : Prop where
  chain : Chain h.mem h.head bs 0
  tiles : BlockTiles heapStart.toNat bs h.heapEnd.toNat

theorem chain_congr {m m' : Memory 64} {p q : BitVec 64} {bs : List Block}
    (h : Chain m p bs q) (hm : ∀ b ∈ bs, Agree m m' b.addr 24) : Chain m' p bs q := by
  refine segment_congr h (fun b hb => ⟨blockNext_congr (hm b hb), fun hh => ?_⟩)
  exact ⟨(blockSize_congr (hm b hb)).trans hh.1, (blockIsFree_congr (hm b hb)).trans hh.2⟩

-- Blocks of a tiling that ends inside the address space have apart extents.
theorem header_apart {a b : Block} (ha : a.start + a.len ≤ 2 ^ 64)
    (hb : b.start + b.len ≤ 2 ^ 64)
    (h : a.start + a.len ≤ b.start ∨ b.start + b.len ≤ a.start) :
    Apart a.addr 24 b.addr b.len := by
  simp only [Block.start, Block.len] at *
  rcases h with h | h
  · exact apart_of_le a.addr b.addr 24 _ (by omega) (by omega)
  · exact (apart_of_le b.addr a.addr _ 24 (by omega) (by omega)).symm

section Tiled

variable {lo hi : Nat} {bs : List Block} {b : Block}

theorem blockTiles_middle (pre post : List Block) (b : Block) :
    BlockTiles lo (pre ++ b :: post) hi ↔
      BlockTiles lo pre b.start ∧ BlockTiles (b.start + b.len) post hi :=
  tiles_middle pre post b

theorem tiled_in_space (ht : BlockTiles lo bs hi) (hhi : hi ≤ 2 ^ 64) (hb : b ∈ bs) :
    b.start + b.len ≤ 2 ^ 64 :=
  (tiles_bounds ht hb).2.trans hhi

theorem pre_header_apart (pre post : List Block)
    (ht : BlockTiles lo (pre ++ b :: post) hi) (hhi : hi ≤ 2 ^ 64) {c : Block} (hc : c ∈ pre) :
    Apart c.addr 24 b.addr b.len := by
  have hm := (blockTiles_middle pre post b).mp ht
  exact header_apart (tiled_in_space ht hhi (by simp [hc])) (tiled_in_space ht hhi (by simp))
    (Or.inl (tiles_bounds hm.1 hc).2)

theorem post_header_apart (pre post : List Block)
    (ht : BlockTiles lo (pre ++ b :: post) hi) (hhi : hi ≤ 2 ^ 64) {c : Block} (hc : c ∈ post) :
    Apart c.addr 24 b.addr b.len := by
  have hm := (blockTiles_middle pre post b).mp ht
  exact header_apart (tiled_in_space ht hhi (by simp [hc])) (tiled_in_space ht hhi (by simp))
    (Or.inr (tiles_bounds hm.2 hc).1)

theorem tiled_length_lt (ht : BlockTiles lo bs hi) (hhi : hi ≤ 2 ^ 64) :
    bs.length < 2 ^ 64 := by
  have h := tiles_length ht 24 (fun b _ => by simp only [Block.len]; omega)
  omega

theorem tiled_addr_ne_zero (ht : BlockTiles lo bs hi) (hlo : 0 < lo) (hb : b ∈ bs) :
    b.addr ≠ 0 := by
  have h := (tiles_bounds ht hb).1
  intro hz
  simp only [Block.start, hz, BitVec.ofNat_eq_ofNat, BitVec.toNat_ofNat, Nat.zero_mod] at h
  omega

end Tiled

-- Rewriting inside one block leaves the walk up to it and the walk behind it alone.
theorem chain_replace {m m' : Memory 64} {p : BitVec 64} {lo hi : Nat}
    {pre post mid : List Block} {b : Block} (hc : Chain m p (pre ++ b :: post) 0)
    (ht : BlockTiles lo (pre ++ b :: post) hi) (hhi : hi ≤ 2 ^ 64)
    (hm : KeepsOutside m m' b.addr b.len)
    (hmid : Chain m' b.addr mid (blockNext m b.addr)) : Chain m' p (pre ++ mid ++ post) 0 := by
  obtain ⟨hpre, -, hpost⟩ := (segment_middle pre post b).mp hc
  rw [List.append_assoc]
  refine (segment_append pre (mid ++ post)).mpr
    ⟨b.addr, chain_congr hpre (fun c h => hm.agree (pre_header_apart pre post ht hhi h)), ?_⟩
  exact (segment_append mid post).mpr
    ⟨_, hmid, chain_congr hpost (fun c h => hm.agree (post_header_apart pre post ht hhi h))⟩

end Miyabi.Mm.Heap
