import Miyabi.Base.Word
import Miyabi.Mm.Heap.Layout

namespace Miyabi.Mm.Heap

open Miyabi.Base Miyabi.Base.Memory Miyabi.Base.Linked Miyabi.Base.Tiling

-- What an allocation makes of the block it takes: the used front and, when
-- there is room for a header and 16 bytes more, a free rest.
def carve (size : BitVec 64) (b : Block) : List Block :=
  if size + headerSize + 16 ≤ b.size then
    [⟨b.addr, size, false⟩, ⟨b.addr + headerSize + size, b.size - size - headerSize, true⟩]
  else [⟨b.addr, b.size, false⟩]

-- The memory after splitting a block and marking its front as used.
def carved (m : Memory 64) (block size : BitVec 64) : Memory 64 :=
  setIsFree (splitBlock m block size) block false

section Split

variable {size : BitVec 64} {b : Block}

theorem rest_arith (hspace : b.start + b.len ≤ 2 ^ 64) (hwrap : size.toNat + 40 < 2 ^ 64)
    (hsplit : size + headerSize + 16 ≤ b.size) :
    (b.addr + headerSize + size).toNat = b.start + 24 + size.toNat ∧
      (b.size - size - headerSize).toNat = b.size.toNat - size.toNat - 24 ∧
      size.toNat + 40 ≤ b.size.toNat := by
  simp only [Block.start, Block.len, headerSize] at *
  bv_omega

theorem carve_tiles (hspace : b.start + b.len ≤ 2 ^ 64) (hwrap : size.toNat + 40 < 2 ^ 64) :
    BlockTiles b.start (carve size b) (b.start + b.len) := by
  unfold carve
  split
  · rename_i hsplit
    obtain ⟨ha, hs, hle⟩ := rest_arith hspace hwrap hsplit
    simp only [Tiles, Block.start, Block.len, ha, hs, true_and] at *
    omega
  · simp only [Tiles, Block.start, Block.len, and_self]

end Split

-- The header of the rest lies behind the front and inside the old block.
theorem rest_header_apart {size : BitVec 64} {b : Block} (hspace : b.start + b.len ≤ 2 ^ 64)
    (hwrap : size.toNat + 40 < 2 ^ 64) (hsplit : size + headerSize + 16 ≤ b.size) :
    Apart b.addr 24 (b.addr + headerSize + size) 24 := by
  obtain ⟨ha, -, hle⟩ := rest_arith hspace hwrap hsplit
  simp only [Block.start, Block.len] at *
  exact apart_of_le _ _ 24 24 (by omega) (by omega)

theorem rest_header_inside {size : BitVec 64} {b : Block} (hspace : b.start + b.len ≤ 2 ^ 64)
    (hwrap : size.toNat + 40 < 2 ^ 64) (hsplit : size + headerSize + 16 ≤ b.size) (x : BitVec 64)
    (hx : InRange (b.addr + headerSize + size) 24 x) : InRange b.addr b.len x := by
  obtain ⟨ha, -, hle⟩ := rest_arith hspace hwrap hsplit
  simp only [Block.start, Block.len] at *
  rw [inRange_iff _ _ _ (by omega)] at hx ⊢
  omega

theorem header_inside (b : Block) (x : BitVec 64) (hx : InRange b.addr 24 x) :
    InRange b.addr b.len x :=
  inRange_mono b.addr x (by simp only [Block.len]; omega) hx

theorem carved_keeps {m : Memory 64} {size : BitVec 64} {b : Block} (hh : b.Holds m)
    (hspace : b.start + b.len ≤ 2 ^ 64) (hwrap : size.toNat + 40 < 2 ^ 64) :
    KeepsOutside m (carved m b.addr size) b.addr b.len := by
  have hfront := fun m' => (setIsFree_keeps m' b.addr false).mono (header_inside b)
  unfold carved splitBlock
  rw [hh.1]
  split
  · rename_i hsplit
    have hin := rest_header_inside hspace hwrap hsplit
    refine KeepsOutside.trans ?_ (hfront _)
    refine KeepsOutside.trans ?_ ((setNext_keeps _ _ _).mono (header_inside b))
    refine KeepsOutside.trans ?_ ((setSize_keeps _ _ _).mono (header_inside b))
    refine KeepsOutside.trans ?_ ((setNext_keeps _ _ _).mono hin)
    refine KeepsOutside.trans ?_ ((setIsFree_keeps _ _ _).mono hin)
    exact (setSize_keeps _ _ _).mono hin
  · exact hfront m

theorem carved_chain {m : Memory 64} {size : BitVec 64} {b : Block} (hh : b.Holds m)
    (hspace : b.start + b.len ≤ 2 ^ 64) (hwrap : size.toNat + 40 < 2 ^ 64) :
    Chain (carved m b.addr size) b.addr (carve size b) (blockNext m b.addr) := by
  unfold carve carved splitBlock
  rw [hh.1]
  split
  · rename_i hsplit
    have hap := rest_header_apart hspace hwrap hsplit
    generalize hnew : b.addr + headerSize + size = newBlock at hap ⊢
    simp only
    -- m1 is the memory once the header of the rest is complete but for its link.
    generalize hm1 : setIsFree (setSize m newBlock (b.size - size - headerSize)) newBlock true = m1
    have hk : KeepsOutside m m1 newBlock 24 := by
      rw [← hm1]
      exact (setSize_keeps _ _ _).trans (setIsFree_keeps _ _ _)
    rw [blockNext_congr (hk.agree hap)]
    generalize hm2 : setNext m1 newBlock (blockNext m b.addr) = m2
    generalize hm3 : setIsFree (setNext (setSize m2 b.addr size) b.addr newBlock) b.addr false = m3
    have hk3 : KeepsOutside m2 m3 b.addr 24 := by
      rw [← hm3]
      exact ((setSize_keeps _ _ _).trans (setNext_keeps _ _ _)).trans (setIsFree_keeps _ _ _)
    have hrest := hk3.agree hap.symm
    have hnext : blockNext m3 b.addr = newBlock := by simp [← hm3]
    refine ⟨rfl, ⟨by simp [← hm3], by simp [← hm3]⟩, hnext, ⟨?_, ?_⟩, ?_⟩
    · rw [blockSize_congr hrest]
      simp [← hm2, ← hm1]
    · rw [blockIsFree_congr hrest]
      simp [← hm2, ← hm1]
    · simp only [Segment, hnext]
      rw [blockNext_congr hrest]
      simp [← hm2]
  · exact ⟨rfl, ⟨by simp [hh.1], by simp⟩, by simp [Segment]⟩

end Miyabi.Mm.Heap
