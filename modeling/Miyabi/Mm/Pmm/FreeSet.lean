import Mathlib.Order.Interval.Set.Basic
import Miyabi.Base.Bitmap
import Miyabi.Mm.Pmm

namespace Miyabi.Mm.Pmm

open Miyabi.Base Miyabi.Base.Memory

-- The frames whose bit in the bitmap is clear.
def freeSet (bitmap : BitVec 64) (m : Memory 64) : Set ℕ :=
  {f | f < 2 ^ 64 ∧ bitmapTest bitmap m (BitVec.ofNat 64 f) = false}

theorem ofNat_eq_iff {f g : ℕ} (hf : f < 2 ^ 64) (hg : g < 2 ^ 64) :
    BitVec.ofNat 64 f = BitVec.ofNat 64 g ↔ f = g := by
  bv_omega

theorem byte_of_frame (f : ℕ) (hf : f < 2 ^ 64) :
    BitVec.ofNat 64 f >>> 3 = BitVec.ofNat 64 (f / 8) := by
  apply BitVec.eq_of_toNat_eq
  rw [BitVec.toNat_ushiftRight, BitVec.toNat_ofNat, BitVec.toNat_ofNat, Nat.shiftRight_eq_div_pow,
    Nat.mod_eq_of_lt hf, Nat.mod_eq_of_lt (by omega)]

theorem page_of_addr (x : BitVec 64) : x / 4096 = BitVec.ofNat 64 (x.toNat / 4096) := by
  apply BitVec.eq_of_toNat_eq
  have hx := x.isLt
  rw [BitVec.toNat_udiv, BitVec.toNat_ofNat, Nat.mod_eq_of_lt (by omega)]
  rfl

theorem page_of_frame (f : ℕ) (hf : f < 2 ^ 52) :
    BitVec.ofNat 64 (f * 4096) / 4096 = BitVec.ofNat 64 f := by
  rw [page_of_addr, BitVec.toNat_ofNat, Nat.mod_eq_of_lt (by omega), Nat.mul_div_cancel _ (by omega)]

section Bits

variable (bitmap : BitVec 64) (m : Memory 64)

theorem bitmapTest_bitmapSet (i j : BitVec 64) :
    bitmapTest bitmap (bitmapSet bitmap m i) j = (decide (j = i) || bitmapTest bitmap m j) :=
  Bitmap.test_set m bitmap i j

theorem bitmapTest_bitmapClear (i j : BitVec 64) :
    bitmapTest bitmap (bitmapClear bitmap m i) j = (!decide (j = i) && bitmapTest bitmap m j) :=
  Bitmap.test_clear m bitmap i j

theorem bitmapTest_store_ones (n j : BitVec 64) :
    bitmapTest bitmap (m.store8 (bitmap + n) 0xFF) j =
      (decide (j >>> 3 = n) || bitmapTest bitmap m j) :=
  Bitmap.test_store_ones m bitmap n j

theorem freeSet_bitmapSet (g : ℕ) (hg : g < 2 ^ 64) :
    freeSet bitmap (bitmapSet bitmap m (BitVec.ofNat 64 g)) = freeSet bitmap m \ {g} := by
  ext f
  simp only [freeSet, Set.mem_sdiff, Set.mem_ofPred_eq, Set.mem_singleton_iff, and_assoc]
  refine and_congr_right (fun hf => ?_)
  rw [bitmapTest_bitmapSet, Bool.or_eq_false_iff, decide_eq_false_iff_not, ofNat_eq_iff hf hg,
    and_comm]

theorem freeSet_bitmapClear (g : ℕ) (hg : g < 2 ^ 64) :
    freeSet bitmap (bitmapClear bitmap m (BitVec.ofNat 64 g)) = insert g (freeSet bitmap m) := by
  ext f
  simp only [freeSet, Set.mem_insert_iff, Set.mem_ofPred_eq]
  by_cases hf : f < 2 ^ 64
  · rw [bitmapTest_bitmapClear, Bool.and_eq_false_iff, Bool.not_eq_false', decide_eq_true_eq,
      ofNat_eq_iff hf hg]
    simp only [hf, true_and]
  · have hne : f ≠ g := by omega
    simp only [hf, hne, false_and, or_false]

theorem freeSet_store_ones (n : ℕ) (hn : n < 2 ^ 61) :
    freeSet bitmap (m.store8 (bitmap + BitVec.ofNat 64 n) 0xFF) =
      freeSet bitmap m \ {f | f / 8 = n} := by
  ext f
  simp only [freeSet, Set.mem_sdiff, Set.mem_ofPred_eq, and_assoc]
  refine and_congr_right (fun hf => ?_)
  rw [bitmapTest_store_ones, byte_of_frame f hf, Bool.or_eq_false_iff, decide_eq_false_iff_not,
    ofNat_eq_iff (by omega) (by omega), and_comm]

theorem freeSet_fillBitmap (n : ℕ) (hn : n ≤ 2 ^ 61) :
    freeSet bitmap (fillBitmap bitmap n m) = freeSet bitmap m \ {f | f / 8 < n} := by
  induction n with
  | zero => simp [fillBitmap]
  | succ n ih =>
      rw [fillBitmap, freeSet_store_ones _ _ n (by omega), ih (by omega), sdiff_sdiff]
      congr 1
      ext f
      simp only [Set.sup_eq_union, Set.mem_union, Set.mem_ofPred_eq]
      omega

theorem freeSet_reserveBitmap (phys : BitVec 64) (n : ℕ) (hn : phys.toNat / 4096 + n ≤ 2 ^ 64) :
    freeSet bitmap (reserveBitmap bitmap phys n m) =
      freeSet bitmap m \ Set.Ico (phys.toNat / 4096) (phys.toNat / 4096 + n) := by
  induction n with
  | zero => simp [reserveBitmap]
  | succ n ih =>
      have hpage : phys / 4096 + BitVec.ofNat 64 n = BitVec.ofNat 64 (phys.toNat / 4096 + n) := by
        rw [page_of_addr, BitVec.ofNat_add]
      rw [reserveBitmap, hpage, freeSet_bitmapSet _ _ _ (by omega), ih (by omega), sdiff_sdiff]
      congr 1
      ext f
      simp only [Set.sup_eq_union, Set.mem_union, Set.mem_Ico, Set.mem_singleton_iff]
      omega

end Bits

section Footprint

variable (bitmap : BitVec 64) {m : Memory 64} {bytes : ℕ}

theorem frame_byte_inRange (f : ℕ) (hf : f / 8 < bytes) (hw : f < 2 ^ 64) :
    InRange bitmap bytes (bitmap + BitVec.ofNat 64 f >>> 3) := by
  rw [byte_of_frame f hw]
  exact inRange_add bitmap bytes (f / 8) hf

theorem bitmapSet_keeps (f : ℕ) (hf : f / 8 < bytes) (hw : f < 2 ^ 64) :
    KeepsOutside m (bitmapSet bitmap m (BitVec.ofNat 64 f)) bitmap bytes :=
  keepsOutside_store8 _ _ _ _ _ (frame_byte_inRange bitmap f hf hw)

theorem bitmapClear_keeps (f : ℕ) (hf : f / 8 < bytes) (hw : f < 2 ^ 64) :
    KeepsOutside m (bitmapClear bitmap m (BitVec.ofNat 64 f)) bitmap bytes :=
  keepsOutside_store8 _ _ _ _ _ (frame_byte_inRange bitmap f hf hw)

theorem fillBitmap_keeps (n : ℕ) (hn : n ≤ bytes) :
    KeepsOutside m (fillBitmap bitmap n m) bitmap bytes := by
  induction n with
  | zero => exact fun _ _ => rfl
  | succ n ih =>
      refine (ih (by omega)).trans ?_
      exact keepsOutside_store8 _ _ _ _ _ (inRange_add bitmap bytes n (by omega))

theorem reserveBitmap_keeps (phys : BitVec 64) (n : ℕ) (hn : phys.toNat / 4096 + n ≤ 8 * bytes)
    (hw : 8 * bytes ≤ 2 ^ 64) :
    KeepsOutside m (reserveBitmap bitmap phys n m) bitmap bytes := by
  induction n with
  | zero => exact fun _ _ => rfl
  | succ n ih =>
      have hkeep : KeepsOutside (reserveBitmap bitmap phys n m)
          (bitmapSet bitmap (reserveBitmap bitmap phys n m)
            (BitVec.ofNat 64 (phys.toNat / 4096 + n))) bitmap bytes :=
        bitmapSet_keeps bitmap _ (by omega) (by omega)
      rw [BitVec.ofNat_add, ← page_of_addr] at hkeep
      exact (ih (by omega)).trans hkeep

-- The bits of the frames of one region are cleared.
theorem clearRegion_spec (fuel a b : ℕ) (hab : a ≤ b) (hb : b < 2 ^ 52) (hfuel : b - a < fuel)
    (hbytes : b ≤ 8 * bytes) :
    ∃ m', clearRegion bitmap fuel (BitVec.ofNat 64 (a * 4096)) (BitVec.ofNat 64 (b * 4096)) m =
        some m' ∧
      freeSet bitmap m' = freeSet bitmap m ∪ Set.Ico a b ∧ KeepsOutside m m' bitmap bytes := by
  induction fuel generalizing a m with
  | zero => omega
  | succ fuel ih =>
      by_cases hlt : a < b
      · have hnext : BitVec.ofNat 64 (a * 4096) + 4096 = BitVec.ofNat 64 ((a + 1) * 4096) := by
          bv_omega
        have hguard : BitVec.ofNat 64 (a * 4096) < BitVec.ofNat 64 (b * 4096) := by
          bv_omega
        obtain ⟨m', he, hfree, hk⟩ := ih (m := bitmapClear bitmap m (BitVec.ofNat 64 a)) (a + 1)
          (by omega) (by omega)
        refine ⟨m', ?_, ?_, ?_⟩
        · rw [clearRegion, if_pos hguard, page_of_frame a (by omega), hnext]
          exact he
        · rw [hfree, freeSet_bitmapClear _ _ _ (by omega)]
          ext f
          simp only [Set.mem_union, Set.mem_insert_iff, Set.mem_Ico]
          grind
        · exact (bitmapClear_keeps bitmap a (by omega) (by omega)).trans hk
      · have hguard : ¬BitVec.ofNat 64 (a * 4096) < BitVec.ofNat 64 (b * 4096) := by
          bv_omega
        refine ⟨m, ?_, ?_, fun _ _ => rfl⟩
        · rw [clearRegion, if_neg hguard]
        · have hempty : Set.Ico a b = ∅ := Set.Ico_eq_empty hlt
          rw [hempty, Set.union_empty]

end Footprint

end Miyabi.Mm.Pmm
