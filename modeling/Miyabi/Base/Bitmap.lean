import Miyabi.Base.Memory

-- Bitmaps kept as consecutive bytes of a memory, bit i in byte i / 8.
namespace Miyabi.Base.Bitmap

open Miyabi.Base.Memory

variable {w : Nat}

def bit (i : BitVec w) : BitVec 8 := 1#8 <<< (i &&& 7)

def test (m : Memory w) (base i : BitVec w) : Bool := (m (base + i >>> 3) &&& bit i) != 0

def set (m : Memory w) (base i : BitVec w) : Memory w :=
  m.store8 (base + i >>> 3) (m (base + i >>> 3) ||| bit i)

def clear (m : Memory w) (base i : BitVec w) : Memory w :=
  m.store8 (base + i >>> 3) (m (base + i >>> 3) &&& ~~~bit i)

theorem bit_eq_twoPow (i : BitVec w) : bit i = BitVec.twoPow 8 (i &&& 7).toNat := by
  rw [bit, BitVec.shiftLeft_eq', BitVec.twoPow_eq]

theorem bit_index_lt (i : BitVec w) : (i &&& 7).toNat < 8 := by
  have h := BitVec.toNat_and i 7
  have h7 : (7 : BitVec w).toNat ≤ 7 := by
    simp only [BitVec.ofNat_eq_ofNat, BitVec.toNat_ofNat]
    exact Nat.mod_le _ _
  have hle : i.toNat &&& (7 : BitVec w).toNat ≤ (7 : BitVec w).toNat := Nat.and_le_right
  omega

-- An index is its byte and its bit in the byte.
theorem index_ext {i j : BitVec w} (hbyte : i >>> 3 = j >>> 3) (hbit : i &&& 7 = j &&& 7) :
    i = j := by
  apply BitVec.eq_of_getLsbD_eq
  intro k hk
  by_cases h3 : k < 3
  · have h := congrArg (fun x => x.getLsbD k) hbit
    have h7 : (7 : BitVec w).getLsbD k = true := by
      simp only [BitVec.ofNat_eq_ofNat, BitVec.getLsbD_ofNat, hk, decide_true, Bool.true_and]
      have hk' : k = 0 ∨ k = 1 ∨ k = 2 := by omega
      rcases hk' with rfl | rfl | rfl <;> rfl
    simpa only [BitVec.getLsbD_and, h7, Bool.and_true] using h
  · have h := congrArg (fun x => x.getLsbD (k - 3)) hbyte
    simp only [BitVec.getLsbD_ushiftRight] at h
    rwa [show 3 + (k - 3) = k by omega] at h

theorem and_twoPow_ne_zero (b : BitVec 8) (k : Nat) (hk : k < 8) :
    ((b &&& BitVec.twoPow 8 k) != 0) = b.getLsbD k := by
  rw [BitVec.and_twoPow]
  cases b.getLsbD k
  · rfl
  · have hne : BitVec.twoPow 8 k ≠ 0 := by
      intro hz
      have hone := congrArg (fun x => x.getLsbD k) hz
      simp [BitVec.getLsbD_twoPow] at hone
      omega
    simpa using hne

theorem test_eq (m : Memory w) (base i : BitVec w) :
    test m base i = (m (base + i >>> 3)).getLsbD (i &&& 7).toNat := by
  rw [test, bit_eq_twoPow]
  exact and_twoPow_ne_zero _ _ (bit_index_lt i)

theorem bit_getLsbD (i j : BitVec w) :
    (bit i).getLsbD (j &&& 7).toNat = decide (j &&& 7 = i &&& 7) := by
  rw [bit_eq_twoPow, BitVec.getLsbD_twoPow, decide_eq_true (bit_index_lt i), Bool.true_and,
    decide_eq_decide, BitVec.toNat_inj]
  exact eq_comm

theorem test_set (m : Memory w) (base i j : BitVec w) :
    test (set m base i) base j = (decide (j = i) || test m base j) := by
  simp only [test_eq, set]
  by_cases hbyte : j >>> 3 = i >>> 3
  · rw [hbyte, store8_same, BitVec.getLsbD_or, bit_getLsbD, Bool.or_comm]
    congr 1
    simp only [decide_eq_decide]
    exact ⟨fun h => index_ext hbyte h, fun h => h ▸ rfl⟩
  · have hne : base + j >>> 3 ≠ base + i >>> 3 := fun h => hbyte (add_left_cancel h)
    have hij : j ≠ i := fun h => hbyte (h ▸ rfl)
    rw [store8_ne _ _ _ _ hne]
    simp [hij]

theorem test_clear (m : Memory w) (base i j : BitVec w) :
    test (clear m base i) base j = (!decide (j = i) && test m base j) := by
  simp only [test_eq, clear]
  by_cases hbyte : j >>> 3 = i >>> 3
  · have hlt := bit_index_lt j
    rw [hbyte, store8_same, BitVec.getLsbD_and, BitVec.getLsbD_not, bit_getLsbD, Bool.and_comm]
    simp only [hlt, decide_true, Bool.true_and]
    congr 2
    simp only [decide_eq_decide]
    exact ⟨fun h => index_ext hbyte h, fun h => h ▸ rfl⟩
  · have hne : base + j >>> 3 ≠ base + i >>> 3 := fun h => hbyte (add_left_cancel h)
    have hij : j ≠ i := fun h => hbyte (h ▸ rfl)
    rw [store8_ne _ _ _ _ hne]
    simp [hij]

theorem test_store_ones (m : Memory w) (base n i : BitVec w) :
    test (m.store8 (base + n) 0xFF) base i = (decide (i >>> 3 = n) || test m base i) := by
  simp only [test_eq]
  by_cases hbyte : i >>> 3 = n
  · have hones : (0xFF : BitVec 8) = BitVec.allOnes 8 := rfl
    rw [hbyte, store8_same, hones, BitVec.getLsbD_allOnes, decide_eq_true (bit_index_lt i)]
    simp
  · have hne : base + i >>> 3 ≠ base + n := fun h => hbyte (add_left_cancel h)
    rw [store8_ne _ _ _ _ hne]
    simp [hbyte]

end Miyabi.Base.Bitmap
