import Mathlib.Data.BitVec
import Mathlib.Tactic.Ring

namespace Miyabi.Base.Word

variable {w : Nat}

-- Clearing the bits of a mask removes exactly the part below the mask.
theorem toNat_and_not_add (x mask : BitVec w) :
    (x &&& ~~~mask).toNat + (x &&& mask).toNat = x.toNat := by
  have hz : (x &&& ~~~mask) &&& (x &&& mask) = 0#w := by
    ext i hi
    simp only [BitVec.getElem_and, BitVec.getElem_not, BitVec.getElem_zero]
    cases x[i] <;> cases mask[i] <;> rfl
  have ho : (x &&& ~~~mask) ||| (x &&& mask) = x := by
    ext i hi
    simp only [BitVec.getElem_or, BitVec.getElem_and, BitVec.getElem_not]
    cases x[i] <;> cases mask[i] <;> rfl
  rw [← BitVec.toNat_add_of_and_eq_zero hz, BitVec.add_eq_or_of_and_eq_zero _ _ hz, ho]

theorem toNat_and_le (x mask : BitVec w) : (x &&& mask).toNat ≤ mask.toNat := by
  rw [BitVec.toNat_and]
  exact Nat.and_le_right

-- Rounding up never moves below the start, whatever the mask, as long as the
-- addition does not wrap.
theorem le_add_and_not (x mask : BitVec w) (h : x.toNat + mask.toNat < 2 ^ w) :
    x.toNat ≤ ((x + mask) &&& ~~~mask).toNat := by
  have hs := toNat_and_not_add (x + mask) mask
  have hm := toNat_and_le (x + mask) mask
  rw [BitVec.toNat_add_of_lt h] at hs
  omega

theorem toNat_and_mask (x mask : BitVec w) (k : Nat) (hm : mask.toNat = 2 ^ k - 1) :
    (x &&& mask).toNat = x.toNat % 2 ^ k := by
  rw [BitVec.toNat_and, hm, Nat.and_two_pow_sub_one_eq_mod]

theorem toNat_and_not_mask (x mask : BitVec w) (k : Nat) (hm : mask.toNat = 2 ^ k - 1) :
    (x &&& ~~~mask).toNat = x.toNat / 2 ^ k * 2 ^ k := by
  have hs := toNat_and_not_add x mask
  rw [toNat_and_mask x mask k hm] at hs
  have hd := Nat.div_add_mod' x.toNat (2 ^ k)
  omega

theorem toNat_sub_one (x : BitVec w) (h : 0 < x.toNat) : (x - 1).toNat = x.toNat - 1 := by
  have hw : 0 < w := by
    by_contra hz
    have := x.isLt
    simp only [Nat.eq_zero_of_not_pos hz, pow_zero] at this
    omega
  have hone : (1 : BitVec w).toNat = 1 := by
    simp only [BitVec.ofNat_eq_ofNat, BitVec.toNat_ofNat]
    exact Nat.mod_eq_of_lt (Nat.one_lt_two_pow hw.ne')
  rw [BitVec.toNat_sub_of_le (by rw [BitVec.le_def, hone]; exact h), hone]

-- (x + align - 1) & ~(align - 1) for a power of two.
theorem toNat_round_up (x align : BitVec w) (k : Nat) (ha : align.toNat = 2 ^ k)
    (h : x.toNat + (2 ^ k - 1) < 2 ^ w) :
    ((x + align - 1) &&& ~~~(align - 1)).toNat = (x.toNat + (2 ^ k - 1)) / 2 ^ k * 2 ^ k := by
  have hm : (align - 1).toNat = 2 ^ k - 1 := by
    rw [toNat_sub_one align (by rw [ha]; exact Nat.two_pow_pos k), ha]
  rw [show x + align - 1 = x + (align - 1) by ring, toNat_and_not_mask _ _ k hm,
    BitVec.toNat_add_of_lt (by rw [hm]; exact h), hm]

end Miyabi.Base.Word
