import Miyabi.Drivers.Fb.Printf

namespace Miyabi.Drivers.Fb

open Miyabi.Base Miyabi.Fs

section Hex64

theorem hexDigit_eq {d : BitVec 8} (h : d.toNat < 16) : hexDigit d = digitChar d.toNat := by
  have hten : (10 : BitVec 8).toNat = 10 := rfl
  have hsmall : d < 10 ↔ d.toNat < 10 := BitVec.lt_def
  apply BitVec.eq_of_toNat_eq
  rw [digitChar_toNat h, hexDigit]
  by_cases hd : d.toNat < 10
  · rw [if_pos hd, if_pos (hsmall.mpr hd), BitVec.toNat_add]
    exact Nat.mod_eq_of_lt (by simp only [BitVec.reduceToNat]; omega)
  · have hsub : (d - 10).toNat = d.toNat - 10 := BitVec.toNat_sub_of_le (BitVec.le_def.mpr (by omega))
    rw [if_neg hd, if_neg (fun h => hd (hsmall.mp h)), BitVec.toNat_add, hsub]
    exact Nat.mod_eq_of_lt (by simp only [BitVec.reduceToNat]; omega)

theorem nibble_toNat (value : BitVec 64) : ((value &&& 0xF).setWidth 8).toNat = value.toNat % 16 := by
  have hmask : (0xF : BitVec 64).toNat = 2 ^ 4 - 1 := rfl
  rw [BitVec.toNat_setWidth, BitVec.toNat_and, hmask, Nat.and_two_pow_sub_one_eq_mod]
  omega

theorem hex64Loop_eq (turns : ℕ) (value : BitVec 64) (buf : List (BitVec 8)) :
    hex64Loop turns value buf =
      ((paddedDigits 16 turns value.toNat).map digitChar).reverse ++ buf := by
  induction turns generalizing value buf with
  | zero => rfl
  | succ turns ih =>
    have hnibble := nibble_toNat value
    have hshift : (value >>> 4).toNat = value.toNat / 16 := by
      rw [BitVec.toNat_ushiftRight, Nat.shiftRight_eq_div_pow]
    rw [hex64Loop, ih, hexDigit_eq (by omega), hnibble, hshift, paddedDigits, List.map_cons,
      List.reverse_cons, List.append_assoc, List.singleton_append]

theorem hex64_eq (value : BitVec 64) :
    hex64 value = ((paddedDigits 16 16 value.toNat).map digitChar).reverse := by
  rw [hex64, hex64Loop_eq, List.append_nil]

end Hex64

section DigitsLoop

variable {s : ℤ} (hs : s = 1 ∨ s = -1)

include hs

theorem tmod_sign (n b : ℕ) : (s * n).tmod b = s * (n % b : ℕ) := by
  rcases hs with rfl | rfl
  · rw [one_mul, one_mul, Int.ofNat_tmod]
  · rw [neg_one_mul, neg_one_mul, Int.neg_tmod, Int.ofNat_tmod]

theorem tdiv_sign (n b : ℕ) : (s * n).tdiv b = s * (n / b : ℕ) := by
  rcases hs with rfl | rfl
  · rw [one_mul, one_mul, Int.ofNat_tdiv]
  · rw [neg_one_mul, neg_one_mul, Int.neg_tdiv, Int.ofNat_tdiv]

-- The digits of the absolute value, each with the sign, from the last on.
theorem digitsLoop_eq {b : ℕ} (hb : 1 < b) (k : ℕ) : ∀ {n fuel : ℕ} {tmp : List (BitVec 8)},
    n < b ^ k → tmp.length + k ≤ tmpSize → k < fuel →
    digitsLoop b fuel (s * n) tmp =
      .ok (tmp ++ (Nat.digits b n).map fun d : ℕ => digitOf (s * d)) := by
  induction k with
  | zero =>
    intro n fuel tmp hn _ hfuel
    have hzero : n = 0 := by simpa using hn
    obtain ⟨fuel, rfl⟩ := Nat.exists_eq_add_of_lt hfuel
    rw [hzero, Nat.cast_zero, mul_zero, Nat.digits_zero, List.map_nil, List.append_nil]
    exact if_pos rfl
  | succ k ih =>
    intro n fuel tmp hn hroom hfuel
    obtain ⟨fuel, rfl⟩ : ∃ m, fuel = m + 1 := ⟨fuel - 1, by omega⟩
    rw [digitsLoop]
    by_cases hzero : n = 0
    · rw [hzero, Nat.cast_zero, mul_zero, Nat.digits_zero, List.map_nil, List.append_nil]
      exact if_pos rfl
    · have hne : s * n ≠ 0 := by
        rcases hs with rfl | rfl <;> omega
      have hpush : ∀ c, pushTmp tmp c = .ok (tmp ++ [c]) := fun c => if_pos (by omega)
      have hrest : n / b < b ^ k := Nat.div_lt_of_lt_mul (by rwa [pow_succ'] at hn)
      have hdigits := Nat.digits_def' hb (Nat.pos_of_ne_zero hzero)
      rw [if_neg hne, hpush, tmod_sign hs, tdiv_sign hs, hdigits, List.map_cons]
      simp only
      rw [ih hrest (by rw [List.length_append, List.length_singleton]; omega) (by omega),
        List.append_assoc, List.singleton_append]

end DigitsLoop

section NumChars

variable {b : ℕ} {val : BitVec 32}

theorem digitOf_nat {d : ℕ} (h : d < 16) : digitOf d = digitChar d := by
  rw [digitOf, digitChar]
  by_cases hd : d < 10
  · have hz : (d : ℤ) < 10 := by omega
    rw [if_pos hd, if_pos hz]
    rfl
  · have hz : ¬(d : ℤ) < 10 := by omega
    have hsum : (0x41 : ℤ) + d - 10 = (0x41 + (d - 10) : ℕ) := by omega
    rw [if_neg hd, if_neg hz, hsum]
    rfl

-- A digit with a minus is a character below the digits.
theorem digitOf_neg {d : ℕ} (hpos : d ≠ 0) (h : d < 16) : (digitOf (-d)).toNat < 0x30 := by
  have hz : -(d : ℤ) < 10 := by omega
  have hsum : (0x30 : ℤ) + -d = (0x30 - d : ℕ) := by omega
  rw [digitOf, if_pos hz, hsum, BitVec.ofInt_natCast, BitVec.toNat_ofNat]
  omega

theorem natAbs_lt (val : BitVec 32) : val.toInt.natAbs < 2 ^ 32 := by
  have hlow := BitVec.le_toInt val
  have hhigh : val.toInt < 2 ^ (32 - 1) := BitVec.toInt_lt
  omega

-- The loop on the number itself, with its sign on each digit.
theorem digitsLoop_val (hb : b = 10 ∨ b = 16) {s : ℤ} (hs : s = 1 ∨ s = -1)
    (hval : val.toInt = s * val.toInt.natAbs) :
    digitsLoop b (tmpSize + 1) val.toInt [] =
      .ok ((Nat.digits b val.toInt.natAbs).map fun d : ℕ => digitOf (s * d)) := by
  have hlow : 1 < b := by omega
  have hpow : 2 ^ 32 ≤ b ^ 31 := by
    rcases hb with rfl | rfl <;> norm_num
  have hroom : ([] : List (BitVec 8)).length + 31 ≤ tmpSize := by decide
  have hfuel : 31 < tmpSize + 1 := by decide
  have hloop := digitsLoop_eq hs hlow 31 ((natAbs_lt val).trans_le hpow) hroom hfuel
  rw [← hval, List.nil_append] at hloop
  exact hloop

theorem sign_nonneg (h : 0 ≤ val.toInt) : val.toInt = 1 * val.toInt.natAbs := by omega

theorem sign_neg (h : val.toInt < 0) : val.toInt = -1 * val.toInt.natAbs := by omega

theorem numChars_nonneg (hb : b = 10 ∨ b = 16) (h : 0 ≤ val.toInt) :
    numChars val b = .ok (numeral b val.toNat) := by
  have hlow : 1 < b := by omega
  have hnat : val.toNat = val.toInt.natAbs := by
    have := BitVec.toInt_eq_toNat_cond val
    omega
  rw [numChars, numeral]
  by_cases hzero : val = 0
  · have hz : val.toNat = 0 := congrArg BitVec.toNat hzero
    rw [if_pos hzero, if_pos hz]
    rfl
  · have hz : val.toNat ≠ 0 := fun h => hzero (BitVec.eq_of_toNat_eq h)
    have hneg : ¬((b : ℤ) = 10 ∧ val.toInt < 0) := by omega
    have hdigits : ((Nat.digits b val.toInt.natAbs).map fun d : ℕ => digitOf (1 * d)) =
        (Nat.digits b val.toInt.natAbs).map digitChar := by
      refine List.map_congr_left fun d hd => ?_
      have := Nat.digits_lt_base hlow hd
      rw [one_mul, digitOf_nat (by omega)]
    rw [if_neg hzero, if_neg hz]
    simp only [if_neg hneg, digitsLoop_val hb (Or.inl rfl) (sign_nonneg h), hdigits, hnat]

-- A negative number in base 16.
theorem numChars_hex_neg (h : val.toInt < 0) :
    numChars val 16 = .ok ((Nat.digits 16 val.toInt.natAbs).map fun d : ℕ => digitOf (-1 * d)).reverse := by
  have hzero : val ≠ 0 := by
    rintro rfl
    exact absurd h (by decide)
  have hneg : ¬((16 : ℤ) = 10 ∧ val.toInt < 0) := by omega
  have hloop := digitsLoop_val (Or.inr rfl) (Or.inr rfl) (sign_neg h)
  rw [Nat.cast_ofNat] at hloop
  rw [numChars, if_neg hzero]
  simp only [if_neg hneg, hloop]

-- In base 10 the number is negated first, which leaves the least as it is.
theorem numChars_decimal_neg (h : val.toInt < 0) {text : List (BitVec 8)} (hshort : text.length < 32)
    (hloop : digitsLoop 10 (tmpSize + 1) (-val).toInt [] = .ok text) :
    numChars val 10 = .ok (minus :: text.reverse) := by
  have hzero : val ≠ 0 := by
    rintro rfl
    exact absurd h (by decide)
  have hpush : pushTmp text minus = .ok (text ++ [minus]) := if_pos hshort
  rw [numChars, if_neg hzero]
  simp only [true_and, if_pos h, hloop, hpush, List.reverse_append, List.reverse_singleton,
    List.singleton_append]

theorem digits_short (n : ℕ) (h : n < 2 ^ 32) (hlow : 1 < b) (hpow : 2 ^ 32 ≤ b ^ 31) :
    (Nat.digits b n).length < 32 := by
  have := (Nat.digits_length_le_iff hlow n).mpr (h.trans_le hpow)
  omega

theorem numChars_decimal (h : val.toInt < 0) (hmin : val ≠ BitVec.intMin 32) :
    numChars val 10 = .ok (minus :: numeral 10 val.toInt.natAbs) := by
  have hval : (-val).toInt = -val.toInt := BitVec.toInt_neg_of_ne_intMin hmin
  have hpos : 0 ≤ (-val).toInt := by omega
  have hloop := digitsLoop_val (Or.inl rfl) (Or.inl rfl) (sign_nonneg hpos)
  have hdigits : ((Nat.digits 10 (-val).toInt.natAbs).map fun d : ℕ => digitOf (1 * d)) =
      (Nat.digits 10 (-val).toInt.natAbs).map digitChar := by
    refine List.map_congr_left fun d hd => ?_
    have := Nat.digits_lt_base (by omega) hd
    rw [one_mul, digitOf_nat (by omega)]
  rw [Nat.cast_ofNat, hdigits] at hloop
  have hshort : ((Nat.digits 10 (-val).toInt.natAbs).map digitChar).length < 32 := by
    rw [List.length_map]
    exact digits_short _ (natAbs_lt _) (by omega) (by norm_num)
  have hne : val.toInt.natAbs ≠ 0 := by omega
  rw [numChars_decimal_neg h hshort hloop, numeral, if_neg hne, hval, Int.natAbs_neg]

end NumChars

section Stored

variable {text out : List (BitVec 8)}

theorem storeAll_fits (h : out.length + text.length ≤ outBufSize) :
    storeAll out text = .ok (out ++ text) := by
  induction text generalizing out with
  | nil => rw [storeAll, List.append_nil]
  | cons c rest ih =>
    rw [List.length_cons] at h
    have hstore : storeChar out c = .ok (out ++ [c]) := if_pos (by omega)
    have hroom : (out ++ [c]).length + rest.length ≤ outBufSize := by
      rw [List.length_append, List.length_singleton]
      omega
    simp only [storeAll, hstore, ih hroom, List.append_assoc, List.singleton_append]

theorem storeAll_overrun (hout : out.length ≤ outBufSize) (h : outBufSize < out.length + text.length) :
    storeAll out text = .error .overrun := by
  induction text generalizing out with
  | nil =>
    rw [List.length_nil] at h
    omega
  | cons c rest ih =>
    rw [List.length_cons] at h
    by_cases hroom : out.length < outBufSize
    · have hstore : storeChar out c = .ok (out ++ [c]) := if_pos hroom
      have hlength : (out ++ [c]).length = out.length + 1 := by
        rw [List.length_append, List.length_singleton]
      simp only [storeAll, hstore]
      exact ih (by omega) (by omega)
    · have hstore : storeChar out c = .error .overrun := if_neg hroom
      simp only [storeAll, hstore]

end Stored

-- In whatever state of the buffer that has the room, print_num_to_buf appends this text.
def Appends (val : BitVec 32) (base : ℤ) (text : List (BitVec 8)) : Prop :=
  ∀ out : List (BitVec 8), out.length + text.length ≤ outBufSize →
    printNumToBuf val base out = .ok (out ++ text)

def withoutZeros (text : List (BitVec 8)) : List (BitVec 8) :=
  if text.dropWhile (· = digitChar 0) = [] then [digitChar 0] else text.dropWhile (· = digitChar 0)

section Appends

variable {val : BitVec 32} {base : ℤ} {text chars : List (BitVec 8)}

theorem appends_of_chars (h : numChars val base = .ok text) : Appends val base text := by
  intro out hroom
  rw [printNumToBuf, h]
  exact storeAll_fits hroom

theorem chars_of_appends (hchars : numChars val base = .ok chars) (hshort : chars.length ≤ outBufSize)
    (htext : text.length ≤ outBufSize) (h : Appends val base text) : chars = text := by
  have hprint := h [] (by rwa [List.length_nil, Nat.zero_add])
  have hroom : ([] : List (BitVec 8)).length + chars.length ≤ outBufSize := by
    rwa [List.length_nil, Nat.zero_add]
  simp only [printNumToBuf, hchars, storeAll_fits hroom] at hprint
  exact Except.ok.inj hprint

theorem numeral_short {b n : ℕ} (hb : b = 10 ∨ b = 16) (h : n < 2 ^ 32) :
    (numeral b n).length < 32 := by
  have hpow : 2 ^ 32 ≤ b ^ 31 := by
    rcases hb with rfl | rfl <;> norm_num
  rw [numeral]
  split
  · rw [List.length_singleton]
    omega
  · rw [List.length_reverse, List.length_map]
    exact digits_short n h (by omega) hpow

theorem appends_decimal_iff : Appends val 10 (signedNumeral 10 val.toInt) ↔ val ≠ BitVec.intMin 32 := by
  constructor
  · rintro h rfl
    exact absurd (h [] (by decide +kernel)) (by decide +kernel)
  · intro hmin
    refine appends_of_chars ?_
    rw [signedNumeral]
    split
    · next hneg => exact numChars_decimal hneg hmin
    · next hpos =>
      have hnat : val.toInt.natAbs = val.toNat := by
        have := BitVec.toInt_eq_toNat_cond val
        omega
      rw [hnat]
      exact numChars_nonneg (Or.inl rfl) (by omega)

-- A negative number begins with a character that is no digit.
theorem appends_hex_iff : Appends val 16 (numeral 16 val.toNat) ↔ 0 ≤ val.toInt := by
  constructor
  · intro h
    by_contra hneg
    rw [not_le] at hneg
    have hchars := numChars_hex_neg hneg
    have hne : Nat.digits 16 val.toInt.natAbs ≠ [] :=
      Nat.digits_ne_nil_iff_ne_zero.mpr (by omega)
    have hshort := digits_short (b := 16) _ (natAbs_lt val) (by omega) (by norm_num)
    have htext := numeral_short (Or.inr rfl) val.isLt
    have hfits : ((Nat.digits 16 val.toInt.natAbs).map fun d : ℕ => digitOf (-1 * d)).reverse.length
        ≤ outBufSize := by
      rw [List.length_reverse, List.length_map, outBufSize]
      omega
    have hroom : (numeral 16 val.toNat).length ≤ outBufSize := by
      rw [outBufSize]
      omega
    have heq := chars_of_appends hchars hfits hroom h
    have hlast := List.getLast_mem hne
    have hdigit := Nat.getLast_digit_ne_zero 16 (m := val.toInt.natAbs) (by omega)
    have hlow := digitOf_neg hdigit (Nat.digits_lt_base (by omega) hlast)
    have hmem : digitOf (-((Nat.digits 16 val.toInt.natAbs).getLast hne : ℕ)) ∈
        numeral 16 val.toNat := by
      rw [← heq, List.mem_reverse, List.mem_map]
      exact ⟨_, hlast, by rw [neg_one_mul]⟩
    have := numeral_chars (by omega) (by omega) _ hmem
    omega
  · intro hpos
    exact appends_of_chars (numChars_nonneg (Or.inr rfl) hpos)

theorem hex64_withoutZeros (value : BitVec 64) :
    withoutZeros (hex64 value) = numeral 16 value.toNat := by
  rw [withoutZeros, hex64_eq]
  by_cases hzero : value.toNat = 0
  · rw [hzero]
    decide
  · rw [dropWhile_padded (by omega) (by omega) (k := 16) value.isLt hzero, if_neg (numeral_ne_nil _ _)]

theorem hex64_parse (value : BitVec 64) : parse 16 (hex64 value) = some value.toNat := by
  rw [hex64_eq]
  exact parse_padded (by omega) (by omega) (by omega) value.isLt

theorem hex64_length (value : BitVec 64) : (hex64 value).length = 16 := by
  rw [hex64_eq, List.length_reverse, List.length_map, paddedDigits_length]

end Appends

-- The least number has no negation, and base 16 takes the number as a signed one.
theorem printed_numbers_iff (val : BitVec 32) (value : BitVec 64) :
    (Appends val 10 (signedNumeral 10 val.toInt) ↔ val ≠ BitVec.intMin 32) ∧
    (Appends val 16 (withoutZeros (hex64 (val.setWidth 64))) ↔ 0 ≤ val.toInt) ∧
    withoutZeros (hex64 (val.setWidth 64)) = numeral 16 val.toNat ∧
    parseSigned 10 (signedNumeral 10 val.toInt) = some val.toInt ∧
    parse 16 (numeral 16 val.toNat) = some val.toNat ∧
    (hex64 value).length = 16 ∧ parse 16 (hex64 value) = some value.toNat := by
  have hwide : (val.setWidth 64).toNat = val.toNat := by
    rw [BitVec.toNat_setWidth, Nat.mod_eq_of_lt (val.isLt.trans (by norm_num))]
  have hzeros : withoutZeros (hex64 (val.setWidth 64)) = numeral 16 val.toNat := by
    rw [hex64_withoutZeros, hwide]
  refine ⟨appends_decimal_iff, ?_, hzeros, ?_, ?_, hex64_length value, hex64_parse value⟩
  · rw [hzeros]
    exact appends_hex_iff
  · exact parseSigned_numeral (by omega) (by omega) val.toInt
  · exact parse_numeral (by omega) (by omega) val.toNat

-- "%x" of -1 prints a slash, where print_hex64 has eight F.
theorem printed_minus_one : ¬Appends (-1) 16 (withoutZeros (hex64 ((-1 : BitVec 32).setWidth 64))) ∧
    printNumToBuf (-1) 16 [] = .ok [0x2F] ∧
    withoutZeros (hex64 ((-1 : BitVec 32).setWidth 64)) = List.replicate 8 (0x46 : BitVec 8) := by
  refine ⟨fun h => ?_, by decide +kernel, by decide +kernel⟩
  exact absurd (h [] (by decide +kernel)) (by decide +kernel)

end Miyabi.Drivers.Fb
