import Mathlib.Data.BitVec
import Mathlib.Data.Nat.Digits.Lemmas

namespace Miyabi.Base

-- The digits of a number in ASCII, with capital letters above nine.
def digitChar (d : ℕ) : BitVec 8 :=
  if d < 10 then BitVec.ofNat 8 (0x30 + d) else BitVec.ofNat 8 (0x41 + (d - 10))

def numeral (base n : ℕ) : List (BitVec 8) :=
  if n = 0 then [digitChar 0] else ((Nat.digits base n).map digitChar).reverse

def minus : BitVec 8 := 0x2D

def signedNumeral (base : ℕ) (z : ℤ) : List (BitVec 8) :=
  if z < 0 then minus :: numeral base z.natAbs else numeral base z.natAbs

def digitValue (c : BitVec 8) : Option ℕ :=
  if 0x30 ≤ c.toNat ∧ c.toNat ≤ 0x39 then some (c.toNat - 0x30)
  else if 0x41 ≤ c.toNat ∧ c.toNat ≤ 0x46 then some (c.toNat - 0x41 + 10)
  else none

-- The value of digits from the last on.
def parseDigits (base : ℕ) : List (BitVec 8) → Option ℕ
  | [] => some 0
  | c :: rest => do
      let d ← digitValue c
      guard (d < base)
      let n ← parseDigits base rest
      some (d + base * n)

def parse (base : ℕ) (text : List (BitVec 8)) : Option ℕ :=
  if text = [] then none else parseDigits base text.reverse

def parseSigned (base : ℕ) : List (BitVec 8) → Option ℤ
  | [] => none
  | c :: rest =>
      if c = minus then (parse base rest).map fun n : ℕ => -(n : ℤ)
      else (parse base (c :: rest)).map fun n : ℕ => (n : ℤ)

-- The last k digits.
def paddedDigits (base : ℕ) : ℕ → ℕ → List ℕ
  | 0, _ => []
  | k + 1, n => n % base :: paddedDigits base k (n / base)

variable {base : ℕ}

theorem digitChar_toNat {d : ℕ} (h : d < 16) :
    (digitChar d).toNat = if d < 10 then 0x30 + d else 0x41 + (d - 10) := by
  rw [digitChar]
  split
  · rw [BitVec.toNat_ofNat, Nat.mod_eq_of_lt (by omega)]
  · rw [BitVec.toNat_ofNat, Nat.mod_eq_of_lt (by omega)]

theorem digitChar_ge {d : ℕ} (h : d < 16) : 0x30 ≤ (digitChar d).toNat := by
  rw [digitChar_toNat h]
  split <;> omega

theorem digitValue_digitChar {d : ℕ} (h : d < 16) : digitValue (digitChar d) = some d := by
  rw [digitValue, digitChar_toNat h]
  by_cases hd : d < 10
  · rw [if_pos hd, if_pos (by omega), Nat.add_sub_cancel_left]
  · rw [if_neg hd, if_neg (by omega), if_pos (by omega)]
    congr 1
    omega

theorem digitChar_inj {d e : ℕ} (hd : d < 16) (he : e < 16) (h : digitChar d = digitChar e) : d = e := by
  have hvalue := congrArg digitValue h
  rw [digitValue_digitChar hd, digitValue_digitChar he] at hvalue
  exact Option.some.inj hvalue

-- Digits parse to their value.
theorem parseDigits_map (hbase : base ≤ 16) {ds : List ℕ} (h : ∀ d ∈ ds, d < base) :
    parseDigits base (ds.map digitChar) = some (Nat.ofDigits base ds) := by
  induction ds with
  | nil => rfl
  | cons d ds ih =>
    have hd := h d List.mem_cons_self
    have hrest := ih fun e he => h e (List.mem_cons_of_mem d he)
    rw [List.map_cons, parseDigits, digitValue_digitChar (by omega), hrest, Nat.ofDigits_cons]
    simp [guard, hd]

theorem parse_map (hbase : base ≤ 16) {ds : List ℕ} (hne : ds ≠ []) (h : ∀ d ∈ ds, d < base) :
    parse base (ds.map digitChar).reverse = some (Nat.ofDigits base ds) := by
  rw [parse, if_neg (by simpa using hne), List.reverse_reverse, parseDigits_map hbase h]

theorem parse_numeral (hlow : 1 < base) (hhigh : base ≤ 16) (n : ℕ) :
    parse base (numeral base n) = some n := by
  rw [numeral]
  split
  · next hzero =>
    subst hzero
    exact parse_map hhigh (List.cons_ne_nil 0 []) fun d hd => by
      rw [List.mem_singleton.mp hd]
      omega
  · next hne =>
    rw [parse_map hhigh (Nat.digits_ne_nil_iff_ne_zero.mpr hne) fun d => Nat.digits_lt_base hlow,
      Nat.ofDigits_digits]

theorem numeral_chars (hlow : 1 < base) (hhigh : base ≤ 16) {n : ℕ} :
    ∀ c ∈ numeral base n, 0x30 ≤ c.toNat := by
  intro c hc
  rw [numeral] at hc
  split at hc
  · rw [List.mem_singleton.mp hc]
    exact digitChar_ge (by omega)
  · obtain ⟨d, hd, rfl⟩ := List.mem_map.mp (List.mem_reverse.mp hc)
    exact digitChar_ge ((Nat.digits_lt_base hlow hd).trans_le hhigh)

theorem numeral_ne_nil (base n : ℕ) : numeral base n ≠ [] := by
  rw [numeral]
  split
  · exact List.cons_ne_nil _ _
  · next hne =>
    rw [ne_eq, List.reverse_eq_nil_iff, List.map_eq_nil_iff]
    exact Nat.digits_ne_nil_iff_ne_zero.mpr hne

theorem parseSigned_numeral (hlow : 1 < base) (hhigh : base ≤ 16) (z : ℤ) :
    parseSigned base (signedNumeral base z) = some z := by
  rw [signedNumeral]
  split
  · next hneg =>
    rw [parseSigned, if_pos rfl, parse_numeral hlow hhigh, Option.map_some]
    congr 1
    omega
  · next hpos =>
    have hchars := numeral_chars (n := z.natAbs) hlow hhigh
    have hparse := parse_numeral hlow hhigh z.natAbs
    cases htext : numeral base z.natAbs with
    | nil => exact absurd htext (numeral_ne_nil _ _)
    | cons c rest =>
      rw [htext] at hchars hparse
      have hc : c ≠ minus := by
        rintro rfl
        exact absurd (hchars minus List.mem_cons_self) (by decide)
      rw [parseSigned, if_neg hc, hparse, Option.map_some]
      congr 1
      omega

section Padded

theorem paddedDigits_length (base k n : ℕ) : (paddedDigits base k n).length = k := by
  induction k generalizing n with
  | zero => rfl
  | succ k ih => rw [paddedDigits, List.length_cons, ih]

theorem paddedDigits_lt (hbase : 0 < base) {k n : ℕ} : ∀ d ∈ paddedDigits base k n, d < base := by
  induction k generalizing n with
  | zero => exact fun d hd => absurd hd List.not_mem_nil
  | succ k ih =>
    intro d hd
    rcases List.mem_cons.mp hd with rfl | hd
    · exact Nat.mod_lt _ hbase
    · exact ih d hd

-- They are the digits, and zeros in front.
theorem paddedDigits_eq (hbase : 1 < base) {k n : ℕ} (h : n < base ^ k) :
    paddedDigits base k n =
      Nat.digits base n ++ List.replicate (k - (Nat.digits base n).length) 0 := by
  induction k generalizing n with
  | zero =>
    have hzero : n = 0 := by simpa using h
    rw [hzero, Nat.digits_zero]
    rfl
  | succ k ih =>
    rw [paddedDigits]
    by_cases hn : n = 0
    · subst hn
      have hrest := ih (n := 0) (Nat.pow_pos (by omega))
      rw [Nat.zero_mod, Nat.zero_div, hrest, Nat.digits_zero]
      rfl
    · have hrest := ih (n := n / base) (Nat.div_lt_of_lt_mul (by rwa [pow_succ'] at h))
      rw [Nat.digits_def' hbase (by omega), hrest, List.cons_append, List.length_cons,
        Nat.add_sub_add_right]

theorem parse_padded (hlow : 1 < base) (hhigh : base ≤ 16) {k n : ℕ} (hk : k ≠ 0) (h : n < base ^ k) :
    parse base ((paddedDigits base k n).map digitChar).reverse = some n := by
  have hne : paddedDigits base k n ≠ [] := by
    intro hnil
    have hlength := paddedDigits_length base k n
    rw [hnil] at hlength
    exact hk hlength.symm
  rw [parse_map hhigh hne (paddedDigits_lt (by omega)), paddedDigits_eq hlow h,
    Nat.ofDigits_append_replicate_zero, Nat.ofDigits_digits]

-- Without the zeros in front they are the numeral.
theorem dropWhile_padded (hlow : 1 < base) (hhigh : base ≤ 16) {k n : ℕ} (h : n < base ^ k)
    (hn : n ≠ 0) :
    ((paddedDigits base k n).map digitChar).reverse.dropWhile (· = digitChar 0) = numeral base n := by
  have hne := Nat.digits_ne_nil_iff_ne_zero (b := base).mpr hn
  have hlast := Nat.getLast_digit_ne_zero base hn
  have hlt := Nat.digits_lt_base hlow (List.getLast_mem hne)
  have hsplit := List.dropLast_append_getLast hne
  rw [numeral, if_neg hn, paddedDigits_eq hlow h, List.map_append, List.reverse_append,
    List.map_replicate, List.reverse_replicate, List.dropWhile_append_of_pos]
  · rw [← hsplit, List.map_append, List.reverse_append, List.map_singleton, List.reverse_singleton,
      List.singleton_append, List.dropWhile_cons_of_neg]
    rw [decide_eq_true_iff]
    exact fun h => hlast (digitChar_inj (by omega) (by omega) h)
  · intro c hc
    exact decide_eq_true (List.eq_of_mem_replicate hc)

end Padded

end Miyabi.Base
