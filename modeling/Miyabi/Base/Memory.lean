import Mathlib.Data.BitVec
import Mathlib.Tactic.Ring

namespace Miyabi.Base

variable {w : Nat}

-- A byte-addressed memory over w-bit addresses. Address arithmetic wraps.
abbrev Memory (w : Nat) := BitVec w → BitVec 8

namespace Memory

-- The n bytes from `start` on, counted with the wrap of the address space.
def InRange (start : BitVec w) (n : Nat) (a : BitVec w) : Prop := (a - start).toNat < n

instance (start : BitVec w) (n : Nat) (a : BitVec w) : Decidable (InRange start n a) :=
  inferInstanceAs (Decidable (_ < _))

def Apart (a : BitVec w) (n : Nat) (b : BitVec w) (k : Nat) : Prop :=
  ∀ x, InRange a n x → ¬InRange b k x

-- Little-endian value of a byte sequence.
def littleEndian (byte : Nat → BitVec 8) : Nat → Nat
  | 0 => 0
  | n + 1 => littleEndian byte n + 256 ^ n * (byte n).toNat

def load (m : Memory w) (a : BitVec w) (n : Nat) : BitVec (8 * n) :=
  BitVec.ofNat _ (littleEndian (fun i => m (a + BitVec.ofNat w i)) n)

def store (m : Memory w) (a : BitVec w) {n : Nat} (v : BitVec (8 * n)) : Memory w := fun x =>
  if InRange a n x then BitVec.ofNat 8 (v.toNat / 256 ^ (x - a).toNat) else m x

def store8 (m : Memory w) (a : BitVec w) (v : BitVec 8) : Memory w := fun x =>
  if x = a then v else m x

abbrev load16 (m : Memory w) (a : BitVec w) : BitVec 16 := load m a 2
abbrev load32 (m : Memory w) (a : BitVec w) : BitVec 32 := load m a 4
abbrev load64 (m : Memory w) (a : BitVec w) : BitVec 64 := load m a 8
abbrev store16 (m : Memory w) (a : BitVec w) (v : BitVec 16) : Memory w := store (n := 2) m a v
abbrev store32 (m : Memory w) (a : BitVec w) (v : BitVec 32) : Memory w := store (n := 4) m a v
abbrev store64 (m : Memory w) (a : BitVec w) (v : BitVec 64) : Memory w := store (n := 8) m a v

-- Two memories hold the same bytes on a range.
def Agree (m m' : Memory w) (a : BitVec w) (n : Nat) : Prop := ∀ x, InRange a n x → m' x = m x

theorem inRange_iff (start a : BitVec w) (n : Nat) (hn : start.toNat + n ≤ 2 ^ w) :
    InRange start n a ↔ start.toNat ≤ a.toNat ∧ a.toNat < start.toNat + n := by
  have ha := a.isLt
  have hs := start.isLt
  simp only [InRange, BitVec.toNat_sub]
  by_cases h : start.toNat ≤ a.toNat
  · have he : 2 ^ w - start.toNat + a.toNat = 2 ^ w + (a.toNat - start.toNat) := by omega
    rw [he, Nat.add_mod_left, Nat.mod_eq_of_lt (by omega)]
    omega
  · rw [Nat.mod_eq_of_lt (by omega)]
    omega

theorem inRange_add (start : BitVec w) (n i : Nat) (hi : i < n) :
    InRange start n (start + BitVec.ofNat w i) := by
  simp only [InRange, add_sub_cancel_left, BitVec.toNat_ofNat]
  exact (Nat.mod_le _ _).trans_lt hi

theorem inRange_self (start : BitVec w) (n : Nat) (hn : 0 < n) : InRange start n start := by
  simpa [InRange] using hn

theorem inRange_mono (start a : BitVec w) {n k : Nat} (hnk : n ≤ k) (h : InRange start n a) :
    InRange start k a := h.trans_le hnk

theorem inRange_inner (a d x : BitVec w) {n k : Nat} (hd : d.toNat + k ≤ n)
    (h : InRange (a + d) k x) : InRange a n x := by
  have he : x - a = (x - (a + d)) + d := by ring
  simp only [InRange] at h ⊢
  rw [he, BitVec.toNat_add]
  exact (Nat.mod_le _ _).trans_lt (by omega)

theorem exists_offset (start a : BitVec w) (n : Nat) (h : InRange start n a) :
    ∃ i, i < n ∧ a = start + BitVec.ofNat w i :=
  ⟨(a - start).toNat, h, by
    rw [BitVec.ofNat_toNat, BitVec.setWidth_eq, add_sub_cancel]⟩

theorem forall_inRange (start : BitVec w) (n : Nat) (P : BitVec w → Prop) :
    (∀ x, InRange start n x → P x) ↔ ∀ i < n, P (start + BitVec.ofNat w i) := by
  constructor
  · intro h i hi
    exact h _ (inRange_add start n i hi)
  · intro h x hx
    obtain ⟨i, hi, rfl⟩ := exists_offset start x n hx
    exact h i hi

theorem Apart.symm {a b : BitVec w} {n k : Nat} (h : Apart a n b k) : Apart b k a n :=
  fun x hb ha => h x ha hb

theorem Apart.mono {a b : BitVec w} {n k n' k' : Nat} (h : Apart a n b k) (hn : n' ≤ n)
    (hk : k' ≤ k) : Apart a n' b k' :=
  fun x ha hb => h x (inRange_mono a x hn ha) (inRange_mono b x hk hb)

theorem apart_of_le (a b : BitVec w) (n k : Nat) (ha : a.toNat + n ≤ b.toNat)
    (hb : b.toNat + k ≤ 2 ^ w) : Apart a n b k := by
  intro x hx hy
  rw [inRange_iff a x n (by have := b.isLt; omega)] at hx
  rw [inRange_iff b x k hb] at hy
  omega

-- Ranges that follow one another.
theorem apart_next (a d : BitVec w) (n k : Nat) (hd : d.toNat = n) (hk : n + k ≤ 2 ^ w) :
    Apart a n (a + d) k := by
  intro x hx hy
  obtain ⟨i, hi, rfl⟩ := exists_offset a x n hx
  have he : a + BitVec.ofNat w i - (a + d) = BitVec.ofNat w i - d := by ring
  have hi' : i % 2 ^ w = i := Nat.mod_eq_of_lt (by omega)
  rw [InRange, he, BitVec.toNat_sub, BitVec.toNat_ofNat, hd, hi',
    Nat.mod_eq_of_lt (by omega)] at hy
  omega

-- Ranges at two offsets, both of them inside one turn of the address space.
theorem apart_offsets (base : BitVec w) {i n j k : Nat} (hij : i + n ≤ j) (hj : j + k ≤ 2 ^ w) :
    Apart (base + BitVec.ofNat w i) n (base + BitVec.ofNat w j) k := by
  intro x hx hy
  obtain ⟨d, hd, rfl⟩ := exists_offset _ x n hx
  have he : base + BitVec.ofNat w i + BitVec.ofNat w d - (base + BitVec.ofNat w j) =
      BitVec.ofNat w (i + d) - BitVec.ofNat w j := by
    rw [BitVec.ofNat_add]
    ring
  have hk : 0 < k := (Nat.zero_le _).trans_lt hy
  have hfront : (i + d) % 2 ^ w = i + d := Nat.mod_eq_of_lt (by omega)
  have hback : j % 2 ^ w = j := Nat.mod_eq_of_lt (by omega)
  rw [InRange, he, BitVec.toNat_sub, BitVec.toNat_ofNat, BitVec.toNat_ofNat, hfront, hback,
    Nat.mod_eq_of_lt (by omega)] at hy
  omega

theorem Agree.refl (m : Memory w) (a : BitVec w) (n : Nat) : Agree m m a n := fun _ _ => rfl

theorem Agree.inner {m m' : Memory w} {a d : BitVec w} {n k : Nat} (h : Agree m m' a n)
    (hd : d.toNat + k ≤ n) : Agree m m' (a + d) k :=
  fun x hx => h x (inRange_inner a d x hd hx)

theorem littleEndian_congr (byte byte' : Nat → BitVec 8) (n : Nat)
    (h : ∀ i < n, byte i = byte' i) : littleEndian byte n = littleEndian byte' n := by
  induction n with
  | zero => rfl
  | succ n ih =>
      simp only [littleEndian]
      rw [ih (fun i hi => h i (by omega)), h n (by omega)]

theorem littleEndian_digits (v n : Nat) :
    littleEndian (fun i => BitVec.ofNat 8 (v / 256 ^ i)) n = v % 256 ^ n := by
  induction n with
  | zero => simp [littleEndian, Nat.mod_one]
  | succ n ih =>
      rw [littleEndian, ih, Nat.mod_pow_succ, BitVec.toNat_ofNat]

theorem littleEndian_lt (byte : Nat → BitVec 8) (n : Nat) : littleEndian byte n < 256 ^ n := by
  induction n with
  | zero => simp [littleEndian]
  | succ n ih =>
      have hb := (byte n).isLt
      have hle : 256 ^ n * (byte n).toNat ≤ 256 ^ n * 255 := Nat.mul_le_mul_left _ (by omega)
      simp only [littleEndian, pow_succ]
      omega

theorem littleEndian_zero (n : Nat) : littleEndian (fun _ => 0) n = 0 := by
  induction n with
  | zero => rfl
  | succ n ih => simpa [littleEndian] using ih

-- Its digits are the bytes.
theorem littleEndian_digit (byte : Nat → BitVec 8) {n i : Nat} (hi : i < n) :
    littleEndian byte n / 256 ^ i % 256 = (byte i).toNat := by
  induction n with
  | zero => omega
  | succ n ih =>
      have hpos : 0 < 256 ^ i := Nat.pow_pos (by omega)
      rcases Nat.lt_succ_iff_lt_or_eq.mp hi with hlt | rfl
      · have hsplit : 256 ^ n = 256 ^ i * (256 * 256 ^ (n - i - 1)) := by
          rw [← pow_succ', ← pow_add]
          congr 1
          omega
        rw [littleEndian, hsplit, mul_assoc, Nat.add_mul_div_left _ _ hpos, mul_assoc,
          Nat.add_mul_mod_self_left]
        exact ih hlt
      · rw [littleEndian, Nat.add_mul_div_left _ _ hpos,
          Nat.div_eq_of_lt (littleEndian_lt byte i), Nat.zero_add]
        exact Nat.mod_eq_of_lt (byte i).isLt

theorem load_congr {m m' : Memory w} {a : BitVec w} {n : Nat} (h : Agree m m' a n) :
    load m' a n = load m a n := by
  unfold load
  rw [littleEndian_congr _ _ n (fun i hi => h _ (inRange_add a n i hi))]

theorem load_store_same (m : Memory w) (a : BitVec w) {n : Nat} (v : BitVec (8 * n))
    (hn : n ≤ 2 ^ w) : load (store m a v) a n = v := by
  have hbyte : ∀ i < n, store m a v (a + BitVec.ofNat w i) = BitVec.ofNat 8 (v.toNat / 256 ^ i) := by
    intro i hi
    rw [store, if_pos (inRange_add a n i hi), add_sub_cancel_left, BitVec.toNat_ofNat,
      Nat.mod_eq_of_lt (by omega)]
  have hpow : 256 ^ n = 2 ^ (8 * n) := by
    rw [pow_mul]
    rfl
  apply BitVec.eq_of_toNat_eq
  rw [load, littleEndian_congr _ _ n hbyte, littleEndian_digits, BitVec.toNat_ofNat, hpow,
    Nat.mod_mod, Nat.mod_eq_of_lt v.isLt]

theorem load_digit (m : Memory w) (a : BitVec w) {n i : Nat} (hi : i < n) :
    BitVec.ofNat 8 ((load m a n).toNat / 256 ^ i) = m (a + BitVec.ofNat w i) := by
  have hlt := littleEndian_lt (fun i => m (a + BitVec.ofNat w i)) n
  have hpow : 2 ^ (8 * n) = 256 ^ n := by
    rw [pow_mul]
    rfl
  apply BitVec.eq_of_toNat_eq
  rw [load, BitVec.toNat_ofNat, BitVec.toNat_ofNat, hpow, Nat.mod_eq_of_lt hlt]
  exact littleEndian_digit _ hi

-- Its bits are those of the bytes.
theorem load_bit (m : Memory w) (a : BitVec w) {n j : Nat} (hj : j < 8 * n) :
    (load m a n).getLsbD j = (m (a + BitVec.ofNat w (j / 8))).getLsbD (j % 8) := by
  have hpow : 256 ^ (j / 8) = 2 ^ (8 * (j / 8)) := by
    rw [pow_mul]
    rfl
  have hbit : j % 8 + 8 * (j / 8) = j := Nat.mod_add_div j 8
  rw [← load_digit m a (show j / 8 < n by omega), BitVec.getLsbD_ofNat, hpow,
    ← Nat.shiftRight_eq_div_pow, Nat.testBit_shiftRight, Nat.add_comm, hbit,
    decide_eq_true (show j % 8 < 8 by omega), Bool.true_and]
  rfl

-- To store what is there changes nothing.
theorem store_load (m : Memory w) (a : BitVec w) (n : Nat) : store m a (load m a n) = m := by
  funext x
  by_cases h : InRange a n x
  · rw [store, if_pos h, load_digit m a h, BitVec.ofNat_toNat, BitVec.setWidth_eq, add_sub_cancel]
  · exact if_neg h

-- Every part of a word that is zero is zero.
theorem load_zero_inner {m : Memory w} {a : BitVec w} {n k : Nat} (ofs : Nat) (hk : ofs + k ≤ n)
    (h : load m a n = 0) : load m (a + BitVec.ofNat w ofs) k = 0 := by
  have hbyte : ∀ j < k, m (a + BitVec.ofNat w ofs + BitVec.ofNat w j) = 0 := by
    intro j hj
    rw [add_assoc, ← BitVec.ofNat_add, ← load_digit m a (show ofs + j < n by omega), h]
    simp
  rw [load, littleEndian_congr _ (fun _ => 0) k hbyte, littleEndian_zero]
  rfl

theorem store_of_not_inRange (m : Memory w) (a x : BitVec w) {n : Nat} (v : BitVec (8 * n))
    (h : ¬InRange a n x) : store m a v x = m x := if_neg h

theorem agree_store (m : Memory w) (a b : BitVec w) {n k : Nat} (v : BitVec (8 * k))
    (h : Apart a n b k) : Agree m (store m b v) a n :=
  fun x hx => store_of_not_inRange m b x v (h x hx)

theorem load_store_apart (m : Memory w) (a b : BitVec w) {n k : Nat} (v : BitVec (8 * k))
    (h : Apart a n b k) : load (store m b v) a n = load m a n :=
  load_congr (agree_store m a b v h)

@[simp] theorem store8_same (m : Memory w) (a : BitVec w) (v : BitVec 8) : store8 m a v a = v :=
  if_pos rfl

theorem store8_ne (m : Memory w) (a x : BitVec w) (v : BitVec 8) (h : x ≠ a) :
    store8 m a v x = m x := if_neg h

theorem agree_store8 (m : Memory w) (a b : BitVec w) {n : Nat} (v : BitVec 8)
    (h : ¬InRange a n b) : Agree m (store8 m b v) a n :=
  fun x hx => store8_ne m b x v (fun he => h (he ▸ hx))

theorem load_store8_apart (m : Memory w) (a b : BitVec w) {n : Nat} (v : BitVec 8)
    (h : ¬InRange a n b) : load (store8 m b v) a n = load m a n :=
  load_congr (agree_store8 m a b v h)

-- `m'` keeps every byte outside the n bytes from `a` on.
def KeepsOutside (m m' : Memory w) (a : BitVec w) (n : Nat) : Prop :=
  ∀ x, ¬InRange a n x → m' x = m x

theorem KeepsOutside.trans {m m' m'' : Memory w} {a : BitVec w} {n : Nat}
    (h : KeepsOutside m m' a n) (h' : KeepsOutside m' m'' a n) : KeepsOutside m m'' a n :=
  fun x hx => (h' x hx).trans (h x hx)

theorem KeepsOutside.mono {m m' : Memory w} {a b : BitVec w} {n k : Nat}
    (h : KeepsOutside m m' a n) (hab : ∀ x, InRange a n x → InRange b k x) :
    KeepsOutside m m' b k :=
  fun x hx => h x (fun ha => hx (hab x ha))

theorem KeepsOutside.agree {m m' : Memory w} {a b : BitVec w} {n k : Nat}
    (h : KeepsOutside m m' a n) (hab : Apart b k a n) : Agree m m' b k :=
  fun x hx => h x (hab x hx)

theorem keepsOutside_store8 (m : Memory w) (a b : BitVec w) (n : Nat) (v : BitVec 8)
    (h : InRange a n b) : KeepsOutside m (store8 m b v) a n :=
  fun x hx => store8_ne m b x v (fun he => hx (he ▸ h))

end Memory

end Miyabi.Base
