import Miyabi.Base.Memory

namespace Miyabi.Base.Memory

variable {w : Nat}

-- The first n turns of a loop that stores one value from `dst` on.
def fill (m : Memory w) (dst : BitVec w) (v : BitVec 8) : Nat → Memory w
  | 0 => m
  | n + 1 => (fill m dst v n).store8 (dst + BitVec.ofNat w n) v

-- The first n turns of a loop that copies bytes upwards.
def copy (m : Memory w) (dst src : BitVec w) : Nat → Memory w
  | 0 => m
  | n + 1 =>
      let m := copy m dst src n
      m.store8 (dst + BitVec.ofNat w n) (m (src + BitVec.ofNat w n))

-- The turns of two loops that follow one another are those of one.
theorem copy_add (m : Memory w) (dst src : BitVec w) (n k : Nat) :
    copy m dst src (n + k) =
      copy (copy m dst src n) (dst + BitVec.ofNat w n) (src + BitVec.ofNat w n) k := by
  induction k with
  | zero => rfl
  | succ k ih =>
      have hnext (a : BitVec w) :
          a + BitVec.ofNat w n + BitVec.ofNat w k = a + BitVec.ofNat w (n + k) := by
        rw [add_assoc, ← BitVec.ofNat_add]
      rw [← Nat.add_assoc, copy, copy, ih, hnext, hnext]

section Loops

variable {m : Memory w} {dst src x : BitVec w} {v : BitVec 8}

-- The byte that turn number n reaches.
theorem inRange_succ (a x : BitVec w) {n : Nat} (hn : n < 2 ^ w) :
    InRange a (n + 1) x ↔ InRange a n x ∨ x = a + BitVec.ofNat w n := by
  have hlast : x = a + BitVec.ofNat w n ↔ (x - a).toNat = n := by
    constructor
    · intro he
      rw [he, add_sub_cancel_left, BitVec.toNat_ofNat, Nat.mod_eq_of_lt hn]
    · intro he
      rw [← he, BitVec.ofNat_toNat, BitVec.setWidth_eq, add_sub_cancel]
  rw [hlast]
  simp only [InRange]
  omega

theorem fill_eq (m : Memory w) (dst : BitVec w) (v : BitVec 8) (n : Nat) (hn : n ≤ 2 ^ w) :
    fill m dst v n x = if InRange dst n x then v else m x := by
  induction n with
  | zero => simp [fill, InRange]
  | succ n ih =>
      rw [fill, store8, ih (by omega)]
      by_cases hx : x = dst + BitVec.ofNat w n
      · rw [if_pos hx, if_pos ((inRange_succ dst x (by omega)).mpr (Or.inr hx))]
      · simp only [hx, if_false, inRange_succ dst x (show n < 2 ^ w by omega), or_false]

theorem fill_keeps (m : Memory w) (dst : BitVec w) (v : BitVec 8) (n : Nat) (hn : n ≤ 2 ^ w) :
    KeepsOutside m (fill m dst v n) dst n := by
  intro x hx
  rw [fill_eq m dst v n hn, if_neg hx]

theorem copy_keeps (m : Memory w) (dst src : BitVec w) (n : Nat) (hn : n ≤ 2 ^ w) :
    KeepsOutside m (copy m dst src n) dst n := by
  induction n with
  | zero => exact fun x _ => rfl
  | succ n ih =>
      have hlast := keepsOutside_store8 (copy m dst src n) dst (dst + BitVec.ofNat w n) (n + 1)
        (copy m dst src n (src + BitVec.ofNat w n)) (inRange_add dst (n + 1) n (by omega))
      have hmono := fun x => inRange_mono dst x (Nat.le_succ n)
      exact ((ih (by omega)).mono hmono).trans hlast

-- Source and destination apart, the source is still as it was when it is read.
theorem copy_eq (m : Memory w) (dst src : BitVec w) (n : Nat) (hn : n ≤ 2 ^ w)
    (hd : Apart dst n src n) :
    copy m dst src n x = if InRange dst n x then m (src + (x - dst)) else m x := by
  induction n with
  | zero => simp [copy, InRange]
  | succ n ih =>
      have hrest := ih (by omega) (hd.mono (Nat.le_succ n) (Nat.le_succ n))
      by_cases hx : x = dst + BitVec.ofNat w n
      · have hsrc : InRange src (n + 1) (src + BitVec.ofNat w n) := inRange_add src (n + 1) n (by omega)
        have hkeep := copy_keeps m dst src n (by omega) (src + BitVec.ofNat w n)
          (fun hin => hd _ (inRange_mono dst _ (Nat.le_succ n) hin) hsrc)
        have hin := (inRange_succ dst x (by omega : n < 2 ^ w)).mpr (Or.inr hx)
        rw [copy, store8, if_pos hx, if_pos hin, hkeep, hx, add_sub_cancel_left]
      · rw [copy, store8, if_neg hx, hrest]
        simp only [inRange_succ dst x (show n < 2 ^ w by omega), hx, or_false]

-- A word inside the destination is the one at the same place of the source.
theorem load_copy (m : Memory w) (dst src : BitVec w) {n i k : Nat} (hn : n ≤ 2 ^ w)
    (hd : Apart dst n src n) (hi : i + k ≤ n) :
    load (copy m dst src n) (dst + BitVec.ofNat w i) k = load m (src + BitVec.ofNat w i) k := by
  unfold load
  rw [littleEndian_congr _ _ k fun j hj => ?_]
  have hword : ∀ a : BitVec w, a + BitVec.ofNat w i + BitVec.ofNat w j = a + BitVec.ofNat w (i + j) := by
    intro a
    rw [add_assoc, ← BitVec.ofNat_add]
  rw [hword, hword, copy_eq m dst src n hn hd, if_pos (inRange_add dst n (i + j) (by omega)),
    add_sub_cancel_left]

end Loops

end Miyabi.Base.Memory
