import Mathlib.Data.List.DropRight

namespace Miyabi.Base.Python

-- str.isspace
def isSpace (c : Char) : Bool :=
  let n := c.toNat
  (0x09 ≤ n ∧ n ≤ 0x0D) ∨ (0x1C ≤ n ∧ n ≤ 0x20) ∨ n = 0x85 ∨ n = 0xA0 ∨ n = 0x1680 ∨
    (0x2000 ≤ n ∧ n ≤ 0x200A) ∨ n = 0x2028 ∨ n = 0x2029 ∨ n = 0x202F ∨ n = 0x205F ∨ n = 0x3000

def isAsciiSpace (c : Char) : Bool :=
  let n := c.toNat
  (0x09 ≤ n ∧ n ≤ 0x0D) ∨ n = 0x20

def strip (s : List Char) : List Char := (s.dropWhile isSpace).rdropWhile isSpace

-- str.split without an argument
def splitWords (s : List Char) : List (List Char) := (s.splitOnP isSpace).filter (· ≠ [])

def digitOf (c : Char) : Option ℕ :=
  let n := c.toNat
  if 0x30 ≤ n ∧ n ≤ 0x39 then some (n - 0x30)
  else if 0x41 ≤ n ∧ n ≤ 0x5A then some (n - 0x41 + 10)
  else if 0x61 ≤ n ∧ n ≤ 0x7A then some (n - 0x61 + 10)
  else none

-- The digits of int, and what follows them. A single underscore may stand between two of them, so
-- none is allowed where no digit came right before.
def scanDigits (base : ℕ) : List Char → Bool → ℕ → Option (ℕ × List Char)
  | [], noDigit, n => if noDigit then none else some (n, [])
  | c :: rest, noDigit, n =>
      if c = '_' then if noDigit then none else scanDigits base rest true n
      else
        match (digitOf c).filter (· < base) with
        | some d => scanDigits base rest false (n * base + d)
        | none => if noDigit then none else some (n, c :: rest)

-- An underscore may follow the prefix.
def skipPrefix (base : ℕ) : List Char → List Char
  | '0' :: x :: rest =>
      if base = 16 ∧ (x = 'x' ∨ x = 'X') then
        match rest with
        | '_' :: rest => rest
        | rest => rest
      else '0' :: x :: rest
  | s => s

def unsignedInt (base : ℕ) (s : List Char) : Option ℕ :=
  match scanDigits base (skipPrefix base s) true 0 with
  | none => none
  | some (n, rest) => if rest.all isAsciiSpace then some n else none

-- The decimal digits that are not ASCII.
variable (decimal : Char → Option (Fin 10))

def toAscii (c : Char) : Char :=
  if c.toNat < 0x7F then c
  else if isSpace c then ' '
  else
    match decimal c with
    | some d => Char.ofNat (0x30 + d)
    | none => '?'

-- int(s, base), with none for the ValueError
def int (base : ℕ) (s : List Char) : Option ℤ :=
  match (s.map (toAscii decimal)).dropWhile isAsciiSpace with
  | '-' :: rest => (unsignedInt base rest).map fun n : ℕ => -(n : ℤ)
  | '+' :: rest => (unsignedInt base rest).map fun n : ℕ => (n : ℤ)
  | rest => (unsignedInt base rest).map fun n : ℕ => (n : ℤ)

-- bytes.fromhex, with none for the ValueError
def fromHex : List Char → Option (List (BitVec 8))
  | [] => some []
  | c :: rest =>
      if isAsciiSpace c then fromHex rest
      else
        match rest with
        | [] => none
        | d :: rest =>
            match (digitOf c).filter (· < 16), (digitOf d).filter (· < 16) with
            | some top, some bot => (fromHex rest).map (BitVec.ofNat 8 (16 * top + bot) :: ·)
            | _, _ => none

section Slice

variable {α : Type*}

-- Where an index of a slice points to in a sequence of length n.
def sliceIndex (n : ℕ) (i : ℤ) : ℕ := if i < 0 then (i + n).toNat else min i.toNat n

-- data[start:stop] = new
def sliceAssign (data : List α) (start stop : ℤ) (new : List α) : List α :=
  let low := sliceIndex data.length start
  let high := max low (sliceIndex data.length stop)
  data.take low ++ new ++ data.drop high

end Slice

theorem strip_last {s : List Char} (h : strip s ≠ []) : isSpace ((strip s).getLast h) = false := by
  have hlast := List.rdropWhile_last_not isSpace (s.dropWhile isSpace) h
  rw [Bool.not_eq_true] at hlast
  exact hlast

theorem isSpace_of_ascii {c : Char} (h : isAsciiSpace c = true) : isSpace c = true := by
  simp only [isAsciiSpace, isSpace, decide_eq_true_eq] at h ⊢
  omega

-- Text that does not end in a space has at least one byte.
theorem fromHex_ne_nil {s : List Char} {bytes : List (BitVec 8)} (hne : s ≠ [])
    (hlast : isSpace (s.getLast hne) = false) (h : fromHex s = some bytes) : bytes ≠ [] := by
  induction s with
  | nil => exact absurd rfl hne
  | cons c rest ih =>
    rw [fromHex.eq_def] at h
    simp only at h
    split at h
    · next hspace =>
      cases rest with
      | nil =>
        rw [List.getLast_singleton, isSpace_of_ascii hspace] at hlast
        cases hlast
      | cons d rest => exact ih (List.cons_ne_nil d rest) (by simpa using hlast) h
    · split at h
      · cases h
      · split at h
        · obtain ⟨tail, -, rfl⟩ := Option.map_eq_some_iff.mp h
          exact List.cons_ne_nil _ _
        · cases h

section Slice

variable {α : Type*} {data new : List α} {start stop : ℤ}

theorem sliceIndex_le (n : ℕ) (i : ℤ) : sliceIndex n i ≤ n := by
  rw [sliceIndex]
  split <;> omega

theorem sliceAssign_length :
    (sliceAssign data start stop new).length =
      sliceIndex data.length start + new.length +
        (data.length - max (sliceIndex data.length start) (sliceIndex data.length stop)) := by
  have hlow := sliceIndex_le data.length start
  rw [sliceAssign, List.length_append, List.length_append, List.length_take, List.length_drop,
    Nat.min_eq_left hlow]

-- A run of elements in the place of as many others.
theorem splice_inside {a i : ℕ} (h : a ≤ data.length) (hi : i < new.length) :
    (data.take a ++ new ++ data.drop (a + new.length))[a + i]? = new[i]? := by
  have hlength : (data.take a).length = a := by
    rw [List.length_take]
    omega
  rw [List.append_assoc, List.getElem?_append_right (by omega), hlength, Nat.add_sub_cancel_left,
    List.getElem?_append_left hi]

theorem splice_outside {a i : ℕ} (h : a ≤ data.length) (hi : i < a ∨ a + new.length ≤ i) :
    (data.take a ++ new ++ data.drop (a + new.length))[i]? = data[i]? := by
  have hlength : (data.take a).length = a := by
    rw [List.length_take]
    omega
  rcases hi with hi | hi
  · rw [List.append_assoc, List.getElem?_append_left (by omega), List.getElem?_take_of_lt hi]
  · have hskip : (data.take a ++ new).length ≤ i := by
      rw [List.length_append]
      omega
    rw [List.getElem?_append_right hskip, List.length_append, hlength, List.getElem?_drop]
    congr 1
    omega

end Slice

end Miyabi.Base.Python
