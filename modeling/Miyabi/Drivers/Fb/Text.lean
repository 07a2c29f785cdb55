import Miyabi.Drivers.Fb.Numerals

namespace Miyabi.Drivers.Fb

open Miyabi.Base Miyabi.Fs

-- What a character or a conversion of the format stands for. A percent sign that is the last
-- character stands for nothing.
inductive Piece where
  | text (chars : List (BitVec 8))
  | number (chars : List (BitVec 8))
  | dangling

def Piece.chars : Piece → List (BitVec 8)
  | .text chars => chars
  | .number chars => chars
  | .dangling => []

def numText (val : BitVec 32) (base : ℤ) : List (BitVec 8) := (numChars val base).toOption.getD []

def expandOne (args : ℕ → VaArg) (k : BitVec 8) (n : ℕ) : ℕ × Piece :=
  if k = 0x73 then (n + 1, .text ((args n).str.map fun c => c.val))
  else if k = 0x63 then (n + 1, .text [(args n).int.setWidth 8])
  else if k = 0x64 then (n + 1, .number (numText (args n).int 10))
  else if k = 0x78 then (n + 1, .number (numText (args n).int 16))
  else if k = percent.val then (n, .text [percent.val])
  else (n, .text [])

def expand (args : ℕ → VaArg) : CString → ℕ → List Piece
  | [], _ => []
  | c :: rest, n =>
      if c ≠ percent then .text [c.val] :: expand args rest n
      else
        match rest with
        | [] => [.dangling]
        | k :: rest => (expandOne args k.val n).2 :: expand args rest (expandOne args k.val n).1

def fullText (pieces : List Piece) : List (BitVec 8) := pieces.flatMap Piece.chars

-- A text is cut where the buffer ends. A number is not.
def Piece.Fits (used : ℕ) : Piece → Prop
  | .text _ => True
  | .number chars => used + chars.length ≤ maxChars
  | .dangling => False

-- Of the pieces that start while the buffer has room, every one fits.
def Fitting : ℕ → List Piece → Prop
  | _, [] => True
  | used, piece :: rest =>
      used < maxChars → piece.Fits used ∧ Fitting (used + piece.chars.length) rest

-- The loop of printf over the pieces.
def Piece.put (out : List (BitVec 8)) : Piece → Except Fault (List (BitVec 8))
  | .text chars => .ok (out ++ chars.take (maxChars - out.length))
  | .number chars => storeAll out chars
  | .dangling => .error .overrun

def putAll : List Piece → List (BitVec 8) → Except Fault (List (BitVec 8))
  | [], out => .ok out
  | piece :: rest, out =>
      if maxChars ≤ out.length then .ok out
      else
        match piece.put out with
        | .error fault => .error fault
        | .ok out => putAll rest out

variable {args : ℕ → VaArg} {out : List (BitVec 8)}

section Simulation

theorem numChars_ten (val : BitVec 32) : numChars val 10 = .ok (numText val 10) := by
  have hsome : ∃ text, numChars val 10 = .ok text := by
    by_cases hmin : val = BitVec.intMin 32
    · rw [hmin]
      exact ⟨numText (BitVec.intMin 32) 10, by decide +kernel⟩
    · by_cases hneg : val.toInt < 0
      · exact ⟨_, numChars_decimal hneg hmin⟩
      · exact ⟨_, numChars_nonneg (Or.inl rfl) (by omega)⟩
  obtain ⟨text, htext⟩ := hsome
  rw [numText, htext]
  rfl

theorem numChars_sixteen (val : BitVec 32) : numChars val 16 = .ok (numText val 16) := by
  have hsome : ∃ text, numChars val 16 = .ok text := by
    by_cases hneg : val.toInt < 0
    · exact ⟨_, numChars_hex_neg hneg⟩
    · exact ⟨_, numChars_nonneg (Or.inr rfl) (by omega)⟩
  obtain ⟨text, htext⟩ := hsome
  rw [numText, htext]
  rfl

theorem storeChar_room (h : out.length < maxChars) (c : BitVec 8) : storeChar out c = .ok (out ++ [c]) :=
  if_pos (h.trans (by decide))

theorem copyString_eq (str : CString) (h : out.length ≤ maxChars) :
    copyString out str = .ok (out ++ (str.map fun c => c.val).take (maxChars - out.length)) := by
  induction str generalizing out with
  | nil => rw [copyString, List.map_nil, List.take_nil, List.append_nil]
  | cons c rest ih =>
    rw [copyString]
    by_cases hroom : out.length < maxChars
    · have hlength : (out ++ [c.val]).length = out.length + 1 := by
        rw [List.length_append, List.length_singleton]
      obtain ⟨m, hm⟩ : ∃ m, maxChars - out.length = m + 1 := ⟨maxChars - out.length - 1, by omega⟩
      have hless : maxChars - (out ++ [c.val]).length = m := by omega
      rw [if_pos hroom, storeChar_room hroom]
      simp only
      rw [ih (by omega), hless, hm, List.map_cons, List.take_succ_cons, List.append_assoc,
        List.singleton_append]
    · have hfull : maxChars - out.length = 0 := by omega
      rw [if_neg hroom, hfull, List.take_zero, List.append_nil]

theorem put_single (h : out.length < maxChars) (c : BitVec 8) :
    (Piece.text [c]).put out = storeChar out c := by
  obtain ⟨m, hm⟩ : ∃ m, maxChars - out.length = m + 1 := ⟨maxChars - out.length - 1, by omega⟩
  rw [storeChar_room h, Piece.put, hm, List.take_succ_cons, List.take_nil]

theorem convert_eq (h : out.length < maxChars) (k : BitVec 8) (n : ℕ) :
    convert args k n out =
      ((expandOne args k n).2.put out).map fun out => ((expandOne args k n).1, out) := by
  rw [convert, expandOne]
  split
  · rw [copyString_eq _ h.le]
    rfl
  split
  · rw [put_single h]
  split
  · rw [printNumToBuf, numChars_ten]
    rfl
  split
  · rw [printNumToBuf, numChars_sixteen]
    rfl
  split
  · rw [put_single h]
  · rw [Piece.put, List.take_nil, List.append_nil]
    rfl

theorem putAll_full (h : maxChars ≤ out.length) (pieces : List Piece) : putAll pieces out = .ok out := by
  cases pieces with
  | nil => rfl
  | cons piece rest => exact if_pos h

theorem printfFrom_full (h : maxChars ≤ out.length) (fmt : CString) (n : ℕ) :
    printfFrom args fmt n out = .ok out := by
  cases fmt with
  | nil => rfl
  | cons c rest =>
    rw [printfFrom.eq_def]
    exact if_pos h

theorem printfFrom_eq (fmt : CString) (n : ℕ) (out : List (BitVec 8)) :
    printfFrom args fmt n out = putAll (expand args fmt n) out := by
  fun_induction expand args fmt n generalizing out with
  | case1 n => rfl
  | case2 c rest n hc ih =>
    by_cases hfull : maxChars ≤ out.length
    · rw [printfFrom_full hfull, putAll_full hfull]
    · have hroom : out.length < maxChars := by omega
      rw [printfFrom.eq_def, putAll, if_neg hfull, put_single hroom]
      simp only [if_neg hfull, if_pos hc, storeChar_room hroom, ih]
  | case3 c n hc =>
    by_cases hfull : maxChars ≤ out.length
    · rw [printfFrom_full hfull, putAll_full hfull]
    · rw [printfFrom.eq_def, putAll, if_neg hfull]
      simp only [if_neg hfull, if_neg hc, Piece.put]
  | case4 c n hc k rest ih =>
    by_cases hfull : maxChars ≤ out.length
    · rw [printfFrom_full hfull, putAll_full hfull]
    · rw [printfFrom.eq_def, putAll, if_neg hfull]
      simp only [if_neg hfull, if_neg hc, convert_eq (Nat.lt_of_not_le hfull)]
      cases hput : (expandOne args k.val n).2.put out with
      | error fault => rfl
      | ok out => exact ih out

end Simulation

section Bound

variable {pieces : List Piece} {piece : Piece}

theorem fitting_full {used : ℕ} (h : maxChars ≤ used) (pieces : List Piece) : Fitting used pieces := by
  cases pieces with
  | nil => trivial
  | cons piece rest => exact fun hroom => absurd hroom (by omega)

theorem put_fits (h : out.length < maxChars) (hfits : piece.Fits out.length) :
    piece.put out = .ok ((out ++ piece.chars).take maxChars) := by
  cases piece with
  | text chars => rw [Piece.put, Piece.chars, List.take_append, List.take_of_length_le h.le]
  | number chars =>
    have hfits : out.length + chars.length ≤ maxChars := hfits
    have hbuf : maxChars < outBufSize := by decide
    have hwhole : (out ++ chars).length ≤ maxChars := by rwa [List.length_append]
    rw [Piece.put, Piece.chars, storeAll_fits (by omega), List.take_of_length_le hwhole]
  | dangling => exact hfits.elim

-- A number that does not fit reaches the last byte of the buffer or goes over it.
theorem put_unfit {r : List (BitVec 8)} (hroom : out.length < maxChars)
    (hfits : ¬piece.Fits out.length) (h : piece.put out = .ok r) : maxChars < r.length := by
  cases piece with
  | text chars => exact absurd trivial hfits
  | number chars =>
    have hfits : ¬out.length + chars.length ≤ maxChars := hfits
    have hbuf : outBufSize = maxChars + 1 := rfl
    by_cases hend : out.length + chars.length ≤ outBufSize
    · rw [Piece.put, storeAll_fits hend] at h
      rw [← Except.ok.inj h, List.length_append]
      omega
    · rw [Piece.put, storeAll_overrun (by omega) (by omega)] at h
      cases h
  | dangling => cases h

theorem take_rest {α : Type*} (m : ℕ) (front rest : List α) :
    (front.take m ++ rest).take m = (front ++ rest).take m := by
  have hcount : m - min m front.length = m - front.length := by omega
  rw [List.take_append, List.take_append, List.take_take, Nat.min_self, List.length_take, hcount]

theorem putAll_fits (h : out.length ≤ maxChars) (hfits : Fitting out.length pieces) :
    putAll pieces out = .ok ((out ++ fullText pieces).take maxChars) := by
  induction pieces generalizing out with
  | nil => rw [putAll, fullText, List.flatMap_nil, List.append_nil, List.take_of_length_le h]
  | cons piece rest ih =>
    by_cases hfull : maxChars ≤ out.length
    · have heq : out.length = maxChars := by omega
      rw [putAll_full hfull, List.take_left' heq]
    · obtain ⟨hpiece, hrest⟩ := hfits (by omega)
      have hlength : ((out ++ piece.chars).take maxChars).length =
          min maxChars (out.length + piece.chars.length) := by
        rw [List.length_take, List.length_append]
      have hnext : Fitting ((out ++ piece.chars).take maxChars).length rest := by
        rw [hlength]
        rcases Nat.le_total maxChars (out.length + piece.chars.length) with hover | hunder
        · rw [min_eq_left hover]
          exact fitting_full le_rfl rest
        · rwa [min_eq_right hunder]
      rw [putAll, if_neg hfull, put_fits (by omega) hpiece]
      simp only
      rw [ih (by omega) hnext, take_rest, fullText, fullText, List.flatMap_cons, List.append_assoc]

theorem fitting_of_ok {r : List (BitVec 8)} (hr : r.length ≤ maxChars) (h : out.length ≤ maxChars)
    (hput : putAll pieces out = .ok r) : Fitting out.length pieces := by
  induction pieces generalizing out with
  | nil => trivial
  | cons piece rest ih =>
    intro hroom
    rw [putAll, if_neg (by omega)] at hput
    have hpiece : piece.Fits out.length := by
      by_contra hunfit
      cases hnext : piece.put out with
      | error fault =>
        rw [hnext] at hput
        cases hput
      | ok next =>
        have hover := put_unfit hroom hunfit hnext
        simp only [hnext, putAll_full hover.le] at hput
        rw [Except.ok.inj hput] at hover
        omega
    rw [put_fits hroom hpiece] at hput
    refine ⟨hpiece, ?_⟩
    rcases Nat.le_total maxChars (out.length + piece.chars.length) with hover | hunder
    · exact fitting_full hover rest
    · have hlength : (out ++ piece.chars).length ≤ maxChars := by rwa [List.length_append]
      simp only [List.take_of_length_le hlength] at hput
      have hrest := ih hlength hput
      rwa [List.length_append] at hrest

end Bound

-- Every store and every read of printf is inside, and the output is what fits of the text, exactly
-- when each number that starts in the room also ends in it, and no percent sign that is read there
-- is the last character.
theorem printf_bounded_iff (fmt : CString) (args : ℕ → VaArg) :
    (∃ out, printfChars fmt args = .ok out ∧ out.length ≤ maxChars ∧
      out = (fullText (expand args fmt 0)).take maxChars) ↔ Fitting 0 (expand args fmt 0) := by
  have hnil : ([] : List (BitVec 8)).length ≤ maxChars := by decide
  have hbuf : outBufSize = maxChars + 1 := rfl
  constructor
  · rintro ⟨out, hout, hlength, -⟩
    rw [printfChars, printfFrom_eq] at hout
    cases hput : putAll (expand args fmt 0) [] with
    | error fault =>
      rw [hput] at hout
      cases hout
    | ok r =>
      simp only [hput] at hout
      by_cases hr : r.length < outBufSize
      · exact fitting_of_ok (by omega) hnil hput
      · rw [if_neg hr] at hout
        cases hout
  · intro hfits
    have hput := putAll_fits hnil hfits
    rw [List.nil_append] at hput
    have hlength := List.length_take_le maxChars (fullText (expand args fmt 0))
    refine ⟨_, ?_, hlength, rfl⟩
    rw [printfChars, printfFrom_eq, hput]
    exact if_pos (by omega)

-- "%" alone is read on behind its terminator, and the two digits behind 1022 characters take the byte
-- that the terminator of the output needs.
theorem printf_unbounded :
    printfChars [percent] (fun _ => ⟨[], 0⟩) = .error .overrun ∧
    printfChars (List.replicate 1022 ⟨0x61, by decide⟩ ++ [percent, ⟨0x64, by decide⟩])
      (fun _ => ⟨[], 10⟩) = .error .overrun := by
  refine ⟨rfl, ?_⟩
  decide +kernel

end Miyabi.Drivers.Fb
