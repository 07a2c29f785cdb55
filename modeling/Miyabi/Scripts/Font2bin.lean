import Miyabi.Base.Python
import Miyabi.Base.Transition

namespace Miyabi.Scripts.Font2bin

open Miyabi.Base.Transition Miyabi.Base.Python

-- A byte of the blob, with where it comes from: none for those of bytearray(256 * 16), else the code
-- that the glyph was given for, if any, and the row of the glyph. The scripts see only the byte.
structure Cell where
  byte : BitVec 8
  origin : Option (Option ℤ × ℕ)

def Cell.zero : Cell := ⟨0, none⟩

def blank : List Cell := List.replicate (256 * 16) Cell.zero

section Hex

variable (decimal : Char → Option (Fin 10))

-- The code and the bytes that a line with one colon stores, if any; none when it raises.
def hexFields (first raw : List Char) : Option (Option (ℤ × List (BitVec 8))) :=
  match int decimal 16 first with
  | none => none
  | some code =>
      if 256 ≤ code then some none
      else if raw.length ≠ 32 then some none
      else (fromHex raw).map fun bytes => some (code, bytes)

def hexGlyph (line : List Char) : Option (Option (ℤ × List (BitVec 8))) :=
  let line := strip line
  if line = [] then some none
  else
    match line.splitOn ':' with
    | [first, raw] => hexFields decimal first raw
    | _ => some none

def glyphCells (code : ℤ) (bytes : List (BitVec 8)) : List Cell :=
  bytes.mapIdx fun row byte => ⟨byte, some (some code, row)⟩

def hexLine (data : List Cell) (line : List Char) : Option (List Cell) :=
  match hexGlyph decimal line with
  | none => none
  | some none => some data
  | some (some (code, bytes)) =>
      some (sliceAssign data (code * 16) (code * 16 + 16) (glyphCells code bytes))

-- The input as the lines that the file gives.
def hexToBin (lines : List (List Char)) : Option (List Cell) := run (hexLine decimal) blank lines

end Hex

section Bdf

-- A row is kept with the encoding that was in force when it was read, which the script does not keep.
structure BdfState where
  data : List Cell
  currentEncoding : Option ℤ
  inBitmap : Bool
  bitmapRows : List (Option ℤ × List Char)

def rowCell (rowIdx : ℕ) (row : Option ℤ × List Char) : Option Cell :=
  match fromHex row.2 with
  | some (byte :: _) => some ⟨byte, some (row.1, rowIdx)⟩
  | _ => none

def storeRows (encoding : ℤ) : ℕ → List (Option ℤ × List Char) → List Cell → List Cell
  | _, [], data => data
  | rowIdx, row :: rest, data =>
      let data :=
        match rowCell rowIdx row with
        | some cell => data.set (encoding.toNat * 16 + rowIdx) cell
        | none => data
      storeRows encoding (rowIdx + 1) rest data

-- The data at an ENDCHAR line.
def endChar (s : BdfState) : List Cell :=
  match s.currentEncoding with
  | some encoding =>
      if s.inBitmap ∧ 0 ≤ encoding ∧ encoding < 256 then
        storeRows encoding 0 (s.bitmapRows.take 16) s.data
      else s.data
  | none => s.data

variable (decimal : Char → Option (Fin 10))

def bdfLine (s : BdfState) (line : List Char) : BdfState :=
  let line := strip line
  if "ENCODING ".toList.isPrefixOf line then
    match splitWords line with
    | _ :: second :: _ => { s with currentEncoding := int decimal 10 second }
    | _ => s
  else if line = "BITMAP".toList then { s with inBitmap := true, bitmapRows := [] }
  else if line = "ENDCHAR".toList then
    { s with data := endChar s, currentEncoding := none, inBitmap := false }
  else if s.inBitmap then { s with bitmapRows := s.bitmapRows ++ [(s.currentEncoding, line)] }
  else s

def bdfStart : BdfState := ⟨blank, none, false, []⟩

def bdfToBin (lines : List (List Char)) : List Cell := (lines.foldl (bdfLine decimal) bdfStart).data

end Bdf

-- The cell that draw_char reads for each row of each character is zero, or that row of a glyph that
-- was given for the character.
structure Shaped (data : List Cell) : Prop where
  length : data.length = 256 * 16
  glyph : ∀ (c : BitVec 8) (row : ℕ), row < 16 → ∃ cell, data[c.toNat * 16 + row]? = some cell ∧
    (cell = Cell.zero ∨ cell.origin = some (some (c.toNat : ℤ), row))

end Miyabi.Scripts.Font2bin
