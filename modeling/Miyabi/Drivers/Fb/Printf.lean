import Miyabi.Base.Numeral
import Miyabi.Drivers.Fb
import Miyabi.Fs.Vfs

namespace Miyabi.Drivers.Fb

open Miyabi.Base Miyabi.Fs

-- print_hex64

def hexDigit (digit : BitVec 8) : BitVec 8 := if digit < 10 then 0x30 + digit else 0x41 + (digit - 10)

-- The turns that are left of the loop. `buf` is what lies behind buf[i].
def hex64Loop : ℕ → BitVec 64 → List (BitVec 8) → List (BitVec 8)
  | 0, _, buf => buf
  | turns + 1, value, buf => hex64Loop turns (value >>> 4) (hexDigit ((value &&& 0xF).setWidth 8) :: buf)

def hex64 (value : BitVec 64) : List (BitVec 8) := hex64Loop 16 value []

def Console.printHex64 (font : ℕ → BitVec 8) (value : BitVec 64) (color : BitVec 32) (con : Console) :
    Console :=
  (con.puts font [0x30, 0x78] color).puts font (hex64 value) color

-- char tmp[32] and char out_buf[1024]
def tmpSize : ℕ := 32
def outBufSize : ℕ := 1024

def pushTmp (tmp : List (BitVec 8)) (c : BitVec 8) : Except Fault (List (BitVec 8)) :=
  if tmp.length < tmpSize then .ok (tmp ++ [c]) else .error .overrun

-- buf[idx++] = c, where `out` is the first idx characters.
def storeChar (out : List (BitVec 8)) (c : BitVec 8) : Except Fault (List (BitVec 8)) :=
  if out.length < outBufSize then .ok (out ++ [c]) else .error .overrun

def storeAll (out : List (BitVec 8)) : List (BitVec 8) → Except Fault (List (BitVec 8))
  | [] => .ok out
  | c :: rest =>
      match storeChar out c with
      | .error fault => .error fault
      | .ok out => storeAll out rest

-- d < 10 ? '0' + d : 'A' + d - 10
def digitOf (d : ℤ) : BitVec 8 :=
  if d < 10 then BitVec.ofInt 8 (0x30 + d) else BitVec.ofInt 8 (0x41 + d - 10)

-- The loop over the digits, with the division and the remainder of C.
def digitsLoop (base : ℤ) : ℕ → ℤ → List (BitVec 8) → Except Fault (List (BitVec 8))
  | 0, _, _ => .error .endless
  | fuel + 1, val, tmp =>
      if val = 0 then .ok tmp
      else
        match pushTmp tmp (digitOf (val.tmod base)) with
        | .error fault => .error fault
        | .ok tmp => digitsLoop base fuel (val.tdiv base) tmp

-- What print_num_to_buf stores, in order. The negation wraps.
def numChars (val : BitVec 32) (base : ℤ) : Except Fault (List (BitVec 8)) :=
  if val = 0 then .ok [0x30]
  else
    let neg := base = 10 ∧ val.toInt < 0
    let val := if neg then -val else val
    match digitsLoop base (tmpSize + 1) val.toInt [] with
    | .error fault => .error fault
    | .ok tmp =>
        match if neg then pushTmp tmp minus else .ok tmp with
        | .error fault => .error fault
        | .ok tmp => .ok tmp.reverse

def printNumToBuf (val : BitVec 32) (base : ℤ) (out : List (BitVec 8)) :
    Except Fault (List (BitVec 8)) :=
  match numChars val base with
  | .error fault => .error fault
  | .ok text => storeAll out text

-- A variadic argument, as each of the types that va_arg takes it for.
structure VaArg where
  str : CString
  int : BitVec 32

def percent : Char8 := ⟨0x25, by decide⟩

-- buf_idx < 1023
def maxChars : ℕ := 1023

def copyString (out : List (BitVec 8)) : CString → Except Fault (List (BitVec 8))
  | [] => .ok out
  | c :: rest =>
      if out.length < maxChars then
        match storeChar out c.val with
        | .error fault => .error fault
        | .ok out => copyString out rest
      else .ok out

-- The switch of printf, with the number of arguments taken.
def convert (args : ℕ → VaArg) (k : BitVec 8) (n : ℕ) (out : List (BitVec 8)) :
    Except Fault (ℕ × List (BitVec 8)) :=
  if k = 0x73 then (copyString out (args n).str).map fun out => (n + 1, out)
  else if k = 0x63 then
    if out.length < maxChars then
      (storeChar out ((args n).int.setWidth 8)).map fun out => (n + 1, out)
    else .ok (n, out)
  else if k = 0x64 then (printNumToBuf (args n).int 10 out).map fun out => (n + 1, out)
  else if k = 0x78 then (printNumToBuf (args n).int 16 out).map fun out => (n + 1, out)
  else if k = percent.val then
    if out.length < maxChars then (storeChar out percent.val).map fun out => (n, out)
    else .ok (n, out)
  else .ok (n, out)

-- The loop over the format string.
def printfFrom (args : ℕ → VaArg) :
    CString → ℕ → List (BitVec 8) → Except Fault (List (BitVec 8))
  | [], _, out => .ok out
  | c :: rest, n, out =>
      if maxChars ≤ out.length then .ok out
      else if c ≠ percent then
        match storeChar out c.val with
        | .error fault => .error fault
        | .ok out => printfFrom args rest n out
      else
        match rest with
        -- The switch finds the terminator, and the loop steps over it.
        | [] => .error .overrun
        | k :: rest =>
            match convert args k.val n out with
            | .error fault => .error fault
            | .ok (n, out) => printfFrom args rest n out

-- What printf leaves in out_buf before the terminator that it stores.
def printfChars (fmt : CString) (args : ℕ → VaArg) : Except Fault (List (BitVec 8)) :=
  match printfFrom args fmt 0 [] with
  | .error fault => .error fault
  | .ok out => if out.length < outBufSize then .ok out else .error .overrun

def Console.printf (font : ℕ → BitVec 8) (fmt : CString) (color : BitVec 32) (args : ℕ → VaArg)
    (con : Console) : Except Fault Console :=
  let con := { con with defaultFg := color }
  match printfChars fmt args with
  | .error fault => .error fault
  | .ok out => .ok (out.foldl (fun con c => con.putChar font c color) con)

end Miyabi.Drivers.Fb
