import Miyabi.Base.Memory
import Mathlib.Data.List.Range

namespace Miyabi.Drivers.Fb

open Miyabi.Base Miyabi.Base.Memory

def FONT_WIDTH : BitVec 64 := 8
def FONT_HEIGHT : BitVec 64 := 16

-- The fields of struct limine_framebuffer that the console uses.
structure Framebuffer where
  address : BitVec 64
  width : BitVec 64
  height : BitVec 64
  pitch : BitVec 64
  bpp : BitVec 16

-- The static variables of fb.c and the memory. `touched` is what drawing reads and writes,
-- as addresses with a number of bytes, in order.
structure Console where
  fb : Framebuffer
  cursorX : BitVec 64
  cursorY : BitVec 64
  cols : BitVec 64
  rows : BitVec 64
  back : BitVec 32
  defaultFg : BitVec 32
  mem : Memory 64
  touched : List (BitVec 64 × ℕ)

namespace Console

def storePixel (con : Console) (a : BitVec 64) (color : BitVec 32) : Console :=
  { con with mem := con.mem.store32 a color, touched := con.touched ++ [(a, 4)] }

def copyByte (con : Console) (dst src : BitVec 64) : Console :=
  { con with mem := con.mem.store8 dst (con.mem src), touched := con.touched ++ [(src, 1), (dst, 1)] }

-- n pixels of one colour from `dst` on.
def fillPixels (con : Console) (dst : BitVec 64) (color : BitVec 32) (n : ℕ) : Console :=
  (List.range n).foldl (fun con i => con.storePixel (dst + 4 * BitVec.ofNat 64 i) color) con

def clear (color : BitVec 32) (con : Console) : Console :=
  let con := { con with back := color }
  let totalPixels := con.fb.pitch / 4 * con.fb.height
  { con.fillPixels con.fb.address color totalPixels.toNat with cursorX := 0, cursorY := 0 }

def setCursor (x y : BitVec 64) (con : Console) : Console :=
  let con := if x < con.cols then { con with cursorX := x } else con
  if y < con.rows then { con with cursorY := y } else con

def scrollLine (lineSize : BitVec 64) (con : Console) (y : ℕ) : Console :=
  let src := con.fb.address + BitVec.ofNat 64 y * lineSize
  let dst := con.fb.address + (BitVec.ofNat 64 y - 1) * lineSize
  (List.range lineSize.toNat).foldl
    (fun con i => con.copyByte (dst + BitVec.ofNat 64 i) (src + BitVec.ofNat 64 i)) con

def scroll (bg : BitVec 32) (con : Console) : Console :=
  let lineSize := con.fb.pitch * FONT_HEIGHT
  let con := (List.range' 1 (con.rows.toNat - 1)).foldl (scrollLine lineSize) con
  let last := con.fb.address + (con.rows - 1) * lineSize
  let lastLinePixels := con.fb.pitch / 4 * FONT_HEIGHT
  con.fillPixels last bg lastLinePixels.toNat

-- The bytes from _binary_font_bin_start on.
variable (font : ℕ → BitVec 8)

def drawPixel (c : BitVec 8) (cx cy : BitVec 64) (fg bg : BitVec 32) (row : ℕ) (con : Console)
    (col : ℕ) : Console :=
  let bit := (font (c.toNat * 16 + row) >>> (7 - col)) &&& 1
  let color := if bit ≠ 0 then fg else bg
  let pixel := con.fb.address + (cy * FONT_HEIGHT + BitVec.ofNat 64 row) * con.fb.pitch +
    (cx * FONT_WIDTH + BitVec.ofNat 64 col) * (con.fb.bpp / 8).setWidth 64
  con.storePixel pixel color

def drawChar (c : BitVec 8) (cx cy : BitVec 64) (fg bg : BitVec 32) (con : Console) : Console :=
  (List.range 16).foldl
    (fun con row => (List.range 8).foldl (drawPixel font c cx cy fg bg row) con) con

-- The switch of put_char.
def placeChar (c : BitVec 8) (color bg : BitVec 32) (con : Console) : Console :=
  if c = 0x0A then { con with cursorX := 0, cursorY := con.cursorY + 1 }
  else if c = 0x0D then { con with cursorX := 0 }
  else if c = 0x09 then { con with cursorX := (con.cursorX + 4) &&& ~~~3 }
  else if c = 0x08 then
    if 0 < con.cursorX then { con with cursorX := con.cursorX - 1 } else con
  else
    let con := con.drawChar font c con.cursorX con.cursorY color bg
    { con with cursorX := con.cursorX + 1 }

def putChar (c : BitVec 8) (color : BitVec 32) (con : Console) : Console :=
  let bg := con.back
  let con := con.placeChar font c color bg
  let con :=
    if con.cols ≤ con.cursorX then { con with cursorX := 0, cursorY := con.cursorY + 1 } else con
  if con.rows ≤ con.cursorY then
    let con := con.scroll bg
    { con with cursorY := con.rows - 1 }
  else con

-- The first turns of the loop of fb_vfs_write, with the addresses of the characters.
def showFrom (buffer : BitVec 64) (con : Console) : ℕ → List (BitVec 64) × Console
  | 0 => ([], con)
  | n + 1 =>
      let (shown, con) := showFrom buffer con n
      let a := buffer + BitVec.ofNat 64 n
      (shown ++ [a], con.putChar font (con.mem a) con.defaultFg)

-- With what it returns.
def fbVfsWrite (buffer size : BitVec 64) (con : Console) :
    BitVec 64 × List (BitVec 64) × Console :=
  (size, con.showFrom font buffer size.toNat)

-- str without its terminator
def puts (str : List (BitVec 8)) (color : BitVec 32) (con : Console) : Console :=
  str.foldl (fun con c => con.putChar font c color) con

-- init_fb with the first of the framebuffers, before any other call.
def initFb (fb : Framebuffer) (mem : Memory 64) : Console where
  fb := fb
  cursorX := 0
  cursorY := 0
  cols := fb.width / FONT_WIDTH
  rows := fb.height / FONT_HEIGHT
  back := 0
  defaultFg := 0xFFFFFF
  mem := mem
  touched := []

theorem showFrom_shown (buffer : BitVec 64) (con : Console) (n : ℕ) :
    (con.showFrom font buffer n).1 = (List.range n).map fun i => buffer + BitVec.ofNat 64 i := by
  induction n with
  | zero => rfl
  | succ n ih =>
    rw [List.range_succ, List.map_append, List.map_singleton, ← ih]
    rfl

end Console

end Miyabi.Drivers.Fb
