import Miyabi.Drivers.Fb.Pixels

namespace Miyabi.Drivers.Fb

open Miyabi.Base Miyabi.Base.Memory

-- A cell of a terminal: nothing but a background, or a character in its colours.
inductive Cell where
  | blank (bg : BitVec 32)
  | char (c : BitVec 8) (fg bg : BitVec 32)

def Cell.color (font : ℕ → BitVec 8) (row col : ℕ) : Cell → BitVec 32
  | .blank bg => bg
  | .char c fg bg => Console.glyphColor font c fg bg row col

-- A text screen with a cursor. `cell x y` is the cell in column x of row y.
structure Terminal where
  cols : ℕ
  rows : ℕ
  x : ℕ
  y : ℕ
  back : BitVec 32
  cell : ℕ → ℕ → Cell

namespace Terminal

def clear (color : BitVec 32) (t : Terminal) : Terminal :=
  { t with x := 0, y := 0, back := color, cell := fun _ _ => .blank color }

def setCursor (x y : ℕ) (t : Terminal) : Terminal :=
  { t with x := if x < t.cols then x else t.x, y := if y < t.rows then y else t.y }

-- A newline, a carriage return, a tab and a backspace move the cursor. Any other character is written
-- over its cell.
def place (c : BitVec 8) (color : BitVec 32) (t : Terminal) : Terminal :=
  if c = 0x0A then { t with x := 0, y := t.y + 1 }
  else if c = 0x0D then { t with x := 0 }
  else if c = 0x09 then { t with x := (t.x / 4 + 1) * 4 }
  else if c = 0x08 then { t with x := t.x - 1 }
  else
    { t with
      x := t.x + 1
      cell := fun x y => if x = t.x ∧ y = t.y then .char c color t.back else t.cell x y }

-- Behind the last column the next row begins.
def wrap (t : Terminal) : Terminal := if t.cols ≤ t.x then { t with x := 0, y := t.y + 1 } else t

-- Below the last row the top row is dropped, and the last one is blank.
def scroll (t : Terminal) : Terminal :=
  if t.rows ≤ t.y then
    { t with
      y := t.rows - 1
      cell := fun x y => if y + 1 < t.rows then t.cell x (y + 1) else .blank t.back }
  else t

def putChar (c : BitVec 8) (color : BitVec 32) (t : Terminal) : Terminal :=
  (t.place c color).wrap.scroll

def step (t : Terminal) : Call → Terminal
  | .clear color => t.clear color
  | .setCursor x y => t.setCursor x.toNat y.toNat
  | .putChar c color => t.putChar c color
  | .puts str color => str.foldl (fun t c => t.putChar c color) t

def run (t : Terminal) (calls : List Call) : Terminal := calls.foldl step t

-- The terminal of a framebuffer, before any call.
def ofScreen (fb : Framebuffer) : Terminal :=
  ⟨fb.width.toNat / 8, fb.height.toNat / 16, 0, 0, 0, fun _ _ => .blank 0⟩

end Terminal

-- The console is on the framebuffer, as init_fb leaves it.
structure Attached (fb : Framebuffer) (con : Console) : Prop where
  screen : con.fb = fb
  cols : con.cols = fb.width / FONT_WIDTH
  rows : con.rows = fb.height / FONT_HEIGHT

-- The pixels of every cell are those of the terminal, and the cursor is where it is there.
structure Shows (fb : Framebuffer) (font : ℕ → BitVec 8) (con : Console) (t : Terminal) : Prop
    extends Attached fb con where
  width : t.cols = fb.width.toNat / 8
  height : t.rows = fb.height.toNat / 16
  x : con.cursorX.toNat = t.x
  y : con.cursorY.toNat = t.y
  back : con.back = t.back
  cells : ∀ x < t.cols, ∀ y < t.rows, ∀ row < 16, ∀ col < 8,
    pixel fb con.mem (cellPixel fb x y row col) = (t.cell x y).color font row col

-- The cursor is on a cell.
structure OnCell (t : Terminal) : Prop where
  x : t.x < t.cols
  y : t.y < t.rows

variable {fb : Framebuffer} {font : ℕ → BitVec 8} {con : Console} {t : Terminal}

section Layout

theorem cellPixel_next (x y row col : ℕ) :
    cellPixel fb x y row col + textLine fb = cellPixel fb x (y + 1) row col := by
  rw [cellPixel, cellPixel, textLine]
  ring

theorem cellPixel_inj (hs : Screen fb) {x y row col x' y' row' col' : ℕ} (hx : x < fb.width.toNat / 8)
    (hx' : x' < fb.width.toNat / 8) (hrow : row < 16) (hrow' : row' < 16) (hcol : col < 8)
    (hcol' : col' < 8) (h : cellPixel fb x y row col = cellPixel fb x' y' row' col') :
    x = x' ∧ y = y' ∧ row = row' ∧ col = col' := by
  have hdiv := congrArg (· / stride fb) h
  have hmod := congrArg (· % stride fb) h
  simp only [cellPixel_div hs hx hcol, cellPixel_div hs hx' hcol', cellPixel_mod hs hx hcol,
    cellPixel_mod hs hx' hcol'] at hdiv hmod
  omega

theorem cellPixel_row (hs : Screen fb) {x y row col : ℕ} (hx : x < fb.width.toNat / 8) (hrow : row < 16)
    (hcol : col < 8) :
    y * textLine fb ≤ cellPixel fb x y row col ∧ cellPixel fb x y row col < (y + 1) * textLine fb := by
  have hwidth := hs.width_le
  have hfront : y * textLine fb ≤ (y * 16 + row) * stride fb := by
    rw [textLine, ← mul_assoc]
    exact Nat.mul_le_mul_right _ (by omega)
  have hback : (y * 16 + row + 1) * stride fb ≤ (y + 1) * textLine fb := by
    rw [textLine, ← mul_assoc]
    exact Nat.mul_le_mul_right _ (by omega)
  rw [Nat.succ_mul] at hback
  rw [cellPixel]
  omega

end Layout

section Step

variable (hs : Screen fb)

theorem Attached.rowsNat (h : Attached fb con) : con.rows.toNat = fb.height.toNat / 16 := by
  rw [h.rows, BitVec.toNat_udiv]
  rfl

theorem Attached.colsNat (h : Attached fb con) : con.cols.toNat = fb.width.toNat / 8 := by
  rw [h.cols, BitVec.toNat_udiv]
  rfl

-- The cursor alone moves.
theorem Shows.move (h : Shows fb font con t) {cx cy : BitVec 64} {x y : ℕ} (hx : cx.toNat = x)
    (hy : cy.toNat = y) :
    Shows fb font { con with cursorX := cx, cursorY := cy } { t with x := x, y := y } :=
  ⟨⟨h.screen, h.cols, h.rows⟩, h.width, h.height, hx, hy, h.back, h.cells⟩

theorem Shows.sizes (h : Shows fb font con t) : t.cols < 2 ^ 61 ∧ t.rows < 2 ^ 60 := by
  have hwidth := fb.width.isLt
  have hheight := fb.height.isLt
  have hcols := h.width
  have hrows := h.height
  omega

theorem toNat_next {x : BitVec 64} (h : x.toNat < 2 ^ 63) : (x + 1).toNat = x.toNat + 1 := by
  have hone : (1 : BitVec 64).toNat = 1 := rfl
  rw [BitVec.toNat_add_of_lt (by omega), hone]

include hs

-- A character over a cell.
theorem shows_drawn (h : Shows fb font con t) (hcell : OnCell t) (c : BitVec 8) (color : BitVec 32) :
    Shows fb font (con.drawChar font c con.cursorX con.cursorY color con.back)
      { t with cell := fun x y => if x = t.x ∧ y = t.y then .char c color t.back else t.cell x y } := by
  have hx : con.cursorX.toNat < fb.width.toNat / 8 := by
    rw [h.x, ← h.width]
    exact hcell.x
  have hy : con.cursorY.toNat < fb.height.toNat / 16 := by
    rw [h.y, ← h.height]
    exact hcell.y
  have hpainted := Console.drawChar_painted hs h.screen font c color con.back hx hy
  obtain ⟨mem, new, hdraws, -⟩ := hpainted.draws
  have hinside := hpainted.inside
  have houtside := hpainted.outside
  rw [hdraws] at hinside houtside ⊢
  refine ⟨⟨h.screen, h.cols, h.rows⟩, h.width, h.height, h.x, h.y, h.back, ?_⟩
  intro x hxlt y hylt row hrow col hcol
  have hxlt : x < fb.width.toNat / 8 := h.width ▸ hxlt
  have hylt : y < fb.height.toNat / 16 := h.height ▸ hylt
  have hlt := cellPixel_lt hs hxlt hylt hrow hcol
  by_cases hsame : x = t.x ∧ y = t.y
  · obtain ⟨rfl, rfl⟩ := hsame
    simp only [and_self, if_true, Cell.color]
    rw [hinside _ hlt ⟨row, List.mem_range.mpr hrow, col, List.mem_range.mpr hcol, by rw [h.x, h.y]⟩,
      cellPixel_div hs hxlt hcol, cellPixel_mod hs hxlt hcol, h.x, h.y, h.back, Nat.add_sub_cancel_left,
      Nat.add_sub_cancel_left]
  · simp only [if_neg hsame]
    rw [houtside _ hlt, h.cells x (h.width ▸ hxlt) y (h.height ▸ hylt) row hrow col hcol]
    rintro ⟨row', hrow', col', hcol', heq⟩
    rw [List.mem_range] at hrow' hcol'
    obtain ⟨hxeq, hyeq, -, -⟩ := cellPixel_inj hs hxlt hx hrow hrow' hcol hcol' heq
    exact hsame ⟨hxeq.trans h.x, hyeq.trans h.y⟩

theorem shows_placed (h : Shows fb font con t) (hcell : OnCell t) (c : BitVec 8) (color : BitVec 32) :
    Shows fb font (con.placeChar font c color con.back) (t.place c color) := by
  obtain ⟨hcols, hrows⟩ := h.sizes
  have hxlt := hcell.x
  have hylt := hcell.y
  have hx := h.x
  have hy := h.y
  rw [Console.placeChar, Terminal.place]
  split
  · refine h.move rfl ?_
    rw [toNat_next (by omega), hy]
  split
  · exact h.move rfl hy
  split
  · refine h.move ?_ hy
    have hfour : (4 : BitVec 64).toNat = 4 := rfl
    rw [Word.toNat_and_not_mask (con.cursorX + 4) 3 2 rfl, BitVec.toNat_add_of_lt (by omega), hx, hfour]
    omega
  split
  · split
    · next hpos =>
      refine h.move ?_ hy
      rw [Word.toNat_sub_one _ (BitVec.lt_def.mp hpos), hx]
    · next hzero =>
      have hleft : t.x - 1 = t.x := by
        have hnone : ¬0 < con.cursorX.toNat := fun hpos => hzero (BitVec.lt_def.mpr hpos)
        omega
      rw [hleft]
      exact h
  · have hdrawn := shows_drawn hs h hcell c color
    refine hdrawn.move ?_ hdrawn.y
    have hdrawnX := hdrawn.x
    simp only at hdrawnX
    rw [toNat_next (by omega), hdrawnX]

omit hs in
theorem placed_bounds (t : Terminal) (c : BitVec 8) (color : BitVec 32) :
    (t.place c color).cols = t.cols ∧ (t.place c color).rows = t.rows ∧
      (t.place c color).y ≤ t.y + 1 ∧ (t.place c color).back = t.back := by
  rw [Terminal.place]
  split
  · exact ⟨rfl, rfl, le_rfl, rfl⟩
  split
  · exact ⟨rfl, rfl, Nat.le_succ _, rfl⟩
  split
  · exact ⟨rfl, rfl, Nat.le_succ _, rfl⟩
  split
  · exact ⟨rfl, rfl, Nat.le_succ _, rfl⟩
  · exact ⟨rfl, rfl, Nat.le_succ _, rfl⟩

omit hs in
theorem wrapped_bounds (t : Terminal) (h : 0 < t.cols) :
    t.wrap.cols = t.cols ∧ t.wrap.rows = t.rows ∧ t.wrap.x < t.cols ∧ t.wrap.back = t.back := by
  rw [Terminal.wrap]
  split
  · exact ⟨rfl, rfl, h, rfl⟩
  · next hx => exact ⟨rfl, rfl, Nat.lt_of_not_le hx, rfl⟩

omit hs in
theorem shows_wrapped (h : Shows fb font con t) (hy : t.y ≤ t.rows) :
    Shows fb font (if con.cols ≤ con.cursorX then
      { con with cursorX := 0, cursorY := con.cursorY + 1 } else con) t.wrap := by
  obtain ⟨-, hrows⟩ := h.sizes
  have hxNat := h.x
  have hyNat := h.y
  have hiff : con.cols ≤ con.cursorX ↔ t.cols ≤ t.x := by
    rw [BitVec.le_def, h.colsNat, h.x, h.width]
  rw [Terminal.wrap]
  by_cases hwrap : con.cols ≤ con.cursorX
  · rw [if_pos hwrap, if_pos (hiff.mp hwrap)]
    refine h.move rfl ?_
    rw [toNat_next (by omega), hyNat]
  · rw [if_neg hwrap, if_neg (mt hiff.mpr hwrap)]
    exact h

theorem shows_scrolled (h : Shows fb font con t) :
    Shows fb font (if con.rows ≤ con.cursorY then
      { con.scroll con.back with cursorY := (con.scroll con.back).rows - 1 } else con) t.scroll := by
  have hiff : con.rows ≤ con.cursorY ↔ t.rows ≤ t.y := by
    rw [BitVec.le_def, h.rowsNat, h.y, h.height]
  rw [Terminal.scroll]
  by_cases hlast : con.rows ≤ con.cursorY
  · have hheight := hs.rows
    have hpixels := fun k => Console.scroll_pixel hs h.screen h.rows con.back (k := k)
    obtain ⟨mem, new, hdraws, -⟩ := Console.scroll_draws_any con.back con
    rw [if_pos hlast, if_pos (hiff.mp hlast)]
    rw [hdraws] at hpixels ⊢
    refine ⟨⟨h.screen, h.cols, h.rows⟩, h.width, h.height, h.x, ?_, h.back, ?_⟩
    · rw [Word.toNat_sub_one _ (by rw [h.rowsNat]; omega), h.rowsNat, h.height]
    · intro x hx y hy row hrow col hcol
      have hxlt : x < fb.width.toNat / 8 := h.width ▸ hx
      have hylt : y < fb.height.toNat / 16 := h.height ▸ hy
      obtain ⟨hfront, hback⟩ := cellPixel_row (y := y) hs hxlt hrow hcol
      have hend : (y + 1) * textLine fb ≤ fb.height.toNat / 16 * textLine fb :=
        Nat.mul_le_mul_right _ hylt
      simp only at hpixels ⊢
      rw [hpixels _ (hback.trans_le hend), cellPixel_next]
      by_cases hlater : y + 1 < t.rows
      · have hlow : (y + 1) * textLine fb ≤ (fb.height.toNat / 16 - 1) * textLine fb :=
          Nat.mul_le_mul_right _ (by rw [h.height] at hlater; omega)
        rw [if_pos (hback.trans_le hlow), if_pos hlater]
        exact h.cells x hx (y + 1) hlater row hrow col hcol
      · have hline : y = fb.height.toNat / 16 - 1 := by
          rw [h.height] at hlater
          omega
        rw [← hline, if_neg (Nat.not_lt.mpr hfront), if_neg hlater, h.back]
        rfl
  · rw [if_neg hlast, if_neg (mt hiff.mpr hlast)]
    exact h

omit hs in
theorem onCell_putChar (hcell : OnCell t) (c : BitVec 8) (color : BitVec 32) :
    OnCell (t.putChar c color) := by
  have hx := hcell.x
  have hy := hcell.y
  obtain ⟨hcols, hrows, -, -⟩ := placed_bounds t c color
  obtain ⟨hcols', hrows', hx', -⟩ := wrapped_bounds (t.place c color) (by omega)
  rw [Terminal.putChar, Terminal.scroll]
  split
  · refine ⟨?_, ?_⟩
    · exact hcols'.symm ▸ hx'
    · simp only
      omega
  · exact ⟨hcols'.symm ▸ hx', by omega⟩

theorem shows_putChar (h : Shows fb font con t) (hcell : OnCell t) (c : BitVec 8) (color : BitVec 32) :
    Shows fb font (con.putChar font c color) (t.putChar c color) := by
  have hx := hcell.x
  have hy := hcell.y
  obtain ⟨hcols, hrows, hyPlaced, hback⟩ := placed_bounds t c color
  obtain ⟨-, -, -, hback'⟩ := wrapped_bounds (t.place c color) (by omega)
  have hwrapped := shows_wrapped (shows_placed hs h hcell c color) (by omega)
  have hscrolled := shows_scrolled hs hwrapped
  rw [hwrapped.back, hback', hback, ← h.back] at hscrolled
  exact hscrolled

theorem shows_clear (h : Attached fb con) (color : BitVec 32) (hcols : t.cols = fb.width.toNat / 8)
    (hrows : t.rows = fb.height.toNat / 16) : Shows fb font (con.clear color) (t.clear color) := by
  have hpixels := fun k => Console.clear_pixel hs h.screen color (k := k)
  have hcleared : ∃ mem touched, con.clear color =
      { con with back := color, cursorX := 0, cursorY := 0, mem := mem, touched := touched } := by
    obtain ⟨mem, new, hdraws, -⟩ : Console.Draws (fun _ => True) { con with back := color }
        ({ con with back := color }.fillPixels con.fb.address color
          (con.fb.pitch / 4 * con.fb.height).toNat) := Console.fillPixels_draws fun _ _ => trivial
    refine ⟨mem, con.touched ++ new, ?_⟩
    rw [Console.clear]
    simp only [hdraws]
  obtain ⟨mem, touched, hcleared⟩ := hcleared
  rw [hcleared] at hpixels ⊢
  refine ⟨⟨h.screen, h.cols, h.rows⟩, hcols, hrows, rfl, rfl, rfl, ?_⟩
  intro x hx y hy row hrow col hcol
  exact hpixels _ (cellPixel_lt hs (hcols ▸ hx) (hrows ▸ hy) hrow hcol)

omit hs in
theorem shows_setCursor (h : Shows fb font con t) (x y : BitVec 64) :
    Shows fb font (con.setCursor x y) (t.setCursor x.toNat y.toNat) := by
  have hx : x < con.cols ↔ x.toNat < t.cols := by
    rw [BitVec.lt_def, h.colsNat, h.width]
  have hy : y < con.rows ↔ y.toNat < t.rows := by
    rw [BitVec.lt_def, h.rowsNat, h.height]
  rw [Console.setCursor, Terminal.setCursor]
  by_cases hxin : x < con.cols
  · by_cases hyin : y < con.rows
    · simp only [if_pos hxin, if_pos hyin, if_pos (hx.mp hxin), if_pos (hy.mp hyin)]
      exact h.move rfl rfl
    · simp only [if_pos hxin, if_neg hyin, if_pos (hx.mp hxin), if_neg (mt hy.mpr hyin)]
      exact h.move rfl h.y
  · by_cases hyin : y < con.rows
    · simp only [if_neg hxin, if_pos hyin, if_neg (mt hx.mpr hxin), if_pos (hy.mp hyin)]
      exact h.move h.x rfl
    · simp only [if_neg hxin, if_neg hyin, if_neg (mt hx.mpr hxin), if_neg (mt hy.mpr hyin)]
      exact h

omit hs in
theorem onCell_setCursor (hcell : OnCell t) (x y : ℕ) : OnCell (t.setCursor x y) := by
  refine ⟨?_, ?_⟩
  · simp only [Terminal.setCursor]
    split
    · assumption
    · exact hcell.x
  · simp only [Terminal.setCursor]
    split
    · assumption
    · exact hcell.y

-- One call of the console is one of the terminal.
theorem shows_step (h : Shows fb font con t) (hcell : OnCell t) (call : Call) :
    Shows fb font (con.step font call) (t.step call) ∧ OnCell (t.step call) := by
  cases call with
  | clear color =>
    refine ⟨shows_clear hs h.toAttached color h.width h.height, ⟨?_, ?_⟩⟩
    · exact (Nat.zero_le _).trans_lt hcell.x
    · exact (Nat.zero_le _).trans_lt hcell.y
  | setCursor x y => exact ⟨shows_setCursor h x y, onCell_setCursor hcell _ _⟩
  | putChar c color => exact ⟨shows_putChar hs h hcell c color, onCell_putChar hcell c color⟩
  | puts str color =>
    rw [Console.step, Console.puts, Terminal.step]
    induction str generalizing con t with
    | nil => exact ⟨h, hcell⟩
    | cons c rest ih => exact ih (shows_putChar hs h hcell c color) (onCell_putChar hcell c color)

theorem shows_run (h : Shows fb font con t) (hcell : OnCell t) (calls : List Call) :
    Shows fb font (con.run font calls) (t.run calls) ∧ OnCell (t.run calls) := by
  induction calls generalizing con t with
  | nil => exact ⟨h, hcell⟩
  | cons call rest ih =>
    obtain ⟨hnext, hcell'⟩ := shows_step hs h hcell call
    exact ih hnext hcell'

end Step

-- After every run of calls that begins with clear the cursor is on a cell, and every pixel of every
-- cell is as the terminal has it.
theorem console_shows_terminal (hs : Screen fb) (font : ℕ → BitVec 8) (hcon : Attached fb con)
    (color : BitVec 32) (calls : List Call) :
    (con.run font (.clear color :: calls)).cursorX < (con.run font (.clear color :: calls)).cols ∧
    (con.run font (.clear color :: calls)).cursorY < (con.run font (.clear color :: calls)).rows ∧
    Shows fb font (con.run font (.clear color :: calls))
      ((Terminal.ofScreen fb).run (.clear color :: calls)) := by
  have hcleared : Shows fb font (con.clear color) ((Terminal.ofScreen fb).clear color) :=
    shows_clear hs hcon color rfl rfl
  have hcell : OnCell ((Terminal.ofScreen fb).clear color) :=
    ⟨Nat.div_pos hs.cols (by decide), Nat.div_pos hs.rows (by decide)⟩
  obtain ⟨hshows, hcell'⟩ := shows_run hs hcleared hcell calls
  refine ⟨?_, ?_, hshows⟩
  · have hx := hcell'.x
    rw [← hshows.x, hshows.width, ← hshows.colsNat] at hx
    exact BitVec.lt_def.mpr hx
  · have hy := hcell'.y
    rw [← hshows.y, hshows.height, ← hshows.rowsNat] at hy
    exact BitVec.lt_def.mpr hy

theorem console_shows_terminal_screen32 :
    Shows screen32 (fun _ => 0)
      ((Console.initFb screen32 fun _ => 0).run (fun _ => 0) [.clear 0, .puts [0x48, 0x0A] 0xFFFFFF])
      ((Terminal.ofScreen screen32).run [.clear 0, .puts [0x48, 0x0A] 0xFFFFFF]) := by
  have hs : Screen screen32 := ⟨by decide, by decide, by decide, by decide, by decide, by decide⟩
  exact (console_shows_terminal hs (fun _ => 0) ⟨rfl, rfl, rfl⟩ 0 [.puts [0x48, 0x0A] 0xFFFFFF]).2.2

end Miyabi.Drivers.Fb
