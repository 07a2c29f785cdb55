import Miyabi.Base.Word
import Miyabi.Drivers.Fb
import Mathlib.Tactic.Linarith

namespace Miyabi.Drivers.Fb

open Miyabi.Base Miyabi.Base.Memory

-- The bytes of an access are in [0, pitch * height) relative to the address.
def Inside (fb : Framebuffer) (access : BitVec 64 × ℕ) : Prop :=
  ∀ i < access.2, (access.1 + BitVec.ofNat 64 i - fb.address).toNat < fb.pitch.toNat * fb.height.toNat

-- A cell or more, whole bytes in a pixel, and lines that hold their pixels.
structure Sized (fb : Framebuffer) : Prop where
  cols : 8 ≤ fb.width.toNat
  rows : 16 ≤ fb.height.toNat
  bytes : fb.bpp.toNat % 8 = 0
  pitch : fb.width.toNat * fb.bpp.toNat ≤ fb.pitch.toNat * 8

-- The offset of the last pixel of the last cell.
def lastPixel (fb : Framebuffer) : ℕ :=
  (fb.height.toNat / 16 * 16 - 1) * fb.pitch.toNat + (fb.width.toNat / 8 * 8 - 1) * (fb.bpp.toNat / 8)

-- There are four bytes for it, or more bytes than addresses.
def Fits (fb : Framebuffer) : Prop :=
  2 ^ 64 ≤ fb.pitch.toNat * fb.height.toNat ∨
    lastPixel fb + 4 ≤ fb.pitch.toNat * fb.height.toNat

inductive Call where
  | clear (color : BitVec 32)
  | setCursor (x y : BitVec 64)
  | putChar (c : BitVec 8) (color : BitVec 32)
  | puts (str : List (BitVec 8)) (color : BitVec 32)

namespace Console

def step (font : ℕ → BitVec 8) (con : Console) : Call → Console
  | .clear color => con.clear color
  | .setCursor x y => con.setCursor x y
  | .putChar c color => con.putChar font c color
  | .puts str color => con.puts font str color

def run (font : ℕ → BitVec 8) (con : Console) (calls : List Call) : Console :=
  calls.foldl (step font) con

-- Drawing changes the memory, and every access is one of these.
def Draws (P : BitVec 64 × ℕ → Prop) (con con' : Console) : Prop :=
  ∃ mem new, con' = { con with mem, touched := con.touched ++ new } ∧ ∀ e ∈ new, P e

variable {P : BitVec 64 × ℕ → Prop} {con con' con'' : Console}

theorem Draws.refl (con : Console) : Draws P con con :=
  ⟨con.mem, [], by rw [List.append_nil], fun _ h => absurd h List.not_mem_nil⟩

theorem Draws.trans (h : Draws P con con') (h' : Draws P con' con'') : Draws P con con'' := by
  obtain ⟨mem, new, rfl, hnew⟩ := h
  obtain ⟨mem', new', rfl, hnew'⟩ := h'
  refine ⟨mem', new ++ new', by rw [List.append_assoc], fun e he => ?_⟩
  exact (List.mem_append.mp he).elim (hnew e) (hnew' e)

theorem Draws.fb (h : Draws P con con') : con'.fb = con.fb := by
  obtain ⟨mem, new, rfl, -⟩ := h
  rfl

theorem Draws.rows (h : Draws P con con') : con'.rows = con.rows := by
  obtain ⟨mem, new, rfl, -⟩ := h
  rfl

-- A loop whose turns draw.
theorem Draws.foldl {α : Type} {f : Console → α → Console} {list : List α}
    (h : ∀ con', Draws P con con' → ∀ a ∈ list, Draws P con' (f con' a)) :
    Draws P con (list.foldl f con) :=
  List.foldlRecOn (motive := Draws P con) list f (Draws.refl con)
    fun con' hcon a ha => hcon.trans (h con' hcon a ha)

theorem storePixel_draws {a : BitVec 64} {color : BitVec 32} (h : P (a, 4)) :
    Draws P con (con.storePixel a color) :=
  ⟨_, [(a, 4)], rfl, fun _ he => List.mem_singleton.mp he ▸ h⟩

theorem copyByte_draws {dst src : BitVec 64} (hsrc : P (src, 1)) (hdst : P (dst, 1)) :
    Draws P con (con.copyByte dst src) := by
  refine ⟨_, [(src, 1), (dst, 1)], rfl, fun e he => ?_⟩
  rcases List.mem_cons.mp he with rfl | he
  · exact hsrc
  · exact List.mem_singleton.mp he ▸ hdst

theorem fillPixels_draws {dst : BitVec 64} {color : BitVec 32} {n : ℕ}
    (h : ∀ i < n, P (dst + 4 * BitVec.ofNat 64 i, 4)) : Draws P con (con.fillPixels dst color n) :=
  Draws.foldl fun _ _ i hi => storePixel_draws (h i (List.mem_range.mp hi))

end Console

section Geometry

variable {fb : Framebuffer}

theorem inside_offset (off : ℕ) {a : BitVec 64} {n : ℕ} (ha : a = fb.address + BitVec.ofNat 64 off)
    (h : 2 ^ 64 ≤ fb.pitch.toNat * fb.height.toNat ∨ off + n ≤ fb.pitch.toNat * fb.height.toNat) :
    Inside fb (a, n) := by
  intro i hi
  have hsub : a + BitVec.ofNat 64 i - fb.address = BitVec.ofNat 64 (off + i) := by
    rw [ha, BitVec.ofNat_add, add_assoc, add_sub_cancel_left]
  have hlt := (BitVec.ofNat 64 (off + i)).isLt
  have hle : (BitVec.ofNat 64 (off + i)).toNat ≤ off + i := by
    rw [BitVec.toNat_ofNat]
    exact Nat.mod_le _ _
  simp only at hi
  simp only [hsub]
  omega

theorem pixels_inside (off : ℕ) {dst : BitVec 64} {n : ℕ} (hdst : dst = fb.address + BitVec.ofNat 64 off)
    (h : 2 ^ 64 ≤ fb.pitch.toNat * fb.height.toNat ∨ off + 4 * n ≤ fb.pitch.toNat * fb.height.toNat) :
    ∀ i < n, Inside fb (dst + 4 * BitVec.ofNat 64 i, 4) := by
  intro i hi
  have ha : dst + 4 * BitVec.ofNat 64 i = fb.address + BitVec.ofNat 64 (off + 4 * i) := by
    rw [hdst, BitVec.ofNat_add, BitVec.ofNat_mul, add_assoc]
    rfl
  exact inside_offset _ ha (h.imp id (by omega))

-- The rows of text end in the framebuffer.
theorem lines_le (fb : Framebuffer) {y : ℕ} (hy : y ≤ fb.height.toNat / 16) :
    y * (fb.pitch.toNat * 16) ≤ fb.pitch.toNat * fb.height.toNat := by
  have hlines : y * 16 ≤ fb.height.toNat := by omega
  calc y * (fb.pitch.toNat * 16) = fb.pitch.toNat * (y * 16) := by ring
    _ ≤ fb.pitch.toNat * fb.height.toNat := Nat.mul_le_mul_left _ hlines

theorem lineSize_le (pitch : BitVec 64) : (pitch * FONT_HEIGHT).toNat ≤ pitch.toNat * 16 := by
  rw [BitVec.toNat_mul]
  exact Nat.mod_le _ _

theorem lineSize_eq (pitch : BitVec 64) : pitch * FONT_HEIGHT = BitVec.ofNat 64 (pitch.toNat * 16) := by
  rw [BitVec.ofNat_mul, BitVec.ofNat_toNat, BitVec.setWidth_eq]
  rfl

end Geometry

namespace Console

variable {con : Console}

theorem clear_draws (color : BitVec 32) :
    Draws (Inside con.fb) { con with back := color }
      ({ con with back := color }.fillPixels con.fb.address color
        (con.fb.pitch / 4 * con.fb.height).toNat) := by
  refine fillPixels_draws (pixels_inside 0 (add_zero _).symm (Or.inr ?_))
  have hle : (con.fb.pitch / 4 * con.fb.height).toNat ≤
      con.fb.pitch.toNat / 4 * con.fb.height.toNat := by
    rw [BitVec.toNat_mul, BitVec.toNat_udiv]
    exact Nat.mod_le _ _
  have hquarter : 4 * (con.fb.pitch.toNat / 4) ≤ con.fb.pitch.toNat := Nat.mul_div_le _ _
  calc 0 + 4 * (con.fb.pitch / 4 * con.fb.height).toNat
      ≤ 4 * (con.fb.pitch.toNat / 4) * con.fb.height.toNat := by
        rw [zero_add, mul_assoc]
        exact Nat.mul_le_mul_left 4 hle
    _ ≤ con.fb.pitch.toNat * con.fb.height.toNat := Nat.mul_le_mul_right _ hquarter

theorem scrollLine_draws {y : ℕ} (hpos : 0 < y) (hy : y < con.fb.height.toNat / 16) :
    Draws (Inside con.fb) con (scrollLine (con.fb.pitch * FONT_HEIGHT) con y) := by
  refine Draws.foldl fun con' _ i hi => ?_
  have hi : i < con.fb.pitch.toNat * 16 := (List.mem_range.mp hi).trans_le (lineSize_le _)
  have hline := lines_le con.fb hy
  have hone : BitVec.ofNat 64 y - 1 = BitVec.ofNat 64 (y - 1) := by
    obtain ⟨n, rfl⟩ := Nat.exists_eq_add_of_lt hpos
    rw [Nat.add_sub_cancel, BitVec.ofNat_add]
    exact add_sub_cancel_right _ _
  have hsrc : con.fb.address + BitVec.ofNat 64 y * (con.fb.pitch * FONT_HEIGHT) + BitVec.ofNat 64 i =
      con.fb.address + BitVec.ofNat 64 (y * (con.fb.pitch.toNat * 16) + i) := by
    rw [BitVec.ofNat_add, BitVec.ofNat_mul, lineSize_eq, add_assoc]
  have hdst : con.fb.address + (BitVec.ofNat 64 y - 1) * (con.fb.pitch * FONT_HEIGHT) +
      BitVec.ofNat 64 i =
        con.fb.address + BitVec.ofNat 64 ((y - 1) * (con.fb.pitch.toNat * 16) + i) := by
    rw [hone, BitVec.ofNat_add, BitVec.ofNat_mul, lineSize_eq, add_assoc]
  have hnext : (y - 1) * (con.fb.pitch.toNat * 16) ≤ y * (con.fb.pitch.toNat * 16) :=
    Nat.mul_le_mul_right _ (Nat.sub_le _ _)
  rw [Nat.succ_eq_add_one, add_mul, one_mul] at hline
  exact copyByte_draws (inside_offset _ hsrc (Or.inr (by omega)))
    (inside_offset _ hdst (Or.inr (by omega)))

theorem scroll_draws (bg : BitVec 32) (hrows : con.rows = con.fb.height / FONT_HEIGHT)
    (hpos : 0 < con.rows.toNat) : Draws (Inside con.fb) con (con.scroll bg) := by
  have hcount : con.rows.toNat = con.fb.height.toNat / 16 := by
    rw [hrows, BitVec.toNat_udiv]
    rfl
  have hlines : Draws (Inside con.fb) con
      ((List.range' 1 (con.rows.toNat - 1)).foldl (scrollLine (con.fb.pitch * FONT_HEIGHT)) con) := by
    refine Draws.foldl fun con' hcon y hy => ?_
    rw [List.mem_range'_1] at hy
    have hline : y < con'.fb.height.toNat / 16 := by
      rw [hcon.fb]
      omega
    have hturn := scrollLine_draws (by omega) hline
    rwa [hcon.fb] at hturn
  refine hlines.trans (fillPixels_draws ?_)
  rw [hlines.fb, hlines.rows]
  have hlast : con.fb.address + (con.rows - 1) * (con.fb.pitch * FONT_HEIGHT) =
      con.fb.address + BitVec.ofNat 64 ((con.rows.toNat - 1) * (con.fb.pitch.toNat * 16)) := by
    have hone : con.rows - 1 = BitVec.ofNat 64 (con.rows.toNat - 1) := by
      apply BitVec.eq_of_toNat_eq
      rw [Word.toNat_sub_one _ hpos, BitVec.toNat_ofNat, Nat.mod_eq_of_lt (by omega)]
    rw [hone, BitVec.ofNat_mul, lineSize_eq]
  refine pixels_inside _ hlast (Or.inr ?_)
  have hle : (con.fb.pitch / 4 * FONT_HEIGHT).toNat ≤ con.fb.pitch.toNat / 4 * 16 := by
    rw [BitVec.toNat_mul, BitVec.toNat_udiv]
    exact Nat.mod_le _ _
  have hend := lines_le con.fb hcount.le
  have hsucc : con.rows.toNat = con.rows.toNat - 1 + 1 := by omega
  rw [hsucc, add_mul, one_mul] at hend
  omega

-- Where the pixel of a cell is.
def pixelAt (fb : Framebuffer) (cx cy : BitVec 64) (row col : ℕ) : BitVec 64 :=
  fb.address + (cy * FONT_HEIGHT + BitVec.ofNat 64 row) * fb.pitch +
    (cx * FONT_WIDTH + BitVec.ofNat 64 col) * (fb.bpp / 8).setWidth 64

theorem pixelAt_eq (fb : Framebuffer) (cx cy : BitVec 64) (row col : ℕ) :
    pixelAt fb cx cy row col = fb.address + BitVec.ofNat 64
      ((cy.toNat * 16 + row) * fb.pitch.toNat + (cx.toNat * 8 + col) * (fb.bpp.toNat / 8)) := by
  have hbytes : (fb.bpp / 8).setWidth 64 = BitVec.ofNat 64 (fb.bpp.toNat / 8) := by
    apply BitVec.eq_of_toNat_eq
    rw [BitVec.toNat_setWidth, BitVec.toNat_udiv, BitVec.toNat_ofNat]
    rfl
  simp only [pixelAt, BitVec.ofNat_add, BitVec.ofNat_mul, BitVec.ofNat_toNat, BitVec.setWidth_eq,
    hbytes, add_assoc]
  rfl

theorem pixelAt_inside {fb : Framebuffer} {cx cy : BitVec 64} {row col : ℕ} (hfits : Fits fb)
    (hx : cx.toNat < fb.width.toNat / 8) (hy : cy.toNat < fb.height.toNat / 16) (hrow : row < 16)
    (hcol : col < 8) : Inside fb (pixelAt fb cx cy row col, 4) := by
  refine inside_offset _ (pixelAt_eq fb cx cy row col) ?_
  rcases hfits with hwide | hlast
  · exact Or.inl hwide
  · refine Or.inr (le_trans (Nat.add_le_add_right (Nat.add_le_add ?_ ?_) 4) hlast)
    · exact Nat.mul_le_mul_right _ (by omega)
    · exact Nat.mul_le_mul_right _ (by omega)

section DrawChar

variable (font : ℕ → BitVec 8) (c : BitVec 8) (cx cy : BitVec 64) (fg bg : BitVec 32)

theorem drawRow_draws {row : ℕ} (list : List ℕ) (h : ∀ col ∈ list, P (pixelAt con.fb cx cy row col, 4)) :
    Draws P con (list.foldl (drawPixel font c cx cy fg bg row) con) := by
  refine Draws.foldl fun con' hcon col hcol => storePixel_draws ?_
  rw [hcon.fb]
  exact h col hcol

theorem drawRows_draws (list : List ℕ)
    (h : ∀ row ∈ list, ∀ col < 8, P (pixelAt con.fb cx cy row col, 4)) :
    Draws P con (list.foldl
      (fun con row => (List.range 8).foldl (drawPixel font c cx cy fg bg row) con) con) := by
  refine Draws.foldl fun con' hcon row hrow => drawRow_draws font c cx cy fg bg _ fun col hcol => ?_
  rw [hcon.fb]
  exact h row hrow col (List.mem_range.mp hcol)

theorem drawChar_draws (h : ∀ row < 16, ∀ col < 8, P (pixelAt con.fb cx cy row col, 4)) :
    Draws P con (con.drawChar font c cx cy fg bg) :=
  drawRows_draws font c cx cy fg bg _ fun row hrow => h row (List.mem_range.mp hrow)

-- The last pixel that is drawn.
theorem drawChar_last : (pixelAt con.fb cx cy 15 7, 4) ∈ (con.drawChar font c cx cy fg bg).touched := by
  have hrows : Draws (fun _ => True) con ((List.range 15).foldl (fun con row =>
      (List.range 8).foldl (drawPixel font c cx cy fg bg row) con) con) :=
    drawRows_draws font c cx cy fg bg _ fun _ _ _ _ => trivial
  have h16 : List.range 16 = List.range 15 ++ [15] := List.range_succ
  have h8 : List.range 8 = List.range 7 ++ [7] := List.range_succ
  rw [drawChar, h16, List.foldl_append, List.foldl_cons, List.foldl_nil]
  generalize (List.range 15).foldl _ con = con1 at hrows ⊢
  have hcols : Draws (fun _ => True) con1
      ((List.range 7).foldl (drawPixel font c cx cy fg bg 15) con1) :=
    drawRow_draws font c cx cy fg bg _ fun _ _ => trivial
  rw [h8, List.foldl_append, List.foldl_cons, List.foldl_nil]
  generalize (List.range 7).foldl _ con1 = con2 at hcols ⊢
  have hfb := (hrows.trans hcols).fb
  rw [← hfb]
  exact List.mem_append_right _ List.mem_cons_self

end DrawChar

-- The console on its framebuffer, with every access so far inside it.
structure Grid (fb : Framebuffer) (con : Console) : Prop where
  screen : con.fb = fb
  cols : con.cols = fb.width / FONT_WIDTH
  rows : con.rows = fb.height / FONT_HEIGHT
  inside : ∀ e ∈ con.touched, Inside fb e

-- Between calls the cursor is on a cell.
structure Placed (fb : Framebuffer) (con : Console) : Prop extends Grid fb con where
  x : con.cursorX < con.cols
  y : con.cursorY < con.rows

theorem Grid.draws {fb : Framebuffer} (h : Grid fb con) (hd : Draws (Inside fb) con con') :
    Grid fb con' := by
  obtain ⟨mem, new, rfl, hnew⟩ := hd
  refine ⟨h.screen, h.cols, h.rows, fun e he => ?_⟩
  exact (List.mem_append.mp he).elim (h.inside e) (hnew e)

theorem Grid.colsNat {fb : Framebuffer} (h : Grid fb con) : con.cols.toNat = fb.width.toNat / 8 := by
  rw [h.cols, BitVec.toNat_udiv]
  rfl

theorem Grid.rowsNat {fb : Framebuffer} (h : Grid fb con) : con.rows.toNat = fb.height.toNat / 16 := by
  rw [h.rows, BitVec.toNat_udiv]
  rfl

section Steps

variable {fb : Framebuffer} (font : ℕ → BitVec 8)

theorem placeChar_grid (hfits : Fits fb) (h : Placed fb con) (c : BitVec 8) (color bg : BitVec 32) :
    Grid fb (con.placeChar font c color bg) := by
  have hmove : ∀ {con : Console}, Grid fb con → ∀ x y : BitVec 64,
      Grid fb { con with cursorX := x, cursorY := y } :=
    fun h _ _ => ⟨h.screen, h.cols, h.rows, h.inside⟩
  have hx := h.x
  have hy := h.y
  rw [BitVec.lt_def, h.colsNat] at hx
  rw [BitVec.lt_def, h.rowsNat] at hy
  have hdraw : Grid fb (con.drawChar font c con.cursorX con.cursorY color bg) := by
    refine h.toGrid.draws (drawChar_draws font c con.cursorX con.cursorY color bg ?_)
    intro row hrow col hcol
    rw [h.screen]
    exact pixelAt_inside hfits hx hy hrow hcol
  rw [placeChar]
  split
  · exact hmove h.toGrid _ _
  split
  · exact hmove h.toGrid _ _
  split
  · exact hmove h.toGrid _ _
  split
  · split
    · exact hmove h.toGrid _ _
    · exact h.toGrid
  · exact hmove hdraw _ _

-- The end of put_char: past the last column to the next line, past the last line a scroll.
theorem putChar_placed (hfits : Fits fb) (h : Placed fb con) (c : BitVec 8) (color : BitVec 32) :
    Placed fb (con.putChar font c color) := by
  have hgrid := placeChar_grid font hfits h c color con.back
  have hcols : 0 < fb.width.toNat / 8 := h.colsNat ▸ (Nat.zero_le _).trans_lt h.x
  have hrows : 0 < fb.height.toNat / 16 := h.rowsNat ▸ (Nat.zero_le _).trans_lt h.y
  rw [putChar]
  simp only
  generalize con.placeChar font c color con.back = con1 at hgrid ⊢
  have hwrapped : ∀ con2, con2 = (if con1.cols ≤ con1.cursorX then
      { con1 with cursorX := 0, cursorY := con1.cursorY + 1 } else con1) →
        Grid fb con2 ∧ con2.cursorX < con2.cols := by
    rintro con2 rfl
    by_cases hwrap : con1.cols ≤ con1.cursorX
    · rw [if_pos hwrap]
      refine ⟨⟨hgrid.screen, hgrid.cols, hgrid.rows, hgrid.inside⟩, ?_⟩
      rw [BitVec.lt_def]
      exact hgrid.colsNat ▸ hcols
    · rw [if_neg hwrap]
      exact ⟨hgrid, BitVec.not_le.mp hwrap⟩
  obtain ⟨hgrid2, hx⟩ := hwrapped _ rfl
  generalize (if con1.cols ≤ con1.cursorX then _ else con1) = con2 at hgrid2 hx ⊢
  split
  · have hdraws := scroll_draws con.back (hgrid2.screen ▸ hgrid2.rows)
      (hgrid2.rowsNat ▸ hrows)
    rw [hgrid2.screen] at hdraws
    have hscrolled := hgrid2.draws hdraws
    obtain ⟨mem, new, hscroll, -⟩ := hdraws
    rw [hscroll] at hscrolled ⊢
    refine ⟨⟨hscrolled.screen, hscrolled.cols, hscrolled.rows, hscrolled.inside⟩, hx, ?_⟩
    rw [BitVec.lt_def, Word.toNat_sub_one _ (hgrid2.rowsNat ▸ hrows)]
    exact Nat.sub_one_lt (hgrid2.rowsNat ▸ hrows).ne'
  · next hlast => exact ⟨hgrid2, hx, BitVec.not_le.mp hlast⟩

theorem clear_placed (h : Placed fb con) (color : BitVec 32) : Placed fb (con.clear color) := by
  have hscreen := h.screen
  subst hscreen
  have hback : Grid con.fb { con with back := color } := ⟨rfl, h.cols, h.rows, h.inside⟩
  have hcleared := hback.draws (clear_draws color)
  refine ⟨⟨hcleared.screen, hcleared.cols, hcleared.rows, hcleared.inside⟩, ?_, ?_⟩
  · rw [BitVec.lt_def]
    exact hcleared.colsNat ▸ h.colsNat ▸ (Nat.zero_le _).trans_lt h.x
  · rw [BitVec.lt_def]
    exact hcleared.rowsNat ▸ h.rowsNat ▸ (Nat.zero_le _).trans_lt h.y

theorem setCursor_placed (h : Placed fb con) (x y : BitVec 64) : Placed fb (con.setCursor x y) := by
  rw [setCursor]
  by_cases hx : x < con.cols
  · by_cases hy : y < con.rows
    · simp only [if_pos hx, if_pos hy]
      exact ⟨⟨h.screen, h.cols, h.rows, h.inside⟩, hx, hy⟩
    · simp only [if_pos hx, if_neg hy]
      exact ⟨⟨h.screen, h.cols, h.rows, h.inside⟩, hx, h.y⟩
  · by_cases hy : y < con.rows
    · simp only [if_neg hx, if_pos hy]
      exact ⟨⟨h.screen, h.cols, h.rows, h.inside⟩, h.x, hy⟩
    · simp only [if_neg hx, if_neg hy]
      exact h

theorem step_placed (hfits : Fits fb) (h : Placed fb con) (call : Call) :
    Placed fb (step font con call) := by
  cases call with
  | clear color => exact clear_placed h color
  | setCursor x y => exact setCursor_placed h x y
  | putChar c color => exact putChar_placed font hfits h c color
  | puts str color =>
    exact List.foldlRecOn (motive := Placed fb) str _ h
      fun con h c _ => putChar_placed font hfits h c color

theorem run_placed (hfits : Fits fb) (h : Placed fb con) (calls : List Call) :
    Placed fb (run font con calls) :=
  List.foldlRecOn (motive := Placed fb) calls _ h fun _ h call _ => step_placed font hfits h call

theorem initFb_placed (hsized : Sized fb) (mem : Memory 64) : Placed fb (initFb fb mem) := by
  have hgrid : Grid fb (initFb fb mem) := ⟨rfl, rfl, rfl, fun _ h => absurd h List.not_mem_nil⟩
  refine ⟨hgrid, ?_, ?_⟩
  · have hcols := hsized.cols
    rw [BitVec.lt_def, hgrid.colsNat]
    exact Nat.div_pos hcols (by decide)
  · have hrows := hsized.rows
    rw [BitVec.lt_def, hgrid.rowsNat]
    exact Nat.div_pos hrows (by decide)

end Steps

theorem Draws.mem (h : Draws P con con') {e : BitVec 64 × ℕ} (he : e ∈ con.touched) :
    e ∈ con'.touched := by
  obtain ⟨mem, new, rfl, -⟩ := h
  exact List.mem_append_left _ he

-- The end of put_char draws over what is drawn.
theorem putChar_mem (font : ℕ → BitVec 8) {c : BitVec 8} {color : BitVec 32} {con1 : Console}
    (hplace : con.placeChar font c color con.back = con1)
    (hrows : con1.rows = con1.fb.height / FONT_HEIGHT) (hpos : 0 < con1.rows.toNat)
    {e : BitVec 64 × ℕ} (he : e ∈ con1.touched) : e ∈ (con.putChar font c color).touched := by
  have hmoved : ∀ x y : BitVec 64, e ∈ ({ con1 with cursorX := x, cursorY := y }.scroll con.back).touched := by
    intro x y
    have hdraws : Draws (Inside con1.fb) { con1 with cursorX := x, cursorY := y }
        ({ con1 with cursorX := x, cursorY := y }.scroll con.back) := scroll_draws con.back hrows hpos
    exact hdraws.mem he
  rw [putChar]
  simp only [hplace]
  split
  · split
    · exact hmoved _ _
    · exact he
  · split
    · exact hmoved con1.cursorX con1.cursorY
    · exact he

-- A letter is drawn to the last pixel of its cell.
theorem letter_touches (font : ℕ → BitVec 8) (color : BitVec 32)
    (hrows : con.rows = con.fb.height / FONT_HEIGHT) (hpos : 0 < con.rows.toNat) :
    (pixelAt con.fb con.cursorX con.cursorY 15 7, 4) ∈ (con.putChar font 0x41 color).touched := by
  have hdraws : Draws (fun _ => True) con
      (con.drawChar font 0x41 con.cursorX con.cursorY color con.back) :=
    drawChar_draws font _ _ _ _ _ fun _ _ _ _ => trivial
  have hlast : (pixelAt con.fb con.cursorX con.cursorY 15 7, 4) ∈
      (con.drawChar font 0x41 con.cursorX con.cursorY color con.back).touched :=
    drawChar_last font _ _ _ _ _
  have hplace : ∀ drawn, drawn = con.drawChar font 0x41 con.cursorX con.cursorY color con.back →
      con.placeChar font 0x41 color con.back = { drawn with cursorX := drawn.cursorX + 1 } := by
    rintro drawn rfl
    rw [placeChar, if_neg (by decide), if_neg (by decide), if_neg (by decide), if_neg (by decide)]
  have hplace := hplace _ rfl
  generalize con.drawChar font 0x41 con.cursorX con.cursorY color con.back = drawn at *
  refine putChar_mem font hplace ?_ ?_ hlast
  · exact hdraws.rows.trans (hrows.trans (congrArg (fun fb : Framebuffer => fb.height / FONT_HEIGHT)
      hdraws.fb.symm))
  · exact hdraws.rows.symm ▸ hpos

end Console

theorem lastPixel_le {fb : Framebuffer} (hsized : Sized fb) :
    lastPixel fb ≤ fb.pitch.toNat * fb.height.toNat := by
  have hrows := hsized.rows
  have hbytes : fb.bpp.toNat = fb.bpp.toNat / 8 * 8 := by
    have := hsized.bytes
    omega
  have hline : fb.width.toNat * (fb.bpp.toNat / 8) ≤ fb.pitch.toNat := by
    have hpitch := hsized.pitch
    rw [hbytes, ← mul_assoc] at hpitch
    exact Nat.le_of_mul_le_mul_right hpitch (by decide)
  have hcell : (fb.width.toNat / 8 * 8 - 1) * (fb.bpp.toNat / 8) ≤ fb.pitch.toNat :=
    (Nat.mul_le_mul_right _ (by omega)).trans hline
  calc lastPixel fb ≤ (fb.height.toNat / 16 * 16 - 1) * fb.pitch.toNat + fb.pitch.toNat :=
        Nat.add_le_add_left hcell _
    _ = (fb.height.toNat / 16 * 16 - 1 + 1) * fb.pitch.toNat := (Nat.succ_mul _ _).symm
    _ ≤ fb.height.toNat * fb.pitch.toNat := Nat.mul_le_mul_right _ (by omega)
    _ = fb.pitch.toNat * fb.height.toNat := mul_comm _ _

-- An access at the last pixel is inside if there are four bytes for it.
theorem fits_of_lastPixel {fb : Framebuffer} (hsized : Sized fb)
    (h : Inside fb (fb.address + BitVec.ofNat 64 (lastPixel fb), 4)) : Fits fb := by
  by_contra hnot
  rw [Fits, not_or, not_le, not_le] at hnot
  obtain ⟨hspace, hover⟩ := hnot
  have hle := lastPixel_le hsized
  have hbyte := h (fb.pitch.toNat * fb.height.toNat - lastPixel fb) (by simp only; omega)
  have hend : fb.address + BitVec.ofNat 64 (lastPixel fb) +
      BitVec.ofNat 64 (fb.pitch.toNat * fb.height.toNat - lastPixel fb) - fb.address =
        BitVec.ofNat 64 (fb.pitch.toNat * fb.height.toNat) := by
    rw [add_assoc, add_sub_cancel_left, ← BitVec.ofNat_add, Nat.add_sub_cancel' hle]
  simp only [hend] at hbyte
  rw [BitVec.toNat_ofNat, Nat.mod_eq_of_lt hspace] at hbyte
  exact lt_irrefl _ hbyte

-- A character in the last cell.
theorem fits_of_inside (font : ℕ → BitVec 8) {fb : Framebuffer} (hsized : Sized fb) (mem : Memory 64)
    (h : ∀ calls, ∀ e ∈ ((Console.initFb fb mem).run font calls).touched, Inside fb e) : Fits fb := by
  have hwidth := hsized.cols
  have hheight := hsized.rows
  have hcols : (fb.width / FONT_WIDTH).toNat = fb.width.toNat / 8 := by
    rw [BitVec.toNat_udiv]
    rfl
  have hrows : (fb.height / FONT_HEIGHT).toNat = fb.height.toNat / 16 := by
    rw [BitVec.toNat_udiv]
    rfl
  have hx : (fb.width / FONT_WIDTH - 1).toNat = fb.width.toNat / 8 - 1 := by
    rw [Word.toNat_sub_one _ (by omega), hcols]
  have hy : (fb.height / FONT_HEIGHT - 1).toNat = fb.height.toNat / 16 - 1 := by
    rw [Word.toNat_sub_one _ (by omega), hrows]
  have hxlt : fb.width / FONT_WIDTH - 1 < fb.width / FONT_WIDTH := by
    rw [BitVec.lt_def, hx, hcols]
    omega
  have hylt : fb.height / FONT_HEIGHT - 1 < fb.height / FONT_HEIGHT := by
    rw [BitVec.lt_def, hy, hrows]
    omega
  have hcursor : (Console.initFb fb mem).setCursor (fb.width / FONT_WIDTH - 1)
      (fb.height / FONT_HEIGHT - 1) =
        { Console.initFb fb mem with
          cursorX := fb.width / FONT_WIDTH - 1
          cursorY := fb.height / FONT_HEIGHT - 1 } := by
    rw [Console.setCursor]
    have hx' : fb.width / FONT_WIDTH - 1 < (Console.initFb fb mem).cols := hxlt
    simp only [if_pos hx']
    exact if_pos hylt
  have hrun := h [.setCursor (fb.width / FONT_WIDTH - 1) (fb.height / FONT_HEIGHT - 1), .putChar 0x41 0]
  simp only [Console.run, List.foldl_cons, List.foldl_nil, Console.step, hcursor] at hrun
  refine fits_of_lastPixel hsized ?_
  have hpixel : Console.pixelAt fb (fb.width / FONT_WIDTH - 1) (fb.height / FONT_HEIGHT - 1) 15 7 =
      fb.address + BitVec.ofNat 64 (lastPixel fb) := by
    rw [Console.pixelAt_eq, hx, hy, lastPixel]
    congr 4
    · omega
    · omega
  rw [← hpixel]
  refine hrun _ (Console.letter_touches font 0 rfl ?_)
  show 0 < (fb.height / FONT_HEIGHT).toNat
  omega

-- Every run stays in the framebuffer exactly when there are four bytes for the last pixel.
theorem console_inside_iff (font : ℕ → BitVec 8) (fb : Framebuffer) (hsized : Sized fb)
    (mem : Memory 64) :
    (∀ calls, ∀ e ∈ ((Console.initFb fb mem).run font calls).touched, Inside fb e) ↔ Fits fb := by
  constructor
  · exact fits_of_inside font hsized mem
  · intro hfits calls
    exact (Console.run_placed font hfits (Console.initFb_placed hsized mem) calls).inside

-- 640 by 480 pixels of four bytes.
def screen32 : Framebuffer := ⟨0xFD000000, 640, 480, 2560, 32⟩

theorem console_inside_screen32 :
    (∀ calls, ∀ e ∈ ((Console.initFb screen32 fun _ => 0).run (fun _ => 0) calls).touched,
      Inside screen32 e) ↔ Fits screen32 :=
  console_inside_iff (fun _ => 0) screen32
    ⟨by decide, by decide, by decide, by decide⟩ fun _ => 0

-- 640 by 480 pixels of three bytes.
def screen24 : Framebuffer := ⟨0xFD000000, 640, 480, 1920, 24⟩

theorem console_overruns_screen24 :
    ¬∀ calls, ∀ e ∈ ((Console.initFb screen24 fun _ => 0).run (fun _ => 0) calls).touched,
      Inside screen24 e := by
  rw [console_inside_iff (fun _ => 0) screen24 ⟨by decide, by decide, by decide, by decide⟩]
  rintro (h | h)
  · exact absurd h (by decide)
  · exact absurd h (by decide)

end Miyabi.Drivers.Fb
