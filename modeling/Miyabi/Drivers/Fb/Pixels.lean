import Miyabi.Base.Copy
import Miyabi.Drivers.Fb.Bounds

namespace Miyabi.Drivers.Fb

open Miyabi.Base Miyabi.Base.Memory

-- A framebuffer with four bytes in a pixel, in the address space.
structure Screen (fb : Framebuffer) : Prop where
  bpp : fb.bpp = 32
  cols : 8 ≤ fb.width.toNat
  rows : 16 ≤ fb.height.toNat
  aligned : fb.pitch.toNat % 4 = 0
  pitch : 4 * fb.width.toNat ≤ fb.pitch.toNat
  space : fb.pitch.toNat * fb.height.toNat ≤ 2 ^ 64

-- The pixels of a line, those of a line of text and all of them.
def stride (fb : Framebuffer) : ℕ := fb.pitch.toNat / 4
def textLine (fb : Framebuffer) : ℕ := 16 * stride fb
def numPixels (fb : Framebuffer) : ℕ := stride fb * fb.height.toNat

def pixelAddr (fb : Framebuffer) (k : ℕ) : BitVec 64 := fb.address + BitVec.ofNat 64 (4 * k)

-- A pixel of a cell.
def cellPixel (fb : Framebuffer) (x y row col : ℕ) : ℕ := (y * 16 + row) * stride fb + (x * 8 + col)

def pixel (fb : Framebuffer) (mem : Memory 64) (k : ℕ) : BitVec 32 := mem.load32 (pixelAddr fb k)

section Screen

variable {fb : Framebuffer} (hs : Screen fb)

include hs

theorem Screen.pitch_eq : fb.pitch.toNat = 4 * stride fb := by
  have := hs.aligned
  rw [stride]
  omega

theorem Screen.bytes : 4 * numPixels fb ≤ 2 ^ 64 := by
  have hspace := hs.space
  rw [hs.pitch_eq, mul_assoc] at hspace
  exact hspace

omit hs in
theorem text_le {n : ℕ} (hn : n ≤ fb.height.toNat / 16) : n * textLine fb ≤ numPixels fb := by
  have hlines : n * 16 ≤ fb.height.toNat := by omega
  calc n * textLine fb = stride fb * (n * 16) := by rw [textLine]; ring
    _ ≤ numPixels fb := Nat.mul_le_mul_left _ hlines

theorem Screen.pixel_bytes {k : ℕ} (hk : k < numPixels fb) : 4 * k + 4 ≤ 2 ^ 64 := by
  have := hs.bytes
  omega

theorem Screen.width_le : fb.width.toNat ≤ stride fb := by
  have := hs.pitch
  rw [hs.pitch_eq] at this
  omega

theorem cellPixel_lt {x y row col : ℕ} (hx : x < fb.width.toNat / 8) (hy : y < fb.height.toNat / 16)
    (hrow : row < 16) (hcol : col < 8) : cellPixel fb x y row col < numPixels fb := by
  have hwidth := hs.width_le
  have hline : (y * 16 + row + 1) * stride fb ≤ fb.height.toNat * stride fb :=
    Nat.mul_le_mul_right _ (by omega)
  rw [Nat.succ_mul] at hline
  rw [cellPixel, numPixels, mul_comm (stride fb)]
  omega

theorem cellPixel_div {x y row col : ℕ} (hx : x < fb.width.toNat / 8) (hcol : col < 8) :
    cellPixel fb x y row col / stride fb = y * 16 + row := by
  have hwidth := hs.width_le
  rw [cellPixel, mul_comm, Nat.mul_add_div (by omega), Nat.div_eq_of_lt (by omega), Nat.add_zero]

theorem cellPixel_mod {x y row col : ℕ} (hx : x < fb.width.toNat / 8) (hcol : col < 8) :
    cellPixel fb x y row col % stride fb = x * 8 + col := by
  have hwidth := hs.width_le
  rw [cellPixel, mul_comm, Nat.mul_add_mod, Nat.mod_eq_of_lt (by omega)]

theorem pixels_apart {j k : ℕ} (hj : j < numPixels fb) (hk : k < numPixels fb) (hne : j ≠ k) :
    Apart (pixelAddr fb j) 4 (pixelAddr fb k) 4 := by
  rcases Nat.lt_or_gt_of_ne hne with hlt | hgt
  · exact apart_offsets fb.address (by omega) (hs.pixel_bytes hk)
  · exact (apart_offsets fb.address (by omega) (hs.pixel_bytes hj)).symm

omit hs in
theorem pixel_store_same (mem : Memory 64) (k : ℕ) (color : BitVec 32) :
    pixel fb (mem.store32 (pixelAddr fb k) color) k = color :=
  load_store_same mem (pixelAddr fb k) (n := 4) color (by norm_num)

theorem pixel_store_ne (mem : Memory 64) {j k : ℕ} (color : BitVec 32) (hj : j < numPixels fb)
    (hk : k < numPixels fb) (hne : j ≠ k) :
    pixel fb (mem.store32 (pixelAddr fb k) color) j = pixel fb mem j :=
  load_store_apart mem _ _ _ (pixels_apart hs hj hk hne)

end Screen

namespace Console

variable {fb : Framebuffer} {con con' con'' : Console}

-- The pixels of `S` have been drawn in their colours, and no others.
structure Painted (fb : Framebuffer) (color : ℕ → BitVec 32) (S : ℕ → Prop) (con con' : Console) : Prop
    where
  draws : Draws (fun _ => True) con con'
  inside : ∀ k < numPixels fb, S k → pixel fb con'.mem k = color k
  outside : ∀ k < numPixels fb, ¬S k → pixel fb con'.mem k = pixel fb con.mem k

variable {color : ℕ → BitVec 32} {S T : ℕ → Prop}

theorem Painted.trans (h : Painted fb color S con con') (h' : Painted fb color T con' con'') :
    Painted fb color (fun k => S k ∨ T k) con con'' := by
  refine ⟨h.draws.trans h'.draws, fun k hk hin => ?_, fun k hk hout => ?_⟩
  · by_cases hT : T k
    · exact h'.inside k hk hT
    · rw [h'.outside k hk hT]
      exact h.inside k hk (hin.resolve_right hT)
  · rw [h'.outside k hk (fun hT => hout (Or.inr hT)), h.outside k hk (fun hS => hout (Or.inl hS))]

theorem Painted.congr (h : Painted fb color S con con') (hiff : ∀ k < numPixels fb, S k ↔ T k) :
    Painted fb color T con con' :=
  ⟨h.draws, fun k hk hT => h.inside k hk ((hiff k hk).mpr hT),
    fun k hk hT => h.outside k hk (mt (hiff k hk).mp hT)⟩

-- A loop whose turns paint.
theorem Painted.foldl {α : Type} {f : Console → α → Console} (S : α → ℕ → Prop) {list : List α}
    (h : ∀ con', con'.fb = con.fb → ∀ a ∈ list, Painted fb color (S a) con' (f con' a)) :
    Painted fb color (fun k => ∃ a ∈ list, S a k) con (list.foldl f con) := by
  induction list generalizing con with
  | nil =>
    refine ⟨Draws.refl con, fun k _ hin => ?_, fun _ _ _ => rfl⟩
    obtain ⟨a, ha, -⟩ := hin
    cases ha
  | cons a rest ih =>
    have hfirst := h con rfl a List.mem_cons_self
    have hrest := ih fun con' hcon b hb =>
      h con' (hcon.trans hfirst.draws.fb) b (List.mem_cons_of_mem a hb)
    refine (hfirst.trans hrest).congr fun k _ => ?_
    simp only [List.mem_cons, exists_eq_or_imp]

theorem storePixel_painted (hs : Screen fb) (color : ℕ → BitVec 32) {k : ℕ} (hk : k < numPixels fb)
    (con : Console) :
    Painted fb color (· = k) con (con.storePixel (pixelAddr fb k) (color k)) := by
  refine ⟨storePixel_draws trivial, fun j _ hj => ?_, fun j hj hne => ?_⟩
  · rw [hj]
    exact pixel_store_same con.mem k (color k)
  · exact pixel_store_ne hs con.mem (color k) hj hk hne

theorem fillPixels_painted (hs : Screen fb) (bg : BitVec 32) {first n : ℕ}
    (hlast : first + n ≤ numPixels fb) (con : Console) :
    Painted fb (fun _ => bg) (fun k => first ≤ k ∧ k < first + n) con
      (con.fillPixels (pixelAddr fb first) bg n) := by
  have haddr : ∀ i, pixelAddr fb first + 4 * BitVec.ofNat 64 i = pixelAddr fb (first + i) := by
    intro i
    rw [pixelAddr, pixelAddr, Nat.mul_add, BitVec.ofNat_add, BitVec.ofNat_mul (4 : ℕ) i, add_assoc]
    rfl
  refine (Painted.foldl (fun i k => k = first + i) fun con' _ i hi => ?_).congr fun k _ => ?_
  · rw [haddr]
    have := List.mem_range.mp hi
    exact storePixel_painted hs (fun _ => bg) (by omega) con'
  · constructor
    · rintro ⟨i, hi, rfl⟩
      have := List.mem_range.mp hi
      omega
    · intro hk
      exact ⟨k - first, List.mem_range.mpr (by omega), by omega⟩

theorem copyBytes_mem (dst src : BitVec 64) (n : ℕ) (con : Console) :
    ((List.range n).foldl (fun con i => con.copyByte (dst + BitVec.ofNat 64 i) (src + BitVec.ofNat 64 i))
      con).mem = copy con.mem dst src n := by
  induction n with
  | zero => rfl
  | succ n ih =>
    rw [List.range_succ, List.foldl_append, List.foldl_cons, List.foldl_nil, copy, ← ih]
    rfl

theorem lineSize_toNat (hs : Screen fb) (hrows : 2 ≤ fb.height.toNat / 16) :
    (fb.pitch * FONT_HEIGHT).toNat = 4 * textLine fb := by
  have htwo : 2 * textLine fb ≤ numPixels fb := text_le hrows
  have hbytes := hs.bytes
  have hline : fb.pitch.toNat * 16 = 4 * textLine fb := by
    rw [hs.pitch_eq, textLine]
    ring
  have hheight : FONT_HEIGHT.toNat = 16 := rfl
  rw [BitVec.toNat_mul, hheight, hline, Nat.mod_eq_of_lt]
  have hpos : 0 < fb.pitch.toNat := by
    have := hs.cols
    have := hs.pitch
    omega
  omega

-- A line of text is copied to the one above it.
theorem scrollLine_pixel (hs : Screen fb) (hcon : con.fb = fb) {y : ℕ} (hpos : 0 < y)
    (hy : y < fb.height.toNat / 16) {k : ℕ} (hk : k < numPixels fb) :
    pixel fb (scrollLine (fb.pitch * FONT_HEIGHT) con y).mem k =
      if (y - 1) * textLine fb ≤ k ∧ k < y * textLine fb then pixel fb con.mem (k + textLine fb)
      else pixel fb con.mem k := by
  have hsize := lineSize_toNat hs (show 2 ≤ fb.height.toNat / 16 by omega)
  have hone : BitVec.ofNat 64 y - 1 = BitVec.ofNat 64 (y - 1) := by
    obtain ⟨n, rfl⟩ := Nat.exists_eq_add_of_lt hpos
    rw [Nat.add_sub_cancel, BitVec.ofNat_add]
    exact add_sub_cancel_right _ _
  have hword : fb.pitch * FONT_HEIGHT = BitVec.ofNat 64 (4 * textLine fb) := by
    rw [← hsize, BitVec.ofNat_toNat, BitVec.setWidth_eq]
  have hline : ∀ n, BitVec.ofNat 64 n * (fb.pitch * FONT_HEIGHT) =
      BitVec.ofNat 64 (4 * (n * textLine fb)) := by
    intro n
    rw [hword, ← BitVec.ofNat_mul]
    congr 1
    ring
  have hsucc : y * textLine fb = (y - 1) * textLine fb + textLine fb := by
    rw [← Nat.succ_mul]
    congr 1
    omega
  have hend : (y + 1) * textLine fb ≤ numPixels fb := text_le hy
  rw [Nat.succ_mul] at hend
  have hbytes := hs.bytes
  rw [scrollLine, copyBytes_mem, hsize, hcon, hone, hline, hline]
  have hapart : Apart (fb.address + BitVec.ofNat 64 (4 * ((y - 1) * textLine fb))) (4 * textLine fb)
      (fb.address + BitVec.ofNat 64 (4 * (y * textLine fb))) (4 * textLine fb) :=
    apart_offsets fb.address (by omega) (by omega)
  have haddr : ∀ {n : ℕ}, n ≤ k → pixelAddr fb k =
      fb.address + BitVec.ofNat 64 (4 * n) + BitVec.ofNat 64 (4 * (k - n)) := by
    intro n hn
    rw [pixelAddr, add_assoc, ← BitVec.ofNat_add]
    congr 2
    omega
  by_cases hin : (y - 1) * textLine fb ≤ k ∧ k < y * textLine fb
  · have hsrc : pixelAddr fb (k + textLine fb) = fb.address + BitVec.ofNat 64 (4 * (y * textLine fb)) +
        BitVec.ofNat 64 (4 * (k - (y - 1) * textLine fb)) := by
      rw [pixelAddr, add_assoc, ← BitVec.ofNat_add]
      congr 2
      omega
    rw [if_pos hin, pixel, pixel, haddr hin.1, hsrc]
    exact load_copy con.mem _ _ (by omega) hapart (by omega)
  · rw [if_neg hin, pixel, pixel]
    refine load_congr ((copy_keeps con.mem _ _ _ (by omega)).agree ?_)
    rcases not_and_or.mp hin with hbefore | hbehind
    · exact apart_offsets fb.address (by omega) (by omega)
    · exact (apart_offsets fb.address (by omega) (hs.pixel_bytes hk)).symm

theorem scrollLines_draws (lineSize : BitVec 64) (list : List ℕ) (con : Console) :
    Draws (fun _ => True) con (list.foldl (scrollLine lineSize) con) :=
  Draws.foldl fun _ _ _ _ => Draws.foldl fun _ _ _ _ => copyByte_draws trivial trivial

-- The first turns of the loop of scroll.
theorem scrollLines_pixel (hs : Screen fb) (hcon : con.fb = fb) {n : ℕ}
    (hn : n < fb.height.toNat / 16) {k : ℕ} (hk : k < numPixels fb) :
    pixel fb ((List.range' 1 n).foldl (scrollLine (fb.pitch * FONT_HEIGHT)) con).mem k =
      if k < n * textLine fb then pixel fb con.mem (k + textLine fb) else pixel fb con.mem k := by
  induction n generalizing k with
  | zero => rw [Nat.zero_mul, if_neg (Nat.not_lt_zero k)]; rfl
  | succ n ih =>
    have hfb := ((scrollLines_draws (fb.pitch * FONT_HEIGHT) (List.range' 1 n) con).fb).trans hcon
    have hend : (1 + n + 1) * textLine fb ≤ numPixels fb := text_le (by omega)
    have hsplit : List.range' 1 (n + 1) = List.range' 1 n ++ [1 + n] := List.range'_1_concat
    rw [hsplit, List.foldl_append, List.foldl_cons, List.foldl_nil,
      scrollLine_pixel hs hfb (by omega) (by omega) hk, Nat.add_sub_cancel_left]
    have hsucc : (1 + n) * textLine fb = n * textLine fb + textLine fb := by ring
    have hnext : (1 + n + 1) * textLine fb = n * textLine fb + textLine fb + textLine fb := by ring
    have hsum : (n + 1) * textLine fb = n * textLine fb + textLine fb := by ring
    rw [hsucc, hsum]
    by_cases hlow : k < n * textLine fb
    · rw [if_neg (by omega), ih (by omega) hk, if_pos hlow, if_pos (by omega)]
    · by_cases hline : k < n * textLine fb + textLine fb
      · rw [if_pos ⟨by omega, hline⟩, ih (by omega) (by omega), if_neg (by omega), if_pos hline]
      · rw [if_neg (by omega), ih (by omega) hk, if_neg hlow, if_neg hline]

theorem scroll_draws_any (bg : BitVec 32) (con : Console) : Draws (fun _ => True) con (con.scroll bg) :=
  (scrollLines_draws _ _ con).trans (fillPixels_draws fun _ _ => trivial)

theorem scroll_pixel (hs : Screen fb) (hcon : con.fb = fb) (hrows : con.rows = fb.height / FONT_HEIGHT)
    (bg : BitVec 32) {k : ℕ} (hk : k < fb.height.toNat / 16 * textLine fb) :
    pixel fb (con.scroll bg).mem k =
      if k < (fb.height.toNat / 16 - 1) * textLine fb then pixel fb con.mem (k + textLine fb) else bg := by
  have hcount : con.rows.toNat = fb.height.toNat / 16 := by
    rw [hrows, BitVec.toNat_udiv]
    rfl
  have hheight := hs.rows
  have hall : fb.height.toNat / 16 * textLine fb ≤ numPixels fb := text_le le_rfl
  have hone : 1 * textLine fb ≤ numPixels fb := text_le (by omega)
  have hbytes := hs.bytes
  have hlast : fb.address + (con.rows - 1) * (fb.pitch * FONT_HEIGHT) =
      pixelAddr fb ((fb.height.toNat / 16 - 1) * textLine fb) := by
    have hsub : con.rows - 1 = BitVec.ofNat 64 (fb.height.toNat / 16 - 1) := by
      apply BitVec.eq_of_toNat_eq
      rw [Word.toNat_sub_one _ (by omega), BitVec.toNat_ofNat, Nat.mod_eq_of_lt (by omega), hcount]
    rw [hsub, lineSize_eq, ← BitVec.ofNat_mul, pixelAddr, hs.pitch_eq, textLine]
    congr 2
    ring
  have hpixels : (fb.pitch / 4 * FONT_HEIGHT).toNat = textLine fb := by
    have hquarter : (fb.pitch / 4).toNat = stride fb := by
      rw [BitVec.toNat_udiv]
      rfl
    have hfont : FONT_HEIGHT.toNat = 16 := rfl
    rw [BitVec.toNat_mul, hquarter, hfont, textLine, mul_comm, Nat.mod_eq_of_lt]
    rw [textLine] at hone
    omega
  have hsucc : fb.height.toNat / 16 * textLine fb =
      (fb.height.toNat / 16 - 1) * textLine fb + textLine fb := by
    rw [← Nat.succ_mul]
    congr 1
    omega
  have hlines := scrollLines_pixel hs hcon (show fb.height.toNat / 16 - 1 < fb.height.toNat / 16 by omega)
    (show k < numPixels fb by omega)
  have hdraws := scrollLines_draws (fb.pitch * FONT_HEIGHT) (List.range' 1 (con.rows.toNat - 1)) con
  have hpainted := fillPixels_painted hs bg
    (show (fb.height.toNat / 16 - 1) * textLine fb + textLine fb ≤ numPixels fb by omega)
    ((List.range' 1 (fb.height.toNat / 16 - 1)).foldl (scrollLine (fb.pitch * FONT_HEIGHT)) con)
  rw [hcount] at hdraws
  rw [scroll]
  simp only [hcount, hcon] at hdraws ⊢
  rw [hdraws.fb, hdraws.rows, hcon, hlast, hpixels]
  by_cases hlow : k < (fb.height.toNat / 16 - 1) * textLine fb
  · rw [if_pos hlow, hpainted.outside k (by omega) (by omega), hlines, if_pos hlow]
  · rw [if_neg hlow, hpainted.inside k (by omega) (by omega)]

theorem clear_pixel (hs : Screen fb) (hcon : con.fb = fb) (color : BitVec 32) {k : ℕ}
    (hk : k < numPixels fb) : pixel fb (con.clear color).mem k = color := by
  have hbytes := hs.bytes
  have hcount : (fb.pitch / 4 * fb.height).toNat = numPixels fb := by
    have hquarter : (fb.pitch / 4).toNat = stride fb := by
      rw [BitVec.toNat_udiv]
      rfl
    rw [BitVec.toNat_mul, hquarter, ← numPixels, Nat.mod_eq_of_lt (by omega)]
  have hfirst : fb.address = pixelAddr fb 0 := (add_zero _).symm
  have hpainted := fillPixels_painted hs color (Nat.zero_add (numPixels fb)).le { con with back := color }
  subst hcon
  rw [clear]
  simp only [hcount, hfirst]
  exact hpainted.inside k hk ⟨Nat.zero_le k, by omega⟩

-- The colour of a pixel of a character.
def glyphColor (font : ℕ → BitVec 8) (c : BitVec 8) (fg bg : BitVec 32) (row col : ℕ) : BitVec 32 :=
  if (font (c.toNat * 16 + row) >>> (7 - col)) &&& 1 ≠ 0 then fg else bg

theorem pixelAt_cell (hs : Screen fb) (cx cy : BitVec 64) (row col : ℕ) :
    pixelAt fb cx cy row col = pixelAddr fb (cellPixel fb cx.toNat cy.toNat row col) := by
  have hbytes : fb.bpp.toNat / 8 = 4 := by
    rw [hs.bpp]
    rfl
  rw [pixelAt_eq, hbytes, pixelAddr, cellPixel, hs.pitch_eq]
  congr 2
  ring

-- What draw_char draws are the pixels of its cell.
theorem drawChar_painted (hs : Screen fb) (hcon : con.fb = fb) (font : ℕ → BitVec 8) (c : BitVec 8)
    {cx cy : BitVec 64} (fg bg : BitVec 32) (hx : cx.toNat < fb.width.toNat / 8)
    (hy : cy.toNat < fb.height.toNat / 16) :
    Painted fb (fun k => glyphColor font c fg bg (k / stride fb - cy.toNat * 16)
        (k % stride fb - cx.toNat * 8))
      (fun k => ∃ row ∈ List.range 16, ∃ col ∈ List.range 8, k = cellPixel fb cx.toNat cy.toNat row col)
      con (con.drawChar font c cx cy fg bg) := by
  refine Painted.foldl _ fun con1 h1 row hrow => Painted.foldl _ fun con2 h2 col hcol => ?_
  rw [List.mem_range] at hrow hcol
  have hlt := cellPixel_lt hs hx hy hrow hcol
  have hstore := storePixel_painted hs (fun k => glyphColor font c fg bg
    (k / stride fb - cy.toNat * 16) (k % stride fb - cx.toNat * 8)) hlt con2
  rw [cellPixel_div hs hx hcol, cellPixel_mod hs hx hcol, Nat.add_sub_cancel_left,
    Nat.add_sub_cancel_left, ← pixelAt_cell hs] at hstore
  have hfb : con2.fb = fb := h2.trans (h1.trans hcon)
  rw [← hfb] at hstore ⊢
  exact hstore

end Console

end Miyabi.Drivers.Fb
