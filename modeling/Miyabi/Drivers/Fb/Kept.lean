import Miyabi.Drivers.Fb.Terminal

namespace Miyabi.Drivers.Fb

open Miyabi.Base Miyabi.Base.Memory

def screenSize (fb : Framebuffer) : ℕ := fb.pitch.toNat * fb.height.toNat

namespace Console

variable {con con' con'' : Console} {fb : Framebuffer}

-- What a drawing function changes in the memory is on the record of its accesses.
structure Logged (con con' : Console) : Prop where
  touched : con.touched ⊆ con'.touched
  kept : ∀ x, (∀ e ∈ con'.touched, ¬InRange e.1 e.2 x) → con'.mem x = con.mem x

theorem Logged.of_eq (htouched : con'.touched = con.touched) (hmem : con'.mem = con.mem) :
    Logged con con' :=
  ⟨htouched ▸ List.Subset.refl _, fun x _ => congrFun hmem x⟩

theorem Logged.refl (con : Console) : Logged con con := Logged.of_eq rfl rfl

theorem Logged.trans (h : Logged con con') (h' : Logged con' con'') : Logged con con'' := by
  refine ⟨List.Subset.trans h.touched h'.touched, fun x hx => ?_⟩
  rw [h'.kept x hx, h.kept x fun e he => hx e (h'.touched he)]

theorem Logged.foldl {α : Type} {f : Console → α → Console} (list : List α)
    (h : ∀ con, ∀ a ∈ list, Logged con (f con a)) : Logged con (list.foldl f con) :=
  List.foldlRecOn (motive := Logged con) list f (Logged.refl con)
    fun con' hcon a ha => hcon.trans (h con' a ha)

theorem storePixel_logged (con : Console) (a : BitVec 64) (color : BitVec 32) :
    Logged con (con.storePixel a color) := by
  refine ⟨List.subset_append_left _ _, fun x hx => ?_⟩
  exact store_of_not_inRange (n := 4) _ _ _ _
    (hx (a, 4) (List.mem_append_right _ (List.mem_singleton_self _)))

theorem copyByte_logged (con : Console) (dst src : BitVec 64) : Logged con (con.copyByte dst src) := by
  refine ⟨List.subset_append_left _ _, fun x hx => store8_ne _ _ _ _ ?_⟩
  rintro rfl
  exact hx (x, 1) (List.mem_append_right _ (by simp)) (inRange_self x 1 (by decide))

theorem fillPixels_logged (con : Console) (dst : BitVec 64) (color : BitVec 32) (n : ℕ) :
    Logged con (con.fillPixels dst color n) :=
  Logged.foldl _ fun con _ _ => storePixel_logged con _ color

theorem scroll_logged (con : Console) (bg : BitVec 32) : Logged con (con.scroll bg) := by
  refine Logged.trans (Logged.foldl _ fun con y _ => ?_) (fillPixels_logged _ _ bg _)
  exact Logged.foldl _ fun con i _ => copyByte_logged con _ _

theorem clear_logged (con : Console) (color : BitVec 32) : Logged con (con.clear color) := by
  have hfill := fillPixels_logged { con with back := color } con.fb.address color
    (con.fb.pitch / 4 * con.fb.height).toNat
  exact ⟨hfill.touched, hfill.kept⟩

section Chars

variable (font : ℕ → BitVec 8) (c : BitVec 8) (color bg : BitVec 32)

theorem drawChar_logged (con : Console) (cx cy : BitVec 64) :
    Logged con (con.drawChar font c cx cy color bg) := by
  refine Logged.foldl _ fun con row _ => ?_
  exact Logged.foldl _ fun con col _ => storePixel_logged con _ _

theorem placeChar_logged (con : Console) : Logged con (con.placeChar font c color bg) := by
  have hdraw := drawChar_logged font c color bg con con.cursorX con.cursorY
  rw [placeChar]
  split
  · exact Logged.of_eq rfl rfl
  split
  · exact Logged.of_eq rfl rfl
  split
  · exact Logged.of_eq rfl rfl
  split
  · split
    · exact Logged.of_eq rfl rfl
    · exact Logged.refl con
  · exact ⟨hdraw.touched, hdraw.kept⟩

theorem putChar_logged (con : Console) : Logged con (con.putChar font c color) := by
  have hplace := placeChar_logged font c color con.back con
  rw [putChar]
  dsimp only
  generalize con.placeChar font c color con.back = con1 at hplace ⊢
  have hwrap : Logged con (if con1.cols ≤ con1.cursorX then
      { con1 with cursorX := 0, cursorY := con1.cursorY + 1 } else con1) := by
    split
    · exact ⟨hplace.touched, hplace.kept⟩
    · exact hplace
  generalize (if con1.cols ≤ con1.cursorX then _ else con1) = con2 at hwrap ⊢
  split
  · have hscroll := hwrap.trans (scroll_logged con2 con.back)
    exact ⟨hscroll.touched, hscroll.kept⟩
  · exact hwrap

end Chars

-- The memory outside the screen is as it was.
theorem Logged.outside (h : Logged con con') (hgrid : Grid fb con') {x : BitVec 64}
    (hx : ¬InRange fb.address (screenSize fb) x) : con'.mem x = con.mem x := by
  refine h.kept x fun e he hin => hx ?_
  obtain ⟨i, hi, rfl⟩ := exists_offset _ _ _ hin
  exact hgrid.inside e he i hi

-- Between calls, with the memory outside the screen as it was.
structure KeptOn (fb : Framebuffer) (con con' : Console) : Prop where
  placed : Placed fb con'
  outside : ∀ x, ¬InRange fb.address (screenSize fb) x → con'.mem x = con.mem x

theorem KeptOn.trans (h : KeptOn fb con con') (h' : KeptOn fb con' con'') : KeptOn fb con con'' :=
  ⟨h'.placed, fun x hx => (h'.outside x hx).trans (h.outside x hx)⟩

theorem KeptOn.refl (h : Placed fb con) : KeptOn fb con con := ⟨h, fun _ _ => rfl⟩

theorem putChar_keptOn (font : ℕ → BitVec 8) (hfits : Fits fb) (h : Placed fb con) (c : BitVec 8)
    (color : BitVec 32) : KeptOn fb con (con.putChar font c color) := by
  have hplaced := putChar_placed font hfits h c color
  exact ⟨hplaced, fun x hx => (putChar_logged font c color con).outside hplaced.toGrid hx⟩

theorem KeptOn.colored (h : KeptOn fb con con') (color : BitVec 32) :
    KeptOn fb con { con' with defaultFg := color } :=
  ⟨⟨⟨h.placed.screen, h.placed.cols, h.placed.rows, h.placed.inside⟩, h.placed.x, h.placed.y⟩,
    h.outside⟩

theorem step_keptOn (font : ℕ → BitVec 8) (hfits : Fits fb) (h : Placed fb con) (call : Call) :
    KeptOn fb con (con.step font call) := by
  have hplaced := step_placed font hfits h call
  refine ⟨hplaced, fun x hx => Logged.outside ?_ hplaced.toGrid hx⟩
  cases call with
  | clear color => exact clear_logged con color
  | setCursor x y =>
      have hsame : (con.setCursor x y).touched = con.touched ∧ (con.setCursor x y).mem = con.mem := by
        unfold setCursor
        constructor
        · dsimp only
          split <;> split <;> rfl
        · dsimp only
          split <;> split <;> rfl
      exact Logged.of_eq hsame.1 hsame.2
  | putChar c color => exact putChar_logged font c color con
  | puts str color => exact Logged.foldl str fun con c _ => putChar_logged font c color con

theorem run_keptOn (font : ℕ → BitVec 8) (hfits : Fits fb) (h : Placed fb con) (calls : List Call) :
    KeptOn fb con (con.run font calls) :=
  List.foldlRecOn (motive := KeptOn fb con) calls _ (KeptOn.refl h)
    fun _ hcon call _ => hcon.trans (step_keptOn font hfits hcon.placed call)

theorem putChar_defaultFg (font : ℕ → BitVec 8) (c : BitVec 8) (color : BitVec 32) (con : Console) :
    (con.putChar font c color).defaultFg = con.defaultFg := by
  have hplace : (con.placeChar font c color con.back).defaultFg = con.defaultFg := by
    have hdraw : Draws (fun _ => True) con
        (con.drawChar font c con.cursorX con.cursorY color con.back) :=
      drawChar_draws font _ _ _ _ _ fun _ _ _ _ => trivial
    obtain ⟨mem, new, hdraw, -⟩ := hdraw
    unfold placeChar
    dsimp only
    rw [hdraw]
    split_ifs <;> rfl
  unfold putChar
  dsimp only
  generalize con.placeChar font c color con.back = con1 at hplace ⊢
  have hwrap : (if con1.cols ≤ con1.cursorX then
      { con1 with cursorX := 0, cursorY := con1.cursorY + 1 } else con1).defaultFg = con.defaultFg := by
    split
    · exact hplace
    · exact hplace
  generalize (if con1.cols ≤ con1.cursorX then _ else con1) = con2 at hwrap ⊢
  split
  · obtain ⟨mem, new, hscroll, -⟩ := scroll_draws_any con.back con2
    rw [hscroll]
    exact hwrap
  · exact hwrap

end Console

section Displays

variable {fb : Framebuffer} {font : ℕ → BitVec 8} {con con' : Console} {t t' : Terminal}

theorem Screen.fits (hs : Screen fb) : Fits fb := by
  have hcols := hs.cols
  have hrows := hs.rows
  have hpitch := hs.pitch
  have hbytes : fb.bpp.toNat / 8 = 4 := by
    rw [hs.bpp]
    rfl
  have hline : (fb.width.toNat / 8 * 8 - 1) * 4 + 4 ≤ fb.pitch.toNat := by omega
  have hlines : (fb.height.toNat / 16 * 16 - 1 + 1) * fb.pitch.toNat ≤ fb.height.toNat * fb.pitch.toNat :=
    Nat.mul_le_mul_right _ (by omega)
  refine Or.inr ?_
  rw [lastPixel, hbytes, Nat.mul_comm fb.pitch.toNat]
  rw [Nat.succ_mul] at hlines
  omega

-- Between calls the screen is the terminal's.
structure Displays (fb : Framebuffer) (font : ℕ → BitVec 8) (con : Console) (t : Terminal) : Prop where
  placed : Console.Placed fb con
  shows : Shows fb font con t
  cell : OnCell t

theorem Displays.congr (hs : Screen fb) (h : Displays fb font con t) {mem : Memory 64}
    (hmem : ∀ x, InRange fb.address (screenSize fb) x → mem x = con.mem x) :
    Displays fb font { con with mem } t where
  placed := ⟨⟨h.placed.screen, h.placed.cols, h.placed.rows, h.placed.inside⟩, h.placed.x, h.placed.y⟩
  shows := by
    refine ⟨⟨h.shows.screen, h.shows.cols, h.shows.rows⟩, h.shows.width, h.shows.height, h.shows.x,
      h.shows.y, h.shows.back, fun x hx y hy row hrow col hcol => ?_⟩
    rw [← h.shows.cells x hx y hy row hrow col hcol]
    have hlt := cellPixel_lt hs (h.shows.width ▸ hx) (h.shows.height ▸ hy) hrow hcol
    refine load_congr fun a ha => hmem a ?_
    refine inRange_inner fb.address _ a ?_ ha
    have hspace := hs.bytes
    have hsize : screenSize fb = 4 * numPixels fb := by
      rw [screenSize, hs.pitch_eq, numPixels, mul_assoc]
    rw [BitVec.toNat_ofNat, Nat.mod_eq_of_lt (by omega)]
    omega
  cell := h.cell

theorem Displays.colored (h : Displays fb font con t) (color : BitVec 32) :
    Displays fb font { con with defaultFg := color } t where
  placed := ⟨⟨h.placed.screen, h.placed.cols, h.placed.rows, h.placed.inside⟩, h.placed.x, h.placed.y⟩
  shows := ⟨⟨h.shows.screen, h.shows.cols, h.shows.rows⟩, h.shows.width, h.shows.height, h.shows.x,
    h.shows.y, h.shows.back, h.shows.cells⟩
  cell := h.cell

theorem Displays.run (hs : Screen fb) (h : Displays fb font con t) (calls : List Call) :
    Displays fb font (con.run font calls) (t.run calls) := by
  obtain ⟨hshows, hcell⟩ := shows_run hs h.shows h.cell calls
  exact ⟨Console.run_placed font hs.fits h.placed calls, hshows, hcell⟩

theorem Displays.putChar (hs : Screen fb) (h : Displays fb font con t) (c : BitVec 8)
    (color : BitVec 32) : Displays fb font (con.putChar font c color) (t.putChar c color) :=
  ⟨Console.putChar_placed font hs.fits h.placed c color, shows_putChar hs h.shows h.cell c color,
    onCell_putChar h.cell c color⟩

-- What fb_vfs_write leaves of a buffer beside the screen.
theorem showFrom_displays (hs : Screen fb) (h : Displays fb font con t) (buffer : BitVec 64) (n : ℕ)
    (hbuffer : ∀ i < n, ¬InRange fb.address (screenSize fb) (buffer + BitVec.ofNat 64 i)) :
    Displays fb font (con.showFrom font buffer n).2
        (t.step (.puts ((List.range n).map fun i => con.mem (buffer + BitVec.ofNat 64 i)) con.defaultFg)) ∧
      Console.KeptOn fb con (con.showFrom font buffer n).2 ∧
      (con.showFrom font buffer n).2.defaultFg = con.defaultFg := by
  induction n with
  | zero => exact ⟨h, Console.KeptOn.refl h.placed, rfl⟩
  | succ n ih =>
      obtain ⟨hdisplays, hkept, hcolor⟩ := ih fun i hi => hbuffer i (by omega)
      have hchar := hkept.outside _ (hbuffer n (by omega))
      have hnext : (con.showFrom font buffer (n + 1)).2 = (con.showFrom font buffer n).2.putChar font
          (con.mem (buffer + BitVec.ofNat 64 n)) con.defaultFg := by
        rw [← hchar, ← hcolor]
        rfl
      have hterminal : t.step (.puts ((List.range (n + 1)).map fun i =>
          con.mem (buffer + BitVec.ofNat 64 i)) con.defaultFg) =
            (t.step (.puts ((List.range n).map fun i => con.mem (buffer + BitVec.ofNat 64 i))
              con.defaultFg)).putChar (con.mem (buffer + BitVec.ofNat 64 n)) con.defaultFg := by
        rw [List.range_succ, List.map_append, Terminal.step, List.foldl_append]
        rfl
      rw [hnext, hterminal]
      refine ⟨hdisplays.putChar hs _ _, hkept.trans ?_, ?_⟩
      · exact Console.putChar_keptOn font hs.fits hdisplays.placed _ _
      · rw [Console.putChar_defaultFg, hcolor]

end Displays

end Miyabi.Drivers.Fb
