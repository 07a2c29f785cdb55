import Miyabi.Mm.Pmm.Regions

namespace Miyabi.Mm.Pmm

open Miyabi.Base Miyabi.Base.Memory

-- A region that init_pmm may put a bitmap of `pages` pages into.
structure Room (boot : BootInfo) (pages : ℕ) (entry : MemmapEntry) : Prop where
  usable : entry.type = .usable
  nonempty : entry.first < entry.stop
  kernel : ¬OverlapsKernel boot entry
  large : pages ≤ entry.stop - entry.first

theorem highestEnd_le_iff (map : List MemmapEntry) (hspace : ∀ entry ∈ map, entry.InSpace) (k : ℕ) :
    (highestEnd map).toNat ≤ k ↔
      ∀ entry ∈ map, entry.base.toNat + entry.length.toNat ≤ k := by
  have hfold : ∀ (map : List MemmapEntry) (highest : BitVec 64),
      (∀ entry ∈ map, entry.InSpace) →
      ((map.foldl (fun highest entry => if entry.base + entry.length > highest
        then entry.base + entry.length else highest) highest).toNat ≤ k ↔
      highest.toNat ≤ k ∧ ∀ entry ∈ map, entry.base.toNat + entry.length.toNat ≤ k) := by
    intro map
    induction map with
    | nil => simp
    | cons entry rest ih =>
        intro highest hspace
        have hlen := InSpace.length (hspace entry (by simp))
        rw [List.foldl_cons, ih _ (fun e he => hspace e (by simp [he])), List.forall_mem_cons,
          ← and_assoc]
        refine and_congr_left (fun _ => ?_)
        split
        · rename_i hgt
          rw [gt_iff_lt, BitVec.lt_def, hlen] at hgt
          omega
        · rename_i hgt
          rw [gt_iff_lt, BitVec.lt_def, hlen] at hgt
          omega
  have h := hfold map 0 hspace
  simpa [highestEnd] using h

theorem findRoom_spec {boot : BootInfo} {pages phys : BitVec 64} {map : List MemmapEntry}
    (hspace : ∀ entry ∈ map, entry.InSpace) (hpages : pages.toNat < 2 ^ 52)
    (hf : findRoom boot pages map = some phys) :
    ∃ pre entry post, map = pre ++ entry :: post ∧ (∀ c ∈ pre, ¬Room boot pages.toNat c) ∧
      Room boot pages.toNat entry ∧ phys = BitVec.ofNat 64 (entry.first * 4096) := by
  induction map with
  | nil => simp [findRoom] at hf
  | cons entry rest ih =>
      have hin := hspace entry (by simp)
      have hfirst := InSpace.first_lt hin
      have hstop := InSpace.stop_lt hin
      by_cases hr : Room boot pages.toNat entry
      · refine ⟨[], entry, rest, rfl, by simp, hr, ?_⟩
        have hno : ¬regionOverlapsKernel boot (BitVec.ofNat 64 (entry.first * 4096))
            (BitVec.ofNat 64 (entry.stop * 4096)) = true :=
          fun h => hr.kernel ((regionOverlapsKernel_iff hin).mp h)
        have hle : ¬entry.stop ≤ entry.first := by have := hr.nonempty; omega
        have hlarge : BitVec.ofNat 64 (entry.stop * 4096) - BitVec.ofNat 64 (entry.first * 4096) ≥
            pages * 4096 := by
          have := hr.large
          bv_omega
        simp only [findRoom, InSpace.start hin, InSpace.stop hin, frame_le_iff hstop hfirst, hr.usable,
          ne_eq, not_true_eq_false, if_false, hle, hno, hlarge, if_true] at hf
        exact (Option.some.inj hf).symm
      · have hskip : findRoom boot pages (entry :: rest) = findRoom boot pages rest := by
          simp only [findRoom, InSpace.start hin, InSpace.stop hin, frame_le_iff hstop hfirst]
          split
          · rfl
          · split
            · rfl
            · split
              · rfl
              · rename_i htype hle ho
                rw [if_neg]
                intro hlarge
                refine hr ⟨not_not.mp htype, by omega, fun h => ho ((regionOverlapsKernel_iff hin).mpr h), ?_⟩
                bv_omega
        rw [hskip] at hf
        obtain ⟨pre, e, post, rfl, hpre, he⟩ := ih (fun e he => hspace e (by simp [he])) hf
        exact ⟨entry :: pre, e, post, rfl, List.forall_mem_cons.mpr ⟨hr, hpre⟩, he⟩

-- What init_pmm leaves behind on a map.
structure Initialised (boot : BootInfo) (map : List MemmapEntry) (m : Memory 64) (p : Statics)
    (m' : Memory 64) : Prop where
  pointer : p.bitmap = p.bitmapPhys + p.hhdmOffset
  hhdm : boot.hhdm = some p.hhdmOffset
  pageCount : p.pageCount.toNat = ((highestEnd map).toNat + 4095) / 4096
  bitmapBytes : p.bitmapBytes.toNat = (p.pageCount.toNat + 7) / 8
  bitmapPages : p.bitmapPages.toNat = (p.bitmapBytes.toNat + 4095) / 4096
  room : findRoom boot p.bitmapPages map = some p.bitmapPhys
  free : ∀ f < 8 * p.bitmapBytes.toNat,
    (f ∈ freeSet p.bitmap m' ↔ f ∈ releasedFrames boot isReclaimable map)
  keeps : KeepsOutside m m' p.bitmap p.bitmapBytes.toNat

section Sizes

variable {map : List MemmapEntry}

theorem highestEnd_le (hspace : ∀ entry ∈ map, entry.InSpace) :
    (highestEnd map).toNat ≤ 2 ^ 64 - 4096 :=
  (highestEnd_le_iff map hspace _).mpr hspace

theorem le_highestEnd (hspace : ∀ entry ∈ map, entry.InSpace) :
    ∀ entry ∈ map, entry.base.toNat + entry.length.toNat ≤ (highestEnd map).toNat :=
  (highestEnd_le_iff map hspace _).mp le_rfl

theorem sizes_toNat (hspace : ∀ entry ∈ map, entry.InSpace) :
    (alignUp4k (highestEnd map) / 4096).toNat = ((highestEnd map).toNat + 4095) / 4096 ∧
    ((alignUp4k (highestEnd map) / 4096 + 7) / 8).toNat =
      (((highestEnd map).toNat + 4095) / 4096 + 7) / 8 ∧
    (alignUp4k ((alignUp4k (highestEnd map) / 4096 + 7) / 8) / 4096).toNat =
      ((((highestEnd map).toNat + 4095) / 4096 + 7) / 8 + 4095) / 4096 := by
  have hle := highestEnd_le hspace
  have hup := alignUp4k_toNat (highestEnd map) (by omega)
  have hcount : (alignUp4k (highestEnd map) / 4096).toNat =
      ((highestEnd map).toNat + 4095) / 4096 := by
    rw [page_of_addr, hup, Nat.mul_div_cancel _ (by omega), BitVec.toNat_ofNat, Nat.mod_eq_of_lt (by omega)]
  generalize alignUp4k (highestEnd map) / 4096 = count at *
  have hseven : (count + 7).toNat = count.toNat + 7 := by
    bv_omega
  have hbytes : ((count + 7) / 8).toNat = (((highestEnd map).toNat + 4095) / 4096 + 7) / 8 := by
    rw [BitVec.toNat_udiv, hseven, hcount]
    rfl
  generalize (count + 7) / 8 = bytes at *
  have hup' := alignUp4k_toNat bytes (by omega)
  refine ⟨hcount, hbytes, ?_⟩
  rw [page_of_addr, hup', Nat.mul_div_cancel _ (by omega), BitVec.toNat_ofNat,
    Nat.mod_eq_of_lt (by omega), hbytes]

end Sizes

theorem initPmm_spec {boot : BootInfo} {map : List MemmapEntry} {m m' : Memory 64} {p : Statics}
    (hmap : boot.memmap = some map) (hspace : ∀ entry ∈ map, entry.InSpace)
    (hinit : initPmm boot m = some (p, m')) : Initialised boot map m p m' := by
  cases hhdm : boot.hhdm with
  | none => simp [initPmm, hmap, hhdm] at hinit
  | some hhdmOffset =>
      obtain ⟨hcount, hbytes, hpages⟩ := sizes_toNat hspace
      have hhigh := highestEnd_le hspace
      have hends := le_highestEnd hspace
      simp only [initPmm, hmap, hhdm] at hinit
      generalize alignUp4k (highestEnd map) / 4096 = count at *
      generalize (count + 7) / 8 = bytes at *
      generalize alignUp4k bytes / 4096 = pages at *
      cases hroom : findRoom boot pages map with
      | none => simp [hroom] at hinit
      | some phys =>
          obtain ⟨pre, e, post, hsplit, -, hr, hphys⟩ := findRoom_spec hspace (by omega) hroom
          have hem : e ∈ map := by simp [hsplit]
          have hephys : phys.toNat = e.first * 4096 := by
            rw [hphys, toNat_frame (InSpace.first_lt (hspace e hem))]
          have hstops : ∀ entry ∈ map, entry.stop ≤ 8 * bytes.toNat := by
            intro entry he
            have := hends entry he
            simp only [MemmapEntry.stop]
            omega
          have hpos : 0 < bytes.toNat := by
            have := hstops e hem
            have := hr.nonempty
            omega
          have hreserve : phys.toNat / 4096 + pages.toNat ≤ 8 * bytes.toNat := by
            have := hstops e hem
            have := hr.large
            have := hr.nonempty
            omega
          simp only [hroom] at hinit
          generalize hbitmap : phys + hhdmOffset = bitmap at *
          have hk1 := fillBitmap_keeps bitmap (m := m) bytes.toNat le_rfl
          have hfree1 := freeSet_fillBitmap bitmap m bytes.toNat (by omega)
          generalize fillBitmap bitmap bytes.toNat m = m1 at *
          obtain ⟨m2, he2, hfree2, hk2⟩ := clearRegions_spec boot bitmap isUsable map m1 hspace hstops
          have hk3 := reserveBitmap_keeps bitmap (m := m2) phys pages.toNat hreserve
            (by omega)
          have hfree3 := freeSet_reserveBitmap bitmap m2 phys pages.toNat (by omega)
          generalize hm3 : reserveBitmap bitmap phys pages.toNat m2 = m3 at *
          have hk4 : KeepsOutside m3 (bitmapSet bitmap m3 0) bitmap bytes.toNat :=
            bitmapSet_keeps bitmap 0 (by omega) (by omega)
          have hfree4 : freeSet bitmap (bitmapSet bitmap m3 0) = freeSet bitmap m3 \ {0} :=
            freeSet_bitmapSet bitmap m3 0 (by omega)
          obtain ⟨m5, he5, hfree5, hk5⟩ := clearRegions_spec boot bitmap isReclaimable map
            (bitmapSet bitmap m3 0) hspace hstops
          simp only [he2, hm3, he5, Option.some.injEq, Prod.mk.injEq] at hinit
          obtain ⟨rfl, rfl⟩ := hinit
          refine ⟨hbitmap.symm, hhdm, hcount, by rw [hbytes, hcount], by rw [hpages, hbytes], hroom, ?_, ?_⟩
          · -- The last pass clears all that the first one cleared, so what is set between
            -- them does not survive.
            intro f hf
            have hbyte : f / 8 < bytes.toNat := by
              change f < 8 * bytes.toNat at hf
              omega
            have hsub := releasedFrames_mono boot map isReclaimable_of_isUsable
            rw [hfree5, Set.mem_union, or_iff_right_iff_imp, hfree4, hfree3, hfree2, hfree1]
            rintro ⟨⟨⟨-, hn⟩ | hu, -⟩, -⟩
            · exact absurd hbyte hn
            · exact hsub hu
          · exact (((hk1.trans hk2).trans hk3).trans hk4).trans hk5

end Miyabi.Mm.Pmm
