import Miyabi.Mm.Pmm.Theorems

namespace Miyabi.Mm.Pmm

open Miyabi.Base Miyabi.Base.Memory

-- An index into the bitmap, of a byte in the loop that fills it or of a page
-- passed to bitmap_set, bitmap_clear or bitmap_test.
inductive Access where
  | byte (index : BitVec 64)
  | page (index : BitVec 64)

-- Memory with the accesses made so far, the last one first.
structure Traced where
  mem : Memory 64
  log : List Access

def Traced.fill (bitmap : BitVec 64) (t : Traced) (index : BitVec 64) : Traced :=
  ⟨t.mem.store8 (bitmap + index) 0xFF, .byte index :: t.log⟩

def Traced.set (bitmap : BitVec 64) (t : Traced) (page : BitVec 64) : Traced :=
  ⟨bitmapSet bitmap t.mem page, .page page :: t.log⟩

def Traced.clear (bitmap : BitVec 64) (t : Traced) (page : BitVec 64) : Traced :=
  ⟨bitmapClear bitmap t.mem page, .page page :: t.log⟩

def Traced.test (bitmap : BitVec 64) (t : Traced) (page : BitVec 64) : Bool × Traced :=
  (bitmapTest bitmap t.mem page, ⟨t.mem, .page page :: t.log⟩)

-- The functions of pmm.c, with their accesses.
def pmmAllocFromTraced (p : Statics) : Nat → BitVec 64 → Traced → BitVec 64 × Traced
  | 0, _, t => (0, t)
  | fuel + 1, i, t =>
      if i < p.pageCount then
        let (used, t) := t.test p.bitmap i
        if used then pmmAllocFromTraced p fuel (i + 1) t
        else (i * 4096, t.set p.bitmap i)
      else (0, t)

def pmmAllocTraced (p : Statics) (t : Traced) : BitVec 64 × Traced :=
  pmmAllocFromTraced p p.pageCount.toNat 1 t

def fillBitmapTraced (bitmap : BitVec 64) : Nat → Traced → Traced
  | 0, t => t
  | n + 1, t => (fillBitmapTraced bitmap n t).fill bitmap (BitVec.ofNat 64 n)

def clearRegionTraced (bitmap : BitVec 64) : Nat → BitVec 64 → BitVec 64 → Traced → Option Traced
  | 0, _, _, _ => none
  | fuel + 1, addr, stop, t =>
      if addr < stop then
        clearRegionTraced bitmap fuel (addr + 4096) stop (t.clear bitmap (addr / 4096))
      else some t

def clearRegionsTraced (boot : BootInfo) (bitmap : BitVec 64) (kind : MemmapType → Bool) :
    List MemmapEntry → Traced → Option Traced
  | [], t => some t
  | entry :: rest, t =>
      let start := alignUp4k entry.base
      let stop := alignDown4k (entry.base + entry.length)
      if !kind entry.type then clearRegionsTraced boot bitmap kind rest t
      else if stop ≤ start then clearRegionsTraced boot bitmap kind rest t
      else if regionOverlapsKernel boot start stop then clearRegionsTraced boot bitmap kind rest t
      else
        match clearRegionTraced bitmap (2 ^ 52) start stop t with
        | none => none
        | some t => clearRegionsTraced boot bitmap kind rest t

def reserveBitmapTraced (bitmap bitmapPhys : BitVec 64) : Nat → Traced → Traced
  | 0, t => t
  | n + 1, t =>
      (reserveBitmapTraced bitmap bitmapPhys n t).set bitmap (bitmapPhys / 4096 + BitVec.ofNat 64 n)

def initPmmTraced (boot : BootInfo) (t : Traced) : Option (Statics × Traced) :=
  match boot.memmap, boot.hhdm with
  | some map, some hhdmOffset =>
      let highest := highestEnd map
      let pageCount := alignUp4k highest / 4096
      let bitmapBytes := (pageCount + 7) / 8
      let bitmapPages := alignUp4k bitmapBytes / 4096
      match findRoom boot bitmapPages map with
      | none => none
      | some bitmapPhys =>
          let bitmap := bitmapPhys + hhdmOffset
          let t := fillBitmapTraced bitmap bitmapBytes.toNat t
          match clearRegionsTraced boot bitmap isUsable map t with
          | none => none
          | some t =>
              let t := reserveBitmapTraced bitmap bitmapPhys bitmapPages.toNat t
              let t := t.set bitmap 0
              match clearRegionsTraced boot bitmap isReclaimable map t with
              | none => none
              | some t =>
                  some (⟨hhdmOffset, bitmap, bitmapPhys, pageCount, bitmapBytes, bitmapPages⟩, t)
  | _, _ => none

section Erase

variable (bitmap : BitVec 64)

theorem pmmAllocFromTraced_mem (p : Statics) (fuel : Nat) (i : BitVec 64) (t : Traced) :
    ((pmmAllocFromTraced p fuel i t).1, (pmmAllocFromTraced p fuel i t).2.mem) =
      pmmAllocFrom p fuel i t.mem := by
  induction fuel generalizing i t with
  | zero => rfl
  | succ fuel ih =>
      simp only [pmmAllocFromTraced, pmmAllocFrom, Traced.test]
      by_cases hi : i < p.pageCount
      · by_cases hu : bitmapTest p.bitmap t.mem i = true
        · simp only [hi, hu, if_true]
          exact ih (i + 1) ⟨t.mem, .page i :: t.log⟩
        · simp only [hi, hu, if_true, if_false, Traced.set, Bool.false_eq_true]
      · simp only [hi, if_false]

theorem fillBitmapTraced_mem (n : Nat) (t : Traced) :
    (fillBitmapTraced bitmap n t).mem = fillBitmap bitmap n t.mem := by
  induction n with
  | zero => rfl
  | succ n ih =>
      simp only [fillBitmapTraced, fillBitmap, Traced.fill]
      rw [ih]

theorem reserveBitmapTraced_mem (phys : BitVec 64) (n : Nat) (t : Traced) :
    (reserveBitmapTraced bitmap phys n t).mem = reserveBitmap bitmap phys n t.mem := by
  induction n with
  | zero => rfl
  | succ n ih =>
      simp only [reserveBitmapTraced, reserveBitmap, Traced.set]
      rw [ih]

theorem clearRegionTraced_mem (fuel : Nat) (addr stop : BitVec 64) (t : Traced) :
    (clearRegionTraced bitmap fuel addr stop t).map Traced.mem =
      clearRegion bitmap fuel addr stop t.mem := by
  induction fuel generalizing addr t with
  | zero => rfl
  | succ fuel ih =>
      simp only [clearRegionTraced, clearRegion]
      split
      · exact ih (addr + 4096) (t.clear bitmap (addr / 4096))
      · rfl

theorem clearRegionsTraced_mem (boot : BootInfo) (kind : MemmapType → Bool)
    (map : List MemmapEntry) (t : Traced) :
    (clearRegionsTraced boot bitmap kind map t).map Traced.mem =
      clearRegions boot bitmap kind map t.mem := by
  induction map generalizing t with
  | nil => rfl
  | cons entry rest ih =>
      have hr := clearRegionTraced_mem bitmap (2 ^ 52) (alignUp4k entry.base)
        (alignDown4k (entry.base + entry.length)) t
      simp only [clearRegionsTraced, clearRegions, ← hr]
      split
      · exact ih t
      · split
        · exact ih t
        · split
          · exact ih t
          · cases clearRegionTraced bitmap (2 ^ 52) (alignUp4k entry.base)
                (alignDown4k (entry.base + entry.length)) t with
            | none => rfl
            | some t1 => exact ih t1

-- Without their traces these are init_pmm and its loops.
theorem initPmmTraced_mem (boot : BootInfo) (t : Traced) :
    (initPmmTraced boot t).map (fun r => (r.1, r.2.mem)) = initPmm boot t.mem := by
  cases hmap : boot.memmap with
  | none => simp [initPmmTraced, initPmm, hmap]
  | some map =>
      cases hhdm : boot.hhdm with
      | none => simp [initPmmTraced, initPmm, hmap, hhdm]
      | some hhdmOffset =>
          simp only [initPmmTraced, initPmm, hmap, hhdm]
          generalize alignUp4k (highestEnd map) / 4096 = count
          generalize (count + 7) / 8 = bytes
          generalize alignUp4k bytes / 4096 = pages
          cases findRoom boot pages map with
          | none => rfl
          | some phys =>
              simp only [← fillBitmapTraced_mem, ← clearRegionsTraced_mem]
              cases clearRegionsTraced boot (phys + hhdmOffset) isUsable map
                  (fillBitmapTraced (phys + hhdmOffset) bytes.toNat t) with
              | none => rfl
              | some t2 =>
                  simp only [Option.map_some, ← reserveBitmapTraced_mem]
                  have hr := clearRegionsTraced_mem (phys + hhdmOffset) boot isReclaimable map
                    ((reserveBitmapTraced (phys + hhdmOffset) phys pages.toNat t2).set
                      (phys + hhdmOffset) 0)
                  rw [Traced.set] at hr ⊢
                  rw [← hr]
                  cases clearRegionsTraced boot (phys + hhdmOffset) isReclaimable map _ with
                  | none => rfl
                  | some t5 => rfl

end Erase

-- The access stays inside a bitmap of `count` pages in `bytes` bytes.
def Access.Inside (count bytes : BitVec 64) : Access → Prop
  | .byte index => index < bytes
  | .page index => index < count ∧ index >>> 3 < bytes

def Traced.Inside (count bytes : BitVec 64) (t : Traced) : Prop :=
  ∀ a ∈ t.log, a.Inside count bytes

section Inside

variable {count bytes : BitVec 64} {t : Traced}

theorem inside_cons {a : Access} {log : List Access} {m m' : Memory 64} (ha : a.Inside count bytes)
    (h : Traced.Inside count bytes ⟨m, log⟩) : Traced.Inside count bytes ⟨m', a :: log⟩ :=
  List.forall_mem_cons.mpr ⟨ha, h⟩

-- The bitmap has a bit for every page.
theorem page_inside (hcover : count.toNat ≤ 8 * bytes.toNat) {page : BitVec 64}
    (h : page.toNat < count.toNat) : (Access.page page).Inside count bytes := by
  refine ⟨BitVec.lt_def.mpr h, BitVec.lt_def.mpr ?_⟩
  rw [BitVec.toNat_ushiftRight, Nat.shiftRight_eq_div_pow]
  omega

theorem fillBitmapTraced_inside (bitmap : BitVec 64) (n : Nat) (hn : n ≤ bytes.toNat)
    (h : t.Inside count bytes) : (fillBitmapTraced bitmap n t).Inside count bytes := by
  induction n with
  | zero => exact h
  | succ n ih =>
      have hlt := bytes.isLt
      refine inside_cons (BitVec.lt_def.mpr ?_) (ih (by omega))
      rw [BitVec.toNat_ofNat, Nat.mod_eq_of_lt (by omega)]
      omega

theorem reserveBitmapTraced_inside (hcover : count.toNat ≤ 8 * bytes.toNat)
    (bitmap phys : BitVec 64) (n : Nat) (hn : phys.toNat / 4096 + n ≤ count.toNat)
    (h : t.Inside count bytes) : (reserveBitmapTraced bitmap phys n t).Inside count bytes := by
  induction n with
  | zero => exact h
  | succ n ih =>
      have hlt := count.isLt
      refine inside_cons (page_inside hcover ?_) (ih (by omega))
      rw [page_of_addr, ← BitVec.ofNat_add, BitVec.toNat_ofNat, Nat.mod_eq_of_lt (by omega)]
      omega

theorem clearRegionTraced_inside (hcover : count.toNat ≤ 8 * bytes.toNat) (bitmap : BitVec 64)
    (fuel : Nat) (addr stop : BitVec 64) (hstop : stop.toNat ≤ count.toNat * 4096)
    {t' : Traced} (h : t.Inside count bytes)
    (he : clearRegionTraced bitmap fuel addr stop t = some t') : t'.Inside count bytes := by
  induction fuel generalizing addr t with
  | zero => cases he
  | succ fuel ih =>
      simp only [clearRegionTraced] at he
      by_cases hlt : addr < stop
      · simp only [hlt, if_true] at he
        refine ih (addr + 4096) (inside_cons (page_inside hcover ?_) h) he
        have hnat := BitVec.lt_def.mp hlt
        have hpage : (addr / 4096).toNat = addr.toNat / 4096 := BitVec.toNat_udiv
        omega
      · simp only [hlt, if_false, Option.some.injEq] at he
        exact he ▸ h

theorem clearRegionsTraced_inside (hcover : count.toNat ≤ 8 * bytes.toNat) (boot : BootInfo)
    (bitmap : BitVec 64) (kind : MemmapType → Bool) (map : List MemmapEntry)
    (hspace : ∀ entry ∈ map, entry.InSpace) (hstop : ∀ entry ∈ map, entry.stop ≤ count.toNat)
    {t' : Traced} (h : t.Inside count bytes)
    (he : clearRegionsTraced boot bitmap kind map t = some t') : t'.Inside count bytes := by
  induction map generalizing t with
  | nil =>
      cases he
      exact h
  | cons entry rest ih =>
      have hrest := fun t (ht : Traced.Inside count bytes t) => ih (t := t)
        (fun e hm => hspace e (by simp [hm])) (fun e hm => hstop e (by simp [hm])) ht
      simp only [clearRegionsTraced] at he
      split at he
      · exact hrest t h he
      · split at he
        · exact hrest t h he
        · split at he
          · exact hrest t h he
          · cases hr : clearRegionTraced bitmap (2 ^ 52) (alignUp4k entry.base)
                (alignDown4k (entry.base + entry.length)) t with
            | none =>
                simp only [hr] at he
                cases he
            | some t1 =>
                simp only [hr] at he
                refine hrest t1 (clearRegionTraced_inside hcover bitmap _ _ _ ?_ h hr) he
                have hin := hspace entry (by simp)
                have hle := hstop entry (by simp)
                rw [InSpace.stop hin, toNat_frame (InSpace.stop_lt hin)]
                omega

theorem pmmAllocFromTraced_inside (p : Statics) (hcover : p.pageCount.toNat ≤ 8 * p.bitmapBytes.toNat)
    (fuel : Nat) (i : BitVec 64) (h : t.Inside p.pageCount p.bitmapBytes) :
    (pmmAllocFromTraced p fuel i t).2.Inside p.pageCount p.bitmapBytes := by
  induction fuel generalizing i t with
  | zero => exact h
  | succ fuel ih =>
      simp only [pmmAllocFromTraced, Traced.test]
      by_cases hi : i < p.pageCount
      · have hpage := page_inside hcover (BitVec.lt_def.mp hi)
        by_cases hu : bitmapTest p.bitmap t.mem i = true
        · simp only [hi, hu, if_true]
          exact ih (i + 1) (inside_cons hpage h)
        · simp only [hi, hu, if_true, if_false, Bool.false_eq_true]
          have htest : Traced.Inside p.pageCount p.bitmapBytes ⟨t.mem, .page i :: t.log⟩ :=
            inside_cons hpage h
          exact inside_cons hpage htest
      · simp only [hi, if_false]
        exact h

end Inside

theorem initPmmTraced_inside {boot : BootInfo} {map : List MemmapEntry} {m m' : Memory 64}
    {p : Statics} {t : Traced} (hmap : boot.memmap = some map)
    (hspace : ∀ entry ∈ map, entry.InSpace) (h : Initialised boot map m p m')
    (he : initPmmTraced boot ⟨m, []⟩ = some (p, t)) : t.Inside p.pageCount p.bitmapBytes := by
  have hcover := (h.wellSized hspace).covered
  have hstop := fun entry (hm : entry ∈ map) => stop_le_pageCount h hspace hm
  have hpages := h.bitmapPages
  have hwell := h.wellSized hspace
  obtain ⟨pre, e, post, hsplit, -, hr, hphys⟩ :=
    findRoom_spec hspace (by have := h.bitmapBytes; have := hwell.pageCount_lt; omega) h.room
  have hem : e ∈ map := by simp [hsplit]
  have hephys : p.bitmapPhys.toNat = e.first * 4096 := by
    rw [hphys, toNat_frame (InSpace.first_lt (hspace e hem))]
  have hes := hstop e hem
  have hne := hr.nonempty
  have hlarge := hr.large
  have hhdm := h.hhdm
  simp only [initPmmTraced, hmap, hhdm] at he
  generalize alignUp4k (highestEnd map) / 4096 = count at *
  generalize (count + 7) / 8 = bytes at *
  generalize alignUp4k bytes / 4096 = pages at *
  cases hroom : findRoom boot pages map with
  | none =>
      simp only [hroom] at he
      cases he
  | some phys =>
      simp only [hroom] at he
      generalize phys + p.hhdmOffset = bitmap at *
      cases h2 : clearRegionsTraced boot bitmap isUsable map
          (fillBitmapTraced bitmap bytes.toNat ⟨m, []⟩) with
      | none =>
          simp only [h2] at he
          cases he
      | some t2 =>
          simp only [h2] at he
          cases h5 : clearRegionsTraced boot bitmap isReclaimable map
              ((reserveBitmapTraced bitmap phys pages.toNat t2).set bitmap 0) with
          | none =>
              simp only [h5] at he
              cases he
          | some t5 =>
              simp only [h5, Option.some.injEq, Prod.mk.injEq] at he
              obtain ⟨hs, rfl⟩ := he
              have hcount : count = p.pageCount := congrArg Statics.pageCount hs
              have hbytes : bytes = p.bitmapBytes := congrArg Statics.bitmapBytes hs
              have hphysEq : phys = p.bitmapPhys := congrArg Statics.bitmapPhys hs
              have hpagesEq : pages = p.bitmapPages := congrArg Statics.bitmapPages hs
              subst hcount hbytes hphysEq hpagesEq
              have i0 : Traced.Inside p.pageCount p.bitmapBytes ⟨m, []⟩ := fun a ha => absurd ha List.not_mem_nil
              have i1 := fillBitmapTraced_inside bitmap p.bitmapBytes.toNat le_rfl i0
              have i2 := clearRegionsTraced_inside hcover boot bitmap isUsable map hspace hstop i1 h2
              have i3 := reserveBitmapTraced_inside hcover bitmap p.bitmapPhys
                p.bitmapPages.toNat (by omega) i2
              refine clearRegionsTraced_inside hcover boot bitmap isReclaimable map hspace hstop
                (inside_cons (page_inside hcover ?_) i3) h5
              show 0 < p.pageCount.toNat
              omega

-- The bitmap lies in one USABLE entry, and every access to it, in init_pmm and
-- in any later pmm_alloc whatever memory then holds, is inside it.
theorem bitmap_accesses_inside (boot : BootInfo) (map : List MemmapEntry) (m m' : Memory 64)
    (p : Statics) (hmap : boot.memmap = some map) (hspace : ∀ entry ∈ map, entry.InSpace)
    (hinit : initPmm boot m = some (p, m')) :
    (∃ entry ∈ map, entry.type = .usable ∧ entry.base.toNat ≤ p.bitmapPhys.toNat ∧
      p.bitmapPhys.toNat + p.bitmapBytes.toNat ≤ entry.base.toNat + entry.length.toNat) ∧
    (∃ t, initPmmTraced boot ⟨m, []⟩ = some (p, t) ∧ t.mem = m' ∧
      t.Inside p.pageCount p.bitmapBytes) ∧
    ∀ later, ((pmmAllocTraced p ⟨later, []⟩).1, (pmmAllocTraced p ⟨later, []⟩).2.mem) =
        pmmAlloc p later ∧
      (pmmAllocTraced p ⟨later, []⟩).2.Inside p.pageCount p.bitmapBytes := by
  have h := initPmm_spec hmap hspace hinit
  have hwell := h.wellSized hspace
  refine ⟨?_, ?_, fun later => ⟨?_, ?_⟩⟩
  · obtain ⟨pre, e, post, rfl, -, hr, hphys⟩ :=
      findRoom_spec hspace (by have := h.bitmapBytes; have := h.bitmapPages; have := hwell.pageCount_lt; omega)
        h.room
    have hem : e ∈ pre ++ e :: post := by simp
    have hephys : p.bitmapPhys.toNat = e.first * 4096 := by
      rw [hphys, toNat_frame (InSpace.first_lt (hspace e hem))]
    have hpages := h.bitmapPages
    have hlarge := hr.large
    have hne := hr.nonempty
    refine ⟨e, hem, hr.usable, ?_, ?_⟩ <;>
      · simp only [MemmapEntry.first, MemmapEntry.stop] at *
        omega
  · have herase := initPmmTraced_mem boot ⟨m, []⟩
    rw [hinit, Option.map_eq_some_iff] at herase
    obtain ⟨⟨q, t⟩, he, hq⟩ := herase
    simp only [Prod.mk.injEq] at hq
    obtain ⟨rfl, rfl⟩ := hq
    exact ⟨t, he, rfl, initPmmTraced_inside hmap hspace h he⟩
  · exact pmmAllocFromTraced_mem p p.pageCount.toNat 1 ⟨later, []⟩
  · exact pmmAllocFromTraced_inside p hwell.covered _ _ (fun a ha => absurd ha List.not_mem_nil)

theorem bitmap_accesses_inside_small :
    ∃ p m', initPmm (smallBoot 0x1000) (fun _ => 0) = some (p, m') ∧
      ∃ entry ∈ smallMap 0x1000, entry.type = .usable ∧
        entry.base.toNat ≤ p.bitmapPhys.toNat ∧
        p.bitmapPhys.toNat + p.bitmapBytes.toNat ≤ entry.base.toNat + entry.length.toNat := by
  have hsome : (initPmm (smallBoot 0x1000) (fun _ => 0)).isSome = true := by decide
  obtain ⟨⟨p, m'⟩, hinit⟩ := Option.isSome_iff_exists.mp hsome
  have hspace : ∀ entry ∈ smallMap 0x1000, entry.InSpace := by
    simp [smallMap, MemmapEntry.InSpace]
  exact ⟨p, m', hinit, (bitmap_accesses_inside _ _ _ _ _ rfl hspace hinit).1⟩

end Miyabi.Mm.Pmm
