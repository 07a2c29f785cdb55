import Miyabi.Modules.Loader.Linked

namespace Miyabi.Modules

open Miyabi.Base Miyabi.Base.Memory Miyabi.Elf Miyabi.Mm Miyabi.Mm.Heap

section Prepare

variable {ksymtab : KernelSymbols} {name fileBuffer fileSize shdrs total base : BitVec 64}
variable {system system1 : Heap.System}

theorem prepareModule_imaged (hname : name ≠ 0) (hbuffer : fileBuffer ≠ 0)
    (himage : Imaged fileBuffer fileSize system shdrs total base system1) :
    prepareModule ksymtab name fileBuffer fileSize system =
      linkModule ksymtab name fileBuffer fileSize shdrs base total system1
        (placedWork fileBuffer shdrs base system1) := by
  unfold prepareModule
  dsimp only
  rw [if_neg (not_or.mpr ⟨hname, hbuffer⟩), himage.valid, ← himage.shdrs_eq, himage.total_eq]
  dsimp only
  rw [himage.image]
  dsimp only
  rw [if_neg himage.image_ne]
  rfl

end Prepare

section Result

variable (ksymtab : KernelSymbols) (name fileBuffer fileSize : BitVec 64) (system : Heap.System)
variable (shdrs total base : BitVec 64) (system1 : Heap.System) (t : Tables) (bs : List Block)

-- load_module puts into memory what the linker makes of the file.
theorem image_linked {r : Prepared} (hname : name ≠ 0) (hbuffer : fileBuffer ≠ 0)
    (h : Tidy system bs) (hfile : Buffer system fileBuffer fileSize)
    (hp : Permitted system (.kmalloc total))
    (himage : Imaged fileBuffer fileSize system shdrs total base system1)
    (hwf : WellFormed ksymtab system.mem fileBuffer fileSize shdrs base t)
    (hrecord : ∀ w, relocateSections ksymtab t fileBuffer fileSize (2 ^ 16) 0
        (placedWork fileBuffer shdrs base system1) = .ok w →
      Permitted (system1.setMem w.mem) (.kmalloc moduleSize))
    (hr : prepareModule ksymtab name fileBuffer fileSize system = some r) :
    ∃ mod system' w, r = .ready mod base total system' w ∧
      ∀ j < (eShnum system.mem fileBuffer).toNat, IsAlloc system.mem (shdr shdrs j) →
        ∀ k < (shSize system.mem (shdr shdrs j)).toNat,
          let x := base + startOf system.mem shdrs j + BitVec.ofNat 64 k
          system'.mem x = patchedByte
            (fixups ksymtab system.mem fileBuffer base t (eShnum system.mem fileBuffer).toNat) x
            (sectionByte system.mem fileBuffer (shdr shdrs j) k) := by
  have hspares := himage.spares hwf.headers
  have ht := himage.table hspares
  obtain ⟨hagree, hroom⟩ := image_room h hfile hp himage
  have htotal := himage.total_offsetAt.1
  have hlt := (eShnum system.mem fileBuffer).isLt
  have hspans : ∀ j < (eShnum system.mem fileBuffer).toNat, IsAlloc system.mem (shdr shdrs j) →
      Spans base total (base + startOf system.mem shdrs j)
        (shSize system.mem (shdr shdrs j)).toNat := by
    intro j hj halloc
    rw [htotal]
    exact spans_start.mpr (hwf.sums.inside hj halloc)
  have hstart : Settled system.mem fileBuffer fileSize shdrs base 0
    (⟨system1.mem, [], [], []⟩ : Work).mem := settled_start hagree
  have hsettled := (placeSections_settled (2 ^ 16) ht hroom hspans (Nat.zero_le _) (by omega) hstart
    rfl).2.1
  have hbounded := placeSections_bounded (2 ^ 16) ht hroom hspans (Nat.zero_le _) hstart
    fun s hs => by cases hs
  have hfilled := placeSections_filled ht hroom (2 ^ 16) (Nat.zero_le _) (by omega) hwf.sums hspans
    hwf.data hstart fun j hj => absurd hj (Nat.not_lt_zero j)
  have htables : findTables fileBuffer fileSize (placedWork fileBuffer shdrs base system1).mem
      fileBuffer shdrs = some t := (findTables_settled hsettled ht).trans hwf.tables
  obtain ⟨w, hrun, hlinking, hmem⟩ := relocateSections_linked hwf ht hroom hspans (Nat.zero_le _)
    (by omega : _ ≤ 2 ^ 16 + 0) ⟨hsettled, hbounded⟩ (by rfl)
  -- The record is apart from the image.
  have hinbounds := inBounds_of_noWrap ksymtab fileBuffer fileSize system shdrs total base system1 bs
    h hfile hp himage hspares hwf.sums fun t' w' htables' hrun' => by
      cases htables.symm.trans htables'
      exact hrecord w' hrun'
  obtain ⟨bs1, -, hwork⟩ := work_tidy hinbounds h himage
  have htidy := hwork _ (relocated_traced t) (hinbounds.relocated _ _ _ _ t himage htables)
  rw [show relocateSections ksymtab t fileBuffer fileSize (2 ^ 16) 0
    (placedWork fileBuffer shdrs base system1) = .ok w from hrun] at htidy
  have hlive : (⟨base, total⟩ : Alloc) ∈ (system1.setMem w.mem).live := by
    rw [show (system1.setMem w.mem).live = system1.live from rfl, image_live himage]
    exact List.mem_cons_self
  rw [prepareModule_imaged hname hbuffer himage] at hr
  unfold linkModule at hr
  rw [htables] at hr
  dsimp only at hr
  rw [show relocateSections ksymtab t fileBuffer fileSize (2 ^ 16) 0
    (placedWork fileBuffer shdrs base system1) = .ok w from hrun] at hr
  dsimp only at hr
  cases hk : (system1.setMem w.mem).kmalloc moduleSize with
  | none =>
      rw [hk] at hr
      cases hr
  | some served =>
      obtain ⟨mod, system2⟩ := served
      have hmod : mod ≠ 0 := by
        rintro rfl
        exact absurd (htidy.kmalloc_null hk).1 (by decide)
      obtain ⟨hkept, hapart⟩ := htidy.kmalloc_live_spared (hrecord w hrun) hk hmod hlive
      rw [hk] at hr
      dsimp only at hr
      rw [if_neg hmod] at hr
      refine ⟨mod, _, _, (Option.some.inj hr).symm, fun j hj halloc k hk => ?_⟩
      dsimp only
      have hin := (hspans j hj halloc).inRange
        (inRange_add _ (shSize system.mem (shdr shdrs j)).toNat k hk)
      have hrecord := (fillModule_keeps t mod name base total { w with mem := system2.mem }).agree
        hapart.symm _ hin
      rw [← hfilled j hj halloc k hk, ← patched_eq]
      exact (hrecord.trans (hkept _ hin)).trans (congrFun hmem _)

end Result

section Sample

variable (m : Memory 64) (fileBuffer fileSize sh : BitVec 64)

instance : Decidable (Clear m fileBuffer fileSize sh) :=
  decidable_of_iff (_ ∧ _) ⟨fun h => ⟨h.1, h.2⟩, fun h => ⟨h.inFile, h.apart⟩⟩

theorem sample_linkable :
    Linkable [] (firstHeader sampleMemory) sampleShdrs sampleImage sampleTables 0
      (sampleFile + 368 + 24 * BitVec.ofNat 64 0) where
  index := by decide +kernel
  name := ⟨11, by decide +kernel⟩
  fixed := by decide +kernel
  room _ := by decide +kernel

theorem sample_wellFormed :
    WellFormed [] (firstHeader sampleMemory) sampleFile 404 sampleShdrs sampleImage sampleTables where
  headers := by decide +kernel
  size := by decide
  sums := by decide +kernel
  data := by decide +kernel
  tables := by decide +kernel
  symbols := by decide +kernel
  strings := by decide +kernel
  relas := by
    have hcount : (eShnum (firstHeader sampleMemory) sampleFile).toNat = 4 := by decide +kernel
    have honly : ∀ i < 4, shType (firstHeader sampleMemory) (shdr sampleShdrs i) = shtRela →
      i = 3 := by decide +kernel
    have hinfo : (shInfo (firstHeader sampleMemory) (shdr sampleShdrs 3)).toNat = 0 := by
      decide +kernel
    have hentries : (shSize (firstHeader sampleMemory) (shdr sampleShdrs 3)).toNat / 24 = 1 := by
      decide +kernel
    have hplace : sampleFile + shOffset (firstHeader sampleMemory) (shdr sampleShdrs 3) =
      sampleFile + 368 := by decide +kernel
    intro i hi htype
    obtain rfl := honly i (hcount ▸ hi) htype
    rw [hinfo, hcount, hentries, hplace]
    refine ⟨by decide, by decide +kernel, by decide +kernel, fun _ e he => ?_⟩
    obtain rfl : e = 0 := by omega
    exact sample_linkable

theorem sample_fixups : fixups [] (firstHeader sampleMemory) sampleFile sampleImage sampleTables 4 =
    [⟨sampleImage, false, 0x100000000⟩] := by decide +kernel

end Sample

theorem image_linked_sample :
    ∃ s0 mod system' w, boot sampleMemory sampleFrames = some s0 ∧
      prepareModule [] sampleName sampleFile 404 s0 = some (.ready mod sampleImage 8 system' w) ∧
      ∀ k < 8, system'.mem (sampleImage + BitVec.ofNat 64 k) =
        patchedByte [⟨sampleImage, false, 0x100000000⟩] (sampleImage + BitVec.ofNat 64 k) 0 := by
  obtain ⟨s0, hb, -⟩ := boot_invariant sampleMemory sampleFrames sampleFrames_ne
  obtain ⟨hm, -, -, -⟩ := boot_state hb
  have hmem : s0.mem = firstHeader sampleMemory := hm
  have hwf : WellFormed [] s0.mem sampleFile 404 sampleShdrs sampleImage sampleTables :=
    hmem ▸ sample_wellFormed
  have hrecord : ∀ w, relocateSections [] sampleTables sampleFile 404 (2 ^ 16) 0
      (placedWork sampleFile sampleShdrs sampleImage (sampleSystem s0)) = .ok w →
        Permitted ((sampleSystem s0).setMem w.mem) (.kmalloc moduleSize) := by
    intro w hw
    rw [sample_placedWork, sample_relocated] at hw
    cases hw
    exact System.permitted_search ⟨by decide, by decide⟩ (sample_recorded hb) rfl
  obtain ⟨mod, system', w, hready, hbytes⟩ := image_linked [] sampleName sampleFile 404 s0
    sampleShdrs 8 sampleImage _ sampleTables _ (by decide) (by decide) (boot_returned hb).1
    (Or.inr (by decide)) (sample_permitted hb) (sample_imaged hb) hwf hrecord (sample_prepared hb)
  refine ⟨s0, mod, system', w, hb, (sample_prepared hb).trans (congrArg some hready), ?_⟩
  rw [hmem] at hbytes
  have hcount : (eShnum (firstHeader sampleMemory) sampleFile).toNat = 4 := by decide +kernel
  have hsize : (shSize (firstHeader sampleMemory) (shdr sampleShdrs 0)).toNat = 8 := by
    decide +kernel
  have hstart : startOf (firstHeader sampleMemory) sampleShdrs 0 = 0 := by decide +kernel
  have hbits : shType (firstHeader sampleMemory) (shdr sampleShdrs 0) = shtNobits := by decide +kernel
  intro k hk
  have hbyte := hbytes 0 (by rw [hcount]; decide) (by decide +kernel) k (by rw [hsize]; exact hk)
  rw [hstart, hcount, sample_fixups, sectionByte, if_pos hbits, add_zero] at hbyte
  exact hbyte

end Miyabi.Modules
