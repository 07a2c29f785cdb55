import Miyabi.Mm.Heap.Kept
import Miyabi.Modules.Loader.Fixups

namespace Miyabi.Modules

open Miyabi.Base Miyabi.Base.Memory Miyabi.Elf Miyabi.Mm Miyabi.Mm.Heap

-- The state of the relocation loops: the sections are placed, and every store was one to
-- the file or to the image.
structure Linking (m : Memory 64) (fileBuffer fileSize shdrs base total : BitVec 64) (w : Work) :
    Prop where
  settled : Settled m fileBuffer fileSize shdrs base (eShnum m fileBuffer).toNat w.mem
  bounded : Bounded fileBuffer fileSize base total w

-- An entry is reached in such a state, for a section that has been placed.
def Turn.Reached (m : Memory 64) (fileBuffer fileSize shdrs base : BitVec 64) (u : Turn) : Prop :=
  Settled m fileBuffer fileSize shdrs base (eShnum m fileBuffer).toNat u.mem ∧
    ∃ j < (eShnum m fileBuffer).toNat, IsAlloc m (shdr shdrs j) ∧ u.target = shdr shdrs j

section Relocations

variable {m : Memory 64} {fileBuffer fileSize shdrs base total : BitVec 64}
variable (ksymtab : KernelSymbols) {t : Tables} {w : Work}
variable (ht : Table m fileBuffer fileSize shdrs)
variable (hroom : Apart base total.toNat fileBuffer fileSize.toNat)
variable (hspans : ∀ j < (eShnum m fileBuffer).toNat, IsAlloc m (shdr shdrs j) →
  Spans base total (base + startOf m shdrs j) (shSize m (shdr shdrs j)).toNat)

include ht hroom hspans

theorem relocate_linking (h : Linking m fileBuffer fileSize shdrs base total w) {j : ℕ}
    (hj : j < (eShnum m fileBuffer).toNat) (halloc : IsAlloc m (shdr shdrs j)) (rela : BitVec 64) :
    Linking m fileBuffer fileSize shdrs base total
      (resultOf (relocate ksymtab t (shdr shdrs j) rela w)) := by
  rcases (relocate_fixup ksymtab t (shdr shdrs j) rela w).result with hsame | ⟨f, hfix, hfixed⟩
  · rw [hsame]
    exact h
  · have hspan := fixupAt_spans hfix
    rw [h.settled.addrs j hj halloc, h.settled.size ht hj] at hspan
    have himage := (hspans j hj halloc).within hspan
    refine ⟨?_, fun s hs => ?_⟩
    · rw [hfixed.mem]
      exact h.settled.outside ht le_rfl ((f.apply_keeps w.mem).agree (himage.apart hroom).symm)
    · rw [hfixed.stores] at hs
      rcases List.mem_cons.mp hs with rfl | hs
      · exact Or.inr himage
      · exact h.bounded s hs

theorem relocateTable_linking (h : Linking m fileBuffer fileSize shdrs base total w) {j : ℕ}
    (hj : j < (eShnum m fileBuffer).toNat) (halloc : IsAlloc m (shdr shdrs j)) (relas : BitVec 64)
    (n : ℕ) :
    Linking m fileBuffer fileSize shdrs base total
        (resultOf (relocateTable ksymtab t (shdr shdrs j) relas n w)) ∧
      ∀ u ∈ tableTurns ksymtab t (shdr shdrs j) relas n w,
        u.Reached m fileBuffer fileSize shdrs base := by
  induction n with
  | zero => exact ⟨h, fun u hu => absurd hu List.not_mem_nil⟩
  | succ n ih =>
      rw [relocateTable, tableTurns]
      obtain ⟨hlink, hturns⟩ := ih
      cases hn : relocateTable ksymtab t (shdr shdrs j) relas n w with
      | error w1 =>
          rw [hn] at hlink
          exact ⟨hlink, hturns⟩
      | ok w1 =>
          rw [hn] at hlink
          have hone : Linking m fileBuffer fileSize shdrs base total w1 := hlink
          refine ⟨relocate_linking ksymtab ht hroom hspans hone hj halloc _, ?_⟩
          exact List.forall_mem_cons.mpr ⟨⟨hone.settled, j, hj, halloc, rfl⟩, hturns⟩

variable (hehdr : t.ehdr = fileBuffer) (hshdrs : t.shdrs = shdrs)

include hehdr hshdrs

theorem relocateSection_linking (h : Linking m fileBuffer fileSize shdrs base total w)
    (sh : BitVec 64) :
    Linking m fileBuffer fileSize shdrs base total
        (resultOf (relocateSection ksymtab t fileBuffer fileSize sh w)) ∧
      ∀ u ∈ sectionTurns ksymtab t fileBuffer fileSize sh w,
        u.Reached m fileBuffer fileSize shdrs base := by
  have hnone : ∀ u ∈ ([] : List Turn), u.Reached m fileBuffer fileSize shdrs base :=
    fun u hu => absurd hu List.not_mem_nil
  unfold relocateSection sectionTurns
  dsimp only
  by_cases htype : shType w.mem sh ≠ shtRela
  · rw [if_pos htype, if_pos htype]
    exact ⟨h, hnone⟩
  rw [if_neg htype, if_neg htype]
  by_cases hbad : (eShnum w.mem t.ehdr).toNat ≤ (shInfo w.mem sh).toNat ∨
      (!inFile fileSize w.mem sh) = true ∨ shSize w.mem sh % 24 ≠ 0
  · rw [if_pos hbad, if_pos hbad]
    exact ⟨h, hnone⟩
  rw [if_neg hbad, if_neg hbad]
  have hj : (shInfo w.mem sh).toNat < (eShnum m fileBuffer).toNat := by
    have hlt := Nat.lt_of_not_le fun hle => hbad (Or.inl hle)
    rw [hehdr, h.settled.shnum ht] at hlt
    exact hlt
  rw [hshdrs]
  by_cases hskip : ¬IsAlloc w.mem (shdr shdrs (shInfo w.mem sh).toNat)
  · rw [if_pos hskip, if_pos hskip]
    exact ⟨h, hnone⟩
  rw [if_neg hskip, if_neg hskip]
  have halloc := (h.settled.isAlloc ht hj).mp (not_not.mp hskip)
  exact relocateTable_linking ksymtab ht hroom hspans h hj halloc _ _

theorem relocateSections_linking (h : Linking m fileBuffer fileSize shdrs base total w)
    (fuel i : ℕ) :
    Linking m fileBuffer fileSize shdrs base total
        (resultOf (relocateSections ksymtab t fileBuffer fileSize fuel i w)) ∧
      ∀ u ∈ sectionsTurns ksymtab t fileBuffer fileSize fuel i w,
        u.Reached m fileBuffer fileSize shdrs base := by
  induction fuel generalizing i w with
  | zero => exact ⟨h, fun u hu => absurd hu List.not_mem_nil⟩
  | succ fuel ih =>
      rw [relocateSections, sectionsTurns]
      split
      · obtain ⟨hlink, hturns⟩ :=
          relocateSection_linking ksymtab ht hroom hspans hehdr hshdrs h (shdr t.shdrs i)
        cases hn : relocateSection ksymtab t fileBuffer fileSize (shdr t.shdrs i) w with
        | error w1 =>
            rw [hn] at hlink
            exact ⟨hlink, by simpa using hturns⟩
        | ok w1 =>
            rw [hn] at hlink
            have hrest := ih (show Linking m fileBuffer fileSize shdrs base total w1 from hlink) (i + 1)
            refine ⟨hrest.1, List.forall_mem_append.mpr ⟨hturns, hrest.2⟩⟩
      · exact ⟨h, fun u hu => absurd hu List.not_mem_nil⟩

end Relocations

section Image

variable {ksymtab : KernelSymbols} {fileBuffer fileSize : BitVec 64} {system system1 : Heap.System}
variable {bs : List Block} {shdrs total base : BitVec 64}

-- A new block is apart from a buffer of the caller, and the buffer is as it was.
theorem Buffer.spared {s s' : Heap.System} {a n size ptr : BitVec 64} (hfile : Buffer s a n)
    (h : Tidy s bs) (hp : Permitted s (.kmalloc size)) (hk : s.kmalloc size = some (ptr, s'))
    (hne : ptr ≠ 0) :
    Agree s.mem s'.mem a n.toNat ∧ Apart ptr size.toNat a n.toNat := by
  rcases hfile with ⟨b, hb, rfl, hsize⟩ | hlow
  · obtain ⟨hkept, hapart⟩ := h.kmalloc_live_spared hp hk hne hb
    exact ⟨fun x hx => hkept x (inRange_mono _ x hsize hx), hapart.mono le_rfl hsize⟩
  · exact h.kmalloc_below_spared hp hk hne hlow

theorem image_room (h : Tidy system bs) (hfile : Buffer system fileBuffer fileSize)
    (hp : Permitted system (.kmalloc total))
    (himage : Imaged fileBuffer fileSize system shdrs total base system1) :
    Agree system.mem system1.mem fileBuffer fileSize.toNat ∧
      Apart base total.toNat fileBuffer fileSize.toNat :=
  hfile.spared h hp himage.image himage.image_ne

-- No sh_addr field that the second pass stores lies on e_shnum.
def SparesCount (m : Memory 64) (fileBuffer shdrs : BitVec 64) : Prop :=
  ∀ i < (eShnum m fileBuffer).toNat, IsAlloc m (shdr shdrs i) →
    Apart (shdr shdrs i + 16) 8 (fileBuffer + 60) 2

-- Section headers behind the file header spare e_shnum.
theorem Imaged.spares (h : Imaged fileBuffer fileSize system shdrs total base system1)
    (hheaders : 64 ≤ (eShoff system.mem fileBuffer).toNat) :
    SparesCount system.mem fileBuffer shdrs := by
  intro i hi _
  have hroom := (elfValidate_room h.valid).2
  have hlt := fileSize.isLt
  rw [show shdr shdrs i + 16 = _ from shdr_add h.shdrs_eq i 16]
  exact (apart_offsets (i := 60) (n := 2) fileBuffer (by omega) (by omega)).symm

theorem Imaged.table (h : Imaged fileBuffer fileSize system shdrs total base system1)
    (hspares : SparesCount system.mem fileBuffer shdrs) :
    Table system.mem fileBuffer fileSize shdrs :=
  ⟨h.shdrs_eq, (elfValidate_room h.valid).1, (elfValidate_room h.valid).2, hspares⟩

theorem Imaged.total_offsetAt (h : Imaged fileBuffer fileSize system shdrs total base system1) :
    total = offsetAt system.mem shdrs (eShnum system.mem fileBuffer).toNat ∧
      ∀ j < (eShnum system.mem fileBuffer).toNat, IsAlloc system.mem (shdr shdrs j) →
        shType system.mem (shdr shdrs j) ≠ shtNobits →
          inFile fileSize system.mem (shdr shdrs j) = true := by
  have hlt := (eShnum system.mem fileBuffer).isLt
  obtain ⟨htotal, hinside⟩ := totalMemorySize_offsetAt (Nat.zero_le _) (by omega) h.total_eq
  exact ⟨htotal, fun j hj => hinside j (Nat.zero_le j) hj⟩

theorem settled_start (hagree : Agree system.mem system1.mem fileBuffer fileSize.toNat) :
    Settled system.mem fileBuffer fileSize shdrs base 0 system1.mem :=
  ⟨fun x hx _ => hagree x hx, fun j hj => absurd hj (Nat.not_lt_zero j)⟩

end Image

section Stores

variable (ksymtab : KernelSymbols) (fileBuffer fileSize shdrs total base : BitVec 64)
variable (system1 : Heap.System)

-- load_module writes only where it should, whatever becomes of the module: the sections lie
-- in the image and apart, the passes agree, and each byte and each patch lands in its
-- section.
structure Confined : Prop where
  inside : ∀ p ∈ (placedWork fileBuffer shdrs base system1).placed,
    Spans base total p.addr p.size.toNat
  disjoint : (placedWork fileBuffer shdrs base system1).placed.Pairwise fun p q =>
    Apart p.addr p.size.toNat q.addr q.size.toNat
  ends : (placeSections fileBuffer shdrs fileBuffer base (2 ^ 16) 0 0
    ⟨system1.mem, [], [], []⟩).1 = total
  copied : ∀ u ∈ placeTurns fileBuffer shdrs fileBuffer base (2 ^ 16) 0 0
      ⟨system1.mem, [], [], []⟩, ∀ s ∈ u.stores fileBuffer base,
    ∃ p ∈ (placedWork fileBuffer shdrs base system1).placed, p.header = u.sh ∧
      Spans p.addr p.size s.1 s.2
  patched : ∀ t, findTables fileBuffer fileSize (placedWork fileBuffer shdrs base system1).mem
      fileBuffer shdrs = some t →
    ∀ u ∈ sectionsTurns ksymtab t fileBuffer fileSize (2 ^ 16) 0
        (placedWork fileBuffer shdrs base system1), ∀ s ∈ u.stores ksymtab t,
      ∃ p ∈ (placedWork fileBuffer shdrs base system1).placed, p.header = u.target ∧
        Spans p.addr p.size s.1 s.2
  bounded : Bounded fileBuffer fileSize base total (placedWork fileBuffer shdrs base system1) ∧
    ∀ t, findTables fileBuffer fileSize (placedWork fileBuffer shdrs base system1).mem
        fileBuffer shdrs = some t →
      Bounded fileBuffer fileSize base total (resultOf (relocateSections ksymtab t fileBuffer
        fileSize (2 ^ 16) 0 (placedWork fileBuffer shdrs base system1)))

end Stores

theorem findTables_fields {m : Memory 64} {fileBuffer fileSize ehdr shdrs : BitVec 64} {t : Tables}
    (h : findTables fileBuffer fileSize m ehdr shdrs = some t) : t.ehdr = ehdr ∧ t.shdrs = shdrs := by
  unfold findTables at h
  split at h
  · cases h
  split at h
  · cases h
  dsimp only at h
  split at h
  · cases h
  cases h
  exact ⟨rfl, rfl⟩

section Theorem

variable (ksymtab : KernelSymbols) (fileBuffer fileSize : BitVec 64) (system : Heap.System)
variable (shdrs total base : BitVec 64) (system1 : Heap.System) (bs : List Block)

theorem confined_of_noWrap (h : Tidy system bs) (hfile : Buffer system fileBuffer fileSize)
    (hp : Permitted system (.kmalloc total))
    (himage : Imaged fileBuffer fileSize system shdrs total base system1)
    (hspares : SparesCount system.mem fileBuffer shdrs)
    (hsums : NoWrap system.mem shdrs (eShnum system.mem fileBuffer).toNat) :
    Confined ksymtab fileBuffer fileSize shdrs total base system1 := by
  obtain ⟨hagree, hroom⟩ := image_room h hfile hp himage
  have ht := himage.table hspares
  have htotal := himage.total_offsetAt.1
  have hlt := (eShnum system.mem fileBuffer).isLt
  have hspans : ∀ j < (eShnum system.mem fileBuffer).toNat, IsAlloc system.mem (shdr shdrs j) →
      Spans base total (base + startOf system.mem shdrs j)
        (shSize system.mem (shdr shdrs j)).toNat := by
    intro j hj halloc
    rw [htotal]
    exact spans_start.mpr (hsums.inside hj halloc)
  have hstart : Settled system.mem fileBuffer fileSize shdrs base 0
    (⟨system1.mem, [], [], []⟩ : Work).mem := settled_start hagree
  obtain ⟨hends, hsettled, hplaced⟩ := placeSections_settled (2 ^ 16) ht hroom hspans
    (Nat.zero_le _) (by omega) hstart rfl
  have hbounded : Bounded fileBuffer fileSize base total (placedWork fileBuffer shdrs base system1) :=
    placeSections_bounded _ ht hroom hspans (Nat.zero_le _) hstart fun s hs => by cases hs
  have hlinking : Linking system.mem fileBuffer fileSize shdrs base total
    (placedWork fileBuffer shdrs base system1) := ⟨hsettled, hbounded⟩
  have hplaced' : (placedWork fileBuffer shdrs base system1).placed =
    layout system.mem shdrs base (eShnum system.mem fileBuffer).toNat := hplaced
  constructor
  case inside =>
    rw [hplaced', htotal]
    exact hsums.layout_inside
  case disjoint =>
    rw [hplaced']
    exact hsums.layout_apart
  case ends => exact hends.trans htotal.symm
  case copied =>
    rw [hplaced']
    exact placeTurns_inside _ ht hroom hspans (Nat.zero_le _) hstart
  case patched =>
    intro t htables u hu s hs
    obtain ⟨hehdr, hshdrs⟩ := findTables_fields htables
    obtain ⟨hturn, j, hj, halloc, htarget⟩ :=
      (relocateSections_linking ksymtab ht hroom hspans hehdr hshdrs hlinking _ _).2 u hu
    have hspan := u.stores_spans s hs
    rw [htarget, hturn.addrs j hj halloc, hturn.size ht hj] at hspan
    rw [hplaced']
    exact ⟨_, mem_layout.mpr ⟨j, hj, halloc, rfl⟩, htarget.symm, hspan⟩
  case bounded =>
    refine ⟨hbounded, fun t htables => ?_⟩
    obtain ⟨hehdr, hshdrs⟩ := findTables_fields htables
    exact (relocateSections_linking ksymtab ht hroom hspans hehdr hshdrs hlinking _ _).1.bounded

-- A file whose sums do not wrap is in bounds.
theorem inBounds_of_noWrap (h : Tidy system bs) (hfile : Buffer system fileBuffer fileSize)
    (hp : Permitted system (.kmalloc total))
    (himage : Imaged fileBuffer fileSize system shdrs total base system1)
    (hspares : SparesCount system.mem fileBuffer shdrs)
    (hsums : NoWrap system.mem shdrs (eShnum system.mem fileBuffer).toNat)
    (hrecord : ∀ t w1, findTables fileBuffer fileSize (placedWork fileBuffer shdrs base system1).mem
        fileBuffer shdrs = some t →
      relocateSections ksymtab t fileBuffer fileSize (2 ^ 16) 0
        (placedWork fileBuffer shdrs base system1) = .ok w1 →
      Permitted (system1.setMem w1.mem) (.kmalloc moduleSize)) :
    InBounds ksymtab fileBuffer fileSize system := by
  obtain ⟨hplaced, hrelocated⟩ := (confined_of_noWrap ksymtab fileBuffer fileSize system shdrs total
    base system1 bs h hfile hp himage hspares hsums).bounded
  constructor
  case buffer => exact hfile
  case image =>
    intro shdrs' total' base' system1' himage'
    obtain ⟨-, rfl, -, -⟩ := himage.unique himage'
    exact hp
  case placed =>
    intro shdrs' total' base' system1' himage'
    obtain ⟨rfl, rfl, rfl, rfl⟩ := himage.unique himage'
    exact hplaced
  case relocated =>
    intro shdrs' total' base' system1' t himage' htables
    obtain ⟨rfl, rfl, rfl, rfl⟩ := himage.unique himage'
    exact hrelocated t htables
  case record =>
    intro shdrs' total' base' system1' t w1 himage' htables hrun
    obtain ⟨rfl, rfl, rfl, rfl⟩ := himage.unique himage'
    exact hrecord t w1 htables hrun

-- With powers of two it does so exactly if none of its sums wraps.
theorem confined_iff (h : Tidy system bs) (hfile : Buffer system fileBuffer fileSize)
    (hp : Permitted system (.kmalloc total))
    (himage : Imaged fileBuffer fileSize system shdrs total base system1)
    (hspares : SparesCount system.mem fileBuffer shdrs) :
    (NoWrap system.mem shdrs (eShnum system.mem fileBuffer).toNat →
        Confined ksymtab fileBuffer fileSize shdrs total base system1) ∧
      (PowerAligned system.mem shdrs (eShnum system.mem fileBuffer).toNat →
        (Confined ksymtab fileBuffer fileSize shdrs total base system1 ↔
          NoWrap system.mem shdrs (eShnum system.mem fileBuffer).toNat)) := by
  have hforward := confined_of_noWrap ksymtab fileBuffer fileSize system shdrs total base system1 bs
    h hfile hp himage hspares
  refine ⟨hforward, fun hpow => ⟨fun hconfined => ?_, hforward⟩⟩
  obtain ⟨hagree, hroom⟩ := image_room h hfile hp himage
  have ht := himage.table hspares
  have htotal := himage.total_offsetAt.1
  have hlt := (eShnum system.mem fileBuffer).isLt
  have hstart : Settled system.mem fileBuffer fileSize shdrs base 0
    (⟨system1.mem, [], [], []⟩ : Work).mem := settled_start hagree
  have hspans := spans_of_placed (2 ^ 16) ht hroom (Nat.zero_le _) (by omega) hstart
    hconfined.inside
  obtain ⟨-, -, hplaced⟩ := placeSections_settled (2 ^ 16) ht hroom
    (fun j => hspans j (Nat.zero_le j)) (Nat.zero_le _) (by omega) hstart rfl
  have hinside := hconfined.inside
  have hdisjoint := hconfined.disjoint
  rw [show (placedWork fileBuffer shdrs base system1).placed = _ from hplaced] at hinside hdisjoint
  rw [htotal] at hinside
  exact noWrap_of_layout hpow hinside hdisjoint

end Theorem

section Sample

variable {frames : FrameSupply} {s0 : Heap.System}

theorem sample_spares : SparesCount (firstHeader sampleMemory) sampleFile sampleShdrs := by
  intro i hi _
  have hcount : (eShnum (firstHeader sampleMemory) sampleFile).toNat = 4 := by decide +kernel
  have haddr : ∀ i < 4, shdr sampleShdrs i + 16 = sampleFile + BitVec.ofNat 64 (i * 64 + 80) := by
    decide
  rw [hcount] at hi
  rw [haddr i hi]
  exact (apart_offsets (i := 60) (n := 2) (k := 8) sampleFile (by omega) (by omega)).symm

theorem sample_permitted (hb : boot sampleMemory frames = some s0) : Permitted s0 (.kmalloc 8) :=
  System.permitted_search ⟨by decide, by decide⟩ (sample_imaged hb).image rfl

end Sample

theorem confined_sample :
    ∃ s0, boot sampleMemory sampleFrames = some s0 ∧
      Confined [] sampleFile 404 sampleShdrs 8 sampleImage (sampleSystem s0) := by
  obtain ⟨s0, hb, -⟩ := boot_invariant sampleMemory sampleFrames sampleFrames_ne
  obtain ⟨hm, -, -, -⟩ := boot_state hb
  have hmem : s0.mem = firstHeader sampleMemory := hm
  have hspares : SparesCount s0.mem sampleFile sampleShdrs := hmem ▸ sample_spares
  have hsums : NoWrap s0.mem sampleShdrs (eShnum s0.mem sampleFile).toNat := by
    rw [hmem]
    decide +kernel
  exact ⟨s0, hb, (confined_iff [] sampleFile 404 s0 sampleShdrs 8 sampleImage _ _ (boot_returned hb).1
    (Or.inr (by decide)) (sample_permitted hb) (sample_imaged hb) hspares).1 hsums⟩

end Miyabi.Modules
