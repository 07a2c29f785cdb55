import Miyabi.Modules.Loader.Filled

namespace Miyabi.Modules

open Miyabi.Base Miyabi.Base.Memory Miyabi.Elf Miyabi.Fs

-- The tables that load_module finds, and where.
structure Found (m : Memory 64) (fileBuffer shdrs : BitVec 64) (t : Tables) : Prop where
  ehdr_eq : t.ehdr = fileBuffer
  shdrs_eq : t.shdrs = shdrs
  symtab : ∃ i < (eShnum m fileBuffer).toNat, t.symtab = shdr shdrs i
  strtab : ∃ i < (eShnum m fileBuffer).toNat, t.strtab = shdr shdrs i
  syms : t.syms = fileBuffer + shOffset m t.symtab
  strings : t.strings = fileBuffer + shOffset m t.strtab

theorem findSymtab_at {m : Memory 64} {ehdr shdrs symtab : BitVec 64} {fuel i : ℕ}
    (h : findSymtab ehdr shdrs m fuel i = some symtab) :
    ∃ j < (eShnum m ehdr).toNat, symtab = shdr shdrs j := by
  induction fuel generalizing i with
  | zero => cases h
  | succ fuel ih =>
      rw [findSymtab] at h
      split at h
      · rename_i hi
        split at h
        · exact ⟨i, hi, (Option.some.inj h).symm⟩
        · exact ih h
      · cases h

theorem findTables_found {m : Memory 64} {fileBuffer fileSize shdrs : BitVec 64} {t : Tables}
    (h : findTables fileBuffer fileSize m fileBuffer shdrs = some t) :
    Found m fileBuffer shdrs t := by
  unfold findTables at h
  split at h
  · cases h
  rename_i symtab hsymtab
  split at h
  · cases h
  rename_i hlink
  dsimp only at h
  split at h
  · cases h
  cases h
  have hlt := Nat.lt_of_not_le fun hle => hlink (Or.inl hle)
  exact ⟨rfl, rfl, findSymtab_at hsymtab, ⟨_, hlt, rfl⟩, rfl, rfl⟩

section Reads

variable {m m' : Memory 64} {fileBuffer fileSize shdrs base : BitVec 64}
variable (h : Settled m fileBuffer fileSize shdrs base (eShnum m fileBuffer).toNat m')
variable (ht : Table m fileBuffer fileSize shdrs)

include h ht

-- Data that are clear of the section headers are as in the file.
theorem Clear.agree {sh : BitVec 64} (hc : Clear m fileBuffer fileSize sh) {d k : ℕ}
    (hd : d + k ≤ (shSize m sh).toNat) :
    Agree m m' (fileBuffer + shOffset m sh + BitVec.ofNat 64 d) k := by
  have hin := hc.inFile
  have hlt := fileSize.isLt
  have haddr : fileBuffer + shOffset m sh + BitVec.ofNat 64 d =
      fileBuffer + BitVec.ofNat 64 ((shOffset m sh).toNat + d) := by
    rw [BitVec.ofNat_add, BitVec.ofNat_toNat, BitVec.setWidth_eq, add_assoc]
  rw [haddr]
  intro x hx
  refine h.file x (inRange_inner fileBuffer _ x ?_ hx) fun j hj _ hheader => ?_
  · rw [BitVec.toNat_ofNat, Nat.mod_eq_of_lt (by omega)]
    omega
  · have hroom := ht.room
    rw [show shdr shdrs j + 16 = _ from ht.shdr_at j 16] at hheader
    rcases hc.apart with hbefore | hbehind
    · exact apart_offsets fileBuffer (by omega) (by omega) x hx hheader
    · exact (apart_offsets fileBuffer (by omega) (by omega)).symm x hx hheader

theorem Clear.load_eq {sh : BitVec 64} (hc : Clear m fileBuffer fileSize sh) {d k : ℕ}
    (hd : d + k ≤ (shSize m sh).toNat) :
    load m' (fileBuffer + shOffset m sh + BitVec.ofNat 64 d) k =
      load m (fileBuffer + shOffset m sh + BitVec.ofNat 64 d) k :=
  load_congr (hc.agree h ht hd)

theorem findSymtab_settled (fuel i : ℕ) :
    findSymtab fileBuffer shdrs m' fuel i = findSymtab fileBuffer shdrs m fuel i := by
  induction fuel generalizing i with
  | zero => rfl
  | succ fuel ih =>
      rw [findSymtab, findSymtab, h.shnum ht]
      split
      · rename_i hi
        rw [h.type ht hi, ih]
      · rfl

theorem inFile_settled {i : ℕ} (hi : i < (eShnum m fileBuffer).toNat) :
    inFile fileSize m' (shdr shdrs i) = inFile fileSize m (shdr shdrs i) := by
  rw [inFile, inFile, h.offset ht hi, h.size ht hi]

theorem findTables_settled :
    findTables fileBuffer fileSize m' fileBuffer shdrs =
      findTables fileBuffer fileSize m fileBuffer shdrs := by
  unfold findTables
  rw [findSymtab_settled h ht]
  cases hfind : findSymtab fileBuffer shdrs m (2 ^ 16) 0 with
  | none => rfl
  | some symtab =>
      obtain ⟨i, hi, rfl⟩ := findSymtab_at hfind
      dsimp only
      rw [h.shnum ht, h.link ht hi, inFile_settled h ht hi]
      split
      · rfl
      · rename_i hlink
        have hlt := Nat.lt_of_not_le fun hle => hlink (Or.inl hle)
        rw [h.type ht hlt, inFile_settled h ht hlt, h.offset ht hi, h.offset ht hlt]

end Reads

theorem inFile_of_clear {m : Memory 64} {fileBuffer fileSize sh : BitVec 64}
    (h : Clear m fileBuffer fileSize sh) : inFile fileSize m sh = true := by
  have hin := h.inFile
  have hoff : shOffset m sh ≤ fileSize := BitVec.le_def.mpr (by omega)
  have hsize : shSize m sh ≤ fileSize - shOffset m sh := by
    rw [BitVec.le_def, BitVec.toNat_sub_of_le hoff]
    omega
  rw [inFile, Bool.not_eq_true', Bool.or_eq_false_iff, decide_eq_false_iff_not,
    decide_eq_false_iff_not]
  exact ⟨BitVec.not_lt.mpr hoff, BitVec.not_lt.mpr hsize⟩

-- In a file below 4 GiB the counters of the loops do not overflow.
theorem entries_toInt (size : BitVec 64) (h : size.toNat < 2 ^ 32) :
    (entries size).toInt = size.toNat / 24 := by
  have hdiv : (size / 24).toNat = size.toNat / 24 := rfl
  rw [entries, BitVec.toInt_eq_toNat_of_lt, BitVec.toNat_setWidth, hdiv, Nat.mod_eq_of_lt (by omega)]
  · rfl
  · rw [BitVec.toNat_setWidth, hdiv]
    omega

section Entry

variable {ksymtab : KernelSymbols} {m m' : Memory 64} {fileBuffer fileSize shdrs base : BitVec 64}
variable {t : Tables}
variable (h : Settled m fileBuffer fileSize shdrs base (eShnum m fileBuffer).toNat m')
variable (ht : Table m fileBuffer fileSize shdrs) (hf : Found m fileBuffer shdrs t)
variable (hsymbols : Clear m fileBuffer fileSize t.symtab)
variable (hstrings : Clear m fileBuffer fileSize t.strtab)

include h ht hf hsymbols hstrings

theorem symbolValue_linked {rela : BitVec 64} {j : ℕ}
    (hfile : fileSize.toNat < 2 ^ 32)
    (hl : Linkable ksymtab m shdrs base t j rela) :
    stName m' (relaSymbol m t rela) = stName m (relaSymbol m t rela) ∧
      symbolValue ksymtab t m' (relaSymbol m t rela) =
        linkedSymbol ksymtab m base t (relaSymbol m t rela) := by
  have hindex := hl.index
  have hin := hsymbols.inFile
  obtain ⟨k, hname, hend⟩ := hl.name
  have hsym : relaSymbol m t rela = fileBuffer + shOffset m t.symtab +
      BitVec.ofNat 64 (24 * ((rInfo m rela >>> 32).setWidth 32 : BitVec 32).toNat) := by
    unfold relaSymbol
    dsimp only
    rw [hf.syms]
    generalize ((rInfo m rela >>> 32).setWidth 32 : BitVec 32) = idx at hindex ⊢
    have hsmall : idx.msb = false := by
      rw [BitVec.msb_eq_false_iff_two_mul_lt]
      omega
    rw [BitVec.signExtend_eq_setWidth_of_msb_false hsmall, BitVec.ofNat_mul, BitVec.ofNat_toNat]
    rfl
  generalize ((rInfo m rela >>> 32).setWidth 32 : BitVec 32).toNat = idx at hindex hsym
  have hfield {o k : ℕ} (hok : o + k ≤ 24) :
      load m' (relaSymbol m t rela + BitVec.ofNat 64 o) k =
        load m (relaSymbol m t rela + BitVec.ofNat 64 o) k := by
    rw [hsym, add_assoc, ← BitVec.ofNat_add]
    exact hsymbols.load_eq h ht (by omega)
  have hstName : stName m' (relaSymbol m t rela) = stName m (relaSymbol m t rela) :=
    hfield (o := 0) (k := 4) (by decide)
  have hstShndx : stShndx m' (relaSymbol m t rela) = stShndx m (relaSymbol m t rela) :=
    hfield (o := 6) (k := 2) (by decide)
  have hstValue : stValue m' (relaSymbol m t rela) = stValue m (relaSymbol m t rela) :=
    hfield (o := 8) (k := 8) (by decide)
  refine ⟨hstName, ?_⟩
  have hlookup : ksymLookup m' ksymtab
        (t.strings + (stName m (relaSymbol m t rela)).setWidth 64) =
      ksymLookup m ksymtab (t.strings + (stName m (relaSymbol m t rela)).setWidth 64) := by
    have hat (i : ℕ) : t.strings + (stName m (relaSymbol m t rela)).setWidth 64 +
        BitVec.ofNat 64 i = fileBuffer + shOffset m t.strtab +
          BitVec.ofNat 64 ((stName m (relaSymbol m t rela)).toNat + i) := by
      rw [hf.strings, BitVec.ofNat_add, BitVec.ofNat_toNat, add_assoc, add_assoc]
    refine ksymLookup_congr (k := k) ksymtab (fun i hi => ?_) ?_
    · rw [hat]
      exact hstrings.agree h ht (k := 1) (by omega) _ (inRange_self _ 1 (by decide))
    · rw [hat, ← hf.strings]
      exact hend
  unfold symbolValue linkedSymbol
  dsimp only
  rw [hstName, hstShndx, hstValue, hlookup, hf.ehdr_eq, hf.shdrs_eq, h.shnum ht]
  generalize stShndx m (relaSymbol m t rela) = shndx
  split
  · rfl
  split
  · rfl
  by_cases hlt : shndx.toNat < (eShnum m fileBuffer).toNat
  · by_cases halloc : IsAlloc m (shdr shdrs shndx.toNat)
    · rw [if_neg (not_or.mpr ⟨Nat.not_le_of_lt hlt, not_not.mpr ((h.isAlloc ht hlt).mpr halloc)⟩),
        if_neg (not_or.mpr ⟨Nat.not_le_of_lt hlt, not_not.mpr halloc⟩), h.addrs _ hlt halloc]
    · rw [if_pos (Or.inr ((h.isAlloc ht hlt).not.mpr halloc)), if_pos (Or.inr halloc)]
  · rw [if_pos (Or.inl (Nat.le_of_not_lt hlt)), if_pos (Or.inl (Nat.le_of_not_lt hlt))]

variable {j : ℕ} (hj : j < (eShnum m fileBuffer).toNat) (halloc : IsAlloc m (shdr shdrs j))

include hj halloc

-- load_module makes of an entry what the linker does.
theorem fixupAt_linked {rela : BitVec 64} (hfile : fileSize.toNat < 2 ^ 32)
    (hl : Linkable ksymtab m shdrs base t j rela) (hrela : Agree m m' rela 24) :
    fixupAt ksymtab t m' (shdr shdrs j) rela = linkedEntry ksymtab m base t j rela := by
  obtain ⟨hstName, hsymbol⟩ := symbolValue_linked h ht hf hsymbols hstrings hfile hl
  have hin := hsymbols.inFile
  have hindex := hl.index
  have hroom := hl.room
  obtain ⟨s, hs, hsymtab⟩ := hf.symtab
  obtain ⟨s', hs', hstrtab⟩ := hf.strtab
  have hinfo : rInfo m' rela = rInfo m rela := load_congr (hrela.inner (d := 8) (k := 8) (by decide))
  have hoffset : rOffset m' rela = rOffset m rela :=
    load_congr (hrela.inner (d := 0) (k := 8) (by decide))
  have haddend : rAddend m' rela = rAddend m rela :=
    load_congr (hrela.inner (d := 16) (k := 8) (by decide))
  have hsymbols' : shSize m' t.symtab = shSize m t.symtab := by rw [hsymtab, h.size ht hs]
  have hstrings' : shSize m' t.strtab = shSize m t.strtab := by rw [hstrtab, h.size ht hs']
  have hbelow : (entries (shSize m t.symtab)).sle ((rInfo m rela >>> 32).setWidth 32) = false := by
    have hentries := entries_toInt (shSize m t.symtab) (by omega)
    have hidx : ((rInfo m rela >>> 32).setWidth 32 : BitVec 32).toInt =
        ((rInfo m rela >>> 32).setWidth 32 : BitVec 32).toNat :=
      BitVec.toInt_eq_toNat_of_lt (by omega)
    rw [BitVec.sle_eq_decide, decide_eq_false_iff_not, hentries, hidx]
    omega
  obtain ⟨k, hname, -⟩ := hl.name
  have hnamed : ¬shSize m t.strtab ≤ (stName m (relaSymbol m t rela)).setWidth 64 := by
    have hlt := (shSize m t.strtab).isLt
    rw [BitVec.le_def, BitVec.toNat_setWidth, Nat.mod_eq_of_lt (by omega)]
    omega
  have hinside : ¬((rInfo m rela).setWidth 32 ≠ rX8664None ∧
      (rOffset m rela > shSize m (shdr shdrs j) ∨ patchSize ((rInfo m rela).setWidth 32) >
        shSize m (shdr shdrs j) - rOffset m rela)) := by
    rintro ⟨hnone, hout⟩
    have hfits := hroom hnone
    rcases hout with hout | hout
    · have hlt : (shSize m (shdr shdrs j)).toNat < (rOffset m rela).toNat := hout
      omega
    · have hle : rOffset m rela ≤ shSize m (shdr shdrs j) := BitVec.le_def.mpr (by omega)
      have hlt : (shSize m (shdr shdrs j) - rOffset m rela).toNat <
        (patchSize ((rInfo m rela).setWidth 32)).toNat := hout
      rw [BitVec.toNat_sub_of_le hle] at hlt
      omega
  have hsym (i : BitVec 32) (hi : i = (rInfo m rela >>> 32).setWidth 32) :
      t.syms + 24 * i.signExtend 64 = relaSymbol m t rela := by
    rw [hi]
    rfl
  unfold fixupAt linkedEntry
  dsimp only
  rw [hinfo, hoffset, haddend, hsymbols', hstrings', h.size ht hj, h.addrs j hj halloc,
    hf.shdrs_eq]
  rw [hbelow, if_neg (by decide), hsym _ rfl, hstName, if_neg hnamed, hsymbol]
  cases linkedSymbol ksymtab m base t (relaSymbol m t rela) with
  | none => rfl
  | some symVal =>
      dsimp only
      rw [if_neg hinside]

end Entry

section Run

variable {ksymtab : KernelSymbols} {m : Memory 64}
variable {fileBuffer fileSize shdrs base total : BitVec 64} {t : Tables} {w : Work}

-- The relocations so far are done: the work goes on with these fixups.
def Relocated (m : Memory 64) (fileBuffer fileSize shdrs base total : BitVec 64) (fs : List Fixup)
    (w : Work) (r : Except Work Work) : Prop :=
  ∃ w', r = .ok w' ∧ Linking m fileBuffer fileSize shdrs base total w' ∧ w'.mem = patched fs w.mem

variable (hwf : WellFormed ksymtab m fileBuffer fileSize shdrs base t)
variable (ht : Table m fileBuffer fileSize shdrs)
variable (hroom : Apart base total.toNat fileBuffer fileSize.toNat)
variable (hspans : ∀ j < (eShnum m fileBuffer).toNat, IsAlloc m (shdr shdrs j) →
  Spans base total (base + startOf m shdrs j) (shSize m (shdr shdrs j)).toNat)

include hwf ht hroom hspans

theorem relocate_linked (h : Linking m fileBuffer fileSize shdrs base total w) {j : ℕ}
    (hj : j < (eShnum m fileBuffer).toNat) (halloc : IsAlloc m (shdr shdrs j)) {rela : BitVec 64}
    (hl : Linkable ksymtab m shdrs base t j rela) (hrela : Agree m w.mem rela 24) :
    Relocated m fileBuffer fileSize shdrs base total
      (linkedEntry ksymtab m base t j rela).join.toList w
      (relocate ksymtab t (shdr shdrs j) rela w) := by
  have hlinking := relocate_linking ksymtab (t := t) ht hroom hspans h hj halloc rela
  have hfollows := relocate_fixup ksymtab t (shdr shdrs j) rela w
  rw [fixupAt_linked h.settled ht (findTables_found hwf.tables) hwf.symbols hwf.strings hj halloc
    hwf.size hl hrela] at hfollows
  have hfixed := hl.fixed
  cases hentry : linkedEntry ksymtab m base t j rela with
  | none => exact absurd hentry hfixed
  | some fix =>
      rw [hentry] at hfollows
      cases fix with
      | none =>
          rw [show relocate ksymtab t (shdr shdrs j) rela w = .ok w from hfollows]
          exact ⟨w, rfl, h, rfl⟩
      | some f =>
          obtain ⟨w', hrun, hf⟩ := hfollows
          rw [hrun] at hlinking ⊢
          exact ⟨w', rfl, hlinking, hf.mem⟩

theorem relocateTable_linked (h : Linking m fileBuffer fileSize shdrs base total w) {j : ℕ}
    (hj : j < (eShnum m fileBuffer).toNat) (halloc : IsAlloc m (shdr shdrs j)) {relas : BitVec 64}
    {n : ℕ} (hl : ∀ e < n, Linkable ksymtab m shdrs base t j (relas + 24 * BitVec.ofNat 64 e))
    (hrelas : ∀ m', Settled m fileBuffer fileSize shdrs base (eShnum m fileBuffer).toNat m' →
      ∀ e < n, Agree m m' (relas + 24 * BitVec.ofNat 64 e) 24) :
    Relocated m fileBuffer fileSize shdrs base total (tableFixups ksymtab m base t j relas n) w
      (relocateTable ksymtab t (shdr shdrs j) relas n w) := by
  induction n with
  | zero => exact ⟨w, rfl, h, rfl⟩
  | succ n ih =>
      obtain ⟨w1, hrun, hlinking, hmem⟩ :=
        ih (fun e he => hl e (by omega)) (fun m' hm' e he => hrelas m' hm' e (by omega))
      obtain ⟨w2, hrun2, hlinking2, hmem2⟩ := relocate_linked hwf ht hroom hspans hlinking hj halloc
        (hl n n.lt_succ_self) (hrelas _ hlinking.settled n n.lt_succ_self)
      refine ⟨w2, ?_, hlinking2, ?_⟩
      · rw [relocateTable, hrun]
        exact hrun2
      · rw [tableFixups, patched_append, hmem2, hmem]

theorem relocateSection_linked (h : Linking m fileBuffer fileSize shdrs base total w) {i : ℕ}
    (hi : i < (eShnum m fileBuffer).toNat) :
    Relocated m fileBuffer fileSize shdrs base total
      (sectionFixups ksymtab m fileBuffer base t (shdr shdrs i)) w
      (relocateSection ksymtab t fileBuffer fileSize (shdr shdrs i) w) := by
  have hf := findTables_found hwf.tables
  have hs := h.settled
  unfold relocateSection sectionFixups
  dsimp only
  rw [hs.type ht hi]
  by_cases htype : shType m (shdr shdrs i) ≠ shtRela
  · rw [if_pos htype, if_neg fun hand => htype hand.1]
    exact ⟨w, rfl, h, rfl⟩
  obtain ⟨hinfo, hclear, hwhole, hentries⟩ := hwf.relas i hi (not_not.mp htype)
  have hin := hclear.inFile
  have hsmall := hwf.size
  rw [if_neg htype, hf.ehdr_eq, hf.shdrs_eq, hs.shnum ht, hs.info ht hi, inFile_settled hs ht hi,
    hs.size ht hi, hs.offset ht hi, inFile_of_clear hclear]
  rw [if_neg (not_or.mpr ⟨Nat.not_le_of_lt hinfo, not_or.mpr ⟨by decide, not_not.mpr hwhole⟩⟩)]
  by_cases halloc : IsAlloc m (shdr shdrs (shInfo m (shdr shdrs i)).toNat)
  · have hcount := entries_toInt (shSize m (shdr shdrs i)) (by omega)
    rw [if_neg (not_not.mpr ((hs.isAlloc ht hinfo).mpr halloc)), if_pos ⟨not_not.mp htype, halloc⟩,
      hcount]
    refine relocateTable_linked hwf ht hroom hspans h hinfo halloc (hentries halloc)
      fun m' hm' e he => ?_
    have hentry : (24 : BitVec 64) * BitVec.ofNat 64 e = BitVec.ofNat 64 (24 * e) :=
      (BitVec.ofNat_mul 24 e).symm
    rw [hentry]
    exact hclear.agree hm' ht (by omega)
  · rw [if_pos ((hs.isAlloc ht hinfo).not.mpr halloc), if_neg fun hand => halloc hand.2]
    exact ⟨w, rfl, h, rfl⟩

theorem relocateSections_linked {i fuel : ℕ}
    (hi : i ≤ (eShnum m fileBuffer).toNat) (hfuel : (eShnum m fileBuffer).toNat ≤ fuel + i)
    {w0 : Work} (h : Linking m fileBuffer fileSize shdrs base total w)
    (hmem : w.mem = patched (fixups ksymtab m fileBuffer base t i) w0.mem) :
    Relocated m fileBuffer fileSize shdrs base total
      (fixups ksymtab m fileBuffer base t (eShnum m fileBuffer).toNat) w0
      (relocateSections ksymtab t fileBuffer fileSize fuel i w) := by
  have hf := findTables_found hwf.tables
  induction fuel generalizing i w with
  | zero =>
      obtain rfl : i = (eShnum m fileBuffer).toNat := by omega
      exact ⟨w, rfl, h, hmem⟩
  | succ fuel ih =>
      rw [relocateSections, hf.ehdr_eq, hf.shdrs_eq, h.settled.shnum ht]
      rcases Nat.lt_or_eq_of_le hi with hlt | rfl
      · obtain ⟨w1, hrun, hlinking, hmem1⟩ := relocateSection_linked hwf ht hroom hspans h hlt
        rw [if_pos hlt, hrun]
        refine ih hlt (by omega) hlinking ?_
        rw [hmem1, hmem, fixups, patched_append, hf.shdrs_eq]
      · rw [if_neg (Nat.lt_irrefl _)]
        exact ⟨w, rfl, h, hmem⟩

end Run

end Miyabi.Modules
