import Miyabi.Modules.Loader.Linked

namespace Miyabi.Modules

open Miyabi.Base Miyabi.Base.Memory Miyabi.Elf Miyabi.Fs Miyabi.Mm Miyabi.Mm.Heap

-- What a file says about the functions of its module.
section File

variable (m : Memory 64) (fileBuffer fileSize : BitVec 64) (t : Tables)

-- The number of symbols that the search looks at.
def symbolCount : ℕ := (entries (shSize m t.symtab)).toInt.toNat

-- The last of the first n symbols with a name.
def lastIn (str : CString) : ℕ → Option ℕ
  | 0 => none
  | n + 1 => if Names t str m n then some n else lastIn str n

def namedSymbol (str : CString) : Option ℕ := lastIn m t str (symbolCount m t)

def imageSize : BitVec 64 := offsetAt m t.shdrs (eShnum m t.ehdr).toNat

-- The section of symbol i.
def sectionOf (i : ℕ) : BitVec 64 := shdr t.shdrs (stShndx m (symbolAt t i)).toNat

-- It is in the image, and the symbol in it.
def InSection (i : ℕ) : Prop :=
  IsAlloc m (sectionOf m t i) ∧
    (stValue m (symbolAt t i)).toNat < (shSize m (sectionOf m t i)).toNat

-- Offset x of the image lies in one of its sections.
def InImage (x : BitVec 64) : Prop :=
  ∃ j < (eShnum m t.ehdr).toNat, IsAlloc m (shdr t.shdrs j) ∧
    InRange (startOf m t.shdrs j) (shSize m (shdr t.shdrs j)).toNat x

-- Where symbol i leads in an image at `base`. A section that is not SHF_ALLOC lies where
-- the file says.
def leadsTo (base : BitVec 64) (i : ℕ) : BitVec 64 :=
  (if IsAlloc m (sectionOf m t i) then startOf m t.shdrs (stShndx m (symbolAt t i)).toNat
    else shAddr m (sectionOf m t i) - base) + stValue m (symbolAt t i)

-- The symbols that the search compares have names that end in the string table, and what
-- it reads of the file is not written before.
structure Legible : Prop where
  headers : 64 ≤ (eShoff m fileBuffer).toNat
  sums : NoWrap m t.shdrs (eShnum m fileBuffer).toNat
  tables : findTables fileBuffer fileSize m fileBuffer (fileBuffer + eShoff m fileBuffer) = some t
  symbols : Clear m fileBuffer fileSize t.symtab
  strings : Clear m fileBuffer fileSize t.strtab
  names : ∀ i < symbolCount m t, stShndx m (symbolAt t i) ≠ shnUndef →
    stShndx m (symbolAt t i) ≠ shnAbs →
    (stShndx m (symbolAt t i)).toNat < (eShnum m fileBuffer).toNat →
    ∃ k, (stName m (symbolAt t i)).toNat + k < (shSize m t.strtab).toNat ∧
      m (t.strings + BitVec.ofNat 64 ((stName m (symbolAt t i)).toNat + k)) = 0

end File

-- The counter of the search counts no symbol behind the table.
theorem entries_le (size : BitVec 64) : (entries size).toInt.toNat ≤ size.toNat / 24 := by
  have hdiv : (size / 24).toNat = size.toNat / 24 := rfl
  have hle : (entries size).toNat ≤ size.toNat / 24 := by
    rw [entries, BitVec.toNat_setWidth, hdiv]
    exact Nat.mod_le _ _
  rw [BitVec.toInt_eq_toNat_cond]
  split <;> omega

section Search

variable {m m' : Memory 64} {fileBuffer fileSize base total : BitVec 64} {t : Tables} {w : Work}

section Reads

variable (h : Settled m fileBuffer fileSize t.shdrs base (eShnum m fileBuffer).toNat m')
variable (ht : Table m fileBuffer fileSize t.shdrs) (hl : Legible m fileBuffer fileSize t)

include h ht hl

theorem symbol_agree {i : ℕ} (hi : i < symbolCount m t) : Agree m m' (symbolAt t i) 24 := by
  have hcount := entries_le (shSize m t.symtab)
  have hlt : i < (entries (shSize m t.symtab)).toInt.toNat := hi
  have hagree := hl.symbols.agree h ht (d := 24 * i) (k := 24) (by omega)
  rw [BitVec.ofNat_mul] at hagree
  rw [symbolAt, (findTables_found hl.tables).syms]
  exact hagree

theorem symbolCount_settled : (entries (shSize m' t.symtab)).toInt.toNat = symbolCount m t := by
  obtain ⟨j, hj, hsymtab⟩ := (findTables_found hl.tables).symtab
  have hshdrs := (findTables_found hl.tables).shdrs_eq
  rw [← hshdrs] at hsymtab
  rw [symbolCount, hsymtab, h.size ht hj]

theorem names_settled {i : ℕ} (hi : i < symbolCount m t) (str : CString) :
    Names t str m' i ↔ Names t str m i := by
  have hfound := findTables_found hl.tables
  have hagree := symbol_agree h ht hl hi
  have hname : stName m' (symbolAt t i) = stName m (symbolAt t i) :=
    load_congr (hagree.inner (d := 0) (k := 4) (by decide))
  have hshndx : stShndx m' (symbolAt t i) = stShndx m (symbolAt t i) :=
    load_congr (hagree.inner (d := 6) (k := 2) (by decide))
  unfold Names
  rw [hname, hshndx, hfound.ehdr_eq, h.shnum ht]
  refine and_congr_right fun hdefined => ?_
  obtain ⟨hundef, habs, hbelow⟩ := not_or.mp hdefined |>.imp_right not_or.mp
  obtain ⟨k, hk, hend⟩ := hl.names i hi hundef habs (Nat.lt_of_not_le hbelow)
  have hat (d : ℕ) : t.strings + (stName m (symbolAt t i)).setWidth 64 + BitVec.ofNat 64 d =
      fileBuffer + shOffset m t.strtab +
        BitVec.ofNat 64 ((stName m (symbolAt t i)).toNat + d) := by
    rw [hfound.strings, BitVec.ofNat_add, BitVec.ofNat_toNat, add_assoc, add_assoc]
  have hsame : matchesAt m' str (t.strings + (stName m (symbolAt t i)).setWidth 64) =
      matchesAt m str (t.strings + (stName m (symbolAt t i)).setWidth 64) := by
    refine matchesAt_congr (k := k) str (fun d hd => ?_) ?_
    · rw [hat]
      exact hl.strings.agree h ht (k := 1) (by omega) _ (inRange_self _ 1 (by decide))
    · rw [hat, ← hfound.strings]
      exact hend
  rw [hsame]

-- The function of a symbol that the search has picked.
theorem entryAddr_settled {i : ℕ} (hi : i < symbolCount m t) {str : CString}
    (hnames : Names t str m i) : entryAddr t m' i = base + leadsTo m t base i := by
  have hfound := findTables_found hl.tables
  have hagree := symbol_agree h ht hl hi
  have hshndx : stShndx m' (symbolAt t i) = stShndx m (symbolAt t i) :=
    load_congr (hagree.inner (d := 6) (k := 2) (by decide))
  have hvalue : stValue m' (symbolAt t i) = stValue m (symbolAt t i) :=
    load_congr (hagree.inner (d := 8) (k := 8) (by decide))
  have hbelow : (stShndx m (symbolAt t i)).toNat < (eShnum m fileBuffer).toNat := by
    have hnot := hnames.1
    rw [hfound.ehdr_eq] at hnot
    exact Nat.lt_of_not_le fun hle => hnot (Or.inr (Or.inr hle))
  rw [entryAddr, sectionAddr, hshndx, hvalue, leadsTo, sectionOf]
  split
  · rename_i halloc
    rw [h.addrs _ hbelow halloc]
    ring
  · rename_i hskip
    rw [h.addr_skipped ht hbelow hskip]
    ring

end Reads

theorem lastIn_lt {str : CString} {n i : ℕ} (h : lastIn m t str n = some i) :
    i < n ∧ Names t str m i := by
  induction n with
  | zero => cases h
  | succ n ih =>
      rw [lastIn] at h
      split at h
      · rename_i hnames
        cases h
        exact ⟨Nat.lt_succ_self _, hnames⟩
      · exact ⟨Nat.lt_succ_of_lt (ih h).1, (ih h).2⟩

-- While the turns of the search see the same names, it picks the last symbol of the file.
theorem lastNamed_eq {mod : BitVec 64} {str : CString} {n : ℕ}
    (h : ∀ i < n, Names t str (scanSymbols t mod i w).mem i ↔ Names t str m i) :
    lastNamed t mod str w n = lastIn m t str n := by
  induction n with
  | zero => rfl
  | succ n ih =>
      rw [lastNamed, lastIn, ih fun i hi => h i (Nat.lt_succ_of_lt hi)]
      exact if_congr (h n n.lt_succ_self) rfl rfl

theorem inside_layout (hl : NoWrap m t.shdrs (eShnum m t.ehdr).toNat)
    (hplaced : w.placed = layout m t.shdrs base (eShnum m t.ehdr).toNat) (x : BitVec 64) :
    Inside w base (imageSize m t) (base + x) ↔ InImage m t x := by
  have hrange (start : BitVec 64) (k : ℕ) : InRange (base + start) k (base + x) ↔ InRange start k x := by
    rw [InRange, InRange, add_sub_add_left_eq_sub]
  unfold Inside InImage
  rw [hplaced]
  constructor
  · rintro ⟨⟨p, hp, hin⟩, -⟩
    obtain ⟨j, hj, halloc, rfl⟩ := mem_layout.mp hp
    exact ⟨j, hj, halloc, (hrange _ _).mp hin⟩
  · rintro ⟨j, hj, halloc, hin⟩
    have hspan : Spans base (imageSize m t) (base + startOf m t.shdrs j)
        (shSize m (shdr t.shdrs j)).toNat := spans_start.mpr (hl.inside hj halloc)
    have hplace := (hrange _ _).mpr hin
    exact ⟨⟨_, mem_layout.mpr ⟨j, hj, halloc, rfl⟩, hplace⟩, hspan.inRange hplace⟩

theorem InSection.inImage {str : CString} {i : ℕ} (h : InSection m t i) (hnames : Names t str m i)
    (base : BitVec 64) : InImage m t (leadsTo m t base i) := by
  have hbelow := Nat.lt_of_not_le fun hle => hnames.1 (Or.inr (Or.inr hle))
  refine ⟨_, hbelow, h.1, ?_⟩
  rw [leadsTo, if_pos h.1, InRange, add_sub_cancel_left]
  exact h.2

end Search

section Prepared

variable {ksymtab : KernelSymbols} {fileBuffer fileSize shdrs total base mod : BitVec 64}
variable {system system1 system2 : Heap.System} {bs : List Block} {t t' : Tables} {w1 : Work}
variable (htidy : Tidy system bs) (hfile : Buffer system fileBuffer fileSize)
variable (hl : Legible system.mem fileBuffer fileSize t)
variable (hroom : system.heap.heapEnd.toNat + pagesFor (imageSize system.mem t) + 4096 < 2 ^ 64)
variable (himage : Imaged fileBuffer fileSize system shdrs total base system1)

include hl himage

theorem imaged_total : shdrs = t.shdrs ∧ total = imageSize system.mem t := by
  have hfound := findTables_found hl.tables
  have hshdrs : shdrs = t.shdrs := himage.shdrs_eq.trans hfound.shdrs_eq.symm
  refine ⟨hshdrs, ?_⟩
  rw [himage.total_offsetAt.1, imageSize, hshdrs, hfound.ehdr_eq]

include htidy hfile hroom

-- The heap serves the image and the record, and the work stays in the file and the image.
theorem inBounds_of_legible : Permitted system (.kmalloc total) ∧
    InBounds ksymtab fileBuffer fileSize system := by
  obtain ⟨hshdrs, htotal⟩ := imaged_total hl himage
  rw [← htotal] at hroom
  have himaged : HasRoom system (.kmalloc total) := Or.inr (Or.inr (by omega))
  have hpermitted := himaged.permitted htidy
  have hend := (System.kmalloc_heapEnd hpermitted.1 (by omega) himage.image).2
  have hrecord (w : Work) : Permitted (system1.setMem w.mem) (.kmalloc moduleSize) := by
    have hpages : pagesFor moduleSize = 4096 := rfl
    refine permitted_of_end ⟨by decide, by decide⟩ ?_
    rw [show (system1.setMem w.mem).heap.heapEnd = system1.heap.heapEnd from rfl]
    omega
  refine ⟨hpermitted, ?_⟩
  exact inBounds_of_noWrap ksymtab fileBuffer fileSize system shdrs total base system1 bs htidy hfile
    hpermitted himage (himage.spares hl.headers) (hshdrs ▸ hl.sums) fun _ w _ _ => hrecord w

-- When the search begins, the sections lie as the file says, and the file is as it was
-- but for the addresses.
theorem search_settled
    (hlinked : Linked ksymtab fileBuffer fileSize shdrs system1
      (placedWork fileBuffer shdrs base system1) t' w1 mod system2) :
    t' = t ∧ w1.placed = layout system.mem t.shdrs base (eShnum system.mem fileBuffer).toNat ∧
      ∀ m', KeepsOutside system2.mem m' mod 96 →
        Settled system.mem fileBuffer fileSize t.shdrs base (eShnum system.mem fileBuffer).toNat m' := by
  obtain ⟨hshdrs, -⟩ := imaged_total hl himage
  obtain ⟨hpermitted, hbounds⟩ :
      Permitted system (.kmalloc total) ∧ InBounds ksymtab fileBuffer fileSize system :=
    inBounds_of_legible htidy hfile hl hroom himage
  subst hshdrs
  have ht := himage.table (himage.spares hl.headers)
  obtain ⟨hagree, happart⟩ := image_room htidy hfile hpermitted himage
  have htotal := himage.total_offsetAt.1
  have hlt := (eShnum system.mem fileBuffer).isLt
  have hspans : ∀ j < (eShnum system.mem fileBuffer).toNat, IsAlloc system.mem (shdr t.shdrs j) →
      Spans base total (base + startOf system.mem t.shdrs j)
        (shSize system.mem (shdr t.shdrs j)).toNat := by
    intro j hj halloc
    rw [htotal]
    exact spans_start.mpr (hl.sums.inside hj halloc)
  have hstart : Settled system.mem fileBuffer fileSize t.shdrs base 0
    (⟨system1.mem, [], [], []⟩ : Work).mem := settled_start hagree
  obtain ⟨-, hsettled, hplaced⟩ := placeSections_settled (2 ^ 16) ht happart hspans (Nat.zero_le _)
    (by omega) hstart rfl
  have hbounded := placeSections_bounded (2 ^ 16) ht happart hspans (Nat.zero_le _) hstart
    fun s hs => by cases hs
  have htables : findTables fileBuffer fileSize (placedWork fileBuffer t.shdrs base system1).mem
      fileBuffer t.shdrs = some t := by
    rw [show findTables fileBuffer fileSize (placedWork fileBuffer t.shdrs base system1).mem
      fileBuffer t.shdrs = _ from findTables_settled hsettled ht, himage.shdrs_eq]
    exact hl.tables
  obtain rfl := Option.some.inj (hlinked.tables.symm.trans htables)
  have hrelocated := hlinked.relocated
  have hfound := findTables_found hl.tables
  have hbegun : Linking system.mem fileBuffer fileSize t'.shdrs base total
    (placedWork fileBuffer t'.shdrs base system1) := ⟨hsettled, hbounded⟩
  obtain ⟨hlinking, -⟩ := relocateSections_linking ksymtab ht happart hspans hfound.ehdr_eq rfl
    hbegun (2 ^ 16) 0
  rw [hrelocated] at hlinking
  have hkept := keeps_placed.relocateSections ksymtab t' fileBuffer fileSize (2 ^ 16) 0
    (placedWork fileBuffer t'.shdrs base system1)
  rw [hrelocated] at hkept
  refine ⟨rfl, hkept.trans hplaced, fun m' hkeep => ?_⟩
  -- The record is apart from the file.
  obtain ⟨bs1, -, hwork⟩ := work_tidy hbounds htidy himage
  have htidy1 := hwork _ (relocated_traced t') (hbounds.relocated _ _ _ _ t' himage htables)
  rw [hrelocated] at htidy1
  have hbuffer : Buffer (system1.setMem w1.mem) fileBuffer fileSize := by
    rcases hfile with ⟨a, ha, he⟩ | hlow
    · refine Or.inl ⟨a, ?_, he⟩
      rw [show (system1.setMem w1.mem).live = system1.live from rfl, image_live himage]
      exact List.mem_cons_of_mem _ ha
    · exact Or.inr hlow
  obtain ⟨hsame, hrecord⟩ := hbuffer.spared htidy1
    (hbounds.record _ _ _ _ t' w1 himage htables hrelocated) hlinked.record hlinked.record_ne
  refine hlinking.settled.outside ht le_rfl fun x hx => ?_
  rw [hkeep.agree hrecord.symm x hx]
  exact hsame x hx

end Prepared

-- module_init, if it is called, and module_cleanup, if there is one, lie in a section of
-- the image.
structure FunctionsInside (l : Loaded) (base total : BitVec 64) (before : Heap.System) (w : Work) :
    Prop where
  init : ∀ a ∈ l.called, Inside w base total a
  cleanup : before.mem.load64 (l.mod + 88) ≠ 0 →
    Inside w base total (before.mem.load64 (l.mod + 88))

-- load_module calls what the record has at 80, unless it is NULL.
theorem functionsInside_iff {l : Loaded} {base total : BitVec 64} {before : Heap.System} {w : Work}
    (hcalled : l.called =
      if before.mem.load64 (l.mod + 80) = 0 then [] else [before.mem.load64 (l.mod + 80)]) :
    FunctionsInside l base total before w ↔
      (before.mem.load64 (l.mod + 80) ≠ 0 → Inside w base total (before.mem.load64 (l.mod + 80))) ∧
        (before.mem.load64 (l.mod + 88) ≠ 0 → Inside w base total (before.mem.load64 (l.mod + 88))) := by
  constructor
  · intro h
    refine ⟨fun hne => h.init _ ?_, h.cleanup⟩
    rw [hcalled, if_neg hne]
    exact List.mem_cons_self
  · rintro ⟨hinit, hcleanup⟩
    refine ⟨fun a ha => ?_, hcleanup⟩
    rw [hcalled] at ha
    split at ha
    · cases ha
    · rename_i hne
      rw [List.mem_singleton.mp ha]
      exact hinit hne

section Accepted

variable (ksymtab : KernelSymbols) (name fileBuffer fileSize : BitVec 64)
variable (call : BitVec 64 → Heap.System → Option Heap.System) (system : Heap.System) (l : Loaded)
variable (bs : List Block) (t : Tables)

-- The functions of an accepted module lie in its image if the last symbol of each name lies
-- in an SHF_ALLOC section, and else only if it leads into another one by chance: the search
-- looks at neither the flags of the section nor at st_value.
theorem functions_inside_iff
    (h : loadModule ksymtab name fileBuffer fileSize call system = some l) (hmod : l.mod ≠ 0)
    (htidy : Tidy system bs) (hfile : Buffer system fileBuffer fileSize)
    (hl : Legible system.mem fileBuffer fileSize t)
    (hroom : system.heap.heapEnd.toNat + pagesFor (imageSize system.mem t) + 4096 < 2 ^ 64) :
    ∃ base before w, prepareModule ksymtab name fileBuffer fileSize system =
        some (.ready l.mod base (imageSize system.mem t) before w) ∧
      ((∀ str ∈ [moduleInit, moduleCleanup], ∀ i, namedSymbol system.mem t str = some i →
          InSection system.mem t i) →
        FunctionsInside l base (imageSize system.mem t) before w) ∧
      (FunctionsInside l base (imageSize system.mem t) before w ↔
        ∀ str ∈ [moduleInit, moduleCleanup], ∀ i, namedSymbol system.mem t str = some i →
          ∀ b, Serves system.heap (imageSize system.mem t) b →
            b + headerSize + leadsTo system.mem t (b + headerSize) i ≠ 0 →
              InImage system.mem t (leadsTo system.mem t (b + headerSize) i)) := by
  obtain ⟨base, total, before, w, hp⟩ := loadModule_accepted h hmod
  have hcalled := loadModule_called h hp
  obtain ⟨shdrs, system1, t', w1, system2, himage, hlinked, hw, hbefore⟩ := prepareModule_ready hp
  obtain ⟨rfl, rfl⟩ := imaged_total hl himage
  obtain ⟨b, hserves, hbase⟩ := kmalloc_serves himage.image himage.image_ne
  have ht := himage.table (himage.spares hl.headers)
  have hehdr := (findTables_found hl.tables).ehdr_eq
  obtain ⟨rfl, hplaced, hsearch⟩ := search_settled htidy hfile hl hroom himage hlinked
  have hmem : before.mem = w.mem := by
    rw [hbefore]
    rfl
  obtain ⟨w0, hw0⟩ : ∃ w0, w0 = recordModule name l.mod base (imageSize system.mem t')
    { w1 with mem := system2.mem } := ⟨_, rfl⟩
  have hsettled (n : ℕ) : Settled system.mem fileBuffer fileSize t'.shdrs base
      (eShnum system.mem fileBuffer).toNat (scanSymbols t' l.mod n w0).mem := by
    rw [hw0]
    exact hsearch _ (searched_keeps t' l.mod name base _ n { w1 with mem := system2.mem })
  have hcount := symbolCount_settled (hsettled 0) ht hl
  have hscan : w = scanSymbols t' l.mod (symbolCount system.mem t') w0 := by
    rw [hw, ← hcount, hw0]
    rfl
  have hplaced0 : w0.placed = layout system.mem t'.shdrs base (eShnum system.mem t'.ehdr).toNat := by
    have hkept := keeps_placed.fillModule t' name l.mod base (imageSize system.mem t')
      { w1 with mem := system2.mem }
    rw [← hw, hscan] at hkept
    rw [hehdr, ← hplaced]
    exact (keeps_placed.scanSymbols t' l.mod _ w0).symm.trans hkept
  have hinside := inside_layout (w := w0) (hehdr ▸ hl.sums) hplaced0
  -- What the search stores in a field is what the last symbol of the file says.
  have hfield (str : CString) (field : BitVec 64)
      (hstep : ∀ i w, (scanSymbol t' l.mod i w).mem.load64 field =
        if Names t' str w.mem i then entryAddr t' w.mem i else w.mem.load64 field)
      (hzero : w0.mem.load64 field = 0) :
      (w.mem.load64 field ≠ 0 → Inside w base (imageSize system.mem t') (w.mem.load64 field)) ↔
        ∀ i, namedSymbol system.mem t' str = some i → base + leadsTo system.mem t' base i ≠ 0 →
          InImage system.mem t' (leadsTo system.mem t' base i) := by
    have hiff := field_inside_iff base (imageSize system.mem t') (symbolCount system.mem t') w0 hstep
      hzero
    rw [← hscan, lastNamed_eq fun i hi => names_settled (hsettled i) ht hl hi str] at hiff
    rw [hiff]
    refine forall_congr' fun i => forall_congr' fun hi => ?_
    obtain ⟨hlt, hnames⟩ := lastIn_lt hi
    rw [entryAddr_settled (hsettled i) ht hl hlt hnames, hinside]
  have hinit := hfield moduleInit (l.mod + 80) (scanSymbol_init (t := t'))
    (hw0 ▸ recordModule_init name base _ _)
  have hcleanup := hfield moduleCleanup (l.mod + 88) (scanSymbol_cleanup (t := t'))
    (hw0 ▸ recordModule_cleanup name base _ _)
  have hexact : FunctionsInside l base (imageSize system.mem t') before w ↔
      ∀ str ∈ [moduleInit, moduleCleanup], ∀ i, namedSymbol system.mem t' str = some i →
        base + leadsTo system.mem t' base i ≠ 0 →
          InImage system.mem t' (leadsTo system.mem t' base i) := by
    rw [List.forall_mem_cons, List.forall_mem_singleton, ← hinit, ← hcleanup,
      functionsInside_iff hcalled, hmem]
  refine ⟨base, before, w, hp, fun hall => hexact.mpr fun str hstr i hi _ => ?_, hexact.trans ?_⟩
  · exact (hall str hstr i hi).inImage (lastIn_lt hi).2 base
  · constructor
    · intro hall str hstr i hi c hc
      rw [hc.unique hserves, ← hbase]
      exact hall str hstr i hi
    · intro hall str hstr i hi
      rw [hbase]
      exact hall str hstr i hi b hserves

end Accepted

-- A module of 395 bytes: ELF header; section headers at 64 (none, .bss of 8 bytes, symbols
-- at 320, strings at 368). Symbol 0 is module_init at 0 of .bss, symbol 1 module_cleanup at
-- 4 of .bss.
def functionsMemory : Memory 64 :=
  let m : Memory 64 := fun _ => 0
  let m := m.store64 sampleFile 0x00000002464C457F
  let m := m.store32 (sampleFile + 16) 0x003E0001
  let m := m.store64 (sampleFile + 40) 64
  let m := m.store32 (sampleFile + 58) 0x00040040
  let m := m.store32 (sampleFile + 132) 8
  let m := m.store64 (sampleFile + 136) 2
  let m := m.store64 (sampleFile + 160) 8
  let m := m.store64 (sampleFile + 176) 8
  let m := m.store32 (sampleFile + 196) 2
  let m := m.store64 (sampleFile + 216) 320
  let m := m.store64 (sampleFile + 224) 48
  let m := m.store32 (sampleFile + 232) 3
  let m := m.store32 (sampleFile + 260) 3
  let m := m.store64 (sampleFile + 280) 368
  let m := m.store64 (sampleFile + 288) 27
  let m := m.store16 (sampleFile + 326) 1
  let m := m.store32 (sampleFile + 344) 12
  let m := m.store16 (sampleFile + 350) 1
  let m := m.store64 (sampleFile + 352) 4
  let m := m.store64 (sampleFile + 368) 0x695F656C75646F6D
  let m := m.store64 (sampleFile + 376) 0x75646F6D0074696E
  let m := m.store64 (sampleFile + 384) 0x6E61656C635F656C
  m.store16 (sampleFile + 392) 0x7075

def functionsTables : Tables :=
  ⟨sampleFile, sampleShdrs, sampleShdrs + 128, sampleShdrs + 192, sampleFile + 320, sampleFile + 368⟩

def functionsSystem (s0 : Heap.System) : Heap.System :=
  ⟨{ s0.heap with mem := carved (firstHeader functionsMemory) heapStart (alignUp 8 16) },
    [⟨sampleImage, 8⟩]⟩

def functionsPlaced : Work :=
  (placeSections sampleFile sampleShdrs sampleFile sampleImage (2 ^ 16) 0 0
    ⟨carved (firstHeader functionsMemory) heapStart (alignUp 8 16), [], [], []⟩).2

def functionsLinked : Work :=
  resultOf (relocateSections [] functionsTables sampleFile 395 (2 ^ 16) 0 functionsPlaced)

def functionsWork : Work :=
  fillModule functionsTables sampleName sampleMod sampleImage 8
    { functionsLinked with mem := carved functionsLinked.mem (heapStart + 40) (alignUp moduleSize 16) }

section Sample

variable {frames : FrameSupply} {s0 : Heap.System}

instance (m : Memory 64) (t : Tables) (i : ℕ) : Decidable (InSection m t i) :=
  inferInstanceAs (Decidable (_ ∧ _))

theorem functions_imaged (hb : boot functionsMemory frames = some s0) :
    Imaged sampleFile 395 s0 sampleShdrs 8 sampleImage (functionsSystem s0) := by
  have hvalid : elfValidate (firstHeader functionsMemory) sampleFile 395 = true := by decide +kernel
  have hshdrs : sampleFile + eShoff (firstHeader functionsMemory) sampleFile = sampleShdrs := by
    decide +kernel
  have htotal : totalMemorySize sampleFile sampleShdrs 395 (firstHeader functionsMemory) (2 ^ 16) 0
      0 = some 8 := by decide +kernel
  have himage := first_imaged hb hvalid (hshdrs.symm ▸ htotal) (by decide) (by decide)
  rw [hshdrs] at himage
  exact himage

theorem functions_placedWork (s0 : Heap.System) :
    placedWork sampleFile sampleShdrs sampleImage (functionsSystem s0) = functionsPlaced := by
  unfold placedWork functionsPlaced functionsSystem
  rfl

theorem functions_relocated :
    relocateSections [] functionsTables sampleFile 395 (2 ^ 16) 0 functionsPlaced =
      .ok functionsLinked := by
  have hok : (relocateSections [] functionsTables sampleFile 395 (2 ^ 16) 0 functionsPlaced).isOk =
      true := by decide +kernel
  unfold functionsLinked
  cases h : relocateSections [] functionsTables sampleFile 395 (2 ^ 16) 0 functionsPlaced with
  | error w =>
      rw [h] at hok
      cases hok
  | ok w => rfl

theorem functions_loaded (hb : boot functionsMemory frames = some s0) :
    ∃ before, prepareModule [] sampleName sampleFile 395 s0 =
        some (.ready sampleMod sampleImage 8 before functionsWork) ∧
      loadModule [] sampleName sampleFile 395 (fun _ s => some s) s0 =
        some ⟨sampleMod, before, [sampleImage]⟩ := by
  obtain ⟨-, hhead, -, -⟩ := boot_state hb
  have htables : findTables sampleFile 395 functionsPlaced.mem sampleFile sampleShdrs =
      some functionsTables := by decide +kernel
  have hhead : (functionsSystem s0).heap.head = heapStart := hhead
  have hfound : findFit functionsLinked.mem (alignUp moduleSize 16) (2 ^ 64)
      (functionsSystem s0).heap.head 0 = some (heapStart + 40, heapStart) := by
    rw [hhead]
    decide +kernel
  have hinit : functionsWork.mem.load64 (sampleMod + 80) = sampleImage := by decide +kernel
  have hrelocated := functions_relocated
  rw [← functions_placedWork s0] at htables hrelocated
  have hname : sampleName ≠ 0 := by decide
  have hfile : sampleFile ≠ 0 := by decide
  have hz : heapStart + 40 ≠ 0 := by decide
  have hmod : heapStart + 40 + headerSize ≠ 0 := by decide
  obtain ⟨before, hp, hmem⟩ := prepareModule_found hname hfile (functions_imaged hb) htables
    hrelocated hfound hz hmod
  have hp : prepareModule [] sampleName sampleFile 395 s0 =
      some (.ready sampleMod sampleImage 8 before functionsWork) := hp
  have hmem : before.mem = functionsWork.mem := hmem
  have hne : sampleImage ≠ 0 := by decide
  refine ⟨before, hp, ?_⟩
  unfold loadModule
  rw [hp]
  dsimp only
  rw [hmem, hinit, if_neg hne]

theorem functions_legible :
    Legible (firstHeader functionsMemory) sampleFile 395 functionsTables where
  headers := by decide +kernel
  sums := by decide +kernel
  tables := by decide +kernel
  symbols := ⟨by decide +kernel, by decide +kernel⟩
  strings := ⟨by decide +kernel, by decide +kernel⟩
  names := by
    have hcount : symbolCount (firstHeader functionsMemory) functionsTables = 2 := by decide +kernel
    intro i hi _ _ _
    rw [hcount] at hi
    obtain rfl | rfl : i = 0 ∨ i = 1 := by omega
    · exact ⟨11, by decide +kernel, by decide +kernel⟩
    · exact ⟨14, by decide +kernel, by decide +kernel⟩

theorem functions_named : ∀ str ∈ [moduleInit, moduleCleanup], ∀ i,
    namedSymbol (firstHeader functionsMemory) functionsTables str = some i →
      InSection (firstHeader functionsMemory) functionsTables i := by
  have hinit : namedSymbol (firstHeader functionsMemory) functionsTables moduleInit = some 0 := by
    decide +kernel
  have hcleanup : namedSymbol (firstHeader functionsMemory) functionsTables moduleCleanup = some 1 := by
    decide +kernel
  have hinside : InSection (firstHeader functionsMemory) functionsTables 0 ∧
    InSection (firstHeader functionsMemory) functionsTables 1 := by decide +kernel
  rw [List.forall_mem_cons, List.forall_mem_singleton]
  constructor
  · intro i hi
    cases hinit.symm.trans hi
    exact hinside.1
  · intro i hi
    cases hcleanup.symm.trans hi
    exact hinside.2

end Sample

theorem functions_inside_sample :
    ∃ s0 l before w, boot functionsMemory sampleFrames = some s0 ∧
      loadModule [] sampleName sampleFile 395 (fun _ s => some s) s0 = some l ∧
      l.called = [sampleImage] ∧
      prepareModule [] sampleName sampleFile 395 s0 =
        some (.ready l.mod sampleImage 8 before w) ∧ FunctionsInside l sampleImage 8 before w := by
  obtain ⟨s0, hb, -⟩ := boot_invariant functionsMemory sampleFrames sampleFrames_ne
  obtain ⟨hm, -, hend, -⟩ := boot_state hb
  have hmem : s0.mem = firstHeader functionsMemory := hm
  have hsize : imageSize (firstHeader functionsMemory) functionsTables = 8 := by decide +kernel
  obtain ⟨before, hp, hloaded⟩ := functions_loaded hb
  obtain ⟨base, before', w, hp', henough, -⟩ := functions_inside_iff [] sampleName sampleFile 395
    (fun _ s => some s) s0 _ _ functionsTables hloaded sampleMod_ne (boot_returned hb).1
    (Or.inr (by decide)) (hmem ▸ functions_legible) (by rw [hend, hmem, hsize]; decide)
  rw [hmem, hsize] at hp' henough
  cases hp.symm.trans hp'
  exact ⟨s0, _, before, functionsWork, hb, hloaded, rfl, hp, henough functions_named⟩

-- module_init of a section without SHF_ALLOC: load_module calls 0x1234.
theorem init_outside :
    ∃ s0 l moduleMemory total system' w, boot sampleMemory sampleFrames = some s0 ∧
      loadModule [] sampleName sampleFile 404 (fun _ s => some s) s0 = some l ∧ l.mod ≠ 0 ∧
      prepareModule [] sampleName sampleFile 404 s0 =
        some (.ready l.mod moduleMemory total system' w) ∧
      ∃ a ∈ l.called, a = 0x1234 ∧ ¬Inside w moduleMemory total a := by
  obtain ⟨s0, hb, -⟩ := boot_invariant sampleMemory sampleFrames sampleFrames_ne
  refine ⟨s0, _, _, _, _, _, hb, sample_loaded hb, sampleMod_ne, sample_prepared hb, _,
    List.mem_cons_self, rfl, ?_⟩
  rintro ⟨-, himage⟩
  exact absurd himage (by decide)

end Miyabi.Modules
