import Miyabi.Elf.Loader.Shows
import Miyabi.Mm.Boot.Supply
import Miyabi.Mm.Vmm.Writes

namespace Miyabi.Elf.Loader

open Miyabi.Base Miyabi.Base.Memory Miyabi.Base.TableTree Miyabi.Mm Miyabi.Mm.Vmm

section Loaded

variable {σ : Type}

-- The memory of the state shows the image, and the next results of pmm_alloc are the
-- fresh frames l.
structure Loaded (alloc : Memory 64 → σ → BitVec 64 × Memory 64 × σ) (R : Set (BitVec 64))
    (elfBinary : BitVec 64) (size : ℕ) (hhdm root : BitVec 64) (file : Memory 64)
    (l : List (BitVec 64)) (image : Image) (s : State σ) : Prop where
  offset : s.hhdmOffset = hhdm
  pml4 : s.pml4 = root + hhdm
  nonzero : ∀ p ∈ l, p ≠ 0
  upcoming : Upcoming alloc R s.mem s.frames l
  shows : Shows R elfBinary size hhdm root file l image s.mem

end Loaded

-- The image after the first n pages of a segment.
def recordFirst (image : Image) (seg : Segment) (n : ℕ) : Image := fun page =>
  if seg.vaddr.toNat / 4096 ≤ page.toNat ∧ page.toNat < seg.vaddr.toNat / 4096 + n then some seg
  else image page

section Pages

variable {σ : Type} {alloc : Memory 64 → σ → BitVec 64 × Memory 64 × σ} {R : Set (BitVec 64)}
variable {elfBinary phdr : BitVec 64} {size : ℕ} {hhdm root : BitVec 64} {file : Memory 64}
variable {image : Image} {seg : Segment} {s s' : State σ} {l rest new : List (BitVec 64)}

theorem recordFirst_succ (image : Image) (seg : Segment) {n : ℕ} {page : BitVec 36}
    (hpage : page.toNat = seg.vaddr.toNat / 4096 + n) :
    showPage (recordFirst image seg n) seg page = recordFirst image seg (n + 1) := by
  funext q
  unfold showPage recordFirst
  by_cases hq : q = page
  · rw [if_pos hq, if_pos (by rw [hq]; omega)]
  · have hne : q.toNat ≠ page.toNat := fun he => hq (BitVec.eq_of_toNat_eq he)
    rw [if_neg hq]
    congr 1
    simp only [eq_iff_iff]
    omega

-- The flags that elf_load maps its pages with.
theorem entry_of_frame {p flags : BitVec 64} (hp : IsFrame p)
    (hflags : flags = ptePresent ||| pteUser ∨ flags = ptePresent ||| pteUser ||| pteWrite) :
    Present ((p &&& ~~~0xFFF) ||| flags ||| ptePresent) ∧
      entryFrame ((p &&& ~~~0xFFF) ||| flags ||| ptePresent) = p := by
  have hmask : flags &&& frameMask = 0 := by
    rcases hflags with rfl | rfl
    · decide
    · decide
  have hbase : p &&& ~~~0xFFF = p := by
    rw [and_not_low_eq (and_eq_zero_of_frame hp (by decide))]
    exact hp
  rw [hbase]
  constructor
  · intro hz
    rw [BitVec.or_assoc, or_and_of_zero_left (and_eq_zero_of_frame hp (by decide))] at hz
    rcases hflags with rfl | rfl
    · exact absurd hz (by decide)
    · exact absurd hz (by decide)
  · rw [entryFrame, or_and_of_zero (by decide), or_and_of_zero hmask]
    exact hp

-- The address of page number n of a segment.
theorem page_addr (h : seg.Lower) {n : ℕ} (hn : n < seg.numPages.toNat) :
    (seg.pageVaddr + BitVec.ofNat 64 n * 0x1000).toNat = (seg.vaddr.toNat / 4096 + n) * 4096 ∧
      (seg.vaddr.toNat / 4096 + n) * 4096 + 4096 ≤ 2 ^ 47 := by
  have hspace := h.space
  have hpages := h.pages
  have hbase := Word.toNat_and_not_mask seg.vaddr 0xFFF 12 (by decide)
  have hoff : (BitVec.ofNat 64 n * 0x1000).toNat = n * 4096 := by
    rw [BitVec.toNat_mul, BitVec.toNat_ofNat]
    change n % 2 ^ 64 * 4096 % 2 ^ 64 = n * 4096
    omega
  refine ⟨?_, by omega⟩
  rw [Segment.pageVaddr, BitVec.toNat_add, hbase, hoff]
  omega

-- The flags that the pages of a segment are mapped with.
def pageFlags (m : Memory 64) (phdr : BitVec 64) : BitVec 64 :=
  if pFlags m phdr &&& pfW ≠ 0 then ptePresent ||| pteUser ||| pteWrite else ptePresent ||| pteUser

theorem pageFlags_cases (m : Memory 64) (phdr : BitVec 64) :
    pageFlags m phdr = ptePresent ||| pteUser ∨
      pageFlags m phdr = ptePresent ||| pteUser ||| pteWrite := by
  unfold pageFlags
  split
  · exact Or.inr rfl
  · exact Or.inl rfl

-- One turn of the loop over the pages: pmm_alloc returns the frame p0, which is mapped
-- with the help of the new tables, and then written. `rest` is what is left of the frames.
structure PageTurn (alloc : Memory 64 → σ → BitVec 64 × Memory 64 × σ) (R : Set (BitVec 64))
    (elfBinary phdr hhdm root : BitVec 64) (file : Memory 64) (seg : Segment) (page : BitVec 36)
    (s s' : State σ) (p0 : BitVec 64) (m1 m2 : Memory 64) (new rest : List (BitVec 64)) : Prop where
  offset : s'.hhdmOffset = s.hhdmOffset
  pml4 : s'.pml4 = s.pml4
  taken : ∀ x, x ∉ R → m1 x = s.mem x
  few : new.length ≤ 3
  mapped : Mapped lowerHalf R hhdm root page
    ((p0 &&& ~~~0xFFF) ||| pageFlags m1 phdr ||| ptePresent) m1 m2 new
  slots : ∀ j, j ≠ page.extractLsb' 27 9 → slot hhdm m2 root j = slot hhdm m1 root j
  written : KeepsOutside m2 s'.mem (p0 + hhdm) 4096
  bytes : ∀ v, v.toNat / 4096 = page.toNat →
    s'.mem (p0 + hhdm + (v &&& 0xFFF)) = seg.byteAt file elfBinary v
  upcoming : Upcoming alloc R s'.mem s'.frames rest

theorem loadPage_turns (phdr : BitVec 64) {n : ℕ} (hfoot : Footprint alloc R) (hl : seg.Lower)
    (hdata : seg.offset.toNat + seg.filesz.toNat ≤ size) (hn : n < seg.numPages.toNat)
    (hlen : 4 ≤ l.length) (h : Loaded alloc R elfBinary size hhdm root file l image s) :
    ∃ page s' p0 m1 m2 new rest, page.toNat = seg.vaddr.toNat / 4096 + n ∧
      loadPage alloc elfBinary phdr seg (BitVec.ofNat 64 n) s = some s' ∧ l = p0 :: (new ++ rest) ∧
      PageTurn alloc R elfBinary phdr hhdm root file seg page s s' p0 m1 m2 new rest := by
  obtain ⟨haddr, hspace⟩ := page_addr hl hn
  unfold loadPage
  generalize seg.pageVaddr + BitVec.ofNat 64 n * 0x1000 = cur at *
  have hpage := pageNumber_toNat (v := cur) (by omega)
  have hlow : (pageNumber cur).toNat < 2 ^ 35 := by omega
  -- The frame of the page.
  obtain ⟨p0, l1, rfl⟩ := List.exists_cons_of_length_pos (Nat.zero_lt_of_lt hlen)
  rw [List.length_cons] at hlen
  obtain ⟨s1, hcall, hmem, hhdm1, hpml41, hup1⟩ : ∃ s1, s.pmmAlloc alloc = (p0, s1) ∧
      (∀ x, x ∉ R → s1.mem x = s.mem x) ∧ s1.hhdmOffset = s.hhdmOffset ∧ s1.pml4 = s.pml4 ∧
        Upcoming alloc R s1.mem s1.frames l1 := by
    obtain ⟨hfirst, hrest⟩ := h.upcoming.next
    have hout := hfoot s.mem s.frames
    unfold State.pmmAlloc
    generalize alloc s.mem s.frames = result at hfirst hrest hout
    obtain ⟨page, m1, frames⟩ := result
    subst hfirst
    exact ⟨_, rfl, hout, rfl, rfl, hrest⟩
  simp only [hcall]
  rw [show (if pFlags s1.mem phdr &&& pfW ≠ 0 then ptePresent ||| pteUser ||| pteWrite
    else ptePresent ||| pteUser) = pageFlags s1.mem phdr from rfl]
  have hshows := h.shows.congr hmem
  have hready := hshows.ready
  have hp0 := hshows.unused p0 List.mem_cons_self
  have hunused := fun p (hp : p ∈ l1) => hshows.unused p (List.mem_cons_of_mem p0 hp)
  have hfresh : Fresh lowerHalf R hhdm root s1.mem l1 :=
    ⟨(List.nodup_cons.mp hshows.nodup).2, fun p hp => (hunused p hp).frame,
      fun p hp => (hunused p hp).outside, fun p hp => (hunused p hp).region⟩
  have hplain : PlainWalk hhdm s1.mem root (pageNumber cur) := fun path i f hpre =>
    hready.plain path i f (walk_on_path lowerHalf _ (lower_index hlow) _ hpre)
  -- The mapping, with at most three new tables.
  obtain ⟨s2, new, rest, hmap, hlog, hm, rfl, hfew, hup2⟩ := vmmMapPage_draws p0 (pageFlags s1.mem phdr)
    hfoot (hhdm1.trans h.offset) (hpml41.trans h.pml4) hready.tree hready.region (lower_index hlow)
    hplain hup1 (by omega) (fun p hp => h.nonzero p (List.mem_cons_of_mem p0 hp)) hfresh
  have hnew := fun p (hp : p ∈ new) => hunused p (List.mem_append_left rest hp)
  have hhanded : Handed hhdm s1.mem root (pageNumber cur) new := by
    refine ⟨hfresh.left.nodup, fun q hq => (hnew q hq).frame.aligned, fun q hq he => ?_,
      fun q hq hv => ?_⟩
    · exact (hnew q hq).outside (he ▸ ⟨[], (walk_prefixClosed lowerHalf).nil, rfl⟩)
    · obtain ⟨path, -, hw, hf⟩ := hv.table hplain (lower_index hlow)
      exact (hnew q hq).outside ⟨path, hw, hf⟩
  obtain ⟨-, hslots, -⟩ := vmmMapPage_writes hfoot (hhdm1.trans h.offset) hready.tree.root_aligned
    (hready.region root ⟨[], (walk_prefixClosed lowerHalf).nil, rfl⟩) (hpml41.trans h.pml4) hmap hlog
    (fun hv => hv.ne_root hready.tree hplain (lower_index hlow) rfl) hhanded
  -- The bytes to be copied lie in the file, and so not in the page.
  have hfile := hready.agree hm.toExtends hnew hshows.kept
  have hsrc : ∀ x, InRange (elfBinary + seg.offset) seg.filesz.toNat x →
      s2.mem x = file x ∧ ¬InRange (p0 + hhdm) 4096 x := by
    intro x hx
    have hin := inRange_inner elfBinary seg.offset x hdata hx
    exact ⟨hfile x hin, fun hpage => hp0.spares x hpage hin⟩
  have hsize := hl.space
  have hfilesz := hl.filesz
  have hwrite : KeepsOutside s2.mem (writePage s2.mem elfBinary (p0 + hhdm) cur seg) (p0 + hhdm) 4096 ∧
      ∀ v, v.toNat / 4096 = cur.toNat / 4096 →
        writePage s2.mem elfBinary (p0 + hhdm) cur seg (p0 + hhdm + (v &&& 0xFFF)) =
          seg.byteAt file elfBinary v :=
    writePage_spec (by omega) (by omega) (by omega) hsrc
  have hvirt : s2.physToVirt p0 = p0 + hhdm := by
    rw [State.physToVirt, hlog.hhdm, hhdm1, h.offset]
  simp only [hmap, hvirt]
  refine ⟨pageNumber cur, _, p0, s1.mem, s2.mem, new, rest, by omega, rfl, rfl, ?_⟩
  refine ⟨hlog.hhdm.trans hhdm1, hlog.pml4.trans hpml41, hmem, hfew, hm, hslots, ?_, ?_, ?_⟩
  · dsimp only
    exact hwrite.1
  · dsimp only
    exact fun v hv => hwrite.2 v (by omega)
  · -- The page lies apart from R.
    dsimp only
    exact hup2.congr (fun x hx => hwrite.1 x (fun hin => hp0.region x hin hx))

theorem PageTurn.loaded {page : BitVec 36} {p0 : BitVec 64} {m1 m2 : Memory 64} {n : ℕ} (hl : seg.Lower)
    (hn : n < seg.numPages.toNat) (hpage : page.toNat = seg.vaddr.toNat / 4096 + n)
    (h : Loaded alloc R elfBinary size hhdm root file (p0 :: (new ++ rest)) (recordFirst image seg n) s)
    (ht : PageTurn alloc R elfBinary phdr hhdm root file seg page s s' p0 m1 m2 new rest) :
    Loaded alloc R elfBinary size hhdm root file rest (recordFirst image seg (n + 1)) s' := by
  have hpages := hl.pages
  have hspace := hl.space
  have hshows := h.shows.congr ht.taken
  have hp0 := hshows.unused p0 List.mem_cons_self
  obtain ⟨hpres, hframe⟩ := entry_of_frame hp0.frame (pageFlags_cases m1 phdr)
  have hnext := hshows.step ht.mapped hpres hframe (by omega) ht.written ht.bytes
  rw [recordFirst_succ image seg hpage] at hnext
  exact ⟨ht.offset.trans h.offset, ht.pml4.trans h.pml4,
    fun p hp => h.nonzero p (List.mem_cons_of_mem p0 (List.mem_append_right new hp)), ht.upcoming, hnext⟩

-- One page takes at most four frames.
theorem loadPages_loaded (hfoot : Footprint alloc R) (hl : seg.Lower)
    (hdata : seg.offset.toNat + seg.filesz.toNat ≤ size) (n : ℕ) (hn : n ≤ seg.numPages.toNat)
    (hlen : 4 * n ≤ l.length) (h : Loaded alloc R elfBinary size hhdm root file l image s) :
    ∃ s' rest, loadPages alloc elfBinary phdr seg n s = some s' ∧
      Loaded alloc R elfBinary size hhdm root file rest (recordFirst image seg n) s' ∧
      l.length ≤ rest.length + 4 * n := by
  induction n with
  | zero =>
      have hnone : recordFirst image seg 0 = image := by
        funext page
        exact if_neg (by omega)
      rw [hnone]
      exact ⟨s, l, rfl, h, by omega⟩
  | succ n ih =>
      obtain ⟨s1, l1, h1, hs1, hleft⟩ := ih (by omega) (by omega)
      obtain ⟨page, s', p0, m1, m2, new, rest, hpage, hlast, rfl, hturn⟩ :=
        loadPage_turns phdr hfoot hl hdata hn (by omega) hs1
      have hfew := hturn.few
      refine ⟨s', rest, ?_, hturn.loaded hl hn hpage hs1, ?_⟩
      · rw [loadPages, h1]
        exact hlast
      · simp only [List.length_cons, List.length_append] at hleft
        omega

end Pages

section Segments

-- Program header number i as the file has it.
def headerAt (file : Memory 64) (elfBinary : BitVec 64) (i : ℕ) : BitVec 64 :=
  elfBinary + ePhoff file elfBinary + BitVec.ofNat 64 (i * phdrSize)

def ptLoadAt (file : Memory 64) (elfBinary : BitVec 64) (i : ℕ) : Option Segment :=
  if pType file (headerAt file elfBinary i) = ptLoad then
    some (readSegment file (headerAt file elfBinary i))
  else none

-- The PT_LOAD segments of the headers from number i on.
def ptLoadsFrom (file : Memory 64) (elfBinary : BitVec 64) (i : ℕ) : List Segment :=
  (List.range' i ((ePhnum file elfBinary).toNat - i)).filterMap (ptLoadAt file elfBinary)

def ptLoads (file : Memory 64) (elfBinary : BitVec 64) : List Segment := ptLoadsFrom file elfBinary 0

-- An executable of `size` bytes that elf_load accepts, with its segments in the
-- lower half and apart.
structure Executable (file : Memory 64) (elfBinary : BitVec 64) (size : ℕ) : Prop where
  magic : magicOk file elfBinary = true
  machine : eMachine file elfBinary = emX8664
  type : eType file elfBinary = etExec
  size_le : size ≤ 2 ^ 64
  header : ehdrSize ≤ size
  headers : (ePhoff file elfBinary).toNat + (ePhnum file elfBinary).toNat * phdrSize ≤ size
  lower : ∀ seg ∈ ptLoads file elfBinary, seg.Lower
  data : ∀ seg ∈ ptLoads file elfBinary, seg.offset.toNat + seg.filesz.toNat ≤ size
  disjoint : (ptLoads file elfBinary).Pairwise
    (fun a b => Apart a.vaddr a.memsz.toNat b.vaddr b.memsz.toNat)

variable {σ : Type} {alloc : Memory 64 → σ → BitVec 64 × Memory 64 × σ} {R : Set (BitVec 64)}
variable {elfBinary : BitVec 64} {size : ℕ} {hhdm root : BitVec 64} {file m : Memory 64}
variable {s s' : State σ}

theorem header_congr {phdr : BitVec 64} (h : Agree file m phdr phdrSize) :
    pType m phdr = pType file phdr ∧ readSegment m phdr = readSegment file phdr := by
  have hfield := fun (n : ℕ) (d : BitVec 64) (hd : d.toNat + n ≤ phdrSize) =>
    load_congr (h.inner hd)
  refine ⟨hfield 4 0 (by decide), ?_⟩
  simp only [readSegment, pVaddr, pMemsz, pFilesz, pOffset, load64, hfield 8 16 (by decide),
    hfield 8 40 (by decide), hfield 8 32 (by decide), hfield 8 8 (by decide)]

theorem phnum_congr (h : Agree file m elfBinary size) (hsize : ehdrSize ≤ size) :
    ePhnum m elfBinary = ePhnum file elfBinary := by
  have hd : (56 : BitVec 64).toNat + 2 ≤ size := by
    simp only [ehdrSize] at hsize
    change 56 + 2 ≤ size
    omega
  exact load_congr (h.inner hd)

theorem headerAt_agree (hx : Executable file elfBinary size) (h : Agree file m elfBinary size)
    {i : ℕ} (hi : i < (ePhnum file elfBinary).toNat) :
    Agree file m (headerAt file elfBinary i) phdrSize := by
  have hheaders := hx.headers
  have hsize := hx.size_le
  rw [headerAt, BitVec.add_assoc]
  refine h.inner ?_
  simp only [phdrSize] at *
  rw [BitVec.toNat_add, BitVec.toNat_ofNat]
  omega

theorem ptLoadsFrom_next {i : ℕ} (hi : i < (ePhnum file elfBinary).toNat) :
    ptLoadsFrom file elfBinary i =
      (ptLoadAt file elfBinary i).toList ++ ptLoadsFrom file elfBinary (i + 1) := by
  have hcount : (ePhnum file elfBinary).toNat - i = (ePhnum file elfBinary).toNat - (i + 1) + 1 := by
    omega
  rw [ptLoadsFrom, hcount, List.range'_succ, List.filterMap_cons, ptLoadsFrom]
  cases ptLoadAt file elfBinary i <;> rfl

theorem mem_ptLoadsFrom {i : ℕ} {seg : Segment} (h : seg ∈ ptLoadsFrom file elfBinary i) :
    seg ∈ ptLoads file elfBinary := by
  simp only [ptLoads, ptLoadsFrom, List.mem_filterMap, List.mem_range'_1] at h ⊢
  obtain ⟨j, hj, hseg⟩ := h
  exact ⟨j, by omega, hseg⟩

-- The pages that elf_load visits for the segments.
def pageVisits (segs : List Segment) : ℕ := (segs.map (fun seg => seg.numPages.toNat)).sum

theorem loadSegments_loaded (hfoot : Footprint alloc R) (hx : Executable file elfBinary size)
    (fuel i : ℕ) (image : Image) (l : List (BitVec 64))
    (hfuel : (ePhnum file elfBinary).toNat < fuel + i) (hi : i ≤ (ePhnum file elfBinary).toNat)
    (hlen : 4 * pageVisits (ptLoadsFrom file elfBinary i) ≤ l.length)
    (h : Loaded alloc R elfBinary size hhdm root file l image s) :
    ∃ s' rest, loadSegments alloc elfBinary (elfBinary + ePhoff file elfBinary) fuel i s = some s' ∧
      Loaded alloc R elfBinary size hhdm root file rest
        ((ptLoadsFrom file elfBinary i).foldl record image) s' := by
  induction fuel generalizing i s l image with
  | zero => omega
  | succ fuel ih =>
      have hfile := h.shows.kept
      unfold loadSegments
      rw [phnum_congr hfile hx.header]
      by_cases hlt : i < (ePhnum file elfBinary).toNat
      · obtain ⟨htype, hseg⟩ := header_congr (headerAt_agree hx hfile hlt)
        have hnext := ptLoadsFrom_next hlt
        unfold ptLoadAt at hnext
        rw [headerAt] at htype hseg hnext
        simp only [hlt, if_true, htype, hseg]
        by_cases ht : pType file (elfBinary + ePhoff file elfBinary +
            BitVec.ofNat 64 (i * phdrSize)) = ptLoad
        · simp only [ht, if_true] at hnext ⊢
          have hmem : readSegment file (elfBinary + ePhoff file elfBinary +
              BitVec.ofNat 64 (i * phdrSize)) ∈ ptLoads file elfBinary := by
            apply mem_ptLoadsFrom (i := i)
            rw [hnext]
            exact List.mem_append_left _ (by simp)
          rw [hnext] at hlen ⊢
          generalize readSegment file (elfBinary + ePhoff file elfBinary +
            BitVec.ofNat 64 (i * phdrSize)) = seg at *
          have hsum : pageVisits ((some seg).toList ++ ptLoadsFrom file elfBinary (i + 1)) =
              seg.numPages.toNat + pageVisits (ptLoadsFrom file elfBinary (i + 1)) := by
            simp [pageVisits]
          rw [hsum] at hlen
          obtain ⟨s1, l1, h1, hs1, hleft⟩ :=
            loadPages_loaded hfoot (hx.lower seg hmem) (hx.data seg hmem) _ le_rfl (by omega) h
          rw [h1]
          exact ih (i + 1) _ l1 (by omega) (by omega) (by omega) hs1
        · simp only [ht, if_false] at hnext ⊢
          rw [hnext] at hlen ⊢
          exact ih (i + 1) image l (by omega) (by omega) hlen h
      · have hnone : ptLoadsFrom file elfBinary i = [] := by
          rw [ptLoadsFrom, Nat.sub_eq_zero_of_le (by omega)]
          rfl
        rw [hnone, if_neg hlt]
        exact ⟨s, l, rfl, h⟩

end Segments

section Reading

variable {σ : Type} {alloc : Memory 64 → σ → BitVec 64 × Memory 64 × σ} {R : Set (BitVec 64)}
variable {elfBinary : BitVec 64} {size : ℕ} {hhdm root : BitVec 64} {file m : Memory 64}
variable {image : Image} {future : List (BitVec 64)} {seg : Segment}

theorem record_isSome (segs : List Segment) (image : Image) {page : BitVec 36}
    (h : (image page).isSome = true ∨ ∃ seg ∈ segs, seg.Touches page) :
    (segs.foldl record image page).isSome = true := by
  induction segs generalizing image with
  | nil => simpa using h
  | cons a rest ih =>
      refine ih _ ?_
      by_cases ht : a.Touches page
      · exact Or.inl (by simp only [record, ht, if_true, Option.isSome_some])
      · rcases h with hold | ⟨seg, hseg, hts⟩
        · exact Or.inl (by simpa only [record, ht, if_false] using hold)
        · rcases List.mem_cons.mp hseg with rfl | hin
          · exact absurd hts ht
          · exact Or.inr ⟨seg, hin, hts⟩

-- What is read through the page tables is what the image shows.
theorem readVirtual_of_shows (h : Shows R elfBinary size hhdm root file future image m) {v : BitVec 64}
    (hv : v.toNat < 2 ^ 47) (hsome : (image (pageNumber v)).isSome = true) :
    readVirtual hhdm m root v = image.read file elfBinary v := by
  obtain ⟨seg, hseg⟩ := Option.isSome_iff_exists.mp hsome
  have hshown := h.pages _ seg hseg
  rw [readVirtual, hardwareWalk_of_leaf hshown.present, Image.read, hseg, Option.map_some,
    Option.map_some]
  exact congrArg some (hshown.bytes v (pageNumber_toNat hv).symm)

-- The byte number k that a segment asks for.
def Segment.fileByte (file : Memory 64) (elfBinary : BitVec 64) (seg : Segment) (k : ℕ) : BitVec 8 :=
  if k < seg.filesz.toNat then file (elfBinary + seg.offset + BitVec.ofNat 64 k) else 0

theorem byteAt_offset (file : Memory 64) (elfBinary : BitVec 64) (seg : Segment) {k : ℕ}
    (hk : k < 2 ^ 64) :
    seg.byteAt file elfBinary (seg.vaddr + BitVec.ofNat 64 k) = seg.fileByte file elfBinary k := by
  simp only [Segment.byteAt, Segment.fileByte, InRange, add_sub_cancel_left, BitVec.toNat_ofNat,
    Nat.mod_eq_of_lt hk]

theorem readVirtual_of_segment (hx : Executable file elfBinary size)
    (h : Shows R elfBinary size hhdm root file future
      ((ptLoads file elfBinary).foldl record (fun _ => none)) m)
    (hseg : seg ∈ ptLoads file elfBinary) {k : ℕ} (hk : k < seg.memsz.toNat) :
    readVirtual hhdm m root (seg.vaddr + BitVec.ofNat 64 k) =
      Image.read file elfBinary ((ptLoads file elfBinary).foldl record (fun _ => none))
        (seg.vaddr + BitVec.ofNat 64 k) := by
  have hin := inRange_add seg.vaddr _ k hk
  have hspace := (hx.lower seg hseg).space
  have hlt := (inRange_iff seg.vaddr _ _ (by omega)).mp hin
  exact readVirtual_of_shows h (by omega)
    (record_isSome _ _ (Or.inr ⟨seg, hseg, (hx.lower seg hseg).touches hin⟩))

-- elf_load returns, with the memory showing the last segment on every page.
theorem elfLoad_shows {s : State σ} {l : List (BitVec 64)} (userPml4 : BitVec 64)
    (hfoot : Footprint alloc R) (hroot : s.pml4 = root + s.hhdmOffset)
    (hready : Ready R elfBinary size s.hhdmOffset root s.mem) (hx : Executable s.mem elfBinary size)
    (hup : Upcoming alloc R s.mem s.frames l) (hlen : 4 * pageVisits (ptLoads s.mem elfBinary) ≤ l.length)
    (hne : ∀ p ∈ l, p ≠ 0) (hnodup : l.Nodup)
    (hfresh : ∀ p ∈ l, Unused R elfBinary size s.hhdmOffset root s.mem p) :
    ∃ entry s' rest, elfLoad alloc elfBinary userPml4 s = some (entry, s') ∧
      s'.hhdmOffset = s.hhdmOffset ∧ Shows R elfBinary size s.hhdmOffset root s.mem rest
        ((ptLoads s.mem elfBinary).foldl record (fun _ => none)) s'.mem := by
  have hstart : Loaded alloc R elfBinary size s.hhdmOffset root s.mem l (fun _ => none) s :=
    ⟨rfl, hroot, hne, hup, hready, Agree.refl _ _ _, hnodup, hfresh, by simp, by simp, by simp⟩
  have hphnum := (ePhnum s.mem elfBinary).isLt
  obtain ⟨s', rest, hload, hs'⟩ :=
    loadSegments_loaded hfoot hx (2 ^ 16) 0 _ l (by omega) (Nat.zero_le _) hlen hstart
  refine ⟨eEntry s'.mem elfBinary, s', rest, ?_, hs'.offset, hs'.shows⟩
  simp only [elfLoad, hx.magic, hx.machine, hx.type, ne_eq, not_true_eq_false, or_self, if_false,
    Bool.not_true, Bool.false_eq_true, hload]

end Reading

-- elf_load returns; and every segment reads as the file has it exactly if no byte of
-- one that is not zero lies on a page that a later one touches too.
theorem segments_kept_iff {σ : Type} (alloc : Memory 64 → σ → BitVec 64 × Memory 64 × σ)
    (R : Set (BitVec 64)) (elfBinary userPml4 root : BitVec 64) (size : ℕ) (s : State σ)
    (l : List (BitVec 64)) (hfoot : Footprint alloc R) (hroot : s.pml4 = root + s.hhdmOffset)
    (hready : Ready R elfBinary size s.hhdmOffset root s.mem) (hx : Executable s.mem elfBinary size)
    (hup : Upcoming alloc R s.mem s.frames l) (hlen : 4 * pageVisits (ptLoads s.mem elfBinary) ≤ l.length)
    (hne : ∀ p ∈ l, p ≠ 0) (hnodup : l.Nodup)
    (hfresh : ∀ p ∈ l, Unused R elfBinary size s.hhdmOffset root s.mem p) :
    ∃ entry s', elfLoad alloc elfBinary userPml4 s = some (entry, s') ∧
      ((∀ seg ∈ ptLoads s.mem elfBinary, ∀ k < seg.memsz.toNat,
        readVirtual s'.hhdmOffset s'.mem root (seg.vaddr + BitVec.ofNat 64 k) =
          some (seg.fileByte s.mem elfBinary k)) ↔
      (ptLoads s.mem elfBinary).Pairwise (fun a b => ∀ k < a.memsz.toNat,
        b.Touches (pageNumber (a.vaddr + BitVec.ofNat 64 k)) → a.fileByte s.mem elfBinary k = 0)) := by
  obtain ⟨entry, s', rest, hrun, hh, hshows⟩ :=
    elfLoad_shows userPml4 hfoot hroot hready hx hup hlen hne hnodup hfresh
  refine ⟨entry, s', hrun, ?_⟩
  rw [hh]
  have hiff : _ ↔ (ptLoads s.mem elfBinary).Pairwise (fun a b => ∀ v,
      InRange a.vaddr a.memsz.toNat v → b.Touches (pageNumber v) → a.byteAt s.mem elfBinary v = 0) :=
    reads_iff (ptLoads s.mem elfBinary) (fun _ => none) hx.lower hx.disjoint
  simp only [forall_inRange] at hiff
  have hbyte := fun (seg : Segment) (k : ℕ) (hk : k < seg.memsz.toNat) =>
    byteAt_offset s.mem elfBinary seg (hk.trans seg.memsz.isLt)
  have hread : ∀ seg ∈ ptLoads s.mem elfBinary, ∀ k < seg.memsz.toNat,
      readVirtual s.hhdmOffset s'.mem root (seg.vaddr + BitVec.ofNat 64 k) =
        ((ptLoads s.mem elfBinary).foldl record (fun _ => none)).read s.mem elfBinary
          (seg.vaddr + BitVec.ofNat 64 k) :=
    fun seg hseg k hk => readVirtual_of_segment hx hshows hseg hk
  constructor
  · intro h
    have h' := hiff.mp (fun seg hseg k hk => by
      rw [← hread seg hseg k hk, h seg hseg k hk, hbyte seg k hk])
    exact h'.imp (fun hab k hk ht => by rw [← hbyte _ k hk, hab k hk ht])
  · intro h seg hseg k hk
    have h' := hiff.mpr (h.imp (fun hab k hk ht => by rw [hbyte _ k hk, hab k hk ht]))
    rw [hread seg hseg k hk, h' seg hseg k hk, hbyte seg k hk]

section Sample

open Miyabi.Mm.Boot

def sampleBase : BitVec 64 := 0xFFFFFFFFC0001000

-- An executable with two segments of one byte each, the first byte of the file: one
-- at 0x400000, one at `second`. Frames 2 to 9 are free.
def sampleFile (second : BitVec 64) : Memory 64 :=
  let m : Memory 64 := lowBitmap 0xFC03
  let m := m.store32 (sampleBase + 0) 0x464C457F
  let m := m.store32 (sampleBase + 16) 0x003E0002
  let m := m.store64 (sampleBase + 32) 64
  let m := m.store32 (sampleBase + 56) 2
  let m := m.store32 (sampleBase + 64) 1
  let m := m.store64 (sampleBase + 80) 0x400000
  let m := m.store64 (sampleBase + 96) 1
  let m := m.store64 (sampleBase + 104) 1
  let m := m.store32 (sampleBase + 120) 1
  let m := m.store64 (sampleBase + 136) second
  let m := m.store64 (sampleBase + 152) 1
  m.store64 (sampleBase + 160) 1

def sampleState (second : BitVec 64) : State (List Returned) :=
  ⟨sampleFile second, 0xFFFF800000000000, 0x1000 + 0xFFFF800000000000, [], []⟩

variable {second : BitVec 64}

theorem sampleFile_outside {x : BitVec 64} (hx : ¬InRange sampleBase 176 x) :
    sampleFile second x = lowBitmap 0xFC03 x := by
  have hout := fun (n : ℕ) (d : BitVec 64) (v : BitVec (8 * n)) (m : Memory 64)
    (hd : d.toNat + n ≤ 176) =>
    store_of_not_inRange m (sampleBase + d) x v (fun h => hx (inRange_inner sampleBase d x hd h))
  simp only [sampleFile, store32, store64]
  rw [hout 8 160 _ _ (by decide), hout 8 152 _ _ (by decide), hout 8 136 _ _ (by decide),
    hout 4 120 _ _ (by decide), hout 8 104 _ _ (by decide), hout 8 96 _ _ (by decide),
    hout 8 80 _ _ (by decide), hout 4 64 _ _ (by decide), hout 4 56 _ _ (by decide),
    hout 8 32 _ _ (by decide), hout 4 16 _ _ (by decide), hout 4 0 _ _ (by decide)]

-- The direct map shows frames below 2^32 apart from the file.
theorem sample_spares {f : BitVec 64} (hf : f.toNat < 2 ^ 32) :
    Spares (fileBytes sampleBase 176) 0xFFFF800000000000 f := by
  intro x hx hin
  simp only [fileBytes, Set.mem_ofPred_eq, InRange, sampleBase] at hx hin
  bv_omega

theorem sample_apart {x : BitVec 64} (hx : InRange sampleBase 176 x) : x ∉ bitmapRegion lowPmm := by
  intro hin
  have hbit : (x - 0xFFFF800000000000).toNat < 2 := hin
  simp only [InRange, sampleBase] at hx
  bv_omega

-- A memory that has the bitmap outside of the file has an empty tree in frame 1.
section Quiet

variable {m : Memory 64} {used : BitVec 16}

theorem quiet_slot (hm : ∀ x, ¬InRange sampleBase 176 x → m x = lowBitmap used x) (i : BitVec 9) :
    slot 0xFFFF800000000000 m 0x1000 i = 0 := by
  have hal : Aligned (0x1000 : BitVec 64) := by simp [Aligned]
  have hsame : Agree (lowBitmap used) m (0x1000 + 0xFFFF800000000000) 4096 := by
    intro x hx
    exact hm x (fun hin => sample_spares (by decide) x hx hin)
  rw [slot_congr hal hsame i]
  exact lowBitmap_slot used hal (by decide) i

theorem quiet_ready (hm : ∀ x, ¬InRange sampleBase 176 x → m x = lowBitmap used x) :
    Ready (bitmapRegion lowPmm) sampleBase 176 0xFFFF800000000000 0x1000 m := by
  refine ⟨tree_empty (by simp [Aligned]) (quiet_slot hm), ?_, ?_, ?_, fun x => sample_apart⟩
  · intro path i f _ hf hpres
    rw [(lookup_empty (quiet_slot hm) hf).2, quiet_slot hm] at hpres
    exact absurd (by decide) hpres
  · intro f hf
    rw [tables_empty (quiet_slot hm) hf]
    exact sample_spares (by decide)
  · intro f hf
    rw [tables_empty (quiet_slot hm) hf]
    exact lowPmm_spares (by simp [Aligned]) (by decide)

theorem quiet_upcoming (hm : ∀ x, ¬InRange sampleBase 176 x → m x = lowBitmap used x)
    (calls : List Returned) :
    Upcoming (bitmapAlloc lowPmm) (bitmapRegion lowPmm) m calls (lowFrames used) :=
  lowPmm_upcoming used (fun x hx => hm x (fun hin => sample_apart hin hx)) calls

theorem quiet_fresh (hm : ∀ x, ¬InRange sampleBase 176 x → m x = lowBitmap used x)
    (hroot : 0x1000 ∉ lowFrames used) : ∀ p ∈ lowFrames used,
      Unused (bitmapRegion lowPmm) sampleBase 176 0xFFFF800000000000 0x1000 m p := by
  intro p hp
  obtain ⟨hf, hpos, hlt⟩ := lowFrames_cases hp
  exact ⟨hf, sample_spares (by omega), lowPmm_spares hf.aligned hpos,
    fun hin => hroot (tables_empty (quiet_slot hm) hin ▸ hp)⟩

end Quiet

theorem root_taken : 0x1000 ∉ lowFrames 0xFC03 := by
  have hall : (lowFrames 0xFC03).all (fun p => p ≠ 0x1000) = true := by decide +kernel
  exact fun hin => of_decide_eq_true (List.all_eq_true.mp hall _ hin) rfl

theorem sample_ready : Ready (bitmapRegion lowPmm) sampleBase 176 (sampleState second).hhdmOffset 0x1000
    (sampleState second).mem := quiet_ready (fun _ hx => sampleFile_outside hx)

theorem sample_upcoming : Upcoming (bitmapAlloc lowPmm) (bitmapRegion lowPmm) (sampleState second).mem
    (sampleState second).frames (lowFrames 0xFC03) := quiet_upcoming (fun _ hx => sampleFile_outside hx) _

theorem sample_fresh : ∀ p ∈ lowFrames 0xFC03, Unused (bitmapRegion lowPmm) sampleBase 176
    (sampleState second).hhdmOffset 0x1000 (sampleState second).mem p :=
  quiet_fresh (fun _ hx => sampleFile_outside hx) root_taken

-- Enough frames for two pages.
theorem sample_frames {segs : List Segment} (hlist : ptLoads (sampleFile second) sampleBase = segs)
    (hvisits : pageVisits segs = 2) :
    4 * pageVisits (ptLoads (sampleState second).mem sampleBase) ≤ (lowFrames 0xFC03).length := by
  have hsame : ptLoads (sampleState second).mem sampleBase = segs := hlist
  have hlen : (lowFrames 0xFC03).length = 8 := by decide +kernel
  rw [hsame, hvisits, hlen]

theorem sample_executable (hlist : ptLoads (sampleFile second) sampleBase =
      [⟨0x400000, 1, 1, 0⟩, ⟨second, 1, 1, 0⟩])
    (hheader : magicOk (sampleFile second) sampleBase = true ∧
      eMachine (sampleFile second) sampleBase = emX8664 ∧
      eType (sampleFile second) sampleBase = etExec ∧
      (ePhoff (sampleFile second) sampleBase).toNat +
        (ePhnum (sampleFile second) sampleBase).toNat * phdrSize ≤ 176)
    (hlt : second.toNat < 2 ^ 32) (hgt : 0x400000 < second.toNat) :
    Executable (sampleFile second) sampleBase 176 := by
  obtain ⟨hmagic, hmachine, htype, hheaders⟩ := hheader
  refine ⟨hmagic, hmachine, htype, by omega, by decide, hheaders, ?_, ?_, ?_⟩
  · rw [hlist]
    intro seg hseg
    simp only [List.mem_cons, List.not_mem_nil, or_false] at hseg
    rcases hseg with rfl | rfl
    · exact ⟨by decide, by decide⟩
    · exact ⟨by simp; omega, by simp⟩
  · rw [hlist]
    intro seg hseg
    simp only [List.mem_cons, List.not_mem_nil, or_false] at hseg
    rcases hseg with rfl | rfl
    · decide
    · simp
  · rw [hlist]
    simp only [List.pairwise_cons, List.mem_cons, List.not_mem_nil, or_false, forall_eq, false_imp_iff,
      implies_true, List.Pairwise.nil, and_true]
    exact apart_of_le _ _ _ _ (by simp; omega) (by simp; omega)

-- The two bytes on two pages.
theorem segments_kept_apart : ∃ entry s', elfLoad (bitmapAlloc lowPmm) sampleBase 0
    (sampleState 0x401000) = some (entry, s') ∧
      ∀ seg ∈ ptLoads (sampleFile 0x401000) sampleBase, ∀ k < seg.memsz.toNat,
        readVirtual s'.hhdmOffset s'.mem 0x1000 (seg.vaddr + BitVec.ofNat 64 k) =
          some (seg.fileByte (sampleFile 0x401000) sampleBase k) := by
  have hlist : ptLoads (sampleFile 0x401000) sampleBase =
      [⟨0x400000, 1, 1, 0⟩, ⟨0x401000, 1, 1, 0⟩] := by decide +kernel
  have hx := sample_executable hlist (by decide +kernel) (by decide) (by decide)
  obtain ⟨entry, s', hrun, hiff⟩ := segments_kept_iff (bitmapAlloc lowPmm) (bitmapRegion lowPmm)
    sampleBase 0 0x1000 176 (sampleState 0x401000) (lowFrames 0xFC03) lowPmm_footprint rfl sample_ready
    hx sample_upcoming (sample_frames hlist (by decide)) (fun p hp => (lowFrames_cases hp).2.1)
    (lowFrames_nodup _) sample_fresh
  refine ⟨entry, s', hrun, hiff.mpr ?_⟩
  show (ptLoads (sampleFile 0x401000) sampleBase).Pairwise _
  rw [hlist]
  simp only [List.pairwise_cons, List.mem_cons, List.not_mem_nil, or_false, forall_eq, false_imp_iff,
    implies_true, List.Pairwise.nil, and_true]
  intro k hk ht
  have hk0 : k = 0 := by simpa using hk
  rw [hk0] at ht
  exact absurd ht (by decide)

-- On one page the byte of the first segment is lost.
theorem segment_lost :
    ¬∀ (p : Pmm.Statics) (elfBinary userPml4 root : BitVec 64) (size : ℕ) (s : State (List Returned))
      (l : List (BitVec 64)), Pmm.WellSized p → s.pml4 = root + s.hhdmOffset →
      Ready (bitmapRegion p) elfBinary size s.hhdmOffset root s.mem → Executable s.mem elfBinary size →
      Upcoming (bitmapAlloc p) (bitmapRegion p) s.mem s.frames l →
      4 * pageVisits (ptLoads s.mem elfBinary) ≤ l.length → (∀ p ∈ l, p ≠ 0) → l.Nodup →
      (∀ f ∈ l, Unused (bitmapRegion p) elfBinary size s.hhdmOffset root s.mem f) →
      ∀ entry s', elfLoad (bitmapAlloc p) elfBinary userPml4 s = some (entry, s') →
        ∀ seg ∈ ptLoads s.mem elfBinary, ∀ k < seg.memsz.toNat,
          readVirtual s'.hhdmOffset s'.mem root (seg.vaddr + BitVec.ofNat 64 k) =
            some (seg.fileByte s.mem elfBinary k) := by
  intro hall
  have hlist : ptLoads (sampleFile 0x400800) sampleBase =
      [⟨0x400000, 1, 1, 0⟩, ⟨0x400800, 1, 1, 0⟩] := by decide +kernel
  have hx := sample_executable hlist (by decide +kernel) (by decide) (by decide)
  have hlen := sample_frames hlist (by decide)
  have hne := fun p (hp : p ∈ lowFrames 0xFC03) => (lowFrames_cases hp).2.1
  obtain ⟨entry, s', rest, hrun, hh, hshows⟩ := elfLoad_shows 0 (s := sampleState 0x400800)
    lowPmm_footprint rfl sample_ready hx sample_upcoming hlen hne (lowFrames_nodup _) sample_fresh
  have hmem : (⟨0x400000, 1, 1, 0⟩ : Segment) ∈ ptLoads (sampleFile 0x400800) sampleBase := by
    rw [hlist]
    exact List.mem_cons_self
  have hkept := hall lowPmm sampleBase 0 0x1000 176 (sampleState 0x400800) (lowFrames 0xFC03)
    lowPmm_wellSized rfl sample_ready hx sample_upcoming hlen hne (lowFrames_nodup _) sample_fresh entry s'
    hrun _ hmem 0 (by decide)
  have hread := readVirtual_of_segment hx hshows hmem (k := 0) (by decide)
  rw [hh, hread] at hkept
  have himage : Image.read (sampleFile 0x400800) sampleBase
      ((ptLoads (sampleFile 0x400800) sampleBase).foldl record (fun _ => none)) 0x400000 =
        some 0 := by
    rw [hlist]
    decide +kernel
  have hbyte : Segment.fileByte (sampleFile 0x400800) sampleBase ⟨0x400000, 1, 1, 0⟩ 0 = 0x7F := by
    decide +kernel
  have hwrong := himage.symm.trans (hkept.trans (congrArg some hbyte))
  exact absurd hwrong (by decide)

end Sample

end Miyabi.Elf.Loader
