import Miyabi.Elf.Loader.Theorems
import Miyabi.Mm.Vmm.Rights
import Miyabi.Mm.Vmm.Spaces

namespace Miyabi.Elf.Loader

open Miyabi.Base Miyabi.Base.Memory Miyabi.Base.TableTree Miyabi.Mm Miyabi.Mm.Vmm

-- A page with a byte of the segment.
def Segment.Meets (seg : Segment) (page : BitVec 36) : Prop :=
  ∃ v, InRange seg.vaddr seg.memsz.toNat v ∧ pageNumber v = page

section Touched

variable {seg : Segment}

theorem Segment.Lower.meets_iff (h : seg.Lower) (hpos : seg.memsz ≠ 0) (page : BitVec 36) :
    seg.Meets page ↔ seg.Touches page := by
  have hspace := h.space
  have hpages := h.pages
  have hsize : 0 < seg.memsz.toNat := by
    rw [Nat.pos_iff_ne_zero]
    exact fun hz => hpos (BitVec.eq_of_toNat_eq hz)
  constructor
  · rintro ⟨v, hv, rfl⟩
    exact h.touches hv
  · intro ht
    have hlow := h.touched_lt ht
    obtain ⟨hfirst, hlast⟩ := ht
    -- The first byte of the segment on the page.
    refine ⟨seg.vaddr + BitVec.ofNat 64 (4096 * page.toNat - seg.vaddr.toNat),
      inRange_add seg.vaddr _ _ (by omega), ?_⟩
    apply BitVec.eq_of_toNat_eq
    rw [pageNumber_toNat, BitVec.toNat_add, BitVec.toNat_ofNat]
    · omega
    · rw [BitVec.toNat_add, BitVec.toNat_ofNat]
      omega

end Touched

section Placed

variable {σ : Type} {alloc : Memory 64 → σ → BitVec 64 × Memory 64 × σ} {R : Set (BitVec 64)}
variable {elfBinary phdr hhdm root flags : BitVec 64} {size n : ℕ} {file m1 m2 : Memory 64}
variable {image : Image} {seg : Segment} {s0 s s' : State σ}
variable {page : BitVec 36} {p0 : BitVec 64} {l front new rest : List (BitVec 64)}

-- The state after n pages of a segment, against the one before the segment. `front` are
-- the frames that pmm_alloc has returned in between.
structure Placed (R : Set (BitVec 64)) (hhdm root flags : BitVec 64) (seg : Segment) (s0 : State σ)
    (front : List (BitVec 64)) (n : ℕ) (s : State σ) : Prop where
  slots : ∀ j : BitVec 9, 256 ≤ j.toNat → slot hhdm s.mem root j = slot hhdm s0.mem root j
  tables : ∀ f ∈ tables lowerHalf hhdm s.mem root, f ∈ Vmm.tables lowerHalf hhdm s0.mem root ∨ f ∈ front
  outside : ∀ x, x ∉ R → (∀ f ∈ Vmm.tables lowerHalf hhdm s0.mem root, ¬InRange (f + hhdm) 4096 x) →
    (∀ p ∈ front, ¬InRange (p + hhdm) 4096 x) → s.mem x = s0.mem x
  mapped : ∀ page, recordFirst (fun _ => none) seg n page = some seg →
    pageFrame hhdm s.mem root page ∈ front ∧
      leafEntry hhdm s.mem root page = pageFrame hhdm s.mem root page ||| flags
  kept : ∀ page, page.toNat < 2 ^ 35 → recordFirst (fun _ => none) seg n page = none →
    leafEntry hhdm s.mem root page = leafEntry hhdm s0.mem root page

-- The frame of the page is no table, and so its bytes change no entry.
theorem PageTurn.sameTree
    (ht : PageTurn alloc R elfBinary phdr hhdm root file seg page s s' p0 m1 m2 new rest)
    (h : Loaded alloc R elfBinary size hhdm root file (p0 :: (new ++ rest)) image s) :
    SameTree lowerHalf hhdm root m2 s'.mem := by
  have hshows := h.shows.congr ht.taken
  have hp0 := hshows.unused p0 List.mem_cons_self
  have hout : p0 ∉ tables lowerHalf hhdm m2 root := by
    intro hin
    rcases (ht.mapped.toExtends.tables p0).mp hin with hold | hnew
    · exact hp0.outside hold
    · exact (List.nodup_cons.mp hshows.nodup).1 (List.mem_append_left _ hnew)
  refine Vmm.sameTree ht.mapped.tree (fun f hf => ht.written.agree ?_)
  exact pages_apart (ht.mapped.tree.mem_aligned hf) hp0.frame.aligned (fun he => hout (he ▸ hf))

-- What a turn does to the leaf entries.
theorem PageTurn.entry
    (ht : PageTurn alloc R elfBinary phdr hhdm root file seg page s s' p0 m1 m2 new rest)
    (h : Loaded alloc R elfBinary size hhdm root file (p0 :: (new ++ rest)) image s) {q : BitVec 36}
    (hq : q.toNat < 2 ^ 35) : leafEntry hhdm s'.mem root q = if q = page then
      (p0 &&& ~~~0xFFF) ||| pageFlags m1 phdr ||| ptePresent else leafEntry hhdm s.mem root q := by
  have hw := walk_on_path lowerHalf q (lower_index hq) _ (List.prefix_refl _)
  have htaken : leafEntry hhdm m1 root q = leafEntry hhdm s.mem root q :=
    (h.shows.ready.sameTree ht.taken).leafAt hw _
  rw [leafEntry, (ht.sameTree h).leafAt hw, ← htaken]
  exact leafEntry_page ht.mapped.leaves q (lower_index hq)

theorem entry_eq {p : BitVec 64} (hp : IsFrame p) (m : Memory 64) (phdr : BitVec 64) :
    (p &&& ~~~0xFFF) ||| pageFlags m phdr ||| ptePresent = p ||| pageFlags m phdr := by
  have hbase : p &&& ~~~0xFFF = p := and_not_low_of_aligned hp.aligned
  rw [hbase, BitVec.or_assoc]
  congr 1
  rcases pageFlags_cases m phdr with h | h
  · rw [h]
    decide
  · rw [h]
    decide

theorem Placed.step (hl : seg.Lower) (hn : n < seg.numPages.toNat)
    (hpage : page.toNat = seg.vaddr.toNat / 4096 + n) (hflags : pageFlags m1 phdr = flags)
    (h : Loaded alloc R elfBinary size hhdm root file (p0 :: (new ++ rest)) image s)
    (hp : Placed R hhdm root flags seg s0 front n s)
    (ht : PageTurn alloc R elfBinary phdr hhdm root file seg page s s' p0 m1 m2 new rest) :
    Placed R hhdm root flags seg s0 (front ++ p0 :: new) (n + 1) s' := by
  have hpages := hl.pages
  have hspace := hl.space
  have hlow : page.toNat < 2 ^ 35 := by omega
  have hfront : ∀ f ∈ front, f ∈ front ++ p0 :: new := fun f hf => List.mem_append_left _ hf
  have hp0 : p0 ∈ front ++ p0 :: new := List.mem_append_right _ List.mem_cons_self
  have hnew : ∀ f ∈ new, f ∈ front ++ p0 :: new :=
    fun f hf => List.mem_append_right _ (List.mem_cons_of_mem p0 hf)
  have hready := h.shows.ready
  have htaken := hready.sameTree ht.taken
  have hsame := ht.sameTree h
  have hentry := fun (q : BitVec 36) (hq : q.toNat < 2 ^ 35) => ht.entry h hq
  have hframe0 : IsFrame p0 := (h.shows.unused p0 List.mem_cons_self).frame
  have hown : pageFrame hhdm s'.mem root page = p0 := by
    rw [pageFrame, hentry page hlow, if_pos rfl]
    exact (entry_of_frame hframe0 (pageFlags_cases m1 phdr)).2
  -- The tables before the page is written.
  have htables : ∀ f ∈ Vmm.tables lowerHalf hhdm m2 root,
      f ∈ Vmm.tables lowerHalf hhdm s0.mem root ∨ f ∈ front ++ p0 :: new := by
    intro f hf
    rcases (ht.mapped.toExtends.tables f).mp hf with hold | hin
    · rw [htaken.tables] at hold
      exact (hp.tables f hold).imp_right (hfront f)
    · exact Or.inr (hnew f hin)
  refine ⟨?_, ?_, ?_, ?_, ?_⟩
  · intro j hj
    have hne : j ≠ page.extractLsb' 27 9 := by
      rintro rfl
      exact absurd (lower_index hlow) (Nat.not_lt.mpr hj)
    have hnil := (walk_prefixClosed lowerHalf).nil
    rw [hsame.slot [] root j hnil rfl, ht.slots j hne, htaken.slot [] root j hnil rfl, hp.slots j hj]
  · intro f hf
    rw [hsame.tables] at hf
    exact htables f hf
  · intro x hR hx hxf
    rw [ht.written x (hxf p0 hp0), ht.mapped.toExtends.outside x hR, ht.taken x hR,
      hp.outside x hR hx (fun f hf => hxf f (hfront f hf))]
    intro f hf
    rcases htables f hf with hold | hin
    · exact hx f hold
    · exact hxf f hin
  · intro q hq
    rw [← recordFirst_succ _ seg hpage, showPage] at hq
    by_cases he : q = page
    · subst he
      rw [hown, hentry q hlow, if_pos rfl, entry_eq hframe0, hflags]
      exact ⟨hp0, rfl⟩
    · rw [if_neg he] at hq
      obtain ⟨hin, hleaf⟩ := hp.mapped q hq
      have hqlow : q.toNat < 2 ^ 35 := by
        unfold recordFirst at hq
        split at hq
        · omega
        · cases hq
      have hkeep : leafEntry hhdm s'.mem root q = leafEntry hhdm s.mem root q := by
        rw [hentry q hqlow, if_neg he]
      rw [pageFrame, hkeep]
      exact ⟨hfront _ hin, hleaf⟩
  · intro q hqlow hq
    rw [← recordFirst_succ _ seg hpage, showPage] at hq
    by_cases he : q = page
    · rw [if_pos he] at hq
      cases hq
    · rw [if_neg he] at hq
      rw [hentry q hqlow, if_neg he]
      exact hp.kept q hqlow hq

theorem loadPages_placed (hfoot : Footprint alloc R) (hl : seg.Lower)
    (hdata : seg.offset.toNat + seg.filesz.toNat ≤ size)
    (hflags : ∀ m, Agree file m elfBinary size → pageFlags m phdr = flags) (n : ℕ)
    (hn : n ≤ seg.numPages.toNat) (hlen : 4 * n ≤ l.length)
    (h : Loaded alloc R elfBinary size hhdm root file l (fun _ => none) s0) :
    ∃ s front rest, loadPages alloc elfBinary phdr seg n s0 = some s ∧ l = front ++ rest ∧
      front.length ≤ 4 * n ∧
      Loaded alloc R elfBinary size hhdm root file rest (recordFirst (fun _ => none) seg n) s ∧
      Placed R hhdm root flags seg s0 front n s := by
  induction n with
  | zero =>
      have hnone : recordFirst (fun _ => none) seg 0 = fun _ => none := by
        funext page
        exact if_neg (by omega)
      rw [hnone]
      refine ⟨s0, [], l, rfl, rfl, by simp, h, fun _ _ => rfl, fun f hf => Or.inl hf, fun _ _ _ _ => rfl,
        fun page hpage => ?_, fun _ _ _ => rfl⟩
      rw [hnone] at hpage
      cases hpage
  | succ n ih =>
      obtain ⟨s, front, l', hfirst, rfl, hcount, hs, hplaced⟩ := ih (by omega) (by omega)
      rw [List.length_append] at hlen
      obtain ⟨page, s', p0, m1, m2, new, rest, hpage, hlast, rfl, hturn⟩ :=
        loadPage_turns phdr hfoot hl hdata hn (by omega) hs
      have hfew := hturn.few
      have hfile := (hs.shows.congr hturn.taken).kept
      refine ⟨s', front ++ p0 :: new, rest, ?_, by simp, ?_, hturn.loaded hl hn hpage hs,
        hplaced.step hl hn hpage (hflags _ hfile) hs hturn⟩
      · rw [loadPages, hfirst]
        exact hlast
      · simp only [List.length_append, List.length_cons]
        omega

end Placed

section Single

theorem pageFlags_congr {elfBinary : BitVec 64} {size i : ℕ} {file m : Memory 64}
    (hx : Executable file elfBinary size) (h : Agree file m elfBinary size)
    (hi : i < (ePhnum file elfBinary).toNat) :
    pageFlags m (headerAt file elfBinary i) = pageFlags file (headerAt file elfBinary i) := by
  have hheader := headerAt_agree hx h hi
  have hfield : (4 : BitVec 64).toNat + 4 ≤ phdrSize := by decide
  rw [pageFlags, pageFlags, pFlags, pFlags, load32, load32, load_congr (hheader.inner hfield)]

variable {σ : Type} {alloc : Memory 64 → σ → BitVec 64 × Memory 64 × σ}
variable {elfBinary : BitVec 64} {size : ℕ} {file : Memory 64} {s s' : State σ}

-- Program header number i is the only PT_LOAD one.
structure OnlyLoad (file : Memory 64) (elfBinary : BitVec 64) (i : ℕ) : Prop where
  inside : i < (ePhnum file elfBinary).toNat
  type : pType file (headerAt file elfBinary i) = ptLoad
  only : ∀ j < (ePhnum file elfBinary).toNat, pType file (headerAt file elfBinary j) = ptLoad → j = i

-- One turn of the loop over the program headers, on a memory that has the file.
theorem loadSegments_turn (hx : Executable file elfBinary size) (hfile : Agree file s.mem elfBinary size)
    (fuel : ℕ) {j : ℕ} (hj : j < (ePhnum file elfBinary).toNat) :
    loadSegments alloc elfBinary (elfBinary + ePhoff file elfBinary) (fuel + 1) j s =
      if pType file (headerAt file elfBinary j) = ptLoad then
        (loadPages alloc elfBinary (headerAt file elfBinary j)
          (readSegment file (headerAt file elfBinary j))
          (readSegment file (headerAt file elfBinary j)).numPages.toNat s).bind
          (loadSegments alloc elfBinary (elfBinary + ePhoff file elfBinary) fuel (j + 1))
      else loadSegments alloc elfBinary (elfBinary + ePhoff file elfBinary) fuel (j + 1) s := by
  obtain ⟨htype, hseg⟩ := header_congr (headerAt_agree hx hfile hj)
  rw [loadSegments, phnum_congr hfile hx.header]
  rw [headerAt] at htype hseg
  simp only [hj, if_true, htype, hseg, headerAt]
  by_cases ht : pType file (elfBinary + ePhoff file elfBinary + BitVec.ofNat 64 (j * phdrSize)) = ptLoad
  · simp only [ht, if_true]
    cases loadPages alloc elfBinary _ _ _ s with
    | none => rfl
    | some s' => rfl
  · simp only [ht, if_false]

theorem loadSegments_end (hx : Executable file elfBinary size) (hfile : Agree file s.mem elfBinary size)
    (fuel : ℕ) {j : ℕ} (hj : (ePhnum file elfBinary).toNat ≤ j) :
    loadSegments alloc elfBinary (elfBinary + ePhoff file elfBinary) (fuel + 1) j s = some s := by
  rw [loadSegments, phnum_congr hfile hx.header, if_neg (by omega)]

-- After the one segment nothing is left to load.
theorem loadSegments_rest (hx : Executable file elfBinary size) {i : ℕ}
    (hone : OnlyLoad file elfBinary i) (hfile : Agree file s.mem elfBinary size) (fuel j : ℕ)
    (hij : i < j) (hj : j ≤ (ePhnum file elfBinary).toNat)
    (hfuel : (ePhnum file elfBinary).toNat < fuel + j) :
    loadSegments alloc elfBinary (elfBinary + ePhoff file elfBinary) fuel j s = some s := by
  induction fuel generalizing j with
  | zero => omega
  | succ fuel ih =>
      by_cases hlt : j < (ePhnum file elfBinary).toNat
      · have hother : pType file (headerAt file elfBinary j) ≠ ptLoad := by
          intro ht
          have := hone.only j hlt ht
          omega
        rw [loadSegments_turn hx hfile fuel hlt, if_neg hother]
        exact ih (j + 1) (by omega) hlt (by omega)
      · exact loadSegments_end hx hfile fuel (by omega)

theorem loadSegments_only (hx : Executable file elfBinary size) {i : ℕ}
    (hone : OnlyLoad file elfBinary i) (hfile : Agree file s.mem elfBinary size)
    (hfile' : Agree file s'.mem elfBinary size)
    (hload : loadPages alloc elfBinary (headerAt file elfBinary i)
      (readSegment file (headerAt file elfBinary i))
      (readSegment file (headerAt file elfBinary i)).numPages.toNat s = some s') (fuel j : ℕ)
    (hij : j ≤ i) (hfuel : (ePhnum file elfBinary).toNat < fuel + j) :
    loadSegments alloc elfBinary (elfBinary + ePhoff file elfBinary) fuel j s = some s' := by
  have hinside := hone.inside
  induction fuel generalizing j with
  | zero => omega
  | succ fuel ih =>
      rw [loadSegments_turn hx hfile fuel (by omega)]
      by_cases he : j = i
      · subst he
        rw [if_pos hone.type, hload]
        exact loadSegments_rest hx hone hfile' fuel (j + 1) (by omega) (by omega) (by omega)
      · have hother : pType file (headerAt file elfBinary j) ≠ ptLoad :=
          fun ht => he (hone.only j (by omega) ht)
        rw [if_neg hother]
        exact ih (j + 1) (by omega) (by omega)

end Single

-- What elf_load leaves for a segment. `given` are the frames that pmm_alloc returned.
structure Filled (hhdm root elfBinary flags : BitVec 64) (seg : Segment) (given : List (BitVec 64))
    (m m' : Memory 64) : Prop where
  mapped : ∀ page, seg.Meets page →
    leafEntry hhdm m' root page = pageFrame hhdm m' root page ||| flags
  given : ∀ page, seg.Meets page → pageFrame hhdm m' root page ∈ given
  own : ∀ page page', seg.Meets page → seg.Meets page' →
    pageFrame hhdm m' root page = pageFrame hhdm m' root page' → page = page'
  others : ∀ virt, ¬seg.Meets (pageNumber virt) → pageLeaf hhdm m' root virt = pageLeaf hhdm m root virt
  bytes : ∀ v : BitVec 64, v.toNat < 2 ^ 47 → seg.Meets (pageNumber v) →
    readVirtual hhdm m' root v = some (seg.byteAt m elfBinary v)

-- The upper half of the tree has no table of the lower half and none of the frames, and
-- its tables lie apart from R.
def UpperApart (R : Set (BitVec 64)) (hhdm : BitVec 64) (m : Memory 64) (root : BitVec 64)
    (frames : List (BitVec 64)) : Prop :=
  ∀ virt, UpperHalf virt → ∀ f ∈ (walkTables hhdm m root virt).tail,
    f ∉ tables lowerHalf hhdm m root ∧ f ∉ frames ∧ Spares R hhdm f

section Filling

variable {σ : Type} {R : Set (BitVec 64)} {elfBinary hhdm root flags : BitVec 64} {size : ℕ}
variable {seg : Segment} {s s' : State σ} {l front future : List (BitVec 64)}

-- Outside of the segment's pages the processor finds what it found before.
theorem Placed.others (hready : Ready R elfBinary size hhdm root s.mem)
    (hready' : Ready R elfBinary size hhdm root s'.mem) {n : ℕ} (hframes : ∀ p ∈ front, IsFrame p)
    (hupper : UpperApart R hhdm s.mem root front) (hp : Placed R hhdm root flags seg s front n s')
    {virt : BitVec 64} (hout : recordFirst (fun _ => none) seg n (pageNumber virt) = none) :
    pageLeaf hhdm s'.mem root virt = pageLeaf hhdm s.mem root virt := by
  by_cases hv : UpperHalf virt
  · have hroot : pml4Entry hhdm s'.mem root virt = pml4Entry hhdm s.mem root virt :=
      hp.slots _ ((upperHalf_iff virt).mp hv)
    rw [pageLeaf, pageAccess, walkEntries_congr hroot, pageLeaf, pageAccess]
    intro f hf x hx
    obtain ⟨htable, hframe, hspare⟩ := hupper virt hv f hf
    have hal := walkTables_aligned hready.tree.root_aligned (List.mem_of_mem_tail hf)
    refine hp.outside x (hspare x hx) (fun g hg hxg => ?_) (fun p hp' hxp => ?_)
    · exact pages_apart hal (hready.tree.mem_aligned hg) (fun he => htable (he ▸ hg)) x hx hxg
    · exact pages_apart hal (hframes p hp').aligned (fun he => hframe (he ▸ hp')) x hx hxp
  · have hlow : (pageNumber virt).toNat < 2 ^ 35 := by
      rw [upperHalf_iff, BitVec.extractLsb'_toNat, Nat.shiftRight_eq_div_pow] at hv
      have := (pageNumber virt).isLt
      omega
    have hplain := fun {m : Memory 64} (hr : Ready R elfBinary size hhdm root m) path i f hpre =>
      hr.plain path i f (walk_on_path lowerHalf (pageNumber virt) (lower_index hlow) _ hpre)
    rw [pageLeaf_plain (hplain hready'), pageLeaf_plain (hplain hready), hp.kept _ hlow hout]

theorem filled_of_placed (hready : Ready R elfBinary size hhdm root s.mem) (hl : seg.Lower)
    (hpos : seg.memsz ≠ 0) (hfront : ∀ p ∈ front, p ∈ l) (hframes : ∀ p ∈ l, IsFrame p)
    (hupper : UpperApart R hhdm s.mem root l)
    (hshows : Shows R elfBinary size hhdm root s.mem future
      (recordFirst (fun _ => none) seg seg.numPages.toNat) s'.mem)
    (hp : Placed R hhdm root flags seg s front seg.numPages.toNat s') :
    Filled hhdm root elfBinary flags seg l s.mem s'.mem := by
  have hshown : ∀ page, seg.Meets page →
      recordFirst (fun _ => none) seg seg.numPages.toNat page = some seg := by
    intro page hpage
    exact if_pos ((hl.meets_iff hpos page).mp hpage)
  refine ⟨fun page h => (hp.mapped page (hshown page h)).2,
    fun page h => hfront _ (hp.mapped page (hshown page h)).1, ?_, ?_, ?_⟩
  · intro page page' h h' he
    exact hshows.apart page page' seg seg (hshown page h) (hshown page' h') he
  · intro virt hout
    refine hp.others hready hshows.ready (fun p hp' => hframes p (hfront p hp')) ?_ ?_
    · intro v hv f hf
      obtain ⟨htable, hframe, hspare⟩ := hupper v hv f hf
      exact ⟨htable, fun hin => hframe (hfront f hin), hspare⟩
    · exact if_neg (fun ht => hout ((hl.meets_iff hpos _).mpr ht))
  · intro v hv hpage
    have hsome := hshown _ hpage
    rw [readVirtual_of_shows hshows hv (by rw [hsome]; rfl), Image.read, hsome]
    rfl

end Filling

-- A single segment is mapped on the pages with a byte of it, each in its own frame, and
-- these pages hold its bytes of the file and zeros.
theorem segment_filled {σ : Type} (alloc : Memory 64 → σ → BitVec 64 × Memory 64 × σ)
    (R : Set (BitVec 64)) (elfBinary userPml4 root : BitVec 64) (size i : ℕ) (s : State σ)
    (seg : Segment) (l : List (BitVec 64)) (hfoot : Footprint alloc R)
    (hroot : s.pml4 = root + s.hhdmOffset)
    (hready : Ready R elfBinary size s.hhdmOffset root s.mem) (hx : Executable s.mem elfBinary size)
    (hone : OnlyLoad s.mem elfBinary i) (hseg : readSegment s.mem (headerAt s.mem elfBinary i) = seg)
    (hpos : seg.memsz ≠ 0) (hup : Upcoming alloc R s.mem s.frames l)
    (hlen : l.length = 4 * seg.numPages.toNat) (hne : ∀ p ∈ l, p ≠ 0) (hnodup : l.Nodup)
    (hfresh : ∀ p ∈ l, Unused R elfBinary size s.hhdmOffset root s.mem p)
    (hupper : UpperApart R s.hhdmOffset s.mem root l) :
    ∃ entry s', elfLoad alloc elfBinary userPml4 s = some (entry, s') ∧
      Filled s.hhdmOffset root elfBinary (pageFlags s.mem (headerAt s.mem elfBinary i)) seg l
        s.mem s'.mem := by
  have hmem : seg ∈ ptLoads s.mem elfBinary := by
    simp only [ptLoads, ptLoadsFrom, List.mem_filterMap, List.mem_range'_1]
    refine ⟨i, ⟨Nat.zero_le i, by have := hone.inside; omega⟩, ?_⟩
    rw [ptLoadAt, if_pos hone.type, hseg]
  have hl := hx.lower seg hmem
  have hstart : Loaded alloc R elfBinary size s.hhdmOffset root s.mem l (fun _ => none) s :=
    ⟨rfl, hroot, hne, hup, hready, Agree.refl _ _ _, hnodup, hfresh, by simp, by simp, by simp⟩
  obtain ⟨s', front, rest, hpages, rfl, -, hloaded, hplaced⟩ :=
    loadPages_placed hfoot hl (hx.data seg hmem)
      (fun m hagree => pageFlags_congr hx hagree hone.inside) seg.numPages.toNat le_rfl (by omega) hstart
  have hphnum := (ePhnum s.mem elfBinary).isLt
  have hload := loadSegments_only hx hone (Agree.refl _ _ _) hloaded.shows.kept
    (by rw [hseg]; exact hpages) (2 ^ 16) 0 (Nat.zero_le i) (by omega)
  refine ⟨eEntry s'.mem elfBinary, s', ?_, ?_⟩
  · simp only [elfLoad, hx.magic, hx.machine, hx.type, ne_eq, not_true_eq_false, or_self, if_false,
      Bool.not_true, Bool.false_eq_true, hload]
  · exact filled_of_placed hready hl hpos (fun p hp => List.mem_append_left rest hp)
      (fun p hp => (hfresh p hp).frame) hupper hloaded.shows hplaced

section Sample

open Miyabi.Mm.Boot

-- The executable of the samples with its second segment struck out.
def singleFile : Memory 64 := (sampleFile 0x401000).store32 (sampleBase + 120) 0

def singleState : State (List Returned) := { sampleState 0x401000 with mem := singleFile }

theorem singleFile_outside {x : BitVec 64} (hx : ¬InRange sampleBase 176 x) :
    singleFile x = lowBitmap 0xFC03 x := by
  have hout := fun h => hx (inRange_inner sampleBase 120 x (by decide : (120 : BitVec 64).toNat + 4 ≤ 176) h)
  rw [singleFile, store32, store_of_not_inRange _ _ _ _ hout, sampleFile_outside hx]

theorem singleFile_executable : Executable singleFile sampleBase 176 := by
  have hlist : ptLoads singleFile sampleBase = [⟨0x400000, 1, 1, 0⟩] := by decide +kernel
  refine ⟨by decide +kernel, by decide +kernel, by decide +kernel, by omega, by decide, by decide +kernel,
    ?_, ?_, ?_⟩
  · rw [hlist]
    intro seg hseg
    rw [List.mem_singleton.mp hseg]
    exact ⟨by decide, by decide⟩
  · rw [hlist]
    intro seg hseg
    rw [List.mem_singleton.mp hseg]
    decide
  · rw [hlist]
    exact List.pairwise_singleton _ _

theorem singleFile_only : OnlyLoad singleFile sampleBase 0 := by
  have hcount : (ePhnum singleFile sampleBase).toNat = 2 := by decide +kernel
  have hsecond : pType singleFile (headerAt singleFile sampleBase 1) ≠ ptLoad := by decide +kernel
  refine ⟨by rw [hcount]; decide, by decide +kernel, ?_⟩
  intro j hj ht
  rw [hcount] at hj
  by_contra hne
  obtain rfl : j = 1 := by omega
  exact hsecond ht

theorem singleState_upper (frames : List (BitVec 64)) :
    UpperApart (bitmapRegion lowPmm) singleState.hhdmOffset singleState.mem 0x1000 frames := by
  intro virt _ f hf
  have habsent : ¬Present (pml4Entry singleState.hhdmOffset singleState.mem 0x1000 virt) := by
    rw [pml4Entry, show slot singleState.hhdmOffset singleState.mem 0x1000 _ = 0 from
      quiet_slot (fun _ hx => singleFile_outside hx) _]
    decide
  simp only [walkTables, habsent, not_false_eq_true, if_true, List.tail_cons, List.not_mem_nil] at hf

-- The first byte of the file, and a zero after it.
theorem segment_filled_single : ∃ entry s', elfLoad (bitmapAlloc lowPmm) sampleBase 0 singleState =
    some (entry, s') ∧ readVirtual singleState.hhdmOffset s'.mem 0x1000 0x400000 = some 0x7F ∧
      readVirtual singleState.hhdmOffset s'.mem 0x1000 0x400001 = some 0 := by
  have hseg : readSegment singleState.mem (headerAt singleState.mem sampleBase 0) =
      ⟨0x400000, 1, 1, 0⟩ := by
    show readSegment singleFile (headerAt singleFile sampleBase 0) = _
    decide +kernel
  have hout := fun x (hx : ¬InRange sampleBase 176 x) => singleFile_outside hx
  -- The first four of the free frames.
  have hlen : ((lowFrames 0xFC03).take 4).length = 4 := by decide +kernel
  have hup := quiet_upcoming hout singleState.frames
  rw [← List.take_append_drop 4 (lowFrames 0xFC03)] at hup
  have hfree := fun p (hp : p ∈ (lowFrames 0xFC03).take 4) => List.mem_of_mem_take hp
  obtain ⟨entry, s', hrun, hfilled⟩ := segment_filled (bitmapAlloc lowPmm) (bitmapRegion lowPmm)
    sampleBase 0 0x1000 176 0 singleState ⟨0x400000, 1, 1, 0⟩ ((lowFrames 0xFC03).take 4)
    lowPmm_footprint rfl (quiet_ready hout) singleFile_executable singleFile_only hseg (by decide)
    hup.initial hlen (fun p hp => (lowFrames_cases (hfree p hp)).2.1)
    ((lowFrames_nodup _).sublist (List.take_sublist _ _)) (fun p hp => quiet_fresh hout root_taken p (hfree p hp))
    (singleState_upper _)
  have hmeets : Segment.Meets ⟨0x400000, 1, 1, 0⟩ (pageNumber 0x400000) := ⟨0x400000, by decide, rfl⟩
  have h0 := hfilled.bytes 0x400000 (by decide) hmeets
  have h1 := hfilled.bytes 0x400001 (by decide) hmeets
  refine ⟨entry, s', hrun, h0.trans ?_, h1.trans ?_⟩
  · show some (Segment.byteAt singleFile sampleBase ⟨0x400000, 1, 1, 0⟩ 0x400000) = some 0x7F
    decide +kernel
  · show some (Segment.byteAt singleFile sampleBase ⟨0x400000, 1, 1, 0⟩ 0x400001) = some 0
    decide +kernel

end Sample

end Miyabi.Elf.Loader
