import Mathlib
import Miyabi.Mm.Pmm.Alloc

namespace Miyabi.Mm.Pmm

open Miyabi.Base Miyabi.Base.Memory

-- The frames that the map offers for allocation.
def availableFrames (boot : BootInfo) (map : List MemmapEntry) : Set ℕ :=
  {f | f ∈ releasedFrames boot isReclaimable map ∧ 1 ≤ f}

-- The frames that hold the bitmap.
def bitmapFrames (p : Statics) : Set ℕ :=
  Set.Ico (p.bitmapPhys.toNat / 4096) (p.bitmapPhys.toNat / 4096 + p.bitmapPages.toNat)

section Initialised

variable {boot : BootInfo} {map : List MemmapEntry} {m m' : Memory 64} {p : Statics}

theorem Initialised.wellSized (h : Initialised boot map m p m')
    (hspace : ∀ entry ∈ map, entry.InSpace) : WellSized p := by
  have hhigh := highestEnd_le hspace
  have hcount := h.pageCount
  have hbytes := h.bitmapBytes
  constructor <;> omega

theorem stop_le_pageCount (h : Initialised boot map m p m')
    (hspace : ∀ entry ∈ map, entry.InSpace) {entry : MemmapEntry} (he : entry ∈ map) :
    entry.stop ≤ p.pageCount.toNat := by
  have hend := le_highestEnd hspace entry he
  rw [h.pageCount, MemmapEntry.stop]
  omega

theorem Initialised.freeFrames (h : Initialised boot map m p m')
    (hspace : ∀ entry ∈ map, entry.InSpace) : freeFrames p m' = availableFrames boot map := by
  have hcov := (h.wellSized hspace).covered
  ext f
  simp only [Pmm.freeFrames, availableFrames, Set.mem_ofPred_eq]
  constructor
  · rintro ⟨hf, h1, hlt⟩
    exact ⟨(h.free f (by omega)).mp hf, h1⟩
  · rintro ⟨hf, h1⟩
    obtain ⟨entry, he, -, -, hin⟩ := id hf
    have hstop := stop_le_pageCount h hspace he
    have hlt : f < entry.stop := hin.2
    exact ⟨(h.free f (by omega)).mpr hf, h1, by omega⟩

end Initialised

section Calls

variable {p : Statics} {m : Memory 64}

-- A call that does not return NULL returns the address of a free frame.
theorem allocResult_frame (hp : WellSized p) {k : ℕ} (hk : allocResult p m k ≠ 0) :
    ∃ f ∈ freeFrames p m, frameOf (allocResult p m k) = some f ∧
      (allocResult p m k).toNat = f * 4096 := by
  rcases pmmAlloc_spec hp (m := afterAllocs p m k) with ⟨-, he⟩ | ⟨f, m', hleast, he, -, -⟩
  · rw [allocResult, he] at hk
    exact absurd rfl hk
  · have hlt := hp.pageCount_lt
    have hf := hleast.1.2
    have hframe : frameOf (allocResult p m k) = some f := by
      rw [allocResult, he]
      exact frameOf_frame (by omega) hf.1
    refine ⟨f, (allocs_leastFirst hp).drawn_mem hframe, hframe, ?_⟩
    rw [allocResult, he]
    exact toNat_frame (by omega)

theorem frameOf_eq_none {addr : BitVec 64} : frameOf addr = none ↔ addr = 0 := by
  unfold frameOf
  split <;> simp_all

theorem frameOf_allocResult (hp : WellSized p) {k f : ℕ}
    (hk : frameOf (allocResult p m k) = some f) : (allocResult p m k).toNat = f * 4096 := by
  have hne : allocResult p m k ≠ 0 := by
    intro hz
    rw [frameOf_eq_none.mpr hz] at hk
    cases hk
  obtain ⟨g, -, hg, hnat⟩ := allocResult_frame hp hne
  rw [hk] at hg
  cases hg
  exact hnat

theorem freeFrames_finite : (freeFrames p m).Finite :=
  (Set.finite_Iio p.pageCount.toNat).subset (fun _ hf => hf.2.2)

end Calls

-- Allocation is sound, without duplicates and without loss.
theorem pmm_allocation_sound (boot : BootInfo) (map : List MemmapEntry) (m m' : Memory 64)
    (p : Statics) (hmap : boot.memmap = some map) (hspace : ∀ entry ∈ map, entry.InSpace)
    (hinit : initPmm boot m = some (p, m')) :
    (∀ k, allocResult p m' k ≠ 0 →
      ∃ f ∈ availableFrames boot map, (allocResult p m' k).toNat = f * 4096) ∧
    (∀ j k, j < k → allocResult p m' k ≠ 0 →
      allocResult p m' j ≠ 0 ∧ allocResult p m' j < allocResult p m' k) ∧
    (∀ k, allocResult p m' k = 0 →
      (∀ f ∈ availableFrames boot map, f ∉ bitmapFrames p →
        ∃ j < k, (allocResult p m' j).toNat = f * 4096) ∧
      ∀ j, k ≤ j → allocResult p m' j = 0) ∧
    (map.Pairwise (fun a b => Disjoint a.bytes b.bytes) → ∀ k, allocResult p m' k ≠ 0 →
      ∀ entry ∈ map, isReclaimable entry.type = false → Disjoint entry.bytes
        (Set.Ico (allocResult p m' k).toNat ((allocResult p m' k).toNat + 4096))) := by
  have h := initPmm_spec hmap hspace hinit
  have hp := h.wellSized hspace
  have hfree := h.freeFrames hspace
  have hdraw := allocs_leastFirst hp (m := m')
  have hsound : ∀ k, allocResult p m' k ≠ 0 →
      ∃ f ∈ availableFrames boot map, (allocResult p m' k).toNat = f * 4096 := by
    intro k hk
    obtain ⟨f, hf, -, hnat⟩ := allocResult_frame hp hk
    exact ⟨f, hfree ▸ hf, hnat⟩
  refine ⟨hsound, ?_, ?_, ?_⟩
  · intro j k hjk hk
    have hj : allocResult p m' j ≠ 0 := by
      intro hz
      exact hk (frameOf_eq_none.mp (hdraw.none_after hjk.le (frameOf_eq_none.mpr hz)))
    obtain ⟨f, -, hf, hfnat⟩ := allocResult_frame hp hj
    obtain ⟨g, -, hg, hgnat⟩ := allocResult_frame hp hk
    have hlt := hdraw.drawn_lt hjk hf hg
    refine ⟨hj, ?_⟩
    rw [BitVec.lt_def, hfnat, hgnat]
    omega
  · intro k hk
    have hnone := frameOf_eq_none.mpr hk
    refine ⟨fun f hf _ => ?_, fun j hkj => frameOf_eq_none.mp (hdraw.none_after hkj hnone)⟩
    obtain ⟨j, hj, hdrawn⟩ := hdraw.all_drawn hnone (hfree ▸ hf : f ∈ freeFrames p m')
    exact ⟨j, hj, frameOf_allocResult hp hdrawn⟩
  · intro hdisjoint k hk entry he hkind
    obtain ⟨f, ⟨⟨owner, ho, hokind, -, hin⟩, -⟩, hnat⟩ := hsound k hk
    have hne : entry ≠ owner := by
      intro heq
      rw [heq, hokind] at hkind
      cases hkind
    have hsymm : Std.Symm (fun a b : MemmapEntry => Disjoint a.bytes b.bytes) :=
      ⟨fun a b hab => hab.symm⟩
    have hpair := hdisjoint.forall he ho hne
    refine hpair.mono_right ?_
    rw [hnat]
    intro x hx
    simp only [MemmapEntry.interior, MemmapEntry.first, MemmapEntry.stop, Set.mem_Ico] at hin
    simp only [MemmapEntry.bytes, Set.mem_Ico] at hx ⊢
    omega

-- USABLE memory that is not page-aligned, a reserved hole, and two reclaimable regions.
def mixedMap : List MemmapEntry :=
  [⟨0x1800, 0x6900, .usable⟩, ⟨0x8100, 0x1F00, .other 1⟩, ⟨0xA000, 0x2000, .acpiReclaimable⟩,
    ⟨0xC000, 0x2000, .bootloaderReclaimable⟩]

def mixedBoot : BootInfo :=
  ⟨some mixedMap, some 0xFFFF800000000000, 0xFFFFFFFF80000000, 0xFFFFFFFF80100000⟩

theorem pmm_allocation_sound_mixed :
    ∃ p m', initPmm mixedBoot (fun _ => 0) = some (p, m') ∧
      (∀ k, allocResult p m' k ≠ 0 →
        ∃ f ∈ availableFrames mixedBoot mixedMap, (allocResult p m' k).toNat = f * 4096) ∧
      (∀ j k, j < k → allocResult p m' k ≠ 0 →
        allocResult p m' j ≠ 0 ∧ allocResult p m' j < allocResult p m' k) ∧
      ∀ k, allocResult p m' k ≠ 0 → Disjoint (Set.Ico 0x8100 0xA000)
        (Set.Ico (allocResult p m' k).toNat ((allocResult p m' k).toNat + 4096)) := by
  have hsome : (initPmm mixedBoot (fun _ => 0)).isSome = true := by decide +kernel
  obtain ⟨⟨p, m'⟩, hinit⟩ := Option.isSome_iff_exists.mp hsome
  have hspace : ∀ entry ∈ mixedMap, entry.InSpace := by
    simp [mixedMap, MemmapEntry.InSpace]
  have hdisjoint : mixedMap.Pairwise (fun a b => Disjoint a.bytes b.bytes) := by
    simp [mixedMap, MemmapEntry.bytes]
  obtain ⟨hsound, horder, -, hapart⟩ := pmm_allocation_sound _ _ _ _ _ rfl hspace hinit
  refine ⟨p, m', hinit, hsound, horder, fun k hk => ?_⟩
  exact hapart hdisjoint k hk ⟨0x8100, 0x1F00, .other 1⟩ (by simp [mixedMap]) rfl

-- One USABLE entry of two pages, far from the kernel.
def smallMap (base : BitVec 64) : List MemmapEntry := [⟨base, 0x2000, .usable⟩]

def smallBoot (base : BitVec 64) : BootInfo :=
  ⟨some (smallMap base), some 0xFFFF800000000000, 0xFFFFFFFF80000000, 0xFFFFFFFF80100000⟩

section Bitmap

variable {boot : BootInfo} {map : List MemmapEntry} {m m' : Memory 64} {p : Statics}

-- No call of pmm_alloc returns a frame of the bitmap, or frame 0.
def SparesBitmap (p : Statics) (m : Memory 64) : Prop :=
  ∀ k, allocResult p m k ≠ 0 →
    (allocResult p m k).toNat / 4096 ∉ bitmapFrames p ∧ (allocResult p m k).toNat / 4096 ≠ 0

-- The only case in which the last pass of init_pmm leaves the bitmap reserved: it
-- is one page long, and that page is frame 0.
structure BitmapAtZero (boot : BootInfo) (map : List MemmapEntry) : Prop where
  first : ∃ pre entry post, map = pre ++ entry :: post ∧ (∀ c ∈ pre, ¬Room boot 1 c) ∧
    Room boot 1 entry ∧ entry.base = 0
  small : ∀ entry ∈ map, entry.base.toNat + entry.length.toNat ≤ 2 ^ 27

theorem bitmapFrames_released (h : Initialised boot map m p m')
    (hspace : ∀ entry ∈ map, entry.InSpace) :
    bitmapFrames p ⊆ releasedFrames boot isReclaimable map := by
  have hhigh := highestEnd_le hspace
  have hcount := h.pageCount
  have hbytes := h.bitmapBytes
  have hpages := h.bitmapPages
  obtain ⟨pre, entry, post, hsplit, -, hr, hphys⟩ := findRoom_spec hspace (by omega) h.room
  have hm : entry ∈ map := by simp [hsplit]
  intro f hf
  refine ⟨entry, hm, by simp [isReclaimable, hr.usable], hr.kernel, ?_⟩
  have hlarge := hr.large
  simp only [bitmapFrames, hphys, toNat_frame (InSpace.first_lt (hspace entry hm)), Set.mem_Ico] at hf
  simp only [MemmapEntry.interior, Set.mem_Ico]
  omega

-- Every released frame but frame 0 is returned sooner or later.
theorem sparesBitmap_iff_subset (h : Initialised boot map m p m')
    (hspace : ∀ entry ∈ map, entry.InSpace) : SparesBitmap p m' ↔ bitmapFrames p ⊆ {0} := by
  have hp := h.wellSized hspace
  have hfree := h.freeFrames hspace
  have hdraw := allocs_leastFirst hp (m := m')
  constructor
  · intro hs f hf
    by_contra hne
    have hpos : 1 ≤ f := Nat.one_le_iff_ne_zero.mpr hne
    have hin : f ∈ freeFrames p m' := hfree ▸ ⟨bitmapFrames_released h hspace hf, hpos⟩
    obtain ⟨k, hk⟩ := hdraw.eventually_drawn freeFrames_finite hin
    have hnat := frameOf_allocResult hp hk
    have hresult : allocResult p m' k ≠ 0 := by
      intro hz
      rw [hz] at hk
      cases hk
    have hspare := (hs k hresult).1
    rw [hnat, Nat.mul_div_cancel _ (by omega)] at hspare
    exact hspare hf
  · intro hsub k hk
    obtain ⟨f, hf, -, hnat⟩ := allocResult_frame hp hk
    have hpos := hf.2.1
    rw [hnat, Nat.mul_div_cancel _ (by omega)]
    refine ⟨fun hin => ?_, by omega⟩
    have hz : f = 0 := hsub hin
    omega

theorem first_unique {α : Type} {P : α → Prop} {l pre pre' post post' : List α} {a a' : α}
    (h : l = pre ++ a :: post) (h' : l = pre' ++ a' :: post') (hpre : ∀ c ∈ pre, ¬P c)
    (hpre' : ∀ c ∈ pre', ¬P c) (ha : P a) (ha' : P a') : a = a' := by
  classical
  have hfind : l.find? (fun c => decide (P c)) = some a :=
    List.find?_eq_some_iff_append.mpr ⟨by simpa using ha, pre, post, h, by simpa using hpre⟩
  have hfind' : l.find? (fun c => decide (P c)) = some a' :=
    List.find?_eq_some_iff_append.mpr ⟨by simpa using ha', pre', post', h', by simpa using hpre'⟩
  exact Option.some.inj (hfind.symm.trans hfind')

-- The allocator keeps its bitmap to itself exactly in that case.
theorem sparesBitmap_iff (boot : BootInfo) (map : List MemmapEntry) (m m' : Memory 64)
    (p : Statics) (hmap : boot.memmap = some map) (hspace : ∀ entry ∈ map, entry.InSpace)
    (hinit : initPmm boot m = some (p, m')) : SparesBitmap p m' ↔ BitmapAtZero boot map := by
  have h := initPmm_spec hmap hspace hinit
  have hhigh := highestEnd_le hspace
  have hcount := h.pageCount
  have hbytes := h.bitmapBytes
  have hpages := h.bitmapPages
  obtain ⟨pre, entry, post, hsplit, hpre, hr, hphys⟩ := findRoom_spec hspace (by omega) h.room
  have hm : entry ∈ map := by simp [hsplit]
  have hend := le_highestEnd hspace entry hm
  have hstop : entry.stop * 4096 ≤ (highestEnd map).toNat := by
    simp only [MemmapEntry.stop]
    omega
  have hroom := hr.nonempty
  have hfirst := toNat_frame (InSpace.first_lt (hspace entry hm))
  rw [sparesBitmap_iff_subset h hspace]
  simp only [bitmapFrames, hphys, hfirst, Nat.mul_div_cancel _ (show 0 < 4096 by omega)]
  constructor
  · intro hsub
    have hzero : entry.first = 0 := hsub ⟨le_rfl, by omega⟩
    have hone : p.bitmapPages.toNat = 1 := by
      by_contra hne
      have hin : entry.first + 1 ∈ ({0} : Set ℕ) := hsub ⟨by omega, by omega⟩
      simp at hin
    rw [hone] at hpre hr
    refine ⟨⟨pre, entry, post, hsplit, hpre, hr, ?_⟩, ?_⟩
    · simp only [MemmapEntry.first] at hzero
      bv_omega
    · exact (highestEnd_le_iff map hspace _).mp (by omega)
  · rintro ⟨⟨pre', entry', post', hsplit', hpre', hr', hbase⟩, hsmall⟩
    have hle := (highestEnd_le_iff map hspace _).mpr hsmall
    have hone : p.bitmapPages.toNat = 1 := by omega
    rw [hone] at hpre hr ⊢
    obtain rfl := first_unique hsplit hsplit' hpre hpre' hr hr'
    have hzero : entry.first = 0 := by
      simp [MemmapEntry.first, hbase]
    rw [hzero]
    intro f hf
    have hlt := hf.2
    exact Nat.lt_one_iff.mp (by omega)

theorem sparesBitmap_small :
    ∃ p m', initPmm (smallBoot 0) (fun _ => 0) = some (p, m') ∧ SparesBitmap p m' := by
  have hsome : (initPmm (smallBoot 0) (fun _ => 0)).isSome = true := by decide
  obtain ⟨⟨p, m'⟩, hinit⟩ := Option.isSome_iff_exists.mp hsome
  have hspace : ∀ entry ∈ smallMap 0, entry.InSpace := by
    simp [smallMap, MemmapEntry.InSpace]
  have hroom : Room (smallBoot 0) 1 ⟨0, 0x2000, .usable⟩ :=
    ⟨rfl, by decide, by simp [OverlapsKernel, smallBoot, MemmapEntry.first, MemmapEntry.stop], by decide⟩
  have hzero : BitmapAtZero (smallBoot 0) (smallMap 0) :=
    ⟨⟨[], _, [], rfl, by simp, hroom, rfl⟩, by simp [smallMap]⟩
  exact ⟨p, m', hinit, (sparesBitmap_iff _ _ _ _ _ rfl hspace hinit).mpr hzero⟩

-- With the same entry one page higher the first call returns the bitmap's frame.
theorem bitmap_frame_returned :
    ¬∀ (boot : BootInfo) (map : List MemmapEntry) (m m' : Memory 64) (p : Statics),
      boot.memmap = some map → (∀ entry ∈ map, entry.InSpace) → initPmm boot m = some (p, m') →
        SparesBitmap p m' := by
  intro hall
  have hrun : (initPmm (smallBoot 0x1000) (fun _ => 0)).map
      (fun s => (allocResult s.1 s.2 0, s.1.bitmapPhys, s.1.bitmapPages)) =
        some (0x1000, 0x1000, 1) := by decide
  obtain ⟨⟨p, m'⟩, hinit, hvalues⟩ := Option.map_eq_some_iff.mp hrun
  simp only [Prod.mk.injEq] at hvalues
  have hspace : ∀ entry ∈ smallMap 0x1000, entry.InSpace := by
    simp [smallMap, MemmapEntry.InSpace]
  have hspare := (hall _ _ _ _ _ rfl hspace hinit 0 (by rw [hvalues.1]; decide)).1
  refine hspare ?_
  simp only [bitmapFrames, hvalues.1, hvalues.2.1, hvalues.2.2]
  decide

end Bitmap

end Miyabi.Mm.Pmm
