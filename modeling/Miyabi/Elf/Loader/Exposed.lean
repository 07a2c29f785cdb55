import Miyabi.Elf.Loader.Confined

namespace Miyabi.Elf.Loader

open Miyabi.Base Miyabi.Base.Memory Miyabi.Base.TableTree Miyabi.Mm Miyabi.Mm.Vmm

-- The root entries of the upper half.
abbrev upperSlots : BitVec 9 → Prop := fun i => 256 ≤ i.toNat

-- A kernel half of plain tables whose pages are closed to user mode.
structure ClosedKernel (hhdm : BitVec 64) (m : Memory 64) (root : BitVec 64) : Prop where
  tree : Tree upperSlots hhdm m root
  plain : ∀ path i f, Walk upperSlots (path ++ [i]) → tableAt hhdm m root path = some f →
    Present (slot hhdm m f i) → Plain (slot hhdm m f i)
  closed : ∀ page, upperSlots (page.extractLsb' 27 9) →
    ¬(Present (leafEntry hhdm m root page) ∧ leafEntry hhdm m root page &&& pteUser ≠ 0)

section Copied

variable {R : Set (BitVec 64)} {m0 m : Memory 64} {hhdm kernel user : BitVec 64}

-- A PML4 that has the kernel's upper half and nothing else, made while pmm_alloc wrote
-- to its own region R.
structure Copied (R : Set (BitVec 64)) (hhdm : BitVec 64) (m0 m : Memory 64)
    (kernel user : BitVec 64) : Prop where
  aligned : Aligned user
  spares : ∀ f ∈ tables upperSlots hhdm m0 kernel, Spares R hhdm f
  unused : user ∉ tables upperSlots hhdm m0 kernel
  lower : ∀ i : BitVec 9, i.toNat < 256 → slot hhdm m user i = 0
  upper : ∀ i : BitVec 9, 256 ≤ i.toNat → slot hhdm m user i = slot hhdm m0 kernel i
  outside : ∀ x, x ∉ R → ¬InRange (user + hhdm) 4096 x → m x = m0 x

variable {path : List (BitVec 9)} {f : BitVec 64}

theorem walk_upper (hw : Walk everywhere path) (hfirst : ∀ i ∈ path.head?, upperSlots i) :
    Walk upperSlots path := ⟨hw.length, hfirst⟩

theorem Copied.slot (h : Copied R hhdm m0 m kernel user) (hk : Tree upperSlots hhdm m0 kernel)
    (hf : f ∈ tables upperSlots hhdm m0 kernel) (i : BitVec 9) :
    Vmm.slot hhdm m f i = Vmm.slot hhdm m0 f i := by
  have hal := hk.mem_aligned hf
  have hapart : Apart (f + hhdm) 4096 (user + hhdm) 4096 :=
    pages_apart hal h.aligned (fun he => h.unused (he ▸ hf))
  exact slot_congr hal (fun x hx => h.outside x (h.spares f hf x hx) (hapart x hx)) i

-- Below the root the tables are the kernel's.
theorem Copied.lookup (h : Copied R hhdm m0 m kernel user) (hk : Tree upperSlots hhdm m0 kernel)
    (hw : Walk upperSlots path) (hne : path ≠ []) :
    tableAt hhdm m user path = tableAt hhdm m0 kernel path := by
  induction path using List.reverseRecOn with
  | nil => exact absurd rfl hne
  | append_singleton path i ih =>
      have hwp := (walk_prefixClosed upperSlots).init path i hw
      rw [tableAt, tableAt, lookup_snoc, lookup_snoc]
      by_cases hnil : path = []
      · subst hnil
        show child (Vmm.slot hhdm m user i) = child (Vmm.slot hhdm m0 kernel i)
        rw [h.upper i (hw.first i rfl)]
      · have hrest := ih hwp hnil
        rw [tableAt, tableAt] at hrest
        rw [hrest]
        cases hf : TableTree.lookup child (Vmm.slot hhdm m0) kernel path with
        | none => rfl
        | some t =>
            show child (Vmm.slot hhdm m t i) = child (Vmm.slot hhdm m0 t i)
            rw [h.slot hk ⟨path, hwp, hf⟩]

theorem Copied.cases (h : Copied R hhdm m0 m kernel user) (hk : Tree upperSlots hhdm m0 kernel)
    (hw : Walk everywhere path) (hf : tableAt hhdm m user path = some f) :
    (path = [] ∧ f = user) ∨
      (path ≠ [] ∧ Walk upperSlots path ∧ tableAt hhdm m0 kernel path = some f) := by
  cases path with
  | nil => exact Or.inl ⟨rfl, (Option.some.inj hf).symm⟩
  | cons i rest =>
      by_cases hi : i.toNat < 256
      · have hz := h.lower i hi
        simp only [tableAt, TableTree.lookup, hz] at hf
        cases hf
      · have hup : Walk upperSlots (i :: rest) := by
          refine walk_upper hw (fun j hj => ?_)
          obtain rfl : i = j := by simpa using hj
          exact Nat.le_of_not_lt hi
        rw [h.lookup hk hup (by simp)] at hf
        exact Or.inr ⟨by simp, hup, hf⟩

theorem Copied.tree (h : Copied R hhdm m0 m kernel user) (hk : Tree upperSlots hhdm m0 kernel) :
    Tree everywhere hhdm m user := by
  refine ⟨h.aligned, ?_⟩
  intro p q f hp hq hfp hfq
  rcases h.cases hk hp hfp with ⟨rfl, rfl⟩ | ⟨-, hwp, hkp⟩
  · rcases h.cases hk hq hfq with ⟨rfl, -⟩ | ⟨-, hwq, hkq⟩
    · rfl
    · exact absurd ⟨q, hwq, hkq⟩ h.unused
  · rcases h.cases hk hq hfq with ⟨-, rfl⟩ | ⟨-, hwq, hkq⟩
    · exact absurd ⟨p, hwp, hkp⟩ h.unused
    · exact hk.unshared p q f hwp hwq hkp hkq

theorem Copied.plain (h : Copied R hhdm m0 m kernel user) (hk : ClosedKernel hhdm m0 kernel) (i : BitVec 9)
    (hw : Walk everywhere (path ++ [i])) (hf : tableAt hhdm m user path = some f)
    (hpres : Present (Vmm.slot hhdm m f i)) : Plain (Vmm.slot hhdm m f i) := by
  rcases h.cases hk.tree ((walk_prefixClosed everywhere).init path i hw) hf with
    ⟨rfl, rfl⟩ | ⟨hne, hwp, hkf⟩
  · by_cases hi : i.toNat < 256
    · rw [h.lower i hi] at hpres
      exact absurd (by decide) hpres
    · rw [h.upper i (Nat.le_of_not_lt hi)] at hpres ⊢
      refine hk.plain [] i kernel (walk_upper hw (fun j hj => ?_)) rfl hpres
      obtain rfl : i = j := by simpa using hj
      exact Nat.le_of_not_lt hi
  · rw [h.slot hk.tree ⟨path, hwp, hkf⟩] at hpres ⊢
    refine hk.plain path i f (walk_upper hw (fun j hj => ?_)) hkf hpres
    cases path with
    | nil => exact absurd rfl hne
    | cons k rest => exact hwp.first j hj

theorem Copied.closed (h : Copied R hhdm m0 m kernel user) (hk : ClosedKernel hhdm m0 kernel)
    {page : BitVec 36} (hpage : upperSlots (page.extractLsb' 27 9)) :
    ¬(Present (leafEntry hhdm m user page) ∧ leafEntry hhdm m user page &&& pteUser ≠ 0) := by
  have hw := walk_on_path upperSlots page hpage _ (List.prefix_refl _)
  have hleaf : leafEntry hhdm m user page = leafEntry hhdm m0 kernel page := by
    simp only [leafEntry, leafAt, h.lookup hk.tree hw (by simp [tablePath])]
    cases hf : tableAt hhdm m0 kernel (tablePath page) with
    | none => rfl
    | some t => exact h.slot hk.tree ⟨_, hw, hf⟩ _
  rw [hleaf]
  exact hk.closed page hpage

end Copied

section Load

variable {σ : Type} {alloc : Memory 64 → σ → BitVec 64 × Memory 64 × σ} {R : Set (BitVec 64)}
variable {s : Spaces σ} {hhdm user elfBinary : BitVec 64} {used : Set (BitVec 64)}
variable {base new : List (BitVec 64)}

-- The pages mapped so far are open to user mode.
structure Opened (R : Set (BitVec 64)) (hhdm user : BitVec 64) (used : Set (BitVec 64))
    (done : List (BitVec 36)) (front : List (BitVec 64)) (s : State σ) : Prop where
  loading : Loading R everywhere hhdm user used front s
  opened : ∀ page ∈ done,
    Present (leafEntry hhdm s.mem user page) ∧ leafEntry hhdm s.mem user page &&& pteUser ≠ 0

theorem opened_keeps (hfoot : Footprint alloc R) (elfBinary : BitVec 64) :
    Keeps alloc elfBinary (fun _ => True)
      (fun done => Supplied R hhdm used base (Opened R hhdm user used done)) := by
  refine supplied_keeps (fun done front new s s' phdr seg p h _ he hnew hresults => ?_)
  obtain ⟨hload, hturned⟩ := loadPage_turned hfoot h.loading trivial he hnew hresults
  obtain ⟨e, hpres, huser, hleaf⟩ := hturned.leaf
  refine ⟨hload, fun page hpage => ?_⟩
  rw [hleaf page trivial]
  by_cases hpage' : page = seg.page p
  · rw [if_pos hpage']
    exact ⟨hpres, huser⟩
  · rw [if_neg hpage']
    refine h.opened page ((List.mem_append.mp hpage).resolve_right (fun hin => ?_))
    exact hpage' (List.mem_singleton.mp hin)

theorem confined_keeps (hfoot : Footprint alloc R) {m0 : Memory 64} {kernel : BitVec 64} :
    Keeps alloc elfBinary LowerPage
      (fun _ => Supplied R hhdm used base (Confined R m0 hhdm kernel user)) :=
  supplied_keeps (fun _ _ _ _ _ _ _ _ h hlow he hnew hresults =>
    h.turn hfoot hlow he hnew (hresults.mono (Set.empty_subset _)))

section Start

variable (hfoot : Footprint alloc R) (hs : s.Switched) (hnext : s.next alloc ≠ 0)
  (hspare : ∀ f ∈ tablesOf s.hhdm s.mem s.current, Spares R s.hhdm f)
  (hresults : Results R s.hhdm (tablesOf s.hhdm s.mem s.current) [s.next alloc])

include hfoot hs hnext hspare hresults

theorem userSpace_copied :
    Copied R s.hhdm s.mem (userSpace alloc s).mem s.current (s.next alloc) := by
  obtain ⟨hal, -, hnew⟩ := userSpace_created hs hnext hresults
  have hstart := userSpace_confined hfoot hs hnext hspare hresults
  have hupper : ∀ f ∈ tables upperSlots s.hhdm s.mem s.current,
      f ∈ tablesOf s.hhdm s.mem s.current := by
    rintro f ⟨path, hw, hf⟩
    exact Or.inl ⟨path, ⟨hw.length, fun _ _ => trivial⟩, hf⟩
  refine ⟨hal, fun f hf => hspare f (hupper f hf),
    fun hin => hresults.unused _ List.mem_cons_self (hupper _ hin), hnew.lower, hstart.upper, ?_⟩
  intro x hR hx
  exact hstart.kept x hR (fun p hp => by rwa [List.mem_singleton.mp hp])

theorem userSpace_opened (hclosed : ClosedKernel s.hhdm s.mem s.current) :
    Opened R s.hhdm (s.next alloc) (tablesOf s.hhdm s.mem s.current) [] [s.next alloc]
      (userSpace alloc s).vmm := by
  have hcopied := userSpace_copied hfoot hs hnext hspare hresults
  have hload := (userSpace_confined hfoot hs hnext hspare hresults).loading
  have htables : ∀ f ∈ tables everywhere s.hhdm (userSpace alloc s).mem (s.next alloc),
      f = s.next alloc ∨ f ∈ tables upperSlots s.hhdm s.mem s.current := by
    rintro f ⟨path, hw, hf⟩
    rcases hcopied.cases hclosed.tree hw hf with ⟨-, rfl⟩ | ⟨-, hwp, hk⟩
    · exact Or.inl rfl
    · exact Or.inr ⟨path, hwp, hk⟩
  refine ⟨⟨hload.offset, hload.pml4, hcopied.tree hclosed.tree,
    fun path i f hw hf hpres => hcopied.plain hclosed i hw hf hpres, ?_, ?_⟩, by simp⟩
  · intro f hf
    rcases htables f hf with rfl | ⟨path, hw, hold⟩
    · exact Or.inr ⟨List.mem_cons_self, hnext⟩
    · exact Or.inl (Or.inl ⟨path, ⟨hw.length, fun _ _ => trivial⟩, hold⟩)
  · intro f hf
    rcases htables f hf with rfl | hold
    · exact hresults.spares _ List.mem_cons_self
    · exact hcopied.spares f hold

end Start

section Run

variable {entry : BitVec 64} {s' : State σ}
variable (hfoot : Footprint alloc R) (hs : s.Switched) (hnext : s.next alloc ≠ 0)
  (hspare : ∀ f ∈ tablesOf s.hhdm s.mem s.current, Spares R s.hhdm f)
  (hrun : elfLoad alloc elfBinary (s.next alloc) (userSpace alloc s).vmm = some (entry, s'))
  (hfresh : ∀ new, s'.handed = s.vmm.handed ++ new →
    Results R s.hhdm (tablesOf s.hhdm s.mem s.current) new)

include hrun hfresh

-- The results of pmm_alloc during the run, the first of them the new PML4.
theorem results_of_run : ∃ new, s'.handed = s.vmm.handed ++ s.next alloc :: new ∧
    Results R s.hhdm (tablesOf s.hhdm s.mem s.current) (s.next alloc :: new) := by
  have htrivial : Keeps alloc elfBinary (fun _ => True) (fun _ =>
      Supplied R s.hhdm (tablesOf s.hhdm s.mem s.current) (userSpace alloc s).vmm.handed
        (fun _ _ => True)) :=
    supplied_keeps (fun _ _ _ _ _ _ _ _ _ _ _ _ _ => trivial)
  obtain ⟨new, hnew, -⟩ := elfLoad_inv htrivial ⟨[], (List.append_nil _).symm, fun _ => trivial⟩
    (fun _ _ => trivial) hrun
  rw [userSpace_handed, List.append_assoc] at hnew
  exact ⟨new, hnew, hfresh _ hnew⟩

include hfoot hs hnext hspare

theorem kept_of_lower
    (hlow : ∀ page ∈ visitedPages alloc elfBinary (userSpace alloc s).vmm, LowerPage page) :
    KernelHalfKept s.hhdm (userSpace alloc s).mem s'.mem (s.next alloc) s.current := by
  obtain ⟨new, hnew, hresults⟩ := results_of_run hrun hfresh
  have hfirst : Results R s.hhdm (tablesOf s.hhdm s.mem s.current) [s.next alloc] :=
    (show Results R s.hhdm _ ([s.next alloc] ++ new) from hresults).left
  have hstart := userSpace_confined hfoot hs hnext hspare hfirst
  have hend := (elfLoad_inv (confined_keeps hfoot)
    ⟨[s.next alloc], userSpace_handed alloc s, fun _ => hstart⟩ hlow hrun).holds hnew hresults
  intro virt hv
  obtain ⟨huser, hkernel⟩ := hstart.access s.current_aligned hspare hfirst hv
  obtain ⟨huser', hkernel'⟩ := hend.access s.current_aligned hspare hresults hv
  exact ⟨huser'.trans huser.symm, hkernel'.trans hkernel.symm⟩

-- A page of the upper half that is mapped becomes open to user mode.
theorem lower_of_kept (hclosed : ClosedKernel s.hhdm s.mem s.current)
    (hkept : KernelHalfKept s.hhdm (userSpace alloc s).mem s'.mem (s.next alloc) s.current) :
    ∀ page ∈ visitedPages alloc elfBinary (userSpace alloc s).vmm, LowerPage page := by
  intro page hpage
  obtain ⟨new, hnew, hresults⟩ := results_of_run hrun hfresh
  have hfirst : Results R s.hhdm (tablesOf s.hhdm s.mem s.current) [s.next alloc] :=
    (show Results R s.hhdm _ ([s.next alloc] ++ new) from hresults).left
  have hcopied := userSpace_copied hfoot hs hnext hspare hfirst
  have hstart := userSpace_opened hfoot hs hnext hspare hfirst hclosed
  have hend := (elfLoad_inv (opened_keeps hfoot elfBinary)
    ⟨[s.next alloc], userSpace_handed alloc s, fun _ => hstart⟩ (fun _ _ => trivial) hrun).holds hnew
      hresults
  by_contra hup
  have hupper : upperSlots (page.extractLsb' 27 9) := Nat.le_of_not_lt hup
  obtain ⟨seg, -, hin⟩ := List.mem_flatMap.mp hpage
  obtain ⟨p, -, hp⟩ := List.mem_map.mp hin
  generalize hvirt : seg.pageVaddr + BitVec.ofNat 64 p * 0x1000 = virt
  have hnumber : pageNumber virt = page := by
    rw [← hvirt]
    exact hp
  obtain ⟨hpres, huser⟩ := hend.opened page hpage
  subst hnumber
  have hafter := pageLeaf_of_leaf hpres
  have hsame : pageLeaf s.hhdm s'.mem (s.next alloc) virt =
      pageLeaf s.hhdm (userSpace alloc s).mem (s.next alloc) virt := by
    rw [pageLeaf, (hkept virt ((upperHalf_iff virt).mpr hupper)).1, pageLeaf]
  rw [hsame] at hafter
  have hplain : Present (pml4Entry s.hhdm (userSpace alloc s).mem (s.next alloc) virt) →
      Plain (pml4Entry s.hhdm (userSpace alloc s).mem (s.next alloc) virt) := by
    have hw : Walk everywhere ([] ++ [(pageNumber virt).extractLsb' 27 9]) :=
      ⟨by simp, fun _ _ => trivial⟩
    exact hcopied.plain hclosed _ hw rfl
  obtain ⟨hleaf, hbefore⟩ := leaf_of_pageLeaf hplain hafter
  exact hcopied.closed hclosed hupper ⟨hleaf ▸ hbefore, hleaf ▸ huser⟩

end Run

end Load

-- If no page that is mapped has bit 47 set, elf_load leaves the kernel half alone,
-- whatever else the file says; in a kernel half closed to user mode the converse
-- holds; and segments below 2^47 have no such page. pmm_alloc writes to R.
theorem kernel_half_kept_iff {σ : Type} (alloc : Memory 64 → σ → BitVec 64 × Memory 64 × σ)
    (R : Set (BitVec 64)) (s : Spaces σ) (elfBinary entry : BitVec 64) (s' : State σ)
    (hfoot : Footprint alloc R) (hs : s.Switched) (hnext : s.next alloc ≠ 0)
    (hspare : ∀ f ∈ tablesOf s.hhdm s.mem s.current, Spares R s.hhdm f)
    (hrun : elfLoad alloc elfBinary (s.next alloc) (userSpace alloc s).vmm = some (entry, s'))
    (hfresh : ∀ new, s'.handed = s.vmm.handed ++ new →
      Results R s.hhdm (tablesOf s.hhdm s.mem s.current) new) :
    ((∀ page ∈ visitedPages alloc elfBinary (userSpace alloc s).vmm, LowerPage page) →
      KernelHalfKept s.hhdm (userSpace alloc s).mem s'.mem (s.next alloc) s.current) ∧
    (ClosedKernel s.hhdm s.mem s.current →
      KernelHalfKept s.hhdm (userSpace alloc s).mem s'.mem (s.next alloc) s.current →
      ∀ page ∈ visitedPages alloc elfBinary (userSpace alloc s).vmm, LowerPage page) ∧
    ((∀ seg ∈ loadedSegments alloc elfBinary (userSpace alloc s).vmm, seg.Below) →
      KernelHalfKept s.hhdm (userSpace alloc s).mem s'.mem (s.next alloc) s.current) := by
  have hkept := kept_of_lower hfoot hs hnext hspare hrun hfresh
  refine ⟨hkept, lower_of_kept hfoot hs hnext hspare hrun hfresh, fun hbelow => hkept ?_⟩
  intro page hpage
  obtain ⟨seg, hseg, hin⟩ := List.mem_flatMap.mp hpage
  exact (hbelow seg hseg).pages_lower hin

section Sample

open Miyabi.Mm.Boot

-- An executable with one segment of one byte. Frames 2 to 9 are free.
def loneFile (vaddr : BitVec 64) : Memory 64 :=
  let m : Memory 64 := lowBitmap 0xFC03
  let m := m.store32 (sampleBase + 0) 0x464C457F
  let m := m.store32 (sampleBase + 16) 0x003E0002
  let m := m.store64 (sampleBase + 32) 64
  let m := m.store32 (sampleBase + 56) 1
  let m := m.store32 (sampleBase + 64) 1
  let m := m.store64 (sampleBase + 80) vaddr
  m.store64 (sampleBase + 104) 1

-- A kernel in frame 1 with nothing mapped, next to the file.
def loneSpace (vaddr : BitVec 64) : Spaces (List Returned) :=
  ⟨⟨loneFile vaddr, 0xFFFF800000000000, 0xFFFF800000001000, [], []⟩, 0x1000, 0x1000, []⟩

variable {vaddr : BitVec 64}

theorem loneFile_outside {x : BitVec 64} (hx : ¬InRange sampleBase 176 x) :
    loneFile vaddr x = lowBitmap 0xFC03 x := by
  have hout := fun (n : ℕ) (d : BitVec 64) (v : BitVec (8 * n)) (m : Memory 64)
    (hd : d.toNat + n ≤ 176) =>
    store_of_not_inRange m (sampleBase + d) x v (fun h => hx (inRange_inner sampleBase d x hd h))
  simp only [loneFile, store32, store64]
  rw [hout 8 104 _ _ (by decide), hout 8 80 _ _ (by decide), hout 4 64 _ _ (by decide),
    hout 4 56 _ _ (by decide), hout 8 32 _ _ (by decide), hout 4 16 _ _ (by decide),
    hout 4 0 _ _ (by decide)]

theorem loneSpace_current : (loneSpace vaddr).current = 0x1000 :=
  show (0x1000 : BitVec 64) &&& ~~~0xFFF = 0x1000 by decide

theorem loneSpace_switched : (loneSpace vaddr).Switched := by
  refine ⟨?_, ?_⟩
  · rw [loneSpace_current]
    show (0xFFFF800000001000 : BitVec 64) = 0x1000 + 0xFFFF800000000000
    decide
  · rw [loneSpace_current]
    exact List.mem_cons_self

theorem loneSpace_slot (i : BitVec 9) :
    slot (loneSpace vaddr).hhdm (loneSpace vaddr).mem (loneSpace vaddr).current i = 0 := by
  rw [loneSpace_current]
  exact quiet_slot (fun _ hx => loneFile_outside hx) i

theorem loneSpace_tables {f : BitVec 64}
    (hf : f ∈ tablesOf (loneSpace vaddr).hhdm (loneSpace vaddr).mem (loneSpace vaddr).current) :
    f = (loneSpace vaddr).current := by
  rcases hf with hf | ⟨virt, hf⟩
  · exact tables_empty loneSpace_slot hf
  · have habs : ¬Present (pml4Entry (loneSpace vaddr).hhdm (loneSpace vaddr).mem
        (loneSpace vaddr).current virt) := by
      rw [pml4Entry, loneSpace_slot]
      exact fun h => h (by decide)
    simpa only [walkTables, habs, not_false_eq_true, if_true, List.mem_singleton] using hf

theorem loneSpace_spares {f : BitVec 64}
    (hf : f ∈ tablesOf (loneSpace vaddr).hhdm (loneSpace vaddr).mem (loneSpace vaddr).current) :
    Spares (bitmapRegion lowPmm) (loneSpace vaddr).hhdm f := by
  rw [loneSpace_tables hf, loneSpace_current]
  exact lowPmm_spares rfl (by decide)

-- A page in four levels takes five frames, the PML4 among them.
theorem loneSpace_results {s' : State (List Returned)}
    (hrun : s'.handed = [0x2000, 0x3000, 0x4000, 0x5000, 0x6000]) (new : List (BitVec 64))
    (hnew : s'.handed = (loneSpace vaddr).vmm.handed ++ new) :
    Results (bitmapRegion lowPmm) (loneSpace vaddr).hhdm
      (tablesOf (loneSpace vaddr).hhdm (loneSpace vaddr).mem (loneSpace vaddr).current) new := by
  obtain rfl : new = [0x2000, 0x3000, 0x4000, 0x5000, 0x6000] := hnew.symm.trans hrun
  have hall : ([0x2000, 0x3000, 0x4000, 0x5000, 0x6000] : List (BitVec 64)).all
      (fun p => IsFrame p ∧ p ≠ 0 ∧ p ≠ 0x1000) = true := by decide
  have hframe := fun p hp => of_decide_eq_true (List.all_eq_true.mp hall p hp)
  refine ⟨fun p hp => (hframe p hp).1, fun p hp hin => (hframe p hp).2.2 ?_, fun p hp => ?_, ?_⟩
  · rw [loneSpace_tables hin, loneSpace_current]
  · exact lowPmm_spares (hframe p hp).1.aligned (hframe p hp).2.1
  · simp

theorem loneSpace_closed :
    ClosedKernel (loneSpace vaddr).hhdm (loneSpace vaddr).mem (loneSpace vaddr).current := by
  refine ⟨tree_empty (loneSpace vaddr).current_aligned loneSpace_slot, ?_, ?_⟩
  · intro path i f _ hf hpres
    rw [(lookup_empty loneSpace_slot hf).2, loneSpace_slot] at hpres
    exact absurd (by decide) hpres
  · rintro page - ⟨hpres, -⟩
    unfold leafEntry leafAt at hpres
    split at hpres
    · exact hpres (by decide)
    · rename_i f hf
      exact absurd (lookup_empty loneSpace_slot hf).1 (by simp [tablePath])

-- A program in the lower half.
theorem kernel_half_kept_below : ∃ entry s',
    elfLoad (bitmapAlloc lowPmm) sampleBase 0x2000
      (userSpace (bitmapAlloc lowPmm) (loneSpace 0x400000)).vmm = some (entry, s') ∧
      KernelHalfKept (loneSpace 0x400000).hhdm
        (userSpace (bitmapAlloc lowPmm) (loneSpace 0x400000)).mem s'.mem 0x2000 0x1000 := by
  have hnext : (loneSpace 0x400000).next (bitmapAlloc lowPmm) = 0x2000 := by decide +kernel
  have hload : (elfLoad (bitmapAlloc lowPmm) sampleBase 0x2000
      (userSpace (bitmapAlloc lowPmm) (loneSpace 0x400000)).vmm).map (fun r => r.2.handed) =
        some [0x2000, 0x3000, 0x4000, 0x5000, 0x6000] ∧
      loadedSegments (bitmapAlloc lowPmm) sampleBase
        (userSpace (bitmapAlloc lowPmm) (loneSpace 0x400000)).vmm = [⟨0x400000, 1, 0, 0⟩] := by
    decide +kernel
  obtain ⟨⟨entry, s'⟩, hrun, hhanded⟩ := Option.map_eq_some_iff.mp hload.1
  rw [← hnext] at hrun
  obtain ⟨-, -, hkept⟩ := kernel_half_kept_iff (bitmapAlloc lowPmm) (bitmapRegion lowPmm)
    (loneSpace 0x400000) sampleBase entry s' lowPmm_footprint loneSpace_switched
    (by rw [hnext]; decide) (fun f hf => loneSpace_spares hf) hrun (loneSpace_results hhanded)
  rw [hnext, loneSpace_current] at hkept
  rw [hnext] at hrun
  refine ⟨entry, s', hrun, hkept ?_⟩
  rw [hload.2]
  simp [Segment.Below]

-- A program that asks for a page of the upper half gets it, open to user mode.
theorem kernel_half_opened :
    ¬∀ (p : Pmm.Statics) (s : Spaces (List Returned)) (elfBinary entry : BitVec 64)
      (s' : State (List Returned)), Pmm.WellSized p → s.Switched → s.next (bitmapAlloc p) ≠ 0 →
      (∀ f ∈ tablesOf s.hhdm s.mem s.current, Spares (bitmapRegion p) s.hhdm f) →
      elfLoad (bitmapAlloc p) elfBinary (s.next (bitmapAlloc p)) (userSpace (bitmapAlloc p) s).vmm =
        some (entry, s') →
      (∀ new, s'.handed = s.vmm.handed ++ new →
        Results (bitmapRegion p) s.hhdm (tablesOf s.hhdm s.mem s.current) new) →
      KernelHalfKept s.hhdm (userSpace (bitmapAlloc p) s).mem s'.mem (s.next (bitmapAlloc p)) s.current ∧
        ∀ seg ∈ loadedSegments (bitmapAlloc p) elfBinary (userSpace (bitmapAlloc p) s).vmm,
          seg.numPages ≠ 0 → seg.vaddr.toNat + seg.memsz.toNat ≤ 2 ^ 47 := by
  intro hall
  have hnext : (loneSpace 0xFFFF900000000000).next (bitmapAlloc lowPmm) = 0x2000 := by decide +kernel
  have hload : (elfLoad (bitmapAlloc lowPmm) sampleBase 0x2000
      (userSpace (bitmapAlloc lowPmm) (loneSpace 0xFFFF900000000000)).vmm).map
        (fun r => r.2.handed) = some [0x2000, 0x3000, 0x4000, 0x5000, 0x6000] ∧
      loadedSegments (bitmapAlloc lowPmm) sampleBase
        (userSpace (bitmapAlloc lowPmm) (loneSpace 0xFFFF900000000000)).vmm =
        [⟨0xFFFF900000000000, 1, 0, 0⟩] := by
    decide +kernel
  obtain ⟨⟨entry, s'⟩, hrun, hhanded⟩ := Option.map_eq_some_iff.mp hload.1
  rw [← hnext] at hrun
  have hne : (loneSpace 0xFFFF900000000000).next (bitmapAlloc lowPmm) ≠ 0 := by
    rw [hnext]
    decide
  have hspare := fun f hf => @loneSpace_spares 0xFFFF900000000000 f hf
  obtain ⟨hkept, -⟩ := hall lowPmm (loneSpace 0xFFFF900000000000) sampleBase entry s'
    lowPmm_wellSized loneSpace_switched hne hspare hrun (loneSpace_results hhanded)
  have hlow := lower_of_kept lowPmm_footprint loneSpace_switched hne hspare hrun
    (loneSpace_results hhanded) loneSpace_closed hkept
  have hpage : Segment.page ⟨0xFFFF900000000000, 1, 0, 0⟩ 0 ∈ visitedPages (bitmapAlloc lowPmm) sampleBase
      (userSpace (bitmapAlloc lowPmm) (loneSpace 0xFFFF900000000000)).vmm := by
    rw [visitedPages, hload.2]
    simp only [List.flatMap_cons, List.flatMap_nil, List.append_nil, Segment.pages]
    exact List.mem_map.mpr ⟨0, List.mem_range.mpr (by decide), rfl⟩
  exact absurd (hlow _ hpage) (by decide)

end Sample

end Miyabi.Elf.Loader
