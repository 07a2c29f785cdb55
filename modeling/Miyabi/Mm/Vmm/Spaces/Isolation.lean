import Miyabi.Mm.Vmm.Spaces

namespace Miyabi.Mm.Vmm.Spaces.Isolation

open Miyabi.Base Miyabi.Base.Memory Miyabi.Base.TableTree Miyabi.Base.Transition

-- The lower half of a PML4 as a tree without huge entries and without bits above
-- bit 51 in its intermediate entries.
structure PlainTree (hhdm : BitVec 64) (m : Memory 64) (root : BitVec 64) : Prop where
  tree : Tree lowerSlots hhdm m root
  plain : ∀ path i f, Walk lowerSlots (path ++ [i]) → tableAt hhdm m root path = some f →
    Present (slot hhdm m f i) → Plain (slot hhdm m f i)

abbrev lowerTables (hhdm : BitVec 64) (m : Memory 64) (root : BitVec 64) : Set (BitVec 64) :=
  tables lowerSlots hhdm m root

section Runs

variable {σ : Type} (alloc : Memory 64 → σ → BitVec 64 × Memory 64 × σ) (R : Set (BitVec 64))

-- A frame that is a table, of either half, under one of the PML4s.
def InUse (s : Spaces σ) (f : BitVec 64) : Prop :=
  ∃ root ∈ s.roots, f ∈ tables everywhere s.hhdm s.mem root

-- pmm_alloc returns no frame that is in use as a table or that holds its own data, which
-- lies in R; the switches are among the PML4s there are, the maps in the lower half.
def Permitted (s : Spaces σ) : Op → Prop
  | .create => s.next alloc ≠ 0 →
      IsFrame (s.next alloc) ∧ ¬InUse s (s.next alloc) ∧ Spares R s.hhdm (s.next alloc)
  | .switch pml4Phys => pml4Phys &&& ~~~0xFFF ∈ s.roots
  | .map virt phys flags => ¬UpperHalf virt ∧ ∀ s', step alloc s (.map virt phys flags) = some s' →
      ∀ new, s'.vmm.handed = s.vmm.handed ++ new →
        new.Nodup ∧ ∀ p ∈ new, IsFrame p ∧ ¬InUse s p ∧ Spares R s.hhdm p

-- What a step does to the lower halves: those of all PML4s, or of all but the
-- current one if it maps a page, translate as before, and a new one is empty.
structure Isolates (s : Spaces σ) (op : Op) (s' : Spaces σ) : Prop where
  others : ∀ root ∈ s.roots, (op.Maps → root ≠ s.current) → ∀ virt, ¬UpperHalf virt →
    hardwareWalk s'.hhdm s'.mem root virt = hardwareWalk s.hhdm s.mem root virt
  fresh : ∀ root ∈ s'.roots, root ∉ s.roots → ∀ virt, ¬UpperHalf virt →
    hardwareWalk s'.hhdm s'.mem root virt = none

-- The PML4s share no table of their lower halves, and none with pmm_alloc.
structure Separate (s : Spaces σ) : Prop where
  switched : s.Switched
  lower : ∀ root ∈ s.roots, PlainTree s.hhdm s.mem root
  spares : ∀ root ∈ s.roots, ∀ f ∈ lowerTables s.hhdm s.mem root, Spares R s.hhdm f
  disjoint : ∀ root ∈ s.roots, ∀ root' ∈ s.roots, root ≠ root' →
    ∀ f ∈ lowerTables s.hhdm s.mem root, f ∉ lowerTables s.hhdm s.mem root'

end Runs

section Trees

variable {hhdm root virt : BitVec 64} {m m' : Memory 64}

theorem lower_index (hv : ¬UpperHalf virt) : lowerSlots ((pageNumber virt).extractLsb' 27 9) := by
  rw [upperHalf_iff] at hv
  exact Nat.lt_of_not_le hv

theorem lowerTables_used {f : BitVec 64} (h : f ∈ lowerTables hhdm m root) :
    f ∈ tables everywhere hhdm m root := by
  obtain ⟨path, hw, hf⟩ := h
  exact ⟨path, ⟨hw.length, fun _ _ => trivial⟩, hf⟩

-- The processor's walk to a lower address stays in the lower tables.
theorem walkTables_lower (h : PlainTree hhdm m root) (hv : ¬UpperHalf virt) {f : BitVec 64}
    (hf : f ∈ walkTables hhdm m root virt) : f ∈ lowerTables hhdm m root := by
  have hw := walk_on_path lowerSlots _ (lower_index hv)
  unfold walkTables at hf
  by_cases h4 : Present (pml4Entry hhdm m root virt)
  · have c4 := tableAt_snoc [] _ rfl
      (child_of_plain (h.plain [] _ root (hw _ ⟨_, rfl⟩) rfl h4) h4)
    by_cases h3 : Ends (pdptEntry hhdm m root virt)
    · simp only [h4, h3, not_true_eq_false, if_false, if_true, List.mem_cons, List.not_mem_nil,
        or_false] at hf
      rcases hf with rfl | rfl
      · exact ⟨[], hw _ (List.nil_prefix), rfl⟩
      · exact ⟨_, hw _ ⟨_, rfl⟩, c4⟩
    · have c3 := tableAt_snoc _ _ c4 (child_of_going h3)
      by_cases h2 : Ends (pdEntry hhdm m root virt)
      · simp only [h4, h3, h2, not_true_eq_false, if_false, if_true, List.mem_cons, List.not_mem_nil,
          or_false] at hf
        rcases hf with rfl | rfl | rfl
        · exact ⟨[], hw _ (List.nil_prefix), rfl⟩
        · exact ⟨_, hw _ ⟨_, rfl⟩, c4⟩
        · exact ⟨_, hw _ ⟨_, rfl⟩, c3⟩
      · have c2 := tableAt_snoc _ _ c3 (child_of_going h2)
        simp only [h4, h3, h2, not_true_eq_false, if_false, List.mem_cons, List.not_mem_nil,
          or_false] at hf
        rcases hf with rfl | rfl | rfl | rfl
        · exact ⟨[], hw _ (List.nil_prefix), rfl⟩
        · exact ⟨_, hw _ ⟨_, rfl⟩, c4⟩
        · exact ⟨_, hw _ ⟨_, rfl⟩, c3⟩
        · exact ⟨_, hw _ (List.prefix_refl _), c2⟩
  · simp only [h4, not_false_eq_true, if_true, List.mem_cons, List.not_mem_nil, or_false] at hf
    rw [hf]
    exact ⟨[], hw _ (List.nil_prefix), rfl⟩

-- Writes elsewhere keep a lower half.
structure SameLower (hhdm : BitVec 64) (m m' : Memory 64) (root : BitVec 64) : Prop where
  lower : PlainTree hhdm m' root
  tables : lowerTables hhdm m' root = lowerTables hhdm m root
  walk : ∀ virt, ¬UpperHalf virt → hardwareWalk hhdm m' root virt = hardwareWalk hhdm m root virt

theorem PlainTree.kept (h : PlainTree hhdm m root)
    (hkeep : ∀ f ∈ lowerTables hhdm m root, Agree m m' (f + hhdm) 4096) :
    SameLower hhdm m m' root := by
  have hsame := sameTree h.tree hkeep
  refine ⟨⟨hsame.tree, hsame.plain h.plain⟩, hsame.tables, fun virt hv => ?_⟩
  rw [hardwareWalk_eq_frame, hardwareWalk_eq_frame, pageAccess, pageAccess,
    walkEntries_kept h.tree.root_aligned (fun f hf => hkeep f (walkTables_lower h hv hf))]

-- A tree whose lower root entries are 0 consists of the root.
theorem lookup_vacant (hzero : ∀ i, lowerSlots i → slot hhdm m root i = 0) {path : List (BitVec 9)}
    {f : BitVec 64} (hw : Walk lowerSlots path) (hf : tableAt hhdm m root path = some f) :
    path = [] ∧ f = root := by
  cases path with
  | nil => exact ⟨rfl, (Option.some.inj hf).symm⟩
  | cons i rest =>
      have hi := hzero i (hw.first i rfl)
      simp only [tableAt, lookup, hi] at hf
      cases hf

theorem plainTree_vacant (hal : Aligned root)
    (hzero : ∀ i, lowerSlots i → slot hhdm m root i = 0) :
    PlainTree hhdm m root ∧ ∀ f ∈ lowerTables hhdm m root, f = root := by
  refine ⟨⟨⟨hal, ?_⟩, ?_⟩, ?_⟩
  · intro p q f hp hq hfp hfq
    rw [(lookup_vacant hzero hp hfp).1, (lookup_vacant hzero hq hfq).1]
  · intro path i f hw hf hpres
    obtain ⟨rfl, rfl⟩ := lookup_vacant hzero ((walk_prefixClosed lowerSlots).init path i hw) hf
    rw [hzero i (hw.first i rfl)] at hpres
    exact absurd (by decide) hpres
  · rintro f ⟨path, hw, hf⟩
    exact (lookup_vacant hzero hw hf).2

end Trees

section Steps

variable {σ : Type} {alloc : Memory 64 → σ → BitVec 64 × Memory 64 × σ} {R : Set (BitVec 64)}
variable {s s' : Spaces σ}

-- Where pmm_alloc may have written.
theorem afterNext_lower (hfoot : Footprint alloc R) (hs : Separate R s) {r : BitVec 64}
    (hr : r ∈ s.roots) : SameLower s.hhdm s.mem (s.afterNext alloc) r :=
  (hs.lower r hr).kept
    (fun f hf x hx => afterNext_keeps hfoot s x (fun hin => hs.spares r hr f hf x hx hin))

theorem SameLower.trans {hhdm root : BitVec 64} {m m' m'' : Memory 64} (h : SameLower hhdm m m' root)
    (h' : SameLower hhdm m' m'' root) : SameLower hhdm m m'' root :=
  ⟨h'.lower, h'.tables.trans h.tables, fun virt hv => (h'.walk virt hv).trans (h.walk virt hv)⟩

theorem create_separate (hfoot : Footprint alloc R) (hs : Separate R s)
    (hp : Permitted alloc R s .create) :
    Separate R (s.create alloc) ∧ Isolates s .create (s.create alloc) := by
  by_cases hnext : s.next alloc = 0
  · obtain ⟨hroot, hcreated, hmem⟩ := create_none hnext
    have hroots : (s.create alloc).roots = s.roots := by
      rw [roots, hcreated, hroot.kernel, roots]
    have hold := fun r hr => afterNext_lower hfoot hs (r := r) hr
    rw [← hmem] at hold
    refine ⟨⟨hs.switched.kept hroot (fun r hr => hroots ▸ hr), ?_, ?_, ?_⟩, ?_, ?_⟩
    · rw [hroots, hroot.hhdm]
      exact fun r hr => (hold r hr).lower
    · rw [hroots, hroot.hhdm]
      intro r hr
      rw [(hold r hr).tables]
      exact hs.spares r hr
    · rw [hroots, hroot.hhdm]
      intro r hr r' hr'
      rw [(hold r hr).tables, (hold r' hr').tables]
      exact hs.disjoint r hr r' hr'
    · intro root hin _ virt hv
      rw [hroot.hhdm]
      exact (hold root hin).walk virt hv
    · intro root hin hout
      exact absurd (hroots ▸ hin) hout
  · obtain ⟨hframe, hused, hspare⟩ := hp hnext
    have hal := hframe.aligned
    have hfresh : ∀ r ∈ s.roots, ∀ f ∈ lowerTables s.hhdm s.mem r, f ≠ s.next alloc :=
      fun r hr f hf he => hused ⟨r, hr, he ▸ lowerTables_used hf⟩
    have hself : ∀ r ∈ s.roots, r ∈ lowerTables s.hhdm s.mem r :=
      fun r _ => ⟨[], ⟨by simp, by simp⟩, rfl⟩
    have hne : s.next alloc ≠ s.current := fun he =>
      hfresh _ hs.switched.current _ (hself _ hs.switched.current) he.symm
    obtain ⟨hroot, hcreated, hnew, -⟩ := create_some alloc hs.switched hnext hal hne
    have hroots : (s.create alloc).roots = s.roots ++ [s.next alloc] := by
      rw [roots, hcreated, hroot.kernel, roots]
      rfl
    -- pmm_alloc and then the new PML4 are apart from the lower halves there are.
    have hold : ∀ r ∈ s.roots, SameLower s.hhdm s.mem (s.create alloc).mem r := by
      intro r hr
      have hfirst := afterNext_lower hfoot hs hr
      refine hfirst.trans (hfirst.lower.kept (fun f hf => hnew.outside.agree ?_))
      rw [hfirst.tables] at hf
      exact pages_apart ((hs.lower r hr).tree.mem_aligned hf) hal (hfresh r hr f hf)
    obtain ⟨hvacant, honly⟩ := plainTree_vacant hal hnew.lower
    rw [← hroot.hhdm] at hvacant honly
    have hcases : ∀ r ∈ (s.create alloc).roots, r ∈ s.roots ∨ r = s.next alloc := by
      intro r hr
      rw [hroots] at hr
      simpa using hr
    refine ⟨⟨hs.switched.kept hroot ?_, ?_, ?_, ?_⟩, ?_, ?_⟩
    · intro r hr
      rw [hroots]
      exact List.mem_append_left _ hr
    · intro r hr
      rcases hcases r hr with hr | rfl
      · rw [hroot.hhdm]
        exact (hold r hr).lower
      · exact hvacant
    · intro r hr f hf
      rcases hcases r hr with hr | rfl
      · rw [hroot.hhdm] at hf ⊢
        rw [(hold r hr).tables] at hf
        exact hs.spares r hr f hf
      · rw [honly f hf, hroot.hhdm]
        exact hspare
    · intro r hr r' hr' hne' f hf
      rcases hcases r hr with hr | rfl
      · rw [hroot.hhdm, (hold r hr).tables] at hf
        rcases hcases r' hr' with hr' | rfl
        · rw [hroot.hhdm, (hold r' hr').tables]
          exact hs.disjoint r hr r' hr' hne' f hf
        · exact fun hin => hfresh r hr f hf (honly f hin)
      · rcases hcases r' hr' with hr' | rfl
        · rw [hroot.hhdm, (hold r' hr').tables, honly f hf]
          exact fun hin => hfresh r' hr' _ hin rfl
        · exact absurd rfl hne'
    · intro r hr _ virt hv
      rw [hroot.hhdm]
      exact (hold r hr).walk virt hv
    · intro r hr hout virt hv
      rcases hcases r hr with hr | rfl
      · exact absurd hr hout
      · have hentry : pml4Entry (s.create alloc).hhdm (s.create alloc).mem (s.next alloc) virt = 0 := by
          rw [hroot.hhdm]
          exact hnew.lower _ (lower_index hv)
        rw [hardwareWalk, if_pos (by rw [hentry]; decide)]

theorem switch_separate {pml4Phys : BitVec 64} (hs : Separate R s)
    (hp : Permitted alloc R s (.switch pml4Phys)) :
    Separate R (s.vmmSwitchPml4 pml4Phys) ∧
      Isolates s (.switch pml4Phys) (s.vmmSwitchPml4 pml4Phys) :=
  ⟨⟨switch_switched hp, hs.lower, hs.spares, hs.disjoint⟩, fun _ _ _ _ _ => rfl,
    fun _ hin hout => absurd hin hout⟩

theorem map_separate {virt phys flags : BitVec 64} (hfoot : Footprint alloc R) (hs : Separate R s)
    (hp : Permitted alloc R s (.map virt phys flags))
    (hstep : step alloc s (.map virt phys flags) = some s') :
    Separate R s' ∧ Isolates s (.map virt phys flags) s' := by
  obtain ⟨hv, hframes⟩ := hp
  have hframes' := hframes s' hstep
  obtain ⟨vmm, new, hmap, hlog, rfl⟩ := map_cases hstep
  obtain ⟨hnd, hnew⟩ := hframes' new hlog.handed
  have hcur := hs.switched.current
  have hlower := hs.lower _ hcur
  have hunused : ∀ p ∈ new, ∀ r ∈ s.roots, p ∉ lowerTables s.hhdm s.mem r :=
    fun p hin r hr hf => (hnew p hin).2.1 ⟨r, hr, lowerTables_used hf⟩
  have hfresh : Fresh lowerSlots R s.hhdm s.current s.mem new :=
    ⟨hnd, fun p hin => (hnew p hin).1, fun p hin => hunused p hin _ hcur,
      fun p hin => (hnew p hin).2.2⟩
  have hplain : PlainWalk s.hhdm s.mem s.current (pageNumber virt) := fun path i f hpre =>
    hlower.plain path i f (walk_on_path lowerSlots _ (lower_index hv) _ hpre)
  have hext := (vmmMapPage_spec hfoot rfl hs.switched.pml4 hlower.tree (hs.spares _ hcur)
    (lower_index hv) hplain hmap hlog hfresh).toExtends
  have hoffset : vmm.hhdmOffset = s.hhdm := hlog.hhdm
  -- The other lower halves are neither on the walk nor among the new tables.
  have hold : ∀ r ∈ s.roots, r ≠ s.current → SameLower s.hhdm s.mem vmm.mem r := by
    intro r hr hne
    refine (hs.lower r hr).kept (fun f hf x hx =>
      hext.outside x (fun hin => hs.spares r hr f hf x hx hin) (fun g hg hxg => ?_))
    have hfg : f ≠ g := by
      rintro rfl
      rcases (hext.tables f).mp hg with hin | hin
      · exact hs.disjoint r hr _ hcur hne f hf hin
      · exact hunused f hin r hr hf
    exact pages_apart ((hs.lower r hr).tree.mem_aligned hf) (hext.tree.mem_aligned hg) hfg x hx hxg
  have hown : PlainTree s.hhdm vmm.mem s.current :=
    ⟨hext.tree, fun path i f hw => hext.plain_entry hw (hlower.plain path i f hw)⟩
  have hgrown : ∀ r ∈ s.roots, ∀ f ∈ lowerTables s.hhdm vmm.mem r,
      f ∈ lowerTables s.hhdm s.mem r ∨ (r = s.current ∧ f ∈ new) := by
    intro r hr f hf
    by_cases hne : r = s.current
    · subst hne
      rcases (hext.tables f).mp hf with hin | hin
      · exact Or.inl hin
      · exact Or.inr ⟨rfl, hin⟩
    · rw [(hold r hr hne).tables] at hf
      exact Or.inl hf
  refine ⟨⟨⟨?_, hcur⟩, ?_, ?_, ?_⟩, ?_, ?_⟩
  · show vmm.pml4 = s.current + vmm.hhdmOffset
    rw [hlog.pml4, hoffset, hs.switched.pml4]
  · intro r hr
    show PlainTree vmm.hhdmOffset vmm.mem r
    rw [hoffset]
    by_cases hne : r = s.current
    · exact hne ▸ hown
    · exact (hold r hr hne).lower
  · intro r hr f hf
    show Spares R vmm.hhdmOffset f
    rw [show Spaces.hhdm { s with vmm } = s.hhdm from hoffset] at hf
    rw [hoffset]
    rcases hgrown r hr f hf with hin | ⟨-, hin⟩
    · exact hs.spares r hr f hin
    · exact (hnew f hin).2.2
  · intro r hr r' hr' hne f hf
    show f ∉ lowerTables vmm.hhdmOffset vmm.mem r'
    rw [show Spaces.hhdm { s with vmm } = s.hhdm from hoffset] at hf
    rw [hoffset]
    intro hf'
    rcases hgrown r hr f hf with hin | ⟨rfl, hin⟩
    · rcases hgrown r' hr' f hf' with hin' | ⟨rfl, hin'⟩
      · exact hs.disjoint r hr r' hr' hne f hin hin'
      · exact hunused f hin' r hr hin
    · rcases hgrown r' hr' f hf' with hin' | ⟨rfl, -⟩
      · exact hunused f hin r' hr' hin'
      · exact hne rfl
  · intro r hr hother virt' hv'
    show hardwareWalk vmm.hhdmOffset vmm.mem r virt' = _
    rw [hoffset]
    exact (hold r hr (hother trivial)).walk virt' hv'
  · intro r hin hout
    exact absurd hin hout

theorem step_separate {op : Op} (hfoot : Footprint alloc R) (hs : Separate R s)
    (hp : Permitted alloc R s op) (hstep : step alloc s op = some s') :
    Separate R s' ∧ Isolates s op s' := by
  cases op with
  | create =>
      obtain rfl : s.create alloc = s' := Option.some.inj hstep
      exact create_separate hfoot hs hp
  | switch pml4Phys =>
      obtain rfl : s.vmmSwitchPml4 pml4Phys = s' := Option.some.inj hstep
      exact switch_separate hs hp
  | map virt phys flags => exact map_separate hfoot hs hp hstep

theorem booted_separate (h : Booted s) (hlower : PlainTree s.hhdm s.mem s.current)
    (hspares : ∀ f ∈ lowerTables s.hhdm s.mem s.current, Spares R s.hhdm f) : Separate R s := by
  refine ⟨h.switched, fun r hr => h.roots_eq hr ▸ hlower, fun r hr => h.roots_eq hr ▸ hspares,
    fun r hr r' hr' hne => ?_⟩
  rw [h.roots_eq hr, h.roots_eq hr'] at hne
  exact absurd rfl hne

end Steps

section Sample

open Miyabi.Mm.Boot Miyabi.Mm.Pmm

theorem quietSpaces_used {f : BitVec 64} (h : InUse quietSpaces f) : f ∈ quietSpaces.roots := by
  obtain ⟨root, hin, hf⟩ := h
  exact quietSpaces_table hin hf

theorem quietKernel_permitted :
    PermittedRun (step (bitmapAlloc lowPmm)) (Permitted (bitmapAlloc lowPmm) (bitmapRegion lowPmm))
      quietKernel [.create, .map 0x400000 0x9000 7] := by
  have huser : Aligned (0x2000 : BitVec 64) := show (0x2000 : BitVec 64).toNat % 4096 = 0 by decide
  refine ⟨fun _ => ?_, fun s1 h1 => ⟨⟨by decide, ?_⟩, fun _ _ => trivial⟩⟩
  · rw [quietKernel_next]
    refine ⟨by decide, ?_, lowPmm_spares huser (by decide)⟩
    rintro ⟨root, hin, hf⟩
    obtain rfl : root = 0x1000 := by simpa [quietKernel, roots] using hin
    have hkernel : Aligned (0x1000 : BitVec 64) := show (0x1000 : BitVec 64).toNat % 4096 = 0 by decide
    exact absurd (tables_empty (quietKernel_slot hkernel (by decide)) hf) (by decide)
  · obtain rfl : quietSpaces = s1 := Option.some.inj h1
    intro s' hstep new hnew
    obtain ⟨vmm, new', rest, he, hlog, hl⟩ := quietSpaces_maps 0x400000 0x9000 7
    have hs' : step (bitmapAlloc lowPmm) quietSpaces (.map 0x400000 0x9000 7) =
        some { quietSpaces with vmm } := by
      rw [step, he]
    obtain rfl := Option.some.inj (hs'.symm.trans hstep)
    obtain rfl := List.append_cancel_left (hnew.symm.trans hlog.handed)
    have hnodup := lowFrames_nodup 0xFF07
    rw [hl] at hnodup
    refine ⟨(List.nodup_append.mp hnodup).1, fun p hp => ?_⟩
    have hfree : p ∈ lowFrames 0xFF07 := hl ▸ List.mem_append_left _ hp
    obtain ⟨hframe, hpos, -⟩ := lowFrames_cases hfree
    refine ⟨hframe, fun hused => quietSpaces_free hfree (quietSpaces_used hused), ?_⟩
    rw [quietKernel_created.1.hhdm]
    exact lowPmm_spares hframe.aligned hpos

-- A bitmap of 520 frames in frame 0, with frame 512 free.
def highPmm : Statics := ⟨0xFFFF800000000000, 0xFFFF800000000000, 0, 520, 65, 1⟩

def highBitmap : Memory 64 := fun x =>
  if x = 0xFFFF800000000040 then 0xFE else if InRange 0xFFFF800000000000 65 x then 0xFF else 0

-- A kernel in frames 1 to 3 whose lower half identity-maps the 2M page 0x200000,
-- where pmm_alloc finds the next PML4.
def hugeKernel : Spaces (List Returned) :=
  let m := highBitmap
  let m := writeEntry m (0x1000 + 0xFFFF800000000000) 0 0x2003
  let m := writeEntry m (0x2000 + 0xFFFF800000000000) 0 0x3003
  let m := writeEntry m (0x3000 + 0xFFFF800000000000) 1 0x200083
  ⟨⟨m, 0xFFFF800000000000, 0xFFFF800000001000, [], []⟩, 0x1000, 0x1000, []⟩

theorem hugeKernel_next : hugeKernel.next (bitmapAlloc highPmm) = 0x200000 := by decide +kernel

theorem slot_writeEntry {hhdm f g : BitVec 64} {m : Memory 64} (hf : Aligned f) (hg : Aligned g)
    (i j : BitVec 9) (e : BitVec 64) :
    slot hhdm (writeEntry m (g + hhdm) (j.setWidth 64) e) f i =
      if f = g ∧ i = j then e else slot hhdm m f i := by
  split
  · rename_i h
    obtain ⟨rfl, rfl⟩ := h
    exact slot_writeEntry_same i e
  · rename_i h
    exact slot_writeEntry_ne hf hg h e

theorem highBitmap_slot {f : BitVec 64} (hal : Aligned f) (hf : f ≠ 0) (i : BitVec 9) :
    slot 0xFFFF800000000000 highBitmap f i = 0 := by
  have hsame : Agree (fun _ => 0) highBitmap (f + 0xFFFF800000000000) 4096 := by
    intro x hx
    have hout : ¬InRange 0xFFFF800000000000 65 x :=
      fun hin => spares_of_first (p := highPmm) rfl (by decide) hal hf x hx hin
    have hne : x ≠ 0xFFFF800000000040 := by
      rintro rfl
      exact hout (by decide)
    simp only [highBitmap, hne, hout, if_false]
  exact slot_congr hal hsame i

theorem hugeKernel_table {f : BitVec 64}
    (h : f ∈ tables everywhere hugeKernel.hhdm hugeKernel.mem 0x1000) :
    f = 0x1000 ∨ f = 0x2000 ∨ f = 0x3000 := by
  refine reached_closed {f | f = 0x1000 ∨ f = 0x2000 ∨ f = 0x3000} (Or.inl rfl) ?_ h
  intro t ht i g hg
  have hal : Aligned t ∧ t ≠ 0 := by
    rcases ht with rfl | rfl | rfl <;> exact ⟨rfl, by decide⟩
  have hslot : slot hugeKernel.hhdm hugeKernel.mem t i =
      if t = 0x3000 ∧ i = 1 then 0x200083 else if t = 0x2000 ∧ i = 0 then 0x3003
        else if t = 0x1000 ∧ i = 0 then 0x2003 else 0 := by
    refine (slot_writeEntry (g := 0x3000) hal.1 rfl i 1 _).trans (congrArg _ ?_)
    refine (slot_writeEntry (g := 0x2000) hal.1 rfl i 0 _).trans (congrArg _ ?_)
    refine (slot_writeEntry (g := 0x1000) hal.1 rfl i 0 _).trans (congrArg _ ?_)
    exact highBitmap_slot hal.1 hal.2 i
  rw [hslot] at hg
  split at hg
  · rw [show child 0x200083 = none by decide] at hg
    cases hg
  · split at hg
    · rw [← Option.some.inj hg]
      exact Or.inr (Or.inr (by decide))
    · split at hg
      · rw [← Option.some.inj hg]
        exact Or.inr (Or.inl (by decide))
      · rw [show child 0 = none by decide] at hg
        cases hg

theorem hugeKernel_used {f : BitVec 64} (h : InUse hugeKernel f) :
    f = 0x1000 ∨ f = 0x2000 ∨ f = 0x3000 := by
  obtain ⟨root, hin, hf⟩ := h
  obtain rfl : root = 0x1000 := by simpa [hugeKernel, roots] using hin
  exact hugeKernel_table hf

theorem hugeKernel_spares : ∀ f ∈ lowerTables hugeKernel.hhdm hugeKernel.mem hugeKernel.current,
    Spares (bitmapRegion highPmm) hugeKernel.hhdm f := by
  intro f hf
  have hcur : hugeKernel.current = 0x1000 := by decide
  rw [hcur] at hf
  rcases hugeKernel_table (lowerTables_used hf) with rfl | rfl | rfl <;>
    exact spares_of_first rfl (by decide) rfl (by decide)

end Sample

end Miyabi.Mm.Vmm.Spaces.Isolation
