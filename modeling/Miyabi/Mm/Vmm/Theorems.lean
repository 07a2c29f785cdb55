import Miyabi.Base.Transition
import Miyabi.Mm.Boot.Supply
import Miyabi.Mm.Vmm.Walk

namespace Miyabi.Mm.Vmm

open Miyabi.Base Miyabi.Base.Memory Miyabi.Base.TableTree Miyabi.Base.Transition

inductive Op where
  | map (virt phys flags : BitVec 64)
  | unmap (virt : BitVec 64)

def Op.page : Op → BitVec 36
  | .map virt _ _ => pageNumber virt
  | .unmap virt => pageNumber virt

-- The leaf entry that the operation leaves for its page.
def Op.entry : Op → BitVec 64
  | .map _ phys flags => (phys &&& ~~~0xFFF) ||| flags ||| ptePresent
  | .unmap _ => 0

-- The last operation on a page.
def lastOn (ops : List Op) (page : BitVec 36) : Option Op :=
  (ops.filter (fun op => op.page = page)).getLast?

def step {σ : Type} (alloc : Memory 64 → σ → BitVec 64 × Memory 64 × σ) (s : State σ) :
    Op → Option (State σ)
  | .map virt phys flags => vmmMapPage alloc virt phys flags s
  | .unmap virt => some (vmmUnmapPage virt s)

-- A tree rooted at `root` without huge entries and without bits above bit 51 in
-- its intermediate entries, whose tables the direct map shows at non-NULL addresses.
structure WellFormed (hhdm root : BitVec 64) (m : Memory 64) : Prop where
  tree : Tree everywhere hhdm m root
  plain : ∀ path i f, Walk everywhere (path ++ [i]) → tableAt hhdm m root path = some f →
    Present (slot hhdm m f i) → Plain (slot hhdm m f i)
  pointers : ∀ f ∈ tables everywhere hhdm m root, f + hhdm ≠ 0

-- The frames that pmm_alloc returns during a map are no tables of the tree and do not
-- hold pmm_alloc's own data, which lies in R; an unmap has its three upper tables.
def Permitted {σ : Type} (alloc : Memory 64 → σ → BitVec 64 × Memory 64 × σ) (R : Set (BitVec 64))
    (root : BitVec 64) (s : State σ) : Op → Prop
  | .map virt phys flags => ∀ s', step alloc s (.map virt phys flags) = some s' →
      ∀ new, s'.handed = s.handed ++ new → new.Nodup ∧ ∀ p ∈ new, IsFrame p ∧
        p + s.hhdmOffset ≠ 0 ∧ p ∉ tables everywhere s.hhdmOffset s.mem root ∧
        Spares R s.hhdmOffset p
  | .unmap virt => (tableAt s.hhdmOffset s.mem root (tablePath (pageNumber virt))).isSome = true

theorem walk_tablePath (page : BitVec 36) : Walk everywhere (tablePath page) :=
  walk_on_path everywhere page trivial _ (List.prefix_refl _)

theorem WellFormed.plainWalk {hhdm root : BitVec 64} {m : Memory 64} (h : WellFormed hhdm root m)
    (page : BitVec 36) : PlainWalk hhdm m root page :=
  fun path i f hpre => h.plain path i f (walk_on_path everywhere page trivial _ hpre)

-- The state against the last operation on each page.
structure Refines {σ : Type} (R : Set (BitVec 64)) (hhdm root : BitVec 64) (m0 : Memory 64)
    (s : State σ) (last : BitVec 36 → Option Op) : Prop where
  offset : s.hhdmOffset = hhdm
  pml4 : s.pml4 = root + hhdm
  wellFormed : WellFormed hhdm root s.mem
  spares : ∀ f ∈ tables everywhere hhdm s.mem root, Spares R hhdm f
  entry : ∀ page, leafEntry hhdm s.mem root page =
    ((last page).map Op.entry).getD (leafEntry hhdm m0 root page)
  leaf : ∀ page, (last page).isSome = true →
    (tableAt hhdm s.mem root (tablePath page)).isSome = true

def recordOp (last : BitVec 36 → Option Op) (op : Op) : BitVec 36 → Option Op :=
  fun page => if page = op.page then some op else last page

theorem foldl_recordOp (ops : List Op) :
    ops.foldl recordOp (fun _ => none) = lastOn ops := by
  induction ops using List.reverseRecOn with
  | nil => rfl
  | append_singleton ops op ih =>
      funext page
      rw [List.foldl_append, ih]
      simp only [List.foldl_cons, List.foldl_nil, recordOp, lastOn, List.filter_append]
      by_cases hpage : op.page = page
      · simp [hpage]
      · simp [hpage, Ne.symm hpage]

section Steps

variable {σ : Type} {alloc : Memory 64 → σ → BitVec 64 × Memory 64 × σ} {R : Set (BitVec 64)}
variable {hhdm root : BitVec 64} {m0 : Memory 64} {s s' : State σ}
variable {last : BitVec 36 → Option Op}

-- One operation against the record of last operations.
theorem record_entry {m m' : Memory 64} (op : Op)
    (hold : ∀ page, leafEntry hhdm m root page =
      ((last page).map Op.entry).getD (leafEntry hhdm m0 root page))
    (hnew : ∀ q, leafEntry hhdm m' root q =
      if q = op.page then op.entry else leafEntry hhdm m root q) (page : BitVec 36) :
    leafEntry hhdm m' root page =
      ((recordOp last op page).map Op.entry).getD (leafEntry hhdm m0 root page) := by
  rw [hnew]
  unfold recordOp
  by_cases hpage : page = op.page
  · rw [if_pos hpage, if_pos hpage]
    rfl
  · rw [if_neg hpage, if_neg hpage, hold]

theorem record_leaf {m m' : Memory 64} (op : Op)
    (hkeep : ∀ page, (tableAt hhdm m root (tablePath page)).isSome = true →
      (tableAt hhdm m' root (tablePath page)).isSome = true)
    (hold : ∀ page, (last page).isSome = true →
      (tableAt hhdm m root (tablePath page)).isSome = true)
    (hnew : (tableAt hhdm m' root (tablePath op.page)).isSome = true) (page : BitVec 36)
    (hpage : (recordOp last op page).isSome = true) :
    (tableAt hhdm m' root (tablePath page)).isSome = true := by
  unfold recordOp at hpage
  by_cases he : page = op.page
  · rw [he]
    exact hnew
  · rw [if_neg he] at hpage
    exact hkeep page (hold page hpage)

theorem wellFormed_extends {m m' : Memory 64} {new : List (BitVec 64)}
    (h : WellFormed hhdm root m) (he : Extends everywhere R hhdm root m m' new)
    (hnew : ∀ p ∈ new, p + hhdm ≠ 0) : WellFormed hhdm root m' where
  tree := he.tree
  plain path i f hw := he.plain_entry hw (h.plain path i f hw)
  pointers := he.forall_tables h.pointers hnew

theorem extends_keeps_leaf {m m' : Memory 64} {new : List (BitVec 64)}
    (he : Extends everywhere R hhdm root m m' new) (page : BitVec 36)
    (h : (tableAt hhdm m root (tablePath page)).isSome = true) :
    (tableAt hhdm m' root (tablePath page)).isSome = true := by
  obtain ⟨f, hf⟩ := Option.isSome_iff_exists.mp h
  exact Option.isSome_iff_exists.mpr ⟨f, he.keeps _ f (walk_tablePath page) hf⟩

-- A map that returns, with fresh frames.
theorem vmmMapPage_mapped {virt phys flags : BitVec 64} (hfoot : Footprint alloc R)
    (hh : s.hhdmOffset = hhdm) (hroot : s.pml4 = root + hhdm) (hwell : WellFormed hhdm root s.mem)
    (hs : ∀ f ∈ tables everywhere hhdm s.mem root, Spares R hhdm f)
    (hp : Permitted alloc R root s (.map virt phys flags))
    (he : vmmMapPage alloc virt phys flags s = some s') :
    ∃ new, Logged s s' new ∧ Fresh everywhere R hhdm root s.mem new ∧
      Mapped everywhere R hhdm root (pageNumber virt) ((phys &&& ~~~0xFFF) ||| flags ||| ptePresent)
        s.mem s'.mem new ∧ WellFormed hhdm root s'.mem ∧
      ∀ f ∈ tables everywhere hhdm s'.mem root, Spares R hhdm f := by
  obtain ⟨new, hlog⟩ := vmmMapPage_logged he
  obtain ⟨hnd, hframes⟩ := hp s' he new hlog.handed
  rw [hh] at hframes
  have hfresh : Fresh everywhere R hhdm root s.mem new :=
    ⟨hnd, fun p hin => (hframes p hin).1, fun p hin => (hframes p hin).2.2.1,
      fun p hin => (hframes p hin).2.2.2⟩
  have hm := vmmMapPage_spec hfoot hh hroot hwell.tree hs trivial (hwell.plainWalk _) he hlog hfresh
  exact ⟨new, hlog, hfresh, hm,
    wellFormed_extends hwell hm.toExtends (fun p hin => (hframes p hin).2.1),
    hm.toExtends.spares hs hfresh⟩

theorem map_refines (hfoot : Footprint alloc R) (h : Refines R hhdm root m0 s last)
    (virt phys flags : BitVec 64) (hp : Permitted alloc R root s (.map virt phys flags))
    (he : step alloc s (.map virt phys flags) = some s') :
    Refines R hhdm root m0 s' (recordOp last (.map virt phys flags)) := by
  obtain ⟨new, hlog, -, hm, hwell, hspares⟩ :=
    vmmMapPage_mapped hfoot h.offset h.pml4 h.wellFormed h.spares hp he
  refine ⟨hlog.hhdm.trans h.offset, hlog.pml4.trans h.pml4, hwell, hspares, ?_, ?_⟩
  · exact record_entry _ h.entry (fun q => leafEntry_page hm.leaves q trivial)
  · exact record_leaf _ (extends_keeps_leaf hm.toExtends) h.leaf hm.leaf

-- An unmap on a tree that has the page's leaf table.
theorem vmmUnmapPage_unmapped {virt : BitVec 64} (hh : s.hhdmOffset = hhdm)
    (hroot : s.pml4 = root + hhdm) (hwell : WellFormed hhdm root s.mem)
    (hs : ∀ f ∈ tables everywhere hhdm s.mem root, Spares R hhdm f)
    (hp : (tableAt hhdm s.mem root (tablePath (pageNumber virt))).isSome = true) :
    ∃ m', vmmUnmapPage virt s = { s with mem := m' } ∧
      Extends everywhere R hhdm root s.mem m' [] ∧
      (∀ q, leafEntry hhdm m' root q =
        if q = pageNumber virt then 0 else leafEntry hhdm s.mem root q) ∧
      ∀ x ∈ R, m' x = s.mem x := by
  obtain ⟨t, ht⟩ := Option.isSome_iff_exists.mp hp
  obtain ⟨pdpt, pd, hf⟩ := followed_of_leaf hh hroot (hwell.plainWalk _) hwell.pointers ht
  obtain ⟨hext, -, hleaves⟩ := leaf_written (R := R) hwell.tree ht (walk_tablePath _) rfl
    (leafIndex (pageNumber virt)) 0
  have hspare := hs t ⟨_, walk_tablePath _, ht⟩
  refine ⟨_, ?_, hext, fun q => leafEntry_page hleaves q trivial, fun x hx => ?_⟩
  · rw [vmmUnmapPage_followed hf, ptIndex_eq]
  · exact writeEntry_keeps (hwell.tree.aligned ht) _ _ x (fun hin => hspare x hin hx)

theorem unmap_refines (h : Refines R hhdm root m0 s last) (virt : BitVec 64)
    (hp : Permitted alloc R root s (.unmap virt)) :
    Refines R hhdm root m0 (vmmUnmapPage virt s) (recordOp last (.unmap virt)) := by
  have hp' : (tableAt s.hhdmOffset s.mem root (tablePath (pageNumber virt))).isSome = true := hp
  rw [h.offset] at hp'
  obtain ⟨m', hs', hext, hleaves, -⟩ :=
    vmmUnmapPage_unmapped h.offset h.pml4 h.wellFormed h.spares hp'
  rw [hs']
  refine ⟨h.offset, h.pml4, ?_, ?_, ?_, ?_⟩
  · exact wellFormed_extends h.wellFormed hext (by simp)
  · exact hext.spares h.spares ⟨List.nodup_nil, by simp, by simp, by simp⟩
  · exact record_entry (.unmap virt) h.entry hleaves
  · exact record_leaf (.unmap virt) (extends_keeps_leaf hext) h.leaf (extends_keeps_leaf hext _ hp')

theorem step_refines (hfoot : Footprint alloc R) (h : Refines R hhdm root m0 s last) (op : Op)
    (hp : Permitted alloc R root s op) (he : step alloc s op = some s') :
    Refines R hhdm root m0 s' (recordOp last op) := by
  cases op with
  | map virt phys flags => exact map_refines hfoot h virt phys flags hp he
  | unmap virt =>
      cases he
      exact unmap_refines h virt hp

-- The next frames of pmm_alloc can all become tables of the tree.
structure Supplied (alloc : Memory 64 → σ → BitVec 64 × Memory 64 × σ) (R : Set (BitVec 64))
    (hhdm root : BitVec 64) (s : State σ) (l : List (BitVec 64)) : Prop where
  upcoming : Upcoming alloc R s.mem s.frames l
  nonzero : ∀ p ∈ l, p ≠ 0
  fresh : Fresh everywhere R hhdm root s.mem l

-- A map takes at most three of them.
theorem Supplied.map {l : List (BitVec 64)} (h : Supplied alloc R hhdm root s l)
    (hfoot : Footprint alloc R) (hh : s.hhdmOffset = hhdm) (hroot : s.pml4 = root + hhdm)
    (hwell : WellFormed hhdm root s.mem)
    (hs : ∀ f ∈ tables everywhere hhdm s.mem root, Spares R hhdm f) (hlen : 3 ≤ l.length)
    (virt phys flags : BitVec 64) :
    ∃ s' new rest, vmmMapPage alloc virt phys flags s = some s' ∧ Logged s s' new ∧
      l = new ++ rest ∧ new.length ≤ 3 ∧ Supplied alloc R hhdm root s' rest := by
  obtain ⟨s', new, rest, he, hlog, hm, rfl, hthree, hup⟩ := vmmMapPage_draws phys flags hfoot hh hroot
    hwell.tree hs trivial (hwell.plainWalk (pageNumber virt)) h.upcoming hlen h.nonzero h.fresh
  exact ⟨s', new, rest, he, hlog, rfl, hthree, hup,
    fun p hp => h.nonzero p (List.mem_append_right _ hp), h.fresh.right hm.toExtends⟩

-- While pmm_alloc has three frames for each operation to come, the run goes on.
theorem run_returns (hfoot : Footprint alloc R) {l : List (BitVec 64)} (ops : List Op)
    (h : Refines R hhdm root m0 s last) (hs : Supplied alloc R hhdm root s l)
    (hlen : 3 * ops.length ≤ l.length)
    (hp : PermittedRun (step alloc) (Permitted alloc R root) s ops) :
    ∃ s', run (step alloc) s ops = some s' := by
  induction ops generalizing s last l with
  | nil => exact ⟨s, rfl⟩
  | cons op rest ih =>
      obtain ⟨hperm, hnext⟩ := hp
      simp only [List.length_cons] at hlen
      have hturn : ∃ s' l', step alloc s op = some s' ∧ Supplied alloc R hhdm root s' l' ∧
          l.length ≤ l'.length + 3 := by
        cases op with
        | map virt phys flags =>
            obtain ⟨s', new, l', he, -, rfl, hthree, hs'⟩ := hs.map hfoot h.offset h.pml4 h.wellFormed
              h.spares (by omega) virt phys flags
            refine ⟨s', l', he, hs', ?_⟩
            rw [List.length_append]
            omega
        | unmap virt =>
            have hleaf : (tableAt s.hhdmOffset s.mem root (tablePath (pageNumber virt))).isSome = true :=
              hperm
            rw [h.offset] at hleaf
            obtain ⟨m', hs', hext, -, hkeep⟩ :=
              vmmUnmapPage_unmapped h.offset h.pml4 h.wellFormed h.spares hleaf
            refine ⟨_, l, rfl, ?_, by omega⟩
            rw [hs']
            exact ⟨hs.upcoming.congr hkeep, hs.nonzero, hs.fresh.right hext⟩
      obtain ⟨s1, l', he, hs1, hl'⟩ := hturn
      obtain ⟨s', hr⟩ := ih (step_refines hfoot h op hperm he) hs1 (by omega) (hnext s1 he)
      refine ⟨s', ?_⟩
      simp only [run, he]
      exact hr

end Steps

-- After any run the leaf entries are those of the last operations, the tables
-- still form a tree, and a page last mapped with flags below 0x1000 translates
-- to the frame it was mapped to. While pmm_alloc has three frames for each
-- operation the run does not halt.
theorem page_table_refines {σ : Type} (alloc : Memory 64 → σ → BitVec 64 × Memory 64 × σ)
    (R : Set (BitVec 64)) (hhdm root : BitVec 64) (s0 : State σ) (ops : List Op)
    (hfoot : Footprint alloc R) (hhdm0 : s0.hhdmOffset = hhdm) (hroot : s0.pml4 = root + hhdm)
    (hwell : WellFormed hhdm root s0.mem)
    (hs : ∀ f ∈ tables everywhere hhdm s0.mem root, Spares R hhdm f)
    (hp : PermittedRun (step alloc) (Permitted alloc R root) s0 ops) :
    (∀ s, run (step alloc) s0 ops = some s → WellFormed hhdm root s.mem ∧
      (∀ page, leafEntry hhdm s.mem root page =
        ((lastOn ops page).map Op.entry).getD (leafEntry hhdm s0.mem root page)) ∧
      ∀ virt virt' phys flags, lastOn ops (pageNumber virt) = some (.map virt' phys flags) →
        flags < 0x1000 → vmmVirtToPhys virt s = phys &&& ~~~0xFFF) ∧
    ∀ l, Supplied alloc R hhdm root s0 l → 3 * ops.length ≤ l.length →
      ∃ s, run (step alloc) s0 ops = some s := by
  have h0 : Refines R hhdm root s0.mem s0 (fun _ => none) :=
    ⟨hhdm0, hroot, hwell, hs, fun _ => rfl, fun _ hnone => absurd hnone (by simp)⟩
  refine ⟨fun s hrun => ?_, fun l hl hlen => run_returns hfoot ops h0 hl hlen hp⟩
  have h := run_simulates recordOp (Refines R hhdm root s0.mem)
    (fun s last op s' hr hperm he => step_refines hfoot hr op hperm he) s0 s _ ops h0 hp hrun
  rw [foldl_recordOp] at h
  refine ⟨h.wellFormed, h.entry, ?_⟩
  intro virt virt' phys flags hlast hflags
  obtain ⟨t, ht⟩ := Option.isSome_iff_exists.mp (h.leaf (pageNumber virt) (by rw [hlast]; rfl))
  obtain ⟨pdpt, pd, hf⟩ := followed_of_leaf h.offset h.pml4 (h.wellFormed.plainWalk _)
    h.wellFormed.pointers ht
  have hentry := h.entry (pageNumber virt)
  rw [hlast] at hentry
  have hslot : readEntry s.mem (t + hhdm) (ptIndex virt) =
      (phys &&& ~~~0xFFF) ||| flags ||| ptePresent := by
    rw [ptIndex_eq]
    simp only [leafEntry, leafAt, ht] at hentry
    exact hentry
  have hlow : flags &&& ~~~0xFFF = 0 := by
    apply BitVec.eq_of_toNat_eq
    rw [Word.toNat_and_not_mask flags 0xFFF 12 (by decide)]
    rw [BitVec.lt_def] at hflags
    have hnat : flags.toNat < 4096 := hflags
    simp only [BitVec.ofNat_eq_ofNat, BitVec.toNat_ofNat]
    omega
  rw [vmmVirtToPhys_followed hf, hslot, or_and_of_zero (by decide), or_and_of_zero hlow,
    BitVec.and_assoc, BitVec.and_self]

-- The frames are fresh for a map too.
theorem Supplied.permits {σ : Type} {alloc : Memory 64 → σ → BitVec 64 × Memory 64 × σ}
    {R : Set (BitVec 64)} {root : BitVec 64} {s : State σ} {l : List (BitVec 64)}
    (h : Supplied alloc R s.hhdmOffset root s l) (hfoot : Footprint alloc R)
    (hroot : s.pml4 = root + s.hhdmOffset) (hwell : WellFormed s.hhdmOffset root s.mem)
    (hs : ∀ f ∈ tables everywhere s.hhdmOffset s.mem root, Spares R s.hhdmOffset f)
    (hlen : 3 ≤ l.length) (hptr : ∀ p ∈ l, p + s.hhdmOffset ≠ 0) (virt phys flags : BitVec 64) :
    Permitted alloc R root s (.map virt phys flags) := by
  obtain ⟨s', new, rest, he, hlog, rfl, -⟩ := h.map hfoot rfl hroot hwell hs hlen virt phys flags
  intro s'' he' new' hnew
  obtain rfl : s' = s'' := Option.some.inj (he.symm.trans he')
  obtain rfl := List.append_cancel_left (hlog.handed.symm.trans hnew)
  have hfront := h.fresh.left
  exact ⟨hfront.nodup, fun p hp => ⟨hfront.frames p hp, hptr p (List.mem_append_left _ hp),
    hfront.unused p hp, hfront.spares p hp⟩⟩

section Sample

open Miyabi.Mm.Boot

-- An empty tree in frame 1, next to the bitmap of pmm_alloc in frame 0.
def emptyState : State (List Returned) :=
  ⟨lowBitmap 0xFF03, 0xFFFF800000000000, 0x1000 + 0xFFFF800000000000, [], []⟩

theorem emptyState_slot (i : BitVec 9) : slot emptyState.hhdmOffset emptyState.mem 0x1000 i = 0 :=
  lowBitmap_slot 0xFF03 (f := 0x1000) rfl (by decide) i

theorem emptyState_wellFormed :
    WellFormed emptyState.hhdmOffset 0x1000 emptyState.mem := by
  refine ⟨tree_empty (by simp [Aligned]) emptyState_slot, ?_, ?_⟩
  · intro path i f _ hf hpres
    rw [(lookup_empty emptyState_slot hf).2, emptyState_slot] at hpres
    exact absurd (by decide) hpres
  · intro f hf
    rw [tables_empty emptyState_slot hf]
    decide

theorem emptyState_spares : ∀ f ∈ tables everywhere emptyState.hhdmOffset emptyState.mem 0x1000,
    Spares (bitmapRegion lowPmm) emptyState.hhdmOffset f := by
  intro f hf
  rw [tables_empty emptyState_slot hf]
  exact lowPmm_spares (f := 0x1000) rfl (by decide)

-- Frames 2 to 7 are free.
theorem emptyState_supplied : Supplied (bitmapAlloc lowPmm) (bitmapRegion lowPmm)
    emptyState.hhdmOffset 0x1000 emptyState (lowFrames 0xFF03) := by
  refine ⟨lowPmm_upcoming 0xFF03 (fun _ _ => rfl) emptyState.frames, fun p hp => (lowFrames_cases hp).2.1,
    lowFrames_fresh (fun p hp hin => ?_)⟩
  rw [tables_empty emptyState_slot hin] at hp
  exact absurd hp (by decide +kernel)

theorem lowFrames_length : (lowFrames 0xFF03).length = 6 := by decide +kernel

theorem emptyState_permits (virt phys flags : BitVec 64) :
    Permitted (bitmapAlloc lowPmm) (bitmapRegion lowPmm) 0x1000 emptyState (.map virt phys flags) :=
  emptyState_supplied.permits lowPmm_footprint rfl emptyState_wellFormed emptyState_spares
    (by rw [lowFrames_length]; decide) (fun _ hp => lowFrames_pointer hp) virt phys flags

theorem emptyState_refines (m0 : Memory 64) (hm0 : m0 = emptyState.mem) :
    Refines (bitmapRegion lowPmm) emptyState.hhdmOffset 0x1000 m0 emptyState (fun _ => none) := by
  subst hm0
  exact ⟨rfl, rfl, emptyState_wellFormed, emptyState_spares, fun _ => rfl,
    fun _ hnone => absurd hnone (by simp)⟩

theorem page_table_refines_empty :
    ∃ s, run (step (bitmapAlloc lowPmm)) emptyState [.map 0x400000 0x9000 3, .unmap 0x401000] =
      some s ∧ vmmVirtToPhys 0x400000 s = 0x9000 := by
  have hmap := emptyState_permits 0x400000 0x9000 3
  have hperm : PermittedRun (step (bitmapAlloc lowPmm))
      (Permitted (bitmapAlloc lowPmm) (bitmapRegion lowPmm) 0x1000) emptyState
      [.map 0x400000 0x9000 3, .unmap 0x401000] := by
    refine ⟨hmap, fun s' he => ⟨?_, fun _ _ => trivial⟩⟩
    have h1 := map_refines lowPmm_footprint (emptyState_refines _ rfl) 0x400000 0x9000 3 hmap he
    have hleaf := h1.leaf (pageNumber 0x400000) rfl
    rw [← h1.offset] at hleaf
    exact hleaf
  obtain ⟨hends, hreturns⟩ := page_table_refines (bitmapAlloc lowPmm) (bitmapRegion lowPmm)
    emptyState.hhdmOffset 0x1000 emptyState _ lowPmm_footprint rfl rfl emptyState_wellFormed
    emptyState_spares hperm
  obtain ⟨s, hrun⟩ := hreturns _ emptyState_supplied (by rw [lowFrames_length]; decide)
  exact ⟨s, hrun, (hends s hrun).2.2 0x400000 0x400000 0x9000 3 rfl (by decide)⟩

end Sample

end Miyabi.Mm.Vmm
