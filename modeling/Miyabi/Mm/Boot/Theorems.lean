import Miyabi.Base.Transition
import Miyabi.Mm.Boot.Supply

namespace Miyabi.Mm.Boot

open Miyabi.Base Miyabi.Base.Memory Miyabi.Base.TableTree Miyabi.Base.Transition
open Miyabi.Mm.Pmm Miyabi.Mm.Vmm

section Drawing

variable {p : Statics} {hhdm root : BitVec 64} {m m' : Memory 64} {n : ℕ}

-- Writes to the bitmap do not reach the tables.
theorem tables_unmoved (hg : Geometry p hhdm) (h : Owned p hhdm root m)
    (hkeep : ∀ x, x ∉ bitmapRegion p → m' x = m x) : SameTree everywhere hhdm root m m' :=
  sameTree h.tree (fun f hf x hx => hkeep x (h.spares hg f hf x hx))

theorem alloc_owned (hg : Geometry p hhdm) (h : Owned p hhdm root m) :
    Owned p hhdm root (pmmAlloc p m).2 ∧
      tables everywhere hhdm (pmmAlloc p m).2 root = tables everywhere hhdm m root := by
  have hsame := tables_unmoved hg h (bitmapAlloc_footprint hg.sized m [])
  exact ⟨⟨hsame.tree, fun f hf => h.bitmap f (hsame.tables ▸ hf)⟩, hsame.tables⟩

-- What pmm_alloc returns next when no frame in use is the least free one.
theorem alloc_fresh {used : Set ℕ} {k : ℕ} (hg : Geometry p hhdm) (hbuf : Buffered p m used (k + 1))
    (hne : (pmmAlloc p m).1 ≠ 0) :
    IsFrame (pmmAlloc p m).1 ∧ frameNumber (pmmAlloc p m).1 ∉ used ∧
      freeFrames p (pmmAlloc p m).2 = freeFrames p m \ {frameNumber (pmmAlloc p m).1} := by
  rcases pmmAlloc_spec hg.sized (m := m) with ⟨-, hcall⟩ | ⟨f, m', hleast, hcall, hrest, -⟩
  · rw [hcall] at hne
    exact absurd rfl hne
  · have hlt := hleast.1.2.2
    have hphys := hg.physical
    have hnum : frameNumber (BitVec.ofNat 64 (f * 4096)) = f := by
      rw [frameNumber, toNat_frame (by omega), Nat.mul_div_cancel _ (by omega)]
    rw [hcall, hnum]
    exact ⟨isFrame_of_frame (by omega), hbuf.least hleast, hrest⟩

-- The page returned by a call is no table at that moment, and not in frame n.
def Harmless (hhdm root : BitVec 64) (n : ℕ) (call : Returned) : Prop :=
  call.page ≠ 0 → call.page ∉ tables everywhere hhdm call.mem root ∧ frameNumber call.page ≠ n

theorem alloc_harmless {used : Set ℕ} {k : ℕ} (hg : Geometry p hhdm) (h : Owned p hhdm root m)
    (hbuf : Buffered p m used (k + 1)) (hused : usedFrames hhdm root n m ⊆ used) :
    Harmless hhdm root n ⟨(pmmAlloc p m).1, (pmmAlloc p m).2⟩ := by
  intro hne
  obtain ⟨-, hout, -⟩ := alloc_fresh hg hbuf hne
  rw [(alloc_owned hg h).2]
  constructor
  · exact fun hin => hout (hused (table_mem_usedFrames hin))
  · rintro rfl
    exact hout (hused (Set.mem_insert _ _))

-- The frames that the rest of a map may not take: those in use and those of the bitmap.
def reservedFrames (p : Statics) (hhdm root : BitVec 64) (n : ℕ) (m : Memory 64) : Set ℕ :=
  usedFrames hhdm root n m ∪ bitmapFrames p

-- A map of the page that is under way finds free frames for the tables it still has to make.
structure Roomy (p : Statics) (hhdm root : BitVec 64) (n : ℕ) (page : BitVec 36) (m : Memory 64) :
    Prop extends Owned p hhdm root m where
  room : Buffered p m (reservedFrames p hhdm root n m) (missing hhdm m root page)

variable {page : BitVec 36} {new : List (BitVec 64)}

theorem extends_prefixes (he : Extends everywhere (bitmapRegion p) hhdm root m m' new)
    (path : List (BitVec 9)) (hpre : path <+: tablePath page) (h : tableAt hhdm m root path ≠ none) :
    tableAt hhdm m' root path ≠ none := by
  obtain ⟨f, hf⟩ := Option.ne_none_iff_exists'.mp h
  rw [he.keeps path f (walk_on_path everywhere page trivial path hpre) hf]
  exact Option.some_ne_none f

-- A step that adds no table.
theorem Roomy.kept (h : Roomy p hhdm root n page m)
    (he : Extends everywhere (bitmapRegion p) hhdm root m m' [])
    (hsame : freeFrames p m' = freeFrames p m) : Roomy p hhdm root n page m' := by
  have htables : tables everywhere hhdm m' root = tables everywhere hhdm m root := by
    ext f
    simpa using he.tables f
  refine ⟨⟨he.tree, fun f hf => h.bitmap f (htables ▸ hf)⟩, ?_⟩
  rw [reservedFrames, usedFrames, htables]
  exact (h.room.mono (missing_mono (extends_prefixes he))).congr hsame

-- A step that makes a table of the frame that pmm_alloc has returned.
theorem Roomy.made {t : BitVec 64} {path : List (BitVec 9)} (h : Roomy p hhdm root n page m)
    (he : Extends everywhere (bitmapRegion p) hhdm root m m' [t])
    (hout : frameNumber t ∉ reservedFrames p hhdm root n m)
    (hrest : freeFrames p m' = freeFrames p m \ {frameNumber t}) (hpre : path <+: tablePath page)
    (hnone : tableAt hhdm m root path = none) (hmade : tableAt hhdm m' root path ≠ none) :
    Roomy p hhdm root n page m' := by
  have hless := missing_made (extends_prefixes he) hpre hnone hmade
  have htaken := (h.room.mono (Nat.succ_le_of_lt hless)).taken hrest
  refine ⟨⟨he.tree, fun f hf => ?_⟩, fun g hg hfree => htaken g ?_ hfree⟩
  · rcases (he.tables f).mp hf with hold | hnew
    · exact h.bitmap f hold
    · rw [List.mem_singleton.mp hnew]
      exact fun hin => hout (Or.inr hin)
  · rcases hg with (rfl | ⟨f, hf, rfl⟩) | hbit
    · exact Set.mem_insert_of_mem _ (Or.inl (Set.mem_insert _ _))
    · rcases (he.tables f).mp hf with hold | hnew
      · exact Set.mem_insert_of_mem _ (Or.inl (table_mem_usedFrames hold))
      · rw [List.mem_singleton.mp hnew]
        exact Set.mem_insert _ _
    · exact Set.mem_insert_of_mem _ (Or.inr hbit)

variable {s s' : Vmm.State (List Returned)} {i : BitVec 9} {f q : BitVec 64}

-- One step of the walk of vmm_map_page.
theorem ensureTable_drawn (path : List (BitVec 9)) (hg : Geometry p hhdm) (hh : s.hhdmOffset = hhdm)
    (h : Roomy p hhdm root n page s.mem) (hf : tableAt hhdm s.mem root path = some f)
    (hpre : path ++ [i] <+: tablePath page)
    (hplain : Present (slot hhdm s.mem f i) → Plain (slot hhdm s.mem f i))
    (he : ensureTable (bitmapAlloc p) (f + hhdm) (i.setWidth 64) s = some (q, s')) :
    ∃ new, Logged s s' new ∧ Extends everywhere (bitmapRegion p) hhdm root s.mem s'.mem new ∧
      Roomy p hhdm root n page s'.mem ∧
      (∀ call ∈ s'.frames, call ∈ s.frames ∨ Harmless hhdm root n call) ∧
      ∃ g, q = g + hhdm ∧ tableAt hhdm s'.mem root (path ++ [i]) = some g := by
  have hw := walk_on_path everywhere page trivial _ hpre
  have hal := h.tree.aligned hf
  have hspares := h.spares hg
  have hfspare := hspares f ⟨path, (walk_prefixClosed everywhere).init path i hw, hf⟩
  obtain ⟨new, hlog⟩ := ensureTable_logged he
  have hspec := ensureTable_spec path (bitmapAlloc_footprint hg.sized) hh h.tree hspares hf hw hplain
    he hlog
  rcases ensureTable_cases he with ⟨-, rfl, -⟩ | ⟨habs, t, m1, frames, hcall, hne, rfl, -⟩
  · obtain rfl := hlog.unique ⟨(List.append_nil _).symm, rfl, rfl⟩
    obtain ⟨hgrown, hlook⟩ := hspec ⟨List.nodup_nil, by simp, by simp, by simp⟩
    have hsame : freeFrames p (writeEntry s.mem (f + hhdm) (i.setWidth 64)
        (readEntry s.mem (f + hhdm) (i.setWidth 64) ||| (pteUser ||| pteWrite))) =
        freeFrames p s.mem :=
      freeFrames_congr hg.sized (fun x hx =>
        writeEntry_keeps hal i _ x (fun hin => hfspare x hin hx))
    exact ⟨[], hlog, hgrown.toExtends, h.kept hgrown.toExtends hsame, fun _ hin => Or.inl hin, hlook⟩
  · obtain rfl : new = [t] := hlog.unique ⟨rfl, rfl, rfl⟩
    simp only [bitmapAlloc, Prod.mk.injEq] at hcall
    obtain ⟨rfl, rfl, rfl⟩ := hcall
    -- The table is missing, so that there is a frame to spare for it.
    have hnone : tableAt hhdm s.mem root (path ++ [i]) = none := by
      have hlook : lookup child (slot hhdm s.mem) root path = some f := hf
      rw [tableAt, lookup_snoc, hlook]
      exact child_of_absent habs
    obtain ⟨k, hk⟩ := Nat.exists_eq_succ_of_ne_zero (missing_pos hpre hnone).ne'
    have hroom := h.room
    rw [hk] at hroom
    obtain ⟨hframe, hout, hrest⟩ := alloc_fresh hg hroom hne
    have hharmless := alloc_harmless hg h.toOwned hroom Set.subset_union_left
    have hunused : (pmmAlloc p s.mem).1 ∉ tables everywhere hhdm s.mem root :=
      fun hin => hout (Or.inl (table_mem_usedFrames hin))
    have hpspare := spares_bitmap hg.pointer hg.aligned hg.space hg.pages hframe.aligned
      (fun hin => hout (Or.inr hin))
    generalize (pmmAlloc p s.mem).1 = t at *
    generalize (pmmAlloc p s.mem).2 = m1 at *
    have hfresh : Fresh everywhere (bitmapRegion p) hhdm root s.mem [t] :=
      ⟨List.nodup_singleton t, by simpa using hframe, by simpa using hunused,
        by simpa using hpspare⟩
    obtain ⟨hgrown, hlook⟩ := hspec hfresh
    subst hh
    have hsame : freeFrames p (writeEntry (zeroTable m1 (t + s.hhdmOffset) 512)
        (f + s.hhdmOffset) (i.setWidth 64) (tableEntry t)) = freeFrames p m1 :=
      freeFrames_congr hg.sized (fun x hx =>
        (writeEntry_keeps hal i _ x (fun hin => hfspare x hin hx)).trans
          ((zeroTable_spec s.hhdmOffset m1 hframe.aligned 512 le_rfl).2 x
            (fun hin => hpspare x hin hx)))
    have hmade : tableAt s.hhdmOffset (writeEntry (zeroTable m1 (t + s.hhdmOffset) 512)
        (f + s.hhdmOffset) (i.setWidth 64) (tableEntry t)) root (path ++ [i]) ≠ none := by
      obtain ⟨g, -, hg'⟩ := hlook
      rw [hg']
      exact Option.some_ne_none g
    refine ⟨[t], hlog, hgrown.toExtends,
      h.made hgrown.toExtends hout (hsame.trans hrest) hpre hnone hmade, ?_, hlook⟩
    intro call hin
    rcases List.mem_append.mp hin with hold | hnew
    · exact Or.inl hold
    · exact Or.inr (List.mem_singleton.mp hnew ▸ hharmless)

end Drawing

section MapPage

variable {p : Statics} {hhdm root : BitVec 64} {s s' : Vmm.State (List Returned)}

-- One vmm_map_page, with frames to spare for the tables it makes.
theorem vmmMapPage_drawn {virt phys flags : BitVec 64} {n : ℕ} (hg : Geometry p hhdm)
    (hh : s.hhdmOffset = hhdm) (hroot : s.pml4 = root + hhdm)
    (h : Roomy p hhdm root n (pageNumber virt) s.mem)
    (hplain : PlainWalk hhdm s.mem root (pageNumber virt))
    (he : vmmMapPage (bitmapAlloc p) virt phys flags s = some s') :
    ∃ new, Logged s s' new ∧ Owned p hhdm root s'.mem ∧
      ∀ call ∈ s'.frames, call ∈ s.frames ∨ Harmless hhdm root n call := by
  obtain ⟨q1, s1, q2, s2, q3, s3, h1, h2, h3, rfl⟩ := vmmMapPage_steps he
  rw [pml4Index_eq, hroot] at h1
  rw [pdptIndex_eq] at h2
  rw [pdIndex_eq] at h3
  rw [ptIndex_eq]
  have hw := walk_on_path everywhere (pageNumber virt) trivial
  generalize pageNumber virt = page at *
  -- The table below the root.
  obtain ⟨n1, l1, e1, r1, c1, t1, rfl, ht1⟩ := ensureTable_drawn [] hg hh h rfl ⟨_, rfl⟩
    (hplain [] _ root ⟨_, rfl⟩ rfl) h1
  -- The page directory.
  have p1 := hplain.extends hw e1
  obtain ⟨n2, l2, e2, r2, c2, t2, rfl, ht2⟩ := ensureTable_drawn _ hg (l1.hhdm.trans hh) r1 ht1
    ⟨_, rfl⟩ (p1 _ _ t1 ⟨_, rfl⟩ ht1) h2
  -- The leaf table.
  have p2 := hplain.extends hw (e1.trans e2)
  obtain ⟨n3, l3, e3, r3, c3, t3, rfl, ht3⟩ := ensureTable_drawn _ hg ((l1.trans l2).hhdm.trans hh)
    r2 ht2 ⟨_, rfl⟩ (p2 _ _ t2 ⟨_, rfl⟩ ht2) h3
  have hwleaf := hw _ (List.prefix_refl (tablePath page))
  obtain ⟨hleaf, -⟩ := leaf_written (R := bitmapRegion p) r3.tree ht3 hwleaf rfl (leafIndex page)
    ((phys &&& ~~~0xFFF) ||| flags ||| ptePresent)
  have hspare := r3.spares hg t3 ⟨_, hwleaf, ht3⟩
  have hsame : freeFrames p (writeEntry s3.mem (t3 + hhdm) ((leafIndex page).setWidth 64)
      ((phys &&& ~~~0xFFF) ||| flags ||| ptePresent)) = freeFrames p s3.mem :=
    freeFrames_congr hg.sized (fun x hx => writeEntry_keeps (r3.tree.aligned ht3) _ _ x
      (fun hin => hspare x hin hx))
  have hlog := (l1.trans l2).trans l3
  refine ⟨_, ⟨hlog.handed, hlog.hhdm, hlog.pml4⟩, (r3.kept hleaf hsame).toOwned, ?_⟩
  intro call hin
  rcases c3 call hin with hin | hsafe
  · rcases c2 call hin with hin | hsafe
    · exact c1 call hin
    · exact Or.inr hsafe
  · exact Or.inr hsafe

end MapPage

section Runs

-- The frame of the framebuffer descriptor.
def System.fbFrame (s : System) : ℕ := frameNumber (s.fb - s.vmm.hhdmOffset)

-- Before a call of pmm_alloc each frame in use, if it is free, has a smaller free frame.
-- Before vmm_map_page there are as many as it has to make tables, for the bitmap's
-- frames too, and there is neither a huge page nor an address bit above bit 51 on its way.
def Permitted (root : BitVec 64) (s : System) : Call → Prop
  | .pmmAlloc => Buffered s.pmm s.vmm.mem (usedFrames s.vmm.hhdmOffset root s.fbFrame s.vmm.mem) 1
  | .vmmMapPage virt _ _ =>
      PlainWalk s.vmm.hhdmOffset s.vmm.mem root (pageNumber virt) ∧
        Buffered s.pmm s.vmm.mem (reservedFrames s.pmm s.vmm.hhdmOffset root s.fbFrame s.vmm.mem)
          (missing s.vmm.hhdmOffset s.vmm.mem root (pageNumber virt))

structure Safe (root : BitVec 64) (s : System) : Prop where
  geometry : Geometry s.pmm s.vmm.hhdmOffset
  pml4 : s.vmm.pml4 = root + s.vmm.hhdmOffset
  owned : Owned s.pmm s.vmm.hhdmOffset root s.vmm.mem
  calls : ∀ call ∈ s.vmm.frames, Harmless s.vmm.hhdmOffset root s.fbFrame call

variable {root : BitVec 64} {s s' : System}

theorem safe_pmmAlloc (h : Safe root s) (hp : Permitted root s .pmmAlloc)
    (he : s.step .pmmAlloc = some s') : Safe root s' := by
  cases he
  obtain ⟨howned, -⟩ := alloc_owned h.geometry h.owned
  refine ⟨h.geometry, h.pml4, howned, ?_⟩
  intro call hin
  rcases List.mem_append.mp hin with hold | hnew
  · exact h.calls call hold
  · rw [List.mem_singleton.mp hnew]
    exact alloc_harmless h.geometry h.owned hp le_rfl

theorem safe_vmmMapPage {virt phys flags : BitVec 64} (h : Safe root s)
    (hp : Permitted root s (.vmmMapPage virt phys flags))
    (he : s.step (.vmmMapPage virt phys flags) = some s') : Safe root s' := by
  obtain ⟨hplain, hroom⟩ := hp
  simp only [System.step] at he
  cases hmap : vmmMapPage (bitmapAlloc s.pmm) virt phys flags s.vmm with
  | none =>
      rw [hmap] at he
      cases he
  | some vmm =>
      rw [hmap] at he
      cases he
      obtain ⟨new, hlog, howned, hcalls⟩ := vmmMapPage_drawn h.geometry rfl h.pml4 ⟨h.owned, hroom⟩
        hplain hmap
      have hfb : System.fbFrame { s with vmm } = s.fbFrame := by
        simp only [System.fbFrame, hlog.hhdm]
      refine ⟨?_, ?_, ?_, ?_⟩
      · rw [hlog.hhdm]
        exact h.geometry
      · rw [hlog.hhdm, hlog.pml4]
        exact h.pml4
      · rw [hlog.hhdm]
        exact howned
      · intro call hin
        rw [hfb, hlog.hhdm]
        exact (hcalls call hin).elim (h.calls call) id

theorem safe_step (h : Safe root s) (call : Call) (hp : Permitted root s call)
    (he : s.step call = some s') : Safe root s' := by
  cases call with
  | pmmAlloc => exact safe_pmmAlloc h hp he
  | vmmMapPage virt phys flags => exact safe_vmmMapPage h hp he

-- The state that init_pmm and init_vmm leave behind.
theorem start_cases {boot : BootInfo} {framebuffers : Option (List (BitVec 64))} {cr3 : BitVec 64}
    {m : Memory 64} (he : start boot framebuffers cr3 m = some s) :
    initPmm boot m = some (s.pmm, s.vmm.mem) ∧ s.vmm.hhdmOffset = s.pmm.hhdmOffset ∧
      s.vmm.pml4 = (cr3 &&& ~~~0xFFF) + s.vmm.hhdmOffset ∧ s.vmm.frames = [] := by
  unfold start at he
  cases hfb : initFb framebuffers with
  | none =>
      rw [hfb] at he
      cases he
  | some fb =>
      simp only [hfb] at he
      cases hpmm : initPmm boot m with
      | none =>
          rw [hpmm] at he
          cases he
      | some pm =>
          obtain ⟨p, m'⟩ := pm
          simp only [hpmm] at he
          cases hvmm : initVmm cr3 ⟨m', p.hhdmOffset, 0, [], []⟩ with
          | none =>
              rw [hvmm] at he
              cases he
          | some vmm =>
              rw [hvmm] at he
              cases he
              simp only [initVmm] at hvmm
              split at hvmm
              · cases hvmm
              · cases hvmm
                exact ⟨rfl, rfl, rfl, rfl⟩

theorem initialised_geometry {boot : BootInfo} {map : List MemmapEntry} {m m' : Memory 64}
    {p : Statics} (h : Initialised boot map m p m') (hspace : ∀ entry ∈ map, entry.InSpace)
    (hphys : ∀ entry ∈ map, entry.base.toNat + entry.length.toNat ≤ 2 ^ 52) :
    Geometry p p.hhdmOffset := by
  have hhigh := (highestEnd_le_iff map hspace _).mpr hphys
  have hcount := h.pageCount
  have hbytes := h.bitmapBytes
  have hpages := h.bitmapPages
  obtain ⟨pre, entry, post, hsplit, -, hr, hroom⟩ := findRoom_spec hspace (by omega) h.room
  have hm : entry ∈ map := by simp [hsplit]
  have hnat := toNat_frame (InSpace.first_lt (hspace entry hm))
  rw [← hroom] at hnat
  have hstop := InSpace.stop_lt (hspace entry hm)
  have hlarge := hr.large
  have hne := hr.nonempty
  exact ⟨h.wellSized hspace, by omega, h.pointer, by omega, by omega, by omega⟩

-- In a run whose calls find smaller free frames than those in use, no frame in use is
-- ever handed out.
theorem boot_frames_kept (boot : BootInfo) (map : List MemmapEntry)
    (framebuffers : Option (List (BitVec 64))) (cr3 : BitVec 64) (m : Memory 64) (s s' : System)
    (calls : List Call) (hmap : boot.memmap = some map) (hspace : ∀ entry ∈ map, entry.InSpace)
    (hphys : ∀ entry ∈ map, entry.base.toNat + entry.length.toNat ≤ 2 ^ 52)
    (hstart : start boot framebuffers cr3 m = some s)
    (htree : Tree everywhere s.vmm.hhdmOffset s.vmm.mem (cr3 &&& ~~~0xFFF))
    (hbitmap : ∀ f ∈ tables everywhere s.vmm.hhdmOffset s.vmm.mem (cr3 &&& ~~~0xFFF),
      frameNumber f ∉ bitmapFrames s.pmm)
    (hp : PermittedRun System.step (Permitted (cr3 &&& ~~~0xFFF)) s calls)
    (hr : run System.step s calls = some s') :
    ∀ call ∈ s'.vmm.frames,
      Harmless s'.vmm.hhdmOffset (cr3 &&& ~~~0xFFF) s'.fbFrame call := by
  obtain ⟨hinit, hhdm, hpml4, hframes⟩ := start_cases hstart
  have h := initPmm_spec hmap hspace hinit
  have hsafe : Safe (cr3 &&& ~~~0xFFF) s := by
    refine ⟨?_, hpml4, ⟨htree, hbitmap⟩, ?_⟩
    · rw [hhdm]
      exact initialised_geometry h hspace hphys
    · rw [hframes]
      simp
  exact (run_of_preservation (Safe _) (fun _ a _ => fun hs ha he => safe_step hs a ha he) s s' calls
    hsafe hp hr).calls

-- The frames of the boot loader that are still in use.
def Reclaimable (map : List MemmapEntry) (n : ℕ) : Prop :=
  ∃ entry ∈ map, entry.type = .bootloaderReclaimable ∧ n ∈ entry.interior

-- Memory from `base` to `middle` for everyone, where the bitmap takes the first page, and
-- from there on memory of the boot loader.
def loaderMap (base middle stop : BitVec 64) : List MemmapEntry :=
  [⟨base, middle - base, .usable⟩, ⟨middle, stop - middle, .bootloaderReclaimable⟩]

def loaderBoot (map : List MemmapEntry) : BootInfo :=
  ⟨some map, some 0xFFFF800000000000, 0xFFFFFFFF80000000, 0xFFFFFFFF80100000⟩

-- Started on zero memory, with the descriptor of the framebuffer in frame n.
def startedOn (map : List MemmapEntry) (cr3 : BitVec 64) (n : ℕ) : Option System :=
  start (loaderBoot map) (some [0xFFFF800000000000 + BitVec.ofNat 64 (n * 4096)]) cr3 (fun _ => 0)

structure Started (map : List MemmapEntry) (base cr3 : BitVec 64) (n : ℕ) (free : List ℕ) (s : System) :
    Prop where
  start : startedOn map cr3 n = some s
  bitmap : s.pmm.bitmap = base + 0xFFFF800000000000
  bitmapPhys : s.pmm.bitmapPhys = base
  bitmapBytes : s.pmm.bitmapBytes = 1
  bitmapPages : s.pmm.bitmapPages = 1
  hhdmOffset : s.vmm.hhdmOffset = 0xFFFF800000000000
  fbFrame : s.fbFrame = n
  free : freeList s.pmm s.vmm.mem = free

theorem started_of_values {map : List MemmapEntry} {base cr3 : BitVec 64} {n : ℕ} {free : List ℕ}
    (h : (startedOn map cr3 n).map (fun s => (s.pmm.bitmap, s.pmm.bitmapPhys, s.pmm.bitmapBytes,
        s.pmm.bitmapPages, s.vmm.hhdmOffset, s.fbFrame, freeList s.pmm s.vmm.mem)) =
      some (base + 0xFFFF800000000000, base, 1, 1, 0xFFFF800000000000, n, free)) :
    ∃ s, Started map base cr3 n free s := by
  obtain ⟨s, hstart, hvalues⟩ := Option.map_eq_some_iff.mp h
  simp only [Prod.mk.injEq] at hvalues
  obtain ⟨hb, hphys, hbytes, hpages, hhdm, hfb, hfree⟩ := hvalues
  exact ⟨s, hstart, hb, hphys, hbytes, hpages, hhdm, hfb, hfree⟩

section Started

variable {map : List MemmapEntry} {base cr3 : BitVec 64} {n : ℕ} {free : List ℕ}

theorem Started.initialised (h : Started map base cr3 n free s) (hspace : ∀ entry ∈ map, entry.InSpace) :
    Initialised (loaderBoot map) map (fun _ => 0) s.pmm s.vmm.mem :=
  initPmm_spec rfl hspace (start_cases h.start).1

-- The pages outside of the bitmap's are still zero.
theorem Started.slot (h : Started map base cr3 n free s) (hspace : ∀ entry ∈ map, entry.InSpace)
    (hbase : Aligned base) {r : BitVec 64} (hal : Aligned r) (hne : r ≠ base) (i : BitVec 9) :
    Vmm.slot s.vmm.hhdmOffset s.vmm.mem r i = 0 := by
  have hkeep := (h.initialised hspace).keeps
  rw [h.bitmap, h.bitmapBytes] at hkeep
  have hsame : Agree (fun _ => 0) s.vmm.mem (r + s.vmm.hhdmOffset) 4096 := by
    intro x hx
    rw [h.hhdmOffset] at hx
    refine hkeep x (fun hin => pages_apart hal hbase hne x hx ?_)
    exact inRange_mono _ _ (by decide) hin
  rw [slot_congr hal hsame]
  rfl

end Started

-- Frames 1 to 5 for everyone, frame 1 with the bitmap; the root of the page tables in frame
-- 6 and the descriptor in frame 7, in memory of the boot loader.
def roomyMap : List MemmapEntry := loaderMap 0x1000 0x6000 0x8000

theorem roomyMap_reclaimable : Reclaimable roomyMap 6 ∧ Reclaimable roomyMap 7 := by
  constructor
  · refine ⟨⟨0x6000, 0x2000, .bootloaderReclaimable⟩, by simp [roomyMap, loaderMap], rfl, ?_⟩
    simp [MemmapEntry.interior, MemmapEntry.first, MemmapEntry.stop]
  · refine ⟨⟨0x6000, 0x2000, .bootloaderReclaimable⟩, by simp [roomyMap, loaderMap], rfl, ?_⟩
    simp [MemmapEntry.interior, MemmapEntry.first, MemmapEntry.stop]

theorem roomyMap_run : (startedOn roomyMap 0x6000 7).map (fun s =>
    (freeList s.pmm (pmmAlloc s.pmm s.vmm.mem).2,
      (run System.step s [.pmmAlloc, .vmmMapPage 0x400000 0x9000 3]).map
        (fun s => s.vmm.frames.map Returned.page))) =
      some ([2, 3, 4, 5, 6, 7], some [0x1000, 0x2000, 0x3000, 0x4000]) := by
  decide +kernel

theorem boot_frames_kept_roomy :
    (Reclaimable roomyMap 6 ∧ Reclaimable roomyMap 7) ∧ ∃ s s', startedOn roomyMap 0x6000 7 = some s ∧
      run System.step s [.pmmAlloc, .vmmMapPage 0x400000 0x9000 3] = some s' ∧
      s'.vmm.frames.map Returned.page = [0x1000, 0x2000, 0x3000, 0x4000] ∧
      ∀ call ∈ s'.vmm.frames, Harmless s'.vmm.hhdmOffset 0x6000 s'.fbFrame call := by
  obtain ⟨s, h⟩ : ∃ s, Started roomyMap 0x1000 0x6000 7 [1, 2, 3, 4, 5, 6, 7] s :=
    started_of_values rfl
  have hrun := roomyMap_run
  rw [h.start, Option.map_some, Option.some.injEq, Prod.mk.injEq] at hrun
  obtain ⟨hnext, hpages⟩ := hrun
  obtain ⟨s', hr, hframes⟩ := Option.map_eq_some_iff.mp hpages
  have hspace : ∀ entry ∈ roomyMap, entry.InSpace := by
    simp [roomyMap, loaderMap, MemmapEntry.InSpace]
  have hphys : ∀ entry ∈ roomyMap, entry.base.toNat + entry.length.toNat ≤ 2 ^ 52 := by
    simp [roomyMap, loaderMap]
  have hempty := h.slot hspace (by simp [Aligned]) (r := 0x6000) (by simp [Aligned]) (by decide)
  have hsized := (h.initialised hspace).wellSized hspace
  have htree : Tree everywhere s.vmm.hhdmOffset s.vmm.mem 0x6000 :=
    tree_empty (by simp [Aligned]) hempty
  have hbits : bitmapFrames s.pmm = Set.Ico 1 2 := by
    rw [bitmapFrames, h.bitmapPhys, h.bitmapPages]
    rfl
  have hbitmap : ∀ f ∈ tables everywhere s.vmm.hhdmOffset s.vmm.mem 0x6000,
      frameNumber f ∉ bitmapFrames s.pmm := by
    intro f hf
    rw [tables_empty hempty hf, hbits]
    decide
  have hused : ∀ f ∈ usedFrames s.vmm.hhdmOffset 0x6000 s.fbFrame s.vmm.mem, f = 7 ∨ f = 6 := by
    rintro f (rfl | ⟨t, ht, rfl⟩)
    · exact Or.inl h.fbFrame
    · rw [tables_empty hempty ht]
      exact Or.inr rfl
  have hgeometry : Geometry s.pmm s.vmm.hhdmOffset := by
    rw [(start_cases h.start).2.1]
    exact initialised_geometry (h.initialised hspace) hspace hphys
  have hsame := (alloc_owned hgeometry ⟨htree, hbitmap⟩).2
  have hempty' : ∀ i, Vmm.slot s.vmm.hhdmOffset (pmmAlloc s.pmm s.vmm.mem).2 0x6000 i = 0 := by
    intro i
    have hspare := Owned.spares ⟨htree, hbitmap⟩ hgeometry 0x6000 ⟨[], (walk_prefixClosed _).nil, rfl⟩
    have hkept := slot_congr (by simp [Aligned])
      (fun x hx => bitmapAlloc_footprint hsized s.vmm.mem [] x (hspare x hx)) i
    exact hkept.trans (hempty i)
  refine ⟨roomyMap_reclaimable, s, s', h.start, hr, hframes, ?_⟩
  have hp : PermittedRun System.step (Permitted 0x6000) s [.pmmAlloc, .vmmMapPage 0x400000 0x9000 3] := by
    refine ⟨buffered_of_freeList hsized h.free (fun f hf _ => ?_), fun s1 h1 =>
      ⟨⟨?_, ?_⟩, fun _ _ => trivial⟩⟩
    · rcases hused f hf with rfl | rfl <;> decide
    · cases h1
      intro path i f _ hf hpres
      have hslot : Present (Vmm.slot s.vmm.hhdmOffset (pmmAlloc s.pmm s.vmm.mem).2 f i) := hpres
      rw [(lookup_empty hempty' hf).2, hempty'] at hslot
      exact absurd (by decide) hslot
    · cases h1
      have htwo : Buffered s.pmm (pmmAlloc s.pmm s.vmm.mem).2 (reservedFrames s.pmm s.vmm.hhdmOffset
          0x6000 s.fbFrame (pmmAlloc s.pmm s.vmm.mem).2) 4 := by
        refine buffered_of_freeList hsized hnext (fun f hf hin => ?_)
        rw [reservedFrames, usedFrames, hsame, hbits] at hf
        rcases hf with hf | ⟨hpos, hlt⟩
        · rcases hused f hf with rfl | rfl <;> decide
        · obtain rfl : f = 1 := by omega
          exact absurd hin (by decide)
      exact htwo.mono missing_le
  exact boot_frames_kept (loaderBoot roomyMap) roomyMap _ 0x6000 _ s s' _ rfl hspace hphys h.start htree
    hbitmap hp hr

-- The first call returns the root of the page tables when it is the first frame
-- of a BOOTLOADER_RECLAIMABLE entry.
theorem root_handed_out :
    ¬∀ (boot : BootInfo) (map : List MemmapEntry) (framebuffers : Option (List (BitVec 64)))
      (cr3 : BitVec 64) (m : Memory 64) (s s' : System) (calls : List Call),
      boot.memmap = some map → (∀ entry ∈ map, entry.InSpace) →
      (∀ entry ∈ map, entry.base.toNat + entry.length.toNat ≤ 2 ^ 52) →
      start boot framebuffers cr3 m = some s →
      Tree everywhere s.vmm.hhdmOffset s.vmm.mem (cr3 &&& ~~~0xFFF) →
      (∀ f ∈ tables everywhere s.vmm.hhdmOffset s.vmm.mem (cr3 &&& ~~~0xFFF),
        Reclaimable map (frameNumber f)) →
      Reclaimable map s.fbFrame → run System.step s calls = some s' →
      ∀ call ∈ s'.vmm.frames,
        Harmless s'.vmm.hhdmOffset (cr3 &&& ~~~0xFFF) s'.fbFrame call := by
  intro hall
  obtain ⟨s, h⟩ : ∃ s, Started (loaderMap 0 0x1000 0x5000) 0 0x1000 2 [1, 2, 3, 4] s :=
    started_of_values rfl
  have hspace : ∀ entry ∈ loaderMap 0 0x1000 0x5000, entry.InSpace := by
    simp [loaderMap, MemmapEntry.InSpace]
  have hphys : ∀ entry ∈ loaderMap 0 0x1000 0x5000,
      entry.base.toNat + entry.length.toNat ≤ 2 ^ 52 := by
    simp [loaderMap]
  have hempty := h.slot hspace (by simp [Aligned]) (r := 0x1000) (by simp [Aligned]) (by decide)
  have hloader : ∀ n, 1 ≤ n → n < 5 → Reclaimable (loaderMap 0 0x1000 0x5000) n := by
    intro n hpos hlt
    refine ⟨⟨0x1000, 0x4000, .bootloaderReclaimable⟩, by simp [loaderMap], rfl, ?_⟩
    simp [MemmapEntry.interior, MemmapEntry.first, MemmapEntry.stop]
    omega
  have htables : ∀ f ∈ tables everywhere s.vmm.hhdmOffset s.vmm.mem 0x1000,
      Reclaimable (loaderMap 0 0x1000 0x5000) (frameNumber f) := by
    intro f hf
    rw [tables_empty hempty hf]
    exact hloader 1 le_rfl (by decide)
  have hfb : Reclaimable (loaderMap 0 0x1000 0x5000) s.fbFrame := by
    rw [h.fbFrame]
    exact hloader 2 (by decide) (by decide)
  have hnone := hall _ _ _ 0x1000 _ s _ [.pmmAlloc] rfl hspace hphys h.start
    (tree_empty (by simp [Aligned]) hempty) htables hfb rfl
    ⟨_, (pmmAlloc s.pmm s.vmm.mem).2⟩ (List.mem_append_right _ (List.mem_singleton_self _))
  have hsized := (h.initialised hspace).wellSized hspace
  have hfirst : (pmmAlloc s.pmm s.vmm.mem).1 = 0x1000 := by
    have hup := bitmapAlloc_upcoming hsized (m := s.vmm.mem) []
    rw [h.free] at hup
    exact hup.next.1
  have hne : (pmmAlloc s.pmm s.vmm.mem).1 ≠ 0 := by
    rw [hfirst]
    decide
  have hpage := (hnone hne).1
  rw [hfirst] at hpage
  exact hpage ⟨[], (walk_prefixClosed _).nil, rfl⟩

end Runs

end Miyabi.Mm.Boot
