import Mathlib.Data.Set.Card
import Miyabi.Mm.Boot
import Miyabi.Mm.Pmm.Theorems
import Miyabi.Mm.Vmm.Map

namespace Miyabi.Mm.Boot

open Miyabi.Base Miyabi.Base.Memory Miyabi.Base.TableTree Miyabi.Mm.Pmm Miyabi.Mm.Vmm

-- The bytes of the bitmap.
def bitmapRegion (p : Statics) : Set (BitVec 64) :=
  {x | InRange p.bitmap p.bitmapBytes.toNat x}

def frameNumber (f : BitVec 64) : ℕ := f.toNat / 4096

theorem isFrame_of_frame {f : ℕ} (hf : f < 2 ^ 40) : IsFrame (BitVec.ofNat 64 (f * 4096)) := by
  have hnat := toNat_frame (f := f) (by omega)
  generalize BitVec.ofNat 64 (f * 4096) = x at *
  have hhigh : x &&& 0xFFF0000000000000 = 0 := by
    apply BitVec.eq_of_toNat_eq
    have hmask := Word.toNat_and_not_mask x 0x000FFFFFFFFFFFFF 52 (by decide)
    have hnot : (~~~0x000FFFFFFFFFFFFF : BitVec 64) = 0xFFF0000000000000 := by decide
    rw [hnot] at hmask
    rw [hmask, hnat, Nat.div_eq_of_lt (by omega)]
    rfl
  have hlow : x &&& ~~~0xFFF = x := by
    apply BitVec.eq_of_toNat_eq
    rw [Word.toNat_and_not_mask x 0xFFF 12 (by decide), hnat]
    omega
  rw [IsFrame, ← and_not_low_eq hhigh, hlow]

section Bitmap

variable {p : Statics} {m m' : Memory 64}

theorem freeFrames_congr (hp : WellSized p) (h : ∀ x ∈ bitmapRegion p, m' x = m x) :
    freeFrames p m' = freeFrames p m := by
  have hlt := hp.pageCount_lt
  have hcov := hp.covered
  ext f
  simp only [freeFrames, freeSet, Set.mem_ofPred_eq, and_assoc]
  refine and_congr_right (fun hf => ?_)
  by_cases hcount : f < p.pageCount.toNat
  · have hbyte : p.bitmap + BitVec.ofNat 64 f >>> 3 ∈ bitmapRegion p :=
      frame_byte_inRange p.bitmap f (by omega) hf
    simp only [bitmapTest, h _ hbyte]
  · simp only [hcount, and_false]

theorem bitmapAlloc_footprint (hp : WellSized p) : Footprint (bitmapAlloc p) (bitmapRegion p) := by
  intro m _ x hx
  rcases pmmAlloc_spec hp (m := m) with ⟨-, he⟩ | ⟨f, m', -, he, -, hkeep⟩
  · simp only [bitmapAlloc, he]
  · simp only [bitmapAlloc, he]
    exact hkeep x hx

-- The bitmap as the direct map shows it lies in the bitmap's frames.
theorem spares_bitmap {hhdm f : BitVec 64} (hpointer : p.bitmap = p.bitmapPhys + hhdm)
    (hphys : p.bitmapPhys.toNat % 4096 = 0) (hspace : p.bitmapPhys.toNat + p.bitmapBytes.toNat ≤ 2 ^ 64)
    (hpages : p.bitmapBytes.toNat ≤ p.bitmapPages.toNat * 4096) (hal : Aligned f)
    (hf : frameNumber f ∉ bitmapFrames p) : Spares (bitmapRegion p) hhdm f := by
  intro x hx hbit
  rw [page_offset hal] at hx
  simp only [bitmapRegion, Set.mem_ofPred_eq, InRange, hpointer] at hbit
  have hbase : x - (p.bitmapPhys + hhdm) = (x - hhdm) - p.bitmapPhys := by
    ring
  rw [hbase] at hbit
  have hr := (inRange_iff p.bitmapPhys (x - hhdm) _ hspace).mp hbit
  refine hf ?_
  simp only [frameNumber, bitmapFrames, Set.mem_Ico]
  omega

end Bitmap

section Ownership

-- A tree rooted at `root` none of whose tables lies in the bitmap.
structure Owned (p : Statics) (hhdm root : BitVec 64) (m : Memory 64) : Prop where
  tree : Tree everywhere hhdm m root
  bitmap : ∀ f ∈ tables everywhere hhdm m root, frameNumber f ∉ bitmapFrames p

-- Every frame of `used` that is still free has n smaller free frames, so that the next
-- n calls of pmm_alloc do not return it.
def Buffered (p : Statics) (m : Memory 64) (used : Set ℕ) (n : ℕ) : Prop :=
  ∀ f ∈ used, f ∈ freeFrames p m → n ≤ Set.ncard (freeFrames p m ∩ Set.Iio f)

-- The frames that hold a table, and the frame n.
def usedFrames (hhdm root : BitVec 64) (n : ℕ) (m : Memory 64) : Set ℕ :=
  insert n (frameNumber '' tables everywhere hhdm m root)

-- The geometry of the bitmap, which init_pmm fixes.
structure Geometry (p : Statics) (hhdm : BitVec 64) : Prop where
  sized : WellSized p
  physical : p.pageCount.toNat ≤ 2 ^ 40
  pointer : p.bitmap = p.bitmapPhys + hhdm
  aligned : p.bitmapPhys.toNat % 4096 = 0
  space : p.bitmapPhys.toNat + p.bitmapBytes.toNat ≤ 2 ^ 64
  pages : p.bitmapBytes.toNat ≤ p.bitmapPages.toNat * 4096

variable {p : Statics} {hhdm root : BitVec 64} {m m' : Memory 64} {used : Set ℕ} {n k f : ℕ}

theorem Owned.spares (h : Owned p hhdm root m) (hg : Geometry p hhdm) :
    ∀ f ∈ tables everywhere hhdm m root, Spares (bitmapRegion p) hhdm f :=
  fun f hf => spares_bitmap hg.pointer hg.aligned hg.space hg.pages (h.tree.mem_aligned hf)
    (h.bitmap f hf)

theorem table_mem_usedFrames {t : BitVec 64} (ht : t ∈ tables everywhere hhdm m root) :
    frameNumber t ∈ usedFrames hhdm root n m :=
  Set.mem_insert_of_mem _ ⟨t, ht, rfl⟩

theorem Buffered.mono (h : Buffered p m used k) (hn : n ≤ k) : Buffered p m used n :=
  fun f hf hfree => hn.trans (h f hf hfree)

theorem Buffered.congr (h : Buffered p m used n) (he : freeFrames p m' = freeFrames p m) :
    Buffered p m' used n := by
  unfold Buffered
  rw [he]
  exact h

-- The least free frame is not among them.
theorem Buffered.least (h : Buffered p m used (n + 1)) (hleast : IsLeast (freeFrames p m) f) :
    f ∉ used := by
  intro hf
  have hn := h f hf hleast.1
  have hnone : freeFrames p m ∩ Set.Iio f = ∅ := by
    apply Set.eq_empty_of_forall_notMem
    rintro g ⟨hg, hlt⟩
    have hle := hleast.2 hg
    exact absurd hlt (not_lt.mpr hle)
  rw [hnone, Set.ncard_empty] at hn
  omega

-- Taking it uses up one of the smaller ones, and it may join them.
theorem Buffered.taken (h : Buffered p m used (n + 1))
    (he : freeFrames p m' = freeFrames p m \ {f}) : Buffered p m' (insert f used) n := by
  intro g hg hfree
  rw [he] at hfree ⊢
  have hg' : g ∈ used := hg.resolve_left (fun hgf => hfree.2 hgf)
  have hn := h g hg' hfree.1
  have hrest : (freeFrames p m \ {f}) ∩ Set.Iio g = (freeFrames p m ∩ Set.Iio g) \ {f} := by
    rw [Set.inter_sdiff_right_comm]
  rw [hrest]
  have hpred := Set.pred_ncard_le_ncard_sdiff_singleton (freeFrames p m ∩ Set.Iio g) f
  omega

end Ownership

section Missing

-- The tables that vmm_map_page has still to make for a page.
def missing (hhdm : BitVec 64) (m : Memory 64) (root : BitVec 64) (page : BitVec 36) : ℕ :=
  ((tablePath page).inits.toFinset.filter (fun path => tableAt hhdm m root path = none)).card

variable {hhdm root : BitVec 64} {m m' : Memory 64} {page : BitVec 36} {path : List (BitVec 9)}

theorem missing_subset (hkeep : ∀ path, path <+: tablePath page → tableAt hhdm m root path ≠ none →
    tableAt hhdm m' root path ≠ none) :
    (tablePath page).inits.toFinset.filter (fun path => tableAt hhdm m' root path = none) ⊆
      (tablePath page).inits.toFinset.filter (fun path => tableAt hhdm m root path = none) := by
  intro path hin
  rw [Finset.mem_filter, List.mem_toFinset, List.mem_inits] at hin ⊢
  refine ⟨hin.1, ?_⟩
  by_contra hsome
  exact hkeep path hin.1 hsome hin.2

theorem missing_mono (hkeep : ∀ path, path <+: tablePath page → tableAt hhdm m root path ≠ none →
    tableAt hhdm m' root path ≠ none) : missing hhdm m' root page ≤ missing hhdm m root page :=
  Finset.card_le_card (missing_subset hkeep)

theorem missing_le : missing hhdm m root page ≤ 4 :=
  (Finset.card_filter_le _ _).trans (List.toFinset_card_le _)

theorem missing_pos (hpre : path <+: tablePath page) (hnone : tableAt hhdm m root path = none) :
    0 < missing hhdm m root page := by
  refine Finset.card_pos.mpr ⟨path, ?_⟩
  rw [Finset.mem_filter, List.mem_toFinset, List.mem_inits]
  exact ⟨hpre, hnone⟩

-- A step that makes a table leaves one less.
theorem missing_made (hkeep : ∀ path, path <+: tablePath page → tableAt hhdm m root path ≠ none →
    tableAt hhdm m' root path ≠ none) (hpre : path <+: tablePath page)
    (hnone : tableAt hhdm m root path = none) (hmade : tableAt hhdm m' root path ≠ none) :
    missing hhdm m' root page < missing hhdm m root page := by
  refine Finset.card_lt_card (Finset.ssubset_iff_subset_ne.mpr ⟨missing_subset hkeep, fun he => ?_⟩)
  have hin : path ∈ (tablePath page).inits.toFinset.filter
      (fun path => tableAt hhdm m root path = none) := by
    rw [Finset.mem_filter, List.mem_toFinset, List.mem_inits]
    exact ⟨hpre, hnone⟩
  rw [← he, Finset.mem_filter] at hin
  exact hmade hin.2

end Missing

end Miyabi.Mm.Boot
