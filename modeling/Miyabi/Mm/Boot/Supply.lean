import Miyabi.Mm.Boot.Frames
import Miyabi.Mm.Vmm.Supply

namespace Miyabi.Mm.Boot

open Miyabi.Base Miyabi.Base.Memory Miyabi.Mm.Pmm Miyabi.Mm.Vmm

-- The frames pmm_alloc can still return, in ascending order.
def freeList (p : Statics) (m : Memory 64) : List ℕ :=
  (List.range p.pageCount.toNat).filter
    (fun f => 1 ≤ f ∧ bitmapTest p.bitmap m (BitVec.ofNat 64 f) = false)

def frameAddress (f : ℕ) : BitVec 64 := BitVec.ofNat 64 (f * 4096)

section Results

variable {p : Statics} {m m' : Memory 64} {f : ℕ} {l : List ℕ}

theorem mem_freeList (hp : WellSized p) : f ∈ freeList p m ↔ f ∈ freeFrames p m := by
  have hlt := hp.pageCount_lt
  simp only [freeList, List.mem_filter, List.mem_range, decide_eq_true_eq]
  constructor
  · rintro ⟨hf, hpos, htest⟩
    exact (mem_freeFrames (by omega)).mpr ⟨htest, hpos, hf⟩
  · intro hf
    obtain ⟨htest, hpos, hbound⟩ := (mem_freeFrames (by have := hf.2.2; omega)).mp hf
    exact ⟨hbound, hpos, htest⟩

theorem freeList_ascending : (freeList p m).Pairwise (· < ·) :=
  List.pairwise_lt_range.filter _

theorem buffered_of_freeList {used : Set ℕ} {n : ℕ} (hp : WellSized p) (hl : freeList p m = l)
    (h : ∀ f ∈ used, f ∈ l → n ≤ (l.filter (· < f)).length) : Buffered p m used n := by
  intro f hf hfree
  have hset : freeFrames p m ∩ Set.Iio f = (l.filter (· < f)).toFinset := by
    ext g
    simp only [Set.mem_inter_iff, Set.mem_Iio, List.coe_toFinset, List.mem_filter, decide_eq_true_eq,
      Set.mem_ofPred_eq, ← hl, mem_freeList hp]
  have hnodup : (l.filter (· < f)).Nodup := by
    rw [← hl]
    exact (freeList_ascending.imp (fun h => h.ne)).filter _
  rw [hset, Set.ncard_coe_finset, List.toFinset_card_of_nodup hnodup]
  exact h f hf (hl ▸ (mem_freeList hp).mpr hfree)

-- The results of pmm_alloc are its free frames, least first, whatever is stored outside of
-- the bitmap in between.
theorem upcoming_of_free (hp : WellSized p) (calls : List Returned) (hasc : l.Pairwise (· < ·))
    (hl : ∀ f, f ∈ l ↔ f ∈ freeFrames p m) :
    Upcoming (bitmapAlloc p) (bitmapRegion p) m calls (l.map frameAddress) := by
  induction l generalizing m calls with
  | nil => trivial
  | cons f l ih =>
      intro m' hm
      obtain ⟨hbelow, hasc'⟩ := List.pairwise_cons.mp hasc
      have hfree : freeFrames p m' = freeFrames p m := freeFrames_congr hp hm
      have hin : f ∈ freeFrames p m' := hfree ▸ (hl f).mp List.mem_cons_self
      rcases pmmAlloc_spec hp (m := m') with ⟨hnone, -⟩ | ⟨g, m1, hleast, he, hrest, -⟩
      · rw [hnone] at hin
        cases hin
      · -- The least free frame is the head of the list.
        have hg : g = f := by
          rcases List.mem_cons.mp ((hl g).mpr (hfree ▸ hleast.1)) with hg | hg
          · exact hg
          · exact absurd (hbelow g hg) (not_lt.mpr (hleast.2 hin))
        subst hg
        simp only [bitmapAlloc, he]
        refine ⟨rfl, ih _ hasc' (fun k => ?_)⟩
        rw [hrest, hfree, Set.mem_sdiff, ← hl k, List.mem_cons, Set.mem_singleton_iff]
        constructor
        · intro hk
          exact ⟨Or.inr hk, (hbelow k hk).ne'⟩
        · rintro ⟨rfl | hk, hne⟩
          · exact absurd rfl hne
          · exact hk

theorem bitmapAlloc_upcoming (hp : WellSized p) (calls : List Returned) :
    Upcoming (bitmapAlloc p) (bitmapRegion p) m calls ((freeList p m).map frameAddress) :=
  upcoming_of_free hp calls freeList_ascending (fun _ => mem_freeList hp)

end Results

section Sample

-- A bitmap in frame 0.
theorem spares_of_first {p : Statics} {f : BitVec 64} (hbitmap : p.bitmap = 0xFFFF800000000000)
    (hbytes : p.bitmapBytes.toNat ≤ 4096) (hal : Aligned f) (hf : f ≠ 0) :
    Spares (bitmapRegion p) 0xFFFF800000000000 f := by
  intro x hx hin
  rw [page_offset hal] at hx
  have hbit : (x - 0xFFFF800000000000).toNat < p.bitmapBytes.toNat := hbitmap ▸ hin
  have hpos : f.toNat ≠ 0 := fun h => hf (BitVec.eq_of_toNat_eq h)
  have hmod : f.toNat % 4096 = 0 := hal
  omega

-- A bitmap of 16 frames in frame 0.
def lowPmm : Statics := ⟨0xFFFF800000000000, 0xFFFF800000000000, 0, 16, 2, 1⟩

def lowBitmap (used : BitVec 16) : Memory 64 :=
  store8 (store8 (fun _ => 0) 0xFFFF800000000001 ((used >>> 8).setWidth 8)) 0xFFFF800000000000
    (used.setWidth 8)

theorem lowPmm_wellSized : WellSized lowPmm := ⟨by decide, by decide⟩

theorem lowPmm_footprint : Footprint (bitmapAlloc lowPmm) (bitmapRegion lowPmm) :=
  bitmapAlloc_footprint lowPmm_wellSized

theorem lowPmm_spares {f : BitVec 64} (hal : Aligned f) (hf : f ≠ 0) :
    Spares (bitmapRegion lowPmm) 0xFFFF800000000000 f :=
  spares_of_first rfl (by decide) hal hf

theorem lowBitmap_slot (used : BitVec 16) {f : BitVec 64} (hal : Aligned f) (hf : f ≠ 0) (i : BitVec 9) :
    slot 0xFFFF800000000000 (lowBitmap used) f i = 0 := by
  have hsame : Agree (fun _ => 0) (lowBitmap used) (f + 0xFFFF800000000000) 4096 := by
    intro x hx
    have hout : x ∉ bitmapRegion lowPmm := fun hin => lowPmm_spares hal hf x hx hin
    have hne : x ≠ 0xFFFF800000000000 ∧ x ≠ 0xFFFF800000000001 := by
      constructor
      · rintro rfl
        exact hout (inRange_self _ _ (by decide))
      · rintro rfl
        exact hout (show (1 : ℕ) < 2 by decide)
    exact (store8_ne _ _ _ _ hne.1).trans (store8_ne _ _ _ _ hne.2)
  exact slot_congr hal hsame i

-- The free frames, least first.
def lowFrames (used : BitVec 16) : List (BitVec 64) := (freeList lowPmm (lowBitmap used)).map frameAddress

theorem lowFrames_cases {used : BitVec 16} {p : BitVec 64} (h : p ∈ lowFrames used) :
    IsFrame p ∧ p ≠ 0 ∧ p.toNat < 0x10000 := by
  obtain ⟨f, hf, rfl⟩ := List.mem_map.mp h
  obtain ⟨-, hpos, hlt⟩ := (mem_freeList lowPmm_wellSized).mp hf
  have hbound : f < 16 := hlt
  have hnat : (frameAddress f).toNat = f * 4096 := toNat_frame (by omega)
  refine ⟨isFrame_of_frame (by omega), ?_, by omega⟩
  intro hz
  rw [hz] at hnat
  have hzero : (0 : BitVec 64).toNat = 0 := rfl
  omega

theorem lowFrames_pointer {used : BitVec 16} {p : BitVec 64} (h : p ∈ lowFrames used) :
    p + 0xFFFF800000000000 ≠ 0 := by
  have hlow := (lowFrames_cases h).2.2
  bv_omega

theorem lowFrames_nodup (used : BitVec 16) : (lowFrames used).Nodup := by
  have hascending : (freeList lowPmm (lowBitmap used)).Nodup := freeList_ascending.imp (fun h => h.ne)
  refine hascending.map_on (fun f hf g hg he => ?_)
  have hnat := congrArg BitVec.toNat he
  have hf' : f < 16 := ((mem_freeList lowPmm_wellSized).mp hf).2.2
  have hg' : g < 16 := ((mem_freeList lowPmm_wellSized).mp hg).2.2
  rw [frameAddress, frameAddress, toNat_frame (by omega), toNat_frame (by omega)] at hnat
  omega

theorem lowFrames_fresh {roots : BitVec 9 → Prop} {root : BitVec 64} {m : Memory 64} {used : BitVec 16}
    (h : ∀ p ∈ lowFrames used, p ∉ tables roots 0xFFFF800000000000 m root) :
    Fresh roots (bitmapRegion lowPmm) 0xFFFF800000000000 root m (lowFrames used) :=
  ⟨lowFrames_nodup used, fun _ hp => (lowFrames_cases hp).1, h,
    fun _ hp => lowPmm_spares (lowFrames_cases hp).1.aligned (lowFrames_cases hp).2.1⟩

-- A memory that holds the bitmap.
theorem lowPmm_upcoming {m : Memory 64} (used : BitVec 16)
    (hm : ∀ x ∈ bitmapRegion lowPmm, m x = lowBitmap used x) (calls : List Returned) :
    Upcoming (bitmapAlloc lowPmm) (bitmapRegion lowPmm) m calls (lowFrames used) :=
  (bitmapAlloc_upcoming lowPmm_wellSized calls).congr hm

end Sample

end Miyabi.Mm.Boot
