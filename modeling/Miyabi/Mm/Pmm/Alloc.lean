import Miyabi.Base.LeastFirst
import Miyabi.Mm.Pmm.Init

namespace Miyabi.Mm.Pmm

open Miyabi.Base Miyabi.Base.Memory

-- The frames pmm_alloc can still return.
def freeFrames (p : Statics) (m : Memory 64) : Set ℕ :=
  {f | f ∈ freeSet p.bitmap m ∧ 1 ≤ f ∧ f < p.pageCount.toNat}

-- The bitmap has a bit for every page, and page numbers are those of 64-bit addresses.
structure WellSized (p : Statics) : Prop where
  pageCount_lt : p.pageCount.toNat < 2 ^ 52
  covered : p.pageCount.toNat ≤ 8 * p.bitmapBytes.toNat

variable {p : Statics} {m : Memory 64}

theorem mem_freeFrames {f : ℕ} (hf : f < 2 ^ 64) :
    f ∈ freeFrames p m ↔
      bitmapTest p.bitmap m (BitVec.ofNat 64 f) = false ∧ 1 ≤ f ∧ f < p.pageCount.toNat := by
  simp only [freeFrames, freeSet, Set.mem_ofPred_eq, hf, true_and]

theorem freeFrames_eq_empty {i : ℕ} (hnone : ∀ f ∈ freeFrames p m, i ≤ f)
    (hle : p.pageCount.toNat ≤ i) : freeFrames p m = ∅ := by
  apply Set.eq_empty_of_forall_notMem
  intro f hf
  have h1 := hnone f hf
  have h2 := hf.2.2
  omega

-- The search passes over set bits only, so that it finds the least clear one.
theorem pmmAllocFrom_spec (hp : p.pageCount.toNat < 2 ^ 52) (fuel i : ℕ) (hi : 1 ≤ i)
    (hbound : i ≤ p.pageCount.toNat + 1) (hfuel : p.pageCount.toNat < i + fuel)
    (hnone : ∀ f ∈ freeFrames p m, i ≤ f) :
    (freeFrames p m = ∅ ∧ pmmAllocFrom p fuel (BitVec.ofNat 64 i) m = (0, m)) ∨
      ∃ f, IsLeast (freeFrames p m) f ∧ pmmAllocFrom p fuel (BitVec.ofNat 64 i) m =
        (BitVec.ofNat 64 (f * 4096), bitmapSet p.bitmap m (BitVec.ofNat 64 f)) := by
  induction fuel generalizing i with
  | zero => exact Or.inl ⟨freeFrames_eq_empty hnone (by omega), rfl⟩
  | succ fuel ih =>
      rw [pmmAllocFrom]
      by_cases hlt : i < p.pageCount.toNat
      · have hguard : BitVec.ofNat 64 i < p.pageCount := by
          bv_omega
        rw [if_pos hguard]
        by_cases htest : bitmapTest p.bitmap m (BitVec.ofNat 64 i) = true
        · have hnext : BitVec.ofNat 64 i + 1 = BitVec.ofNat 64 (i + 1) := by
            rw [BitVec.ofNat_add]
            rfl
          have hnone' : ∀ f ∈ freeFrames p m, i + 1 ≤ f := by
            intro f hf
            have hle := hnone f hf
            have hne : f ≠ i := by
              intro he
              have hclear := hf.1.2
              rw [he, htest] at hclear
              cases hclear
            omega
          rw [if_pos htest, hnext]
          exact ih (i + 1) (by omega) (by omega) (by omega) hnone'
        · have haddr : BitVec.ofNat 64 i * 4096 = BitVec.ofNat 64 (i * 4096) := by
            rw [BitVec.ofNat_mul]
            rfl
          rw [if_neg htest, haddr]
          refine Or.inr ⟨i, ⟨?_, fun f hf => hnone f hf⟩, rfl⟩
          exact (mem_freeFrames (by omega)).mpr ⟨by simpa using htest, hi, hlt⟩
      · have hguard : ¬BitVec.ofNat 64 i < p.pageCount := by
          bv_omega
        rw [if_neg hguard]
        exact Or.inl ⟨freeFrames_eq_empty hnone (by omega), rfl⟩

theorem freeFrames_bitmapSet (f : ℕ) (hf : f < 2 ^ 64) :
    freeFrames p (bitmapSet p.bitmap m (BitVec.ofNat 64 f)) = freeFrames p m \ {f} := by
  ext g
  simp only [freeFrames, freeSet_bitmapSet p.bitmap m f hf, Set.mem_sdiff, Set.mem_ofPred_eq]
  exact and_right_comm

-- pmm_alloc takes the least free frame, or returns NULL when there is none.
theorem pmmAlloc_spec (hp : WellSized p) :
    (freeFrames p m = ∅ ∧ pmmAlloc p m = (0, m)) ∨
      ∃ f m', IsLeast (freeFrames p m) f ∧ pmmAlloc p m = (BitVec.ofNat 64 (f * 4096), m') ∧
        freeFrames p m' = freeFrames p m \ {f} ∧
        KeepsOutside m m' p.bitmap p.bitmapBytes.toNat := by
  have hlt := hp.pageCount_lt
  have hcov := hp.covered
  rcases pmmAllocFrom_spec hlt p.pageCount.toNat 1 le_rfl (by omega) (by omega)
    (fun f hf => hf.2.1) with hnone | ⟨f, hleast, he⟩
  · exact Or.inl hnone
  · have hf := hleast.1.2.2
    exact Or.inr ⟨f, _, hleast, he, freeFrames_bitmapSet f (by omega),
      bitmapSet_keeps p.bitmap f (by omega) (by omega)⟩

-- The memory before the call number k, and the result of that call.
def afterAllocs (p : Statics) (m : Memory 64) : ℕ → Memory 64
  | 0 => m
  | k + 1 => (pmmAlloc p (afterAllocs p m k)).2

def allocResult (p : Statics) (m : Memory 64) (k : ℕ) : BitVec 64 :=
  (pmmAlloc p (afterAllocs p m k)).1

def frameOf (addr : BitVec 64) : Option ℕ := if addr = 0 then none else some (addr.toNat / 4096)

theorem frameOf_frame {f : ℕ} (hf : f < 2 ^ 52) (hpos : 1 ≤ f) :
    frameOf (BitVec.ofNat 64 (f * 4096)) = some f := by
  have hnat := toNat_frame hf
  have hne : BitVec.ofNat 64 (f * 4096) ≠ 0 := by
    intro hz
    rw [hz] at hnat
    simp only [BitVec.ofNat_eq_ofNat, BitVec.toNat_ofNat, Nat.zero_mod] at hnat
    omega
  rw [frameOf, if_neg hne, hnat, Nat.mul_div_cancel _ (by omega)]

-- Successive calls draw the free frames in ascending order.
theorem allocs_leastFirst (hp : WellSized p) :
    LeastFirst (fun k => freeFrames p (afterAllocs p m k)) (fun k => frameOf (allocResult p m k)) := by
  constructor
  intro k
  rcases pmmAlloc_spec hp (m := afterAllocs p m k) with ⟨hnone, he⟩ | ⟨f, m', hleast, he, hrest, -⟩
  · refine Or.inl ⟨?_, hnone, ?_⟩
    · simp only [allocResult, he]
      rfl
    · simp only [afterAllocs, he]
  · have hlt := hp.pageCount_lt
    have hf := hleast.1.2
    refine Or.inr ⟨f, ?_, hleast, ?_⟩
    · simp only [allocResult, he]
      exact frameOf_frame (by omega) hf.1
    · simp only [afterAllocs, he]
      exact hrest

end Miyabi.Mm.Pmm
