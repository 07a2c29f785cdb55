import Miyabi.Base.Word
import Miyabi.Mm.Pmm.FreeSet

namespace Miyabi.Mm.Pmm

open Miyabi.Base Miyabi.Base.Memory

-- The entry ends at least one page below the top of the address space.
def MemmapEntry.InSpace (entry : MemmapEntry) : Prop :=
  entry.base.toNat + entry.length.toNat ≤ 2 ^ 64 - 4096

-- The bytes of an entry, and the frames that lie wholly inside it.
def MemmapEntry.bytes (entry : MemmapEntry) : Set ℕ :=
  Set.Ico entry.base.toNat (entry.base.toNat + entry.length.toNat)

def MemmapEntry.first (entry : MemmapEntry) : ℕ := (entry.base.toNat + 4095) / 4096

def MemmapEntry.stop (entry : MemmapEntry) : ℕ :=
  (entry.base.toNat + entry.length.toNat) / 4096

def MemmapEntry.interior (entry : MemmapEntry) : Set ℕ := Set.Ico entry.first entry.stop

def OverlapsKernel (boot : BootInfo) (entry : MemmapEntry) : Prop :=
  boot.kernelStart.toNat < entry.stop * 4096 ∧ entry.first * 4096 < boot.kernelEnd.toNat

-- The frames init_pmm releases for the entry types of `kind`.
def releasedFrames (boot : BootInfo) (kind : MemmapType → Bool) (map : List MemmapEntry) : Set ℕ :=
  {f | ∃ entry ∈ map, kind entry.type = true ∧ ¬OverlapsKernel boot entry ∧ f ∈ entry.interior}

theorem releasedFrames_mono (boot : BootInfo) (map : List MemmapEntry)
    {kind kind' : MemmapType → Bool} (h : ∀ type, kind type = true → kind' type = true) :
    releasedFrames boot kind map ⊆ releasedFrames boot kind' map := by
  rintro f ⟨entry, hm, hk, ho, hf⟩
  exact ⟨entry, hm, h _ hk, ho, hf⟩

theorem isReclaimable_of_isUsable (type : MemmapType) (h : isUsable type = true) :
    isReclaimable type = true := by
  simp only [isUsable, decide_eq_true_eq] at h
  simp [isReclaimable, h]

section Bounds

variable {entry : MemmapEntry}

theorem alignUp4k_toNat (x : BitVec 64) (h : x.toNat + 4095 < 2 ^ 64) :
    (alignUp4k x).toNat = (x.toNat + 4095) / 4096 * 4096 := by
  have hadd : (x + 0xFFF).toNat = x.toNat + 4095 := BitVec.toNat_add_of_lt h
  have hmask := Word.toNat_and_not_mask (x + 0xFFF) 0xFFF 12 (by decide)
  rwa [hadd] at hmask

theorem alignDown4k_toNat (x : BitVec 64) : (alignDown4k x).toNat = x.toNat / 4096 * 4096 :=
  Word.toNat_and_not_mask x 0xFFF 12 (by decide)

theorem InSpace.start (h : entry.InSpace) :
    alignUp4k entry.base = BitVec.ofNat 64 (entry.first * 4096) := by
  apply BitVec.eq_of_toNat_eq
  simp only [MemmapEntry.InSpace] at h
  rw [alignUp4k_toNat _ (by omega), BitVec.toNat_ofNat, MemmapEntry.first, Nat.mod_eq_of_lt (by omega)]

theorem InSpace.length (h : entry.InSpace) :
    (entry.base + entry.length).toNat = entry.base.toNat + entry.length.toNat := by
  simp only [MemmapEntry.InSpace] at h
  exact BitVec.toNat_add_of_lt (by omega)

theorem InSpace.stop (h : entry.InSpace) :
    alignDown4k (entry.base + entry.length) = BitVec.ofNat 64 (entry.stop * 4096) := by
  apply BitVec.eq_of_toNat_eq
  rw [alignDown4k_toNat, InSpace.length h, BitVec.toNat_ofNat, MemmapEntry.stop]
  simp only [MemmapEntry.InSpace] at h
  rw [Nat.mod_eq_of_lt (by omega)]

theorem InSpace.first_lt (h : entry.InSpace) : entry.first < 2 ^ 52 := by
  simp only [MemmapEntry.InSpace] at h
  simp only [MemmapEntry.first]
  omega

theorem InSpace.stop_lt (h : entry.InSpace) : entry.stop < 2 ^ 52 := by
  simp only [MemmapEntry.InSpace] at h
  simp only [MemmapEntry.stop]
  omega

theorem toNat_frame {f : ℕ} (hf : f < 2 ^ 52) : (BitVec.ofNat 64 (f * 4096)).toNat = f * 4096 := by
  rw [BitVec.toNat_ofNat, Nat.mod_eq_of_lt (by omega)]

theorem frame_le_iff {f g : ℕ} (hf : f < 2 ^ 52) (hg : g < 2 ^ 52) :
    BitVec.ofNat 64 (f * 4096) ≤ BitVec.ofNat 64 (g * 4096) ↔ f ≤ g := by
  rw [BitVec.le_def, toNat_frame hf, toNat_frame hg]
  omega

theorem regionOverlapsKernel_iff {boot : BootInfo} (h : entry.InSpace) :
    regionOverlapsKernel boot (BitVec.ofNat 64 (entry.first * 4096))
      (BitVec.ofNat 64 (entry.stop * 4096)) = true ↔ OverlapsKernel boot entry := by
  simp only [regionOverlapsKernel, Bool.not_eq_true', Bool.or_eq_false_iff, decide_eq_false_iff_not,
    BitVec.le_def, ge_iff_le, toNat_frame (InSpace.first_lt h), toNat_frame (InSpace.stop_lt h),
    not_le, OverlapsKernel]

end Bounds

-- The passes over the whole map.
theorem clearRegions_spec (boot : BootInfo) (bitmap : BitVec 64) (kind : MemmapType → Bool)
    {bytes : ℕ} (map : List MemmapEntry) (m : Memory 64) (hspace : ∀ entry ∈ map, entry.InSpace)
    (hbytes : ∀ entry ∈ map, entry.stop ≤ 8 * bytes) :
    ∃ m', clearRegions boot bitmap kind map m = some m' ∧
      freeSet bitmap m' = freeSet bitmap m ∪ releasedFrames boot kind map ∧
      KeepsOutside m m' bitmap bytes := by
  induction map generalizing m with
  | nil =>
      refine ⟨m, rfl, ?_, fun _ _ => rfl⟩
      simp [releasedFrames]
  | cons entry rest ih =>
      have hin := hspace entry (by simp)
      have ih' := fun m => ih m (fun e he => hspace e (by simp [he])) (fun e he => hbytes e (by simp [he]))
      have hskip : (kind entry.type = true ∧ ¬OverlapsKernel boot entry → entry.interior = ∅) →
          releasedFrames boot kind (entry :: rest) = releasedFrames boot kind rest := by
        intro hno
        ext f
        simp only [releasedFrames, List.mem_cons, exists_eq_or_imp, Set.mem_ofPred_eq,
          or_iff_right_iff_imp]
        rintro ⟨hk, ho, hf⟩
        rw [hno ⟨hk, ho⟩] at hf
        exact absurd hf (Set.notMem_empty f)
      simp only [clearRegions, InSpace.start hin, InSpace.stop hin,
        frame_le_iff (InSpace.stop_lt hin) (InSpace.first_lt hin)]
      by_cases hk : kind entry.type = true
      · by_cases hle : entry.stop ≤ entry.first
        · rw [hskip (fun _ => Set.Ico_eq_empty (by omega))]
          simpa only [hk, hle, Bool.not_true, Bool.false_eq_true, if_false, if_true] using ih' m
        · by_cases ho : OverlapsKernel boot entry
          · rw [hskip (fun h => absurd ho h.2)]
            simpa only [hk, hle, Bool.not_true, Bool.false_eq_true, if_false,
              (regionOverlapsKernel_iff hin).mpr ho, if_true] using ih' m
          · obtain ⟨m1, he, hfree, hkeep⟩ := clearRegion_spec bitmap (m := m) (2 ^ 52)
              entry.first entry.stop (by omega) (InSpace.stop_lt hin) (by have := InSpace.stop_lt hin; omega)
              (hbytes entry (by simp))
            obtain ⟨m', he', hfree', hkeep'⟩ := ih' m1
            refine ⟨m', ?_, ?_, hkeep.trans hkeep'⟩
            · have hno : ¬regionOverlapsKernel boot (BitVec.ofNat 64 (entry.first * 4096))
                  (BitVec.ofNat 64 (entry.stop * 4096)) = true :=
                fun h => ho ((regionOverlapsKernel_iff hin).mp h)
              simp only [hk, hle, Bool.not_true, Bool.false_eq_true, if_false, hno, he]
              exact he'
            · rw [hfree', hfree, Set.union_assoc]
              congr 1
              ext f
              simp only [releasedFrames, List.mem_cons, exists_eq_or_imp, Set.mem_union,
                Set.mem_ofPred_eq, hk, ho, not_false_eq_true, true_and]
              rfl
      · rw [hskip (fun h => absurd h.1 hk)]
        simpa only [hk, Bool.not_false, if_true] using ih' m

end Miyabi.Mm.Pmm
