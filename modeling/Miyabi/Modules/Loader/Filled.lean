import Miyabi.Modules.Loader.Linker

namespace Miyabi.Modules

open Miyabi.Base Miyabi.Base.Memory Miyabi.Elf

-- The sections below i have their bytes.
def Filled (m : Memory 64) (fileBuffer shdrs base : BitVec 64) (i : ℕ) (m' : Memory 64) : Prop :=
  ∀ j < i, IsAlloc m (shdr shdrs j) → ∀ k < (shSize m (shdr shdrs j)).toNat,
    m' (base + startOf m shdrs j + BitVec.ofNat 64 k) = sectionByte m fileBuffer (shdr shdrs j) k

section Filled

variable {m m' : Memory 64} {fileBuffer fileSize shdrs base total : BitVec 64} {i : ℕ} {w : Work}

theorem Filled.skip (h : Filled m fileBuffer shdrs base i m')
    (hskip : ¬IsAlloc m (shdr shdrs i)) : Filled m fileBuffer shdrs base (i + 1) m' := by
  intro j hj halloc
  rcases Nat.lt_succ_iff_lt_or_eq.mp hj with hlt | rfl
  · exact h j hlt halloc
  · exact absurd halloc hskip

variable (ht : Table m fileBuffer fileSize shdrs)
variable (hroom : Apart base total.toNat fileBuffer fileSize.toNat)

include ht hroom

-- The bytes of section i, whose data lie in the file.
theorem sectionFilled_byte (h : Settled m fileBuffer fileSize shdrs base i m')
    (hi : i < (eShnum m fileBuffer).toNat) (halloc : IsAlloc m (shdr shdrs i))
    (hspan : Spans base total (base + startOf m shdrs i) (shSize m (shdr shdrs i)).toNat)
    (hdata : shType m (shdr shdrs i) ≠ shtNobits → Clear m fileBuffer fileSize (shdr shdrs i))
    {k : ℕ} (hk : k < (shSize m (shdr shdrs i)).toNat) :
    sectionFilled (m'.store64 (shdr shdrs i + 16) (base + startOf m shdrs i)) (shdr shdrs i)
        (base + startOf m shdrs i) fileBuffer (base + startOf m shdrs i + BitVec.ofNat 64 k) =
      sectionByte m fileBuffer (shdr shdrs i) k := by
  have hassign := h.assign ht hi halloc
  have hlt := (shSize m (shdr shdrs i)).isLt
  have hin := inRange_add (base + startOf m shdrs i) (shSize m (shdr shdrs i)).toNat k hk
  unfold sectionFilled sectionByte
  rw [hassign.type ht hi, hassign.size ht hi, hassign.offset ht hi]
  split
  · rw [fill_eq _ _ _ _ hlt.le, if_pos hin]
  · rename_i hbits
    have hclear := hdata hbits
    have hinFile := hclear.inFile
    have hfile := fileSize.isLt
    have haddr (d : ℕ) : fileBuffer + shOffset m (shdr shdrs i) + BitVec.ofNat 64 d =
        fileBuffer + BitVec.ofNat 64 ((shOffset m (shdr shdrs i)).toNat + d) := by
      rw [BitVec.ofNat_add, BitVec.ofNat_toNat, BitVec.setWidth_eq, add_assoc]
    have hsource : ∀ x, InRange (fileBuffer + shOffset m (shdr shdrs i))
        (shSize m (shdr shdrs i)).toNat x → InRange fileBuffer fileSize.toNat x :=
      fun x hx => inRange_inner fileBuffer _ x hinFile hx
    have hapart : Apart (base + startOf m shdrs i) (shSize m (shdr shdrs i)).toNat
        (fileBuffer + shOffset m (shdr shdrs i)) (shSize m (shdr shdrs i)).toNat :=
      fun x hx hsrc => hspan.apart hroom x hx (hsource x hsrc)
    rw [copy_eq _ _ _ _ hlt.le hapart, if_pos hin, add_sub_cancel_left]
    -- The source is the file as it was, not a section header.
    refine hassign.file _ (hsource _ (inRange_add _ _ k hk)) fun j hj _ hheader => ?_
    have hroomy := ht.room
    rw [show shdr shdrs j + 16 = _ from ht.shdr_at j 16] at hheader
    have hself := inRange_self (fileBuffer + shOffset m (shdr shdrs i) + BitVec.ofNat 64 k) 1
      (by decide)
    rw [haddr k] at hself hheader
    rcases hclear.apart with hbefore | hbehind
    · exact apart_offsets fileBuffer (by omega) (by omega) _ hself hheader
    · exact (apart_offsets fileBuffer (by omega) (by omega)).symm _ hself hheader

-- The sections placed before keep theirs.
theorem Filled.place (h : Filled m fileBuffer shdrs base i w.mem)
    (hs : Settled m fileBuffer fileSize shdrs base i w.mem) (hi : i < (eShnum m fileBuffer).toNat)
    (halloc : IsAlloc m (shdr shdrs i)) (hsums : NoWrap m shdrs (eShnum m fileBuffer).toNat)
    (hspans : ∀ j < (eShnum m fileBuffer).toNat, IsAlloc m (shdr shdrs j) →
      Spans base total (base + startOf m shdrs j) (shSize m (shdr shdrs j)).toNat)
    (hdata : shType m (shdr shdrs i) ≠ shtNobits → Clear m fileBuffer fileSize (shdr shdrs i)) :
    Filled m fileBuffer shdrs base (i + 1)
      (placeSection fileBuffer base (startOf m shdrs i) (shdr shdrs i) w).mem := by
  intro j hj hjalloc k hk
  rw [(hs.place ht hi halloc hroom (hspans i hi halloc)).1]
  dsimp only
  rcases Nat.lt_succ_iff_lt_or_eq.mp hj with hlt | rfl
  · have hjn : j < (eShnum m fileBuffer).toNat := hlt.trans hi
    have hin := inRange_add (base + startOf m shdrs j) (shSize m (shdr shdrs j)).toNat k hk
    have hsection : ¬InRange (base + startOf m shdrs i) (shSize m (shdr shdrs i)).toNat
        (base + startOf m shdrs j + BitVec.ofNat 64 k) := by
      have hcount := (hsums i hi halloc).2
      have happart := apart_offsets base (hsums.ordered hlt hi hjalloc halloc) hcount.le
      rw [BitVec.ofNat_toNat, BitVec.setWidth_eq, BitVec.ofNat_toNat, BitVec.setWidth_eq] at happart
      exact happart _ hin
    have hheader : ¬InRange (shdr shdrs i + 16) 8
        (base + startOf m shdrs j + BitVec.ofNat 64 k) := fun hx =>
      (hspans j hjn hjalloc).apart hroom _ hin
        (ht.field_inRange (o := 16) (k := 8) hi (by decide) hx)
    have hkeep := sectionFilled_keeps
      (w.mem.store64 (shdr shdrs i + 16) (base + startOf m shdrs i)) (shdr shdrs i)
      (base + startOf m shdrs i) fileBuffer
    rw [(hs.assign ht hi halloc).size ht hi] at hkeep
    rw [hkeep _ hsection, ← h j hlt hjalloc k hk]
    exact store_of_not_inRange (n := 8) w.mem _ _ _ hheader
  · exact sectionFilled_byte ht hroom hs hi halloc (hspans j hi halloc) hdata hk

-- So at the end of the second pass all have them.
theorem placeSections_filled (fuel : ℕ) (hi : i ≤ (eShnum m fileBuffer).toNat)
    (hfuel : (eShnum m fileBuffer).toNat ≤ fuel + i)
    (hsums : NoWrap m shdrs (eShnum m fileBuffer).toNat)
    (hspans : ∀ j < (eShnum m fileBuffer).toNat, IsAlloc m (shdr shdrs j) →
      Spans base total (base + startOf m shdrs j) (shSize m (shdr shdrs j)).toNat)
    (hdata : ∀ j < (eShnum m fileBuffer).toNat, IsAlloc m (shdr shdrs j) →
      shType m (shdr shdrs j) ≠ shtNobits → Clear m fileBuffer fileSize (shdr shdrs j))
    (hs : Settled m fileBuffer fileSize shdrs base i w.mem)
    (h : Filled m fileBuffer shdrs base i w.mem) :
    Filled m fileBuffer shdrs base (eShnum m fileBuffer).toNat
      (placeSections fileBuffer shdrs fileBuffer base fuel i (offsetAt m shdrs i) w).2.mem := by
  induction fuel generalizing i w with
  | zero =>
      obtain rfl : i = (eShnum m fileBuffer).toNat := by omega
      exact h
  | succ fuel ih =>
      rcases Nat.lt_or_eq_of_le hi with hlt | rfl
      · by_cases halloc : IsAlloc m (shdr shdrs i)
        · obtain ⟨w', hw', hrun, -⟩ := placeSections_turn fuel hs ht hlt halloc
          have hnext := (hs.place ht hlt halloc hroom (hspans i hlt halloc)).2
          have hfill := h.place ht hroom hs hlt halloc hsums hspans (hdata i hlt halloc)
          rw [← hw'] at hnext hfill
          rw [hrun, hnext.size ht hlt, ← offsetAt_alloc halloc]
          exact ih hlt (by omega) hnext hfill
        · rw [(placeSections_skip fuel hs ht hlt halloc _).1, ← offsetAt_skip halloc]
          exact ih hlt (by omega) (hs.skip halloc) (h.skip halloc)
      · rw [(placeSections_end _ hs ht le_rfl _).1]
        exact h

end Filled

end Miyabi.Modules
