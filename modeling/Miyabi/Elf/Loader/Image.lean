import Miyabi.Elf.Loader
import Miyabi.Mm.Vmm.Map

namespace Miyabi.Elf.Loader

open Miyabi.Base Miyabi.Base.Memory Miyabi.Mm.Vmm

-- The pages that the loop over the pages of a segment visits.
def Segment.Touches (seg : Segment) (page : BitVec 36) : Prop :=
  seg.vaddr.toNat / 4096 ≤ page.toNat ∧ page.toNat < seg.vaddr.toNat / 4096 + seg.numPages.toNat

instance (seg : Segment) (page : BitVec 36) : Decidable (seg.Touches page) :=
  inferInstanceAs (Decidable (_ ∧ _))

-- The byte that the segment asks for at an address.
def Segment.byteAt (file : Memory 64) (elfBinary : BitVec 64) (seg : Segment) (v : BitVec 64) :
    BitVec 8 :=
  if InRange seg.vaddr seg.filesz.toNat v then file (elfBinary + seg.offset + (v - seg.vaddr)) else 0

-- A segment in the lower half.
structure Segment.Lower (seg : Segment) : Prop where
  space : seg.vaddr.toNat + seg.memsz.toNat ≤ 2 ^ 47
  filesz : seg.filesz.toNat ≤ seg.memsz.toNat

-- The segment that each page shows.
abbrev Image := BitVec 36 → Option Segment

def record (image : Image) (seg : Segment) : Image :=
  fun page => if seg.Touches page then some seg else image page

def Image.read (file : Memory 64) (elfBinary : BitVec 64) (image : Image) (v : BitVec 64) :
    Option (BitVec 8) :=
  (image (pageNumber v)).map (fun seg => seg.byteAt file elfBinary v)

section Pages

variable {seg : Segment}

theorem pageNumber_toNat {v : BitVec 64} (hv : v.toNat < 2 ^ 47) :
    (pageNumber v).toNat = v.toNat / 4096 := by
  rw [pageNumber, BitVec.extractLsb'_toNat, Nat.shiftRight_eq_div_pow, Nat.mod_eq_of_lt (by omega)]

theorem Segment.Lower.pages (h : seg.Lower) :
    seg.numPages.toNat = (seg.vaddr.toNat % 4096 + seg.memsz.toNat + 4095) / 4096 := by
  have hspace := h.space
  have hoff := Word.toNat_and_mask seg.vaddr 0xFFF 12 (by decide)
  rw [Segment.numPages]
  simp only [BitVec.toNat_udiv, BitVec.toNat_add, hoff]
  change ((seg.memsz.toNat + seg.vaddr.toNat % 2 ^ 12) % 2 ^ 64 + 4095) % 2 ^ 64 / 4096 = _
  omega

-- A page of the segment holds a byte of it or the address it starts at.
theorem Segment.Lower.touched_lt (h : seg.Lower) {page : BitVec 36} (ht : seg.Touches page) :
    page.toNat < 2 ^ 35 := by
  have hspace := h.space
  have hpages := h.pages
  have hlast := ht.2
  omega

theorem Segment.Lower.touches (h : seg.Lower) {v : BitVec 64}
    (hv : InRange seg.vaddr seg.memsz.toNat v) : seg.Touches (pageNumber v) := by
  have hspace := h.space
  have hpages := h.pages
  have hr := (inRange_iff seg.vaddr v _ (by omega)).mp hv
  have hnat := pageNumber_toNat (show v.toNat < 2 ^ 47 by omega)
  simp only [Segment.Touches, hnat, hpages]
  omega

theorem byteAt_outside {file : Memory 64} {elfBinary v : BitVec 64} (h : seg.Lower)
    (hv : ¬InRange seg.vaddr seg.memsz.toNat v) : seg.byteAt file elfBinary v = 0 := by
  have hfile : ¬InRange seg.vaddr seg.filesz.toNat v :=
    fun hin => hv (inRange_mono seg.vaddr v h.filesz hin)
  rw [Segment.byteAt, if_neg hfile]

end Pages

section Reading

variable {file : Memory 64} {elfBinary : BitVec 64}

-- Segments loaded later show zeros at an address of their pages that is not theirs.
theorem read_later (segs : List Segment) (image : Image) (v : BitVec 64)
    (hlower : ∀ b ∈ segs, b.Lower) (hout : ∀ b ∈ segs, ¬InRange b.vaddr b.memsz.toNat v) :
    (segs.foldl record image).read file elfBinary v =
      if ∃ b ∈ segs, b.Touches (pageNumber v) then some 0 else image.read file elfBinary v := by
  induction segs generalizing image with
  | nil => simp
  | cons b rest ih =>
      have hb : b.byteAt file elfBinary v = 0 := byteAt_outside (hlower b (by simp)) (hout b (by simp))
      rw [List.foldl_cons, ih _ (fun c hc => hlower c (by simp [hc])) (fun c hc => hout c (by simp [hc]))]
      by_cases hrest : ∃ c ∈ rest, c.Touches (pageNumber v)
      · obtain ⟨c, hc, ht⟩ := hrest
        rw [if_pos ⟨c, hc, ht⟩, if_pos ⟨c, by simp [hc], ht⟩]
      · rw [if_neg hrest]
        simp only [List.exists_mem_cons_iff, hrest, or_false]
        by_cases ht : b.Touches (pageNumber v)
        · simp only [Image.read, record, ht, if_true, Option.map_some, hb]
        · simp only [Image.read, record, ht, if_false]

theorem read_own (seg : Segment) (image : Image) (v : BitVec 64) (h : seg.Lower)
    (hv : InRange seg.vaddr seg.memsz.toNat v) :
    (record image seg).read file elfBinary v = some (seg.byteAt file elfBinary v) := by
  simp only [Image.read, record, h.touches hv, if_true, Option.map_some]

-- Every segment reads as it asks to exactly if the bytes of each one that lie on
-- pages of later ones are zero.
theorem reads_iff (segs : List Segment) (image : Image) (hlower : ∀ seg ∈ segs, seg.Lower)
    (hdisjoint : segs.Pairwise (fun a b => Apart a.vaddr a.memsz.toNat b.vaddr b.memsz.toNat)) :
    (∀ seg ∈ segs, ∀ v, InRange seg.vaddr seg.memsz.toNat v →
      (segs.foldl record image).read file elfBinary v = some (seg.byteAt file elfBinary v)) ↔
    segs.Pairwise (fun a b => ∀ v, InRange a.vaddr a.memsz.toNat v → b.Touches (pageNumber v) →
      a.byteAt file elfBinary v = 0) := by
  induction segs generalizing image with
  | nil => simp
  | cons a rest ih =>
      obtain ⟨hapart, hrest⟩ := List.pairwise_cons.mp hdisjoint
      have hlow := fun c hc => hlower c (List.mem_cons_of_mem a hc)
      rw [List.forall_mem_cons, List.foldl_cons, ih (record image a) hlow hrest, List.pairwise_cons]
      refine and_congr_left (fun _ => ?_)
      have hread : ∀ v, InRange a.vaddr a.memsz.toNat v →
          (rest.foldl record (record image a)).read file elfBinary v =
            if ∃ b ∈ rest, b.Touches (pageNumber v) then some 0
            else some (a.byteAt file elfBinary v) := by
        intro v hv
        rw [read_later rest _ v hlow (fun b hb => hapart b hb v hv),
          read_own a image v (hlower a (by simp)) hv]
      constructor
      · intro h b hb v hv ht
        have hv' := h v hv
        rw [hread v hv, if_pos ⟨b, hb, ht⟩] at hv'
        exact (Option.some.inj hv').symm
      · intro h v hv
        rw [hread v hv]
        by_cases hlater : ∃ b ∈ rest, b.Touches (pageNumber v)
        · obtain ⟨b, hb, ht⟩ := id hlater
          rw [if_pos hlater, h b hb v hv ht]
        · rw [if_neg hlater]

end Reading

end Miyabi.Elf.Loader
