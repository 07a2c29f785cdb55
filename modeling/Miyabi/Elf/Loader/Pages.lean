import Miyabi.Elf.Loader.Image
import Miyabi.Mm.Vmm.Hardware
import Miyabi.Mm.Vmm.Supply

namespace Miyabi.Elf.Loader

open Miyabi.Base Miyabi.Base.Memory Miyabi.Base.TableTree Miyabi.Mm Miyabi.Mm.Vmm

section WritePage

variable {file m : Memory 64} {elfBinary virtPage cur v : BitVec 64} {seg : Segment}

theorem page_low (hcur : cur.toNat % 4096 = 0) (hv : v.toNat / 4096 = cur.toNat / 4096) :
    v &&& 0xFFF = v - cur := by
  apply BitVec.eq_of_toNat_eq
  have hlow := Word.toNat_and_mask v 0xFFF 12 (by decide)
  rw [hlow]
  bv_omega

-- What the file has of the segment on a page, in the bounds that elf_load computes.
theorem copied_iff (hspace : cur.toNat + 4096 ≤ 2 ^ 47)
    (hfile : seg.vaddr.toNat + seg.filesz.toNat ≤ 2 ^ 47) {start stop : BitVec 64}
    (hcur : cur.toNat % 4096 = 0) (hv : v.toNat / 4096 = cur.toNat / 4096)
    (hstart : start = if cur < seg.vaddr then seg.vaddr else cur)
    (hstop : stop = if cur + 0x1000 > seg.vaddr + seg.filesz then seg.vaddr + seg.filesz
      else cur + 0x1000) :
    start.toNat = max cur.toNat seg.vaddr.toNat ∧
      stop.toNat = min (cur.toNat + 4096) (seg.vaddr.toNat + seg.filesz.toNat) ∧
      (InRange seg.vaddr seg.filesz.toNat v ↔ start.toNat ≤ v.toNat ∧ v.toNat < stop.toNat) := by
  have hend : (seg.vaddr + seg.filesz).toNat = seg.vaddr.toNat + seg.filesz.toNat := by
    bv_omega
  have hnext : (cur + 0x1000).toNat = cur.toNat + 4096 := by
    bv_omega
  have h1 : start.toNat = max cur.toNat seg.vaddr.toNat := by
    rw [hstart]
    split
    · rename_i hlt
      rw [BitVec.lt_def] at hlt
      omega
    · rename_i hlt
      rw [BitVec.lt_def] at hlt
      omega
  have h2 : stop.toNat = min (cur.toNat + 4096) (seg.vaddr.toNat + seg.filesz.toNat) := by
    rw [hstop]
    split
    · rename_i hlt
      rw [gt_iff_lt, BitVec.lt_def] at hlt
      omega
    · rename_i hlt
      rw [gt_iff_lt, BitVec.lt_def] at hlt
      omega
  refine ⟨h1, h2, ?_⟩
  rw [inRange_iff seg.vaddr v _ (by omega), h1, h2]
  omega

theorem writePage_spec (hfile : seg.vaddr.toNat + seg.filesz.toNat ≤ 2 ^ 47)
    (hspace : cur.toNat + 4096 ≤ 2 ^ 47) (hcur : cur.toNat % 4096 = 0)
    (hsrc : ∀ x, InRange (elfBinary + seg.offset) seg.filesz.toNat x →
      m x = file x ∧ ¬InRange virtPage 4096 x) :
    KeepsOutside m (writePage m elfBinary virtPage cur seg) virtPage 4096 ∧
      ∀ v, v.toNat / 4096 = cur.toNat / 4096 →
        writePage m elfBinary virtPage cur seg (virtPage + (v &&& 0xFFF)) =
          seg.byteAt file elfBinary v := by
  have hfill := fill_keeps m virtPage 0 4096 (by omega)
  have hzero : ∀ x, InRange virtPage 4096 x → m.fill virtPage 0 4096 x = 0 := by
    intro x hx
    rw [fill_eq m virtPage 0 4096 (by omega), if_pos hx]
  have hin : ∀ v : BitVec 64, InRange virtPage 4096 (virtPage + (v &&& 0xFFF)) := by
    intro v
    have hlow := Word.toNat_and_mask v 0xFFF 12 (by decide)
    simp only [InRange, add_sub_cancel_left, hlow]
    omega
  simp only [writePage]
  generalize hm1 : m.fill virtPage 0 4096 = m1 at *
  generalize hstart : (if cur < seg.vaddr then seg.vaddr else cur) = start
  generalize hstop : (if cur + 0x1000 > seg.vaddr + seg.filesz then seg.vaddr + seg.filesz
    else cur + 0x1000) = stop
  have hbounds := fun v hv => copied_iff (v := v) hspace hfile hcur hv hstart.symm hstop.symm
  obtain ⟨h1, h2, -⟩ := hbounds cur rfl
  split
  · rename_i hlt
    rw [BitVec.lt_def] at hlt
    have hamount : (stop - start).toNat = stop.toNat - start.toNat := by
      bv_omega
    have hdest : (start - cur).toNat = start.toNat - cur.toNat := by
      bv_omega
    have hfrom : (start - seg.vaddr).toNat = start.toNat - seg.vaddr.toNat := by
      bv_omega
    have hwindow : ∀ x, InRange (virtPage + (start - cur)) (stop - start).toNat x →
        InRange virtPage 4096 x := fun x hx => inRange_inner _ _ x (by omega) hx
    have hsource : ∀ x, InRange (elfBinary + (seg.offset + (start - seg.vaddr))) (stop - start).toNat x →
        InRange (elfBinary + seg.offset) seg.filesz.toNat x := by
      intro x hx
      rw [← add_assoc] at hx
      exact inRange_inner _ _ x (by omega) hx
    have hcopy := fun x => copy_eq (x := x) m1 (virtPage + (start - cur))
      (elfBinary + (seg.offset + (start - seg.vaddr))) (stop - start).toNat (by omega)
    have hkeep := copy_keeps m1 (virtPage + (start - cur))
      (elfBinary + (seg.offset + (start - seg.vaddr))) (stop - start).toNat (by omega)
    refine ⟨hfill.trans (hkeep.mono hwindow), ?_⟩
    intro v hv
    obtain ⟨-, -, hiff⟩ := hbounds v hv
    have hoff : virtPage + (v &&& 0xFFF) - (virtPage + (start - cur)) = v - start := by
      rw [page_low hcur hv]
      ring
    rw [hcopy _ (fun x hx hs => (hsrc x (hsource x hs)).2 (hwindow x hx))]
    have hrange : InRange (virtPage + (start - cur)) (stop - start).toNat
        (virtPage + (v &&& 0xFFF)) ↔ InRange seg.vaddr seg.filesz.toNat v := by
      rw [hiff, InRange, hoff]
      have hr := inRange_iff start v (stop - start).toNat (by omega)
      rw [InRange] at hr
      rw [hr]
      omega
    unfold Segment.byteAt
    by_cases hr : InRange seg.vaddr seg.filesz.toNat v
    · have hx : InRange (elfBinary + seg.offset) seg.filesz.toNat
          (elfBinary + seg.offset + (v - seg.vaddr)) := by
        rw [InRange, add_sub_cancel_left]
        exact hr
      have haddr : elfBinary + (seg.offset + (start - seg.vaddr)) + (v - start) =
          elfBinary + seg.offset + (v - seg.vaddr) := by ring
      rw [if_pos hr, if_pos (hrange.mpr hr), hoff, haddr, hfill _ (hsrc _ hx).2, (hsrc _ hx).1]
    · rw [if_neg hr, if_neg (fun h => hr (hrange.mp h)), hzero _ (hin v)]
  · rename_i hlt
    rw [BitVec.lt_def] at hlt
    refine ⟨hfill, ?_⟩
    intro v hv
    obtain ⟨-, -, hiff⟩ := hbounds v hv
    have hr : ¬InRange seg.vaddr seg.filesz.toNat v := by
      rw [hiff]
      omega
    rw [hzero _ (hin v), Segment.byteAt, if_neg hr]

end WritePage

end Miyabi.Elf.Loader
