import Miyabi.Mm.Vmm.Map

namespace Miyabi.Mm.Vmm

open Miyabi.Base Miyabi.Base.Memory Miyabi.Base.TableTree

section Tables

variable {hhdm root f g : BitVec 64} {m : Memory 64}

-- A table below a plain entry is where the code's mask finds it.
theorem table_below (path : List (BitVec 9)) (i : BitVec 9)
    (hf : tableAt hhdm m root path = some f) (hg : tableAt hhdm m root (path ++ [i]) = some g)
    (hplain : Present (slot hhdm m f i) → Plain (slot hhdm m f i)) :
    slot hhdm m f i &&& ~~~0xFFF = g := by
  have hparent : lookup child (slot hhdm m) root path = some f := hf
  rw [tableAt, lookup_snoc, hparent] at hg
  obtain ⟨hpres, hframe⟩ := child_some hg
  rw [(hplain hpres).frame, hframe]

theorem table_above (path : List (BitVec 9)) (i : BitVec 9)
    (hg : tableAt hhdm m root (path ++ [i]) = some g) :
    ∃ f, tableAt hhdm m root path = some f := by
  rw [tableAt, lookup_snoc] at hg
  obtain ⟨f, hf, -⟩ := Option.bind_eq_some_iff.mp hg
  exact ⟨f, hf⟩

end Tables

section SoftwareWalk

variable {σ : Type} {s : State σ} {virt pdpt pd pt : BitVec 64}

-- The pointers that the walks of vmm_unmap_page and vmm_virt_to_phys follow.
structure Followed (s : State σ) (virt pdpt pd pt : BitVec 64) : Prop where
  first : s.physToVirt (readEntry s.mem s.pml4 (pml4Index virt) &&& ~~~0xFFF) = pdpt
  second : s.physToVirt (readEntry s.mem pdpt (pdptIndex virt) &&& ~~~0xFFF) = pd
  third : s.physToVirt (readEntry s.mem pd (pdIndex virt) &&& ~~~0xFFF) = pt
  pdpt_ne : pdpt ≠ 0
  pd_ne : pd ≠ 0
  pt_ne : pt ≠ 0

theorem vmmUnmapPage_followed (h : Followed s virt pdpt pd pt) :
    vmmUnmapPage virt s = { s with mem := writeEntry s.mem pt (ptIndex virt) 0 } := by
  simp only [vmmUnmapPage, h.first, h.pdpt_ne, h.second, h.pd_ne, h.third, h.pt_ne, if_false]

theorem vmmVirtToPhys_followed (h : Followed s virt pdpt pd pt) :
    vmmVirtToPhys virt s = readEntry s.mem pt (ptIndex virt) &&& ~~~0xFFF := by
  simp only [vmmVirtToPhys, h.first, h.pdpt_ne, h.second, h.pd_ne, h.third, h.pt_ne, if_false]

theorem followed_of_leaf {hhdm root t : BitVec 64} (hh : s.hhdmOffset = hhdm)
    (hroot : s.pml4 = root + hhdm) (hplain : PlainWalk hhdm s.mem root (pageNumber virt))
    (hpointers : ∀ f ∈ tables (fun _ => True) hhdm s.mem root, f + hhdm ≠ 0)
    (ht : tableAt hhdm s.mem root (tablePath (pageNumber virt)) = some t) :
    ∃ pdpt pd, Followed s virt pdpt pd (t + hhdm) := by
  subst hh
  have hw := walk_on_path (fun _ => True) (pageNumber virt) trivial
  obtain ⟨pd, hpd⟩ := table_above [_, _] _ ht
  obtain ⟨pdpt, hpdpt⟩ := table_above [_] _ hpd
  have hoff := fun (x y : BitVec 64) (hxy : x = y) => congrArg (· + s.hhdmOffset) hxy
  refine ⟨pdpt + s.hhdmOffset, pd + s.hhdmOffset, ?_, ?_, ?_, ?_, ?_, ?_⟩
  · rw [hroot, pml4Index_eq]
    exact hoff _ _ (table_below [] _ rfl hpdpt (hplain [] _ root ⟨_, rfl⟩ rfl))
  · rw [pdptIndex_eq]
    exact hoff _ _ (table_below _ _ hpdpt hpd (hplain _ _ pdpt ⟨_, rfl⟩ hpdpt))
  · rw [pdIndex_eq]
    exact hoff _ _ (table_below _ _ hpd ht (hplain _ _ pd ⟨_, rfl⟩ hpd))
  · exact hpointers pdpt ⟨_, hw _ ⟨_, rfl⟩, hpdpt⟩
  · exact hpointers pd ⟨_, hw _ ⟨_, rfl⟩, hpd⟩
  · exact hpointers t ⟨_, hw _ (List.prefix_refl _), ht⟩

end SoftwareWalk

end Miyabi.Mm.Vmm
