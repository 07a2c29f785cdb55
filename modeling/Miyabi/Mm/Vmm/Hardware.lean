import Miyabi.Mm.Vmm.Map

namespace Miyabi.Mm.Vmm

open Miyabi.Base Miyabi.Base.Memory Miyabi.Base.TableTree

section HardwareWalk

variable (hhdm : BitVec 64) (m : Memory 64) (root virt : BitVec 64)

-- The entries that the processor reads, each in the table that the one before names.
def pml4Entry : BitVec 64 := slot hhdm m root ((pageNumber virt).extractLsb' 27 9)

def pdptEntry : BitVec 64 :=
  slot hhdm m (entryFrame (pml4Entry hhdm m root virt)) ((pageNumber virt).extractLsb' 18 9)

def pdEntry : BitVec 64 :=
  slot hhdm m (entryFrame (pdptEntry hhdm m root virt)) ((pageNumber virt).extractLsb' 9 9)

def ptEntry : BitVec 64 :=
  slot hhdm m (entryFrame (pdEntry hhdm m root virt)) (leafIndex (pageNumber virt))

-- The 4K frame base that an address translates to.
def hardwareWalk : Option (BitVec 64) :=
  let pml4e := pml4Entry hhdm m root virt
  let pdpte := pdptEntry hhdm m root virt
  let pde := pdEntry hhdm m root virt
  let pte := ptEntry hhdm m root virt
  if pml4e &&& ptePresent = 0 then none
  else if pdpte &&& ptePresent = 0 then none
  else if pdpte &&& pteHuge ≠ 0 then
    some ((pdpte &&& 0x000FFFFFC0000000) ||| (virt &&& 0x3FFFF000))
  else if pde &&& ptePresent = 0 then none
  else if pde &&& pteHuge ≠ 0 then
    some ((pde &&& 0x000FFFFFFFE00000) ||| (virt &&& 0x1FF000))
  else if pte &&& ptePresent = 0 then none
  else some (entryFrame pte)

-- The null test after an entry that is not present: it fires only when the
-- entry's address bits are those of the frame at the end of the direct map.
def Stops (e : BitVec 64) : Prop := ¬Present e ∧ (e &&& ~~~0xFFF) + hhdm = 0

-- An entry that leads the code to the table it leads the processor to.
structure Leads (e : BitVec 64) : Prop where
  present : Present e
  high : e &&& 0xFFF0000000000000 = 0
  pointer : entryFrame e + hhdm ≠ 0

-- A leaf entry that the code reads as the processor does.
def LeafRead (e : BitVec 64) : Prop :=
  (Present e ∧ e &&& 0xFFF0000000000000 = 0) ∨ (¬Present e ∧ e &&& ~~~0xFFF = 0)

-- The upper three entries lead to a leaf table.
structure ToLeaf : Prop where
  pml4e : Leads hhdm (pml4Entry hhdm m root virt)
  pdpte : Leads hhdm (pdptEntry hhdm m root virt)
  pdpte_huge : pdptEntry hhdm m root virt &&& pteHuge = 0
  pde : Leads hhdm (pdEntry hhdm m root virt)
  pde_huge : pdEntry hhdm m root virt &&& pteHuge = 0

-- The walks on which vmm_virt_to_phys goes as the processor does: in the upper
-- tables entries that lead, or one that is not present and caught by the null test.
def Straight : Prop :=
  Stops hhdm (pml4Entry hhdm m root virt) ∨ Leads hhdm (pml4Entry hhdm m root virt) ∧
    (Stops hhdm (pdptEntry hhdm m root virt) ∨ Leads hhdm (pdptEntry hhdm m root virt) ∧
      pdptEntry hhdm m root virt &&& pteHuge = 0 ∧
      (Stops hhdm (pdEntry hhdm m root virt) ∨ Leads hhdm (pdEntry hhdm m root virt) ∧
        pdEntry hhdm m root virt &&& pteHuge = 0 ∧ LeafRead (ptEntry hhdm m root virt)))

end HardwareWalk

section Agreement

variable {σ : Type} {s : State σ} {root virt : BitVec 64}

-- The code's walk in terms of the processor's entries, as far as they lead.
theorem virtToPhys_first (hroot : s.pml4 = root + s.hhdmOffset)
    (h : Stops s.hhdmOffset (pml4Entry s.hhdmOffset s.mem root virt)) : vmmVirtToPhys virt s = 0 := by
  have hread : readEntry s.mem s.pml4 (pml4Index virt) = pml4Entry s.hhdmOffset s.mem root virt := by
    rw [hroot, pml4Index_eq]
    rfl
  simp only [vmmVirtToPhys, State.physToVirt, hread, h.2, if_true]

theorem virtToPhys_second (hroot : s.pml4 = root + s.hhdmOffset)
    (h1 : Leads s.hhdmOffset (pml4Entry s.hhdmOffset s.mem root virt)) :
    vmmVirtToPhys virt s =
      let pd := (pdptEntry s.hhdmOffset s.mem root virt &&& ~~~0xFFF) + s.hhdmOffset
      if pd = 0 then 0
      else
        let pt := (readEntry s.mem pd (pdIndex virt) &&& ~~~0xFFF) + s.hhdmOffset
        if pt = 0 then 0 else readEntry s.mem pt (ptIndex virt) &&& ~~~0xFFF := by
  have hread : readEntry s.mem s.pml4 (pml4Index virt) = pml4Entry s.hhdmOffset s.mem root virt := by
    rw [hroot, pml4Index_eq]
    rfl
  have hread' : readEntry s.mem (entryFrame (pml4Entry s.hhdmOffset s.mem root virt) + s.hhdmOffset)
      (pdptIndex virt) = pdptEntry s.hhdmOffset s.mem root virt := by
    rw [pdptIndex_eq]
    rfl
  simp only [vmmVirtToPhys, State.physToVirt, hread, and_not_low_eq h1.high, h1.pointer, if_false,
    hread']

theorem virtToPhys_third (hroot : s.pml4 = root + s.hhdmOffset)
    (h1 : Leads s.hhdmOffset (pml4Entry s.hhdmOffset s.mem root virt))
    (h2 : Leads s.hhdmOffset (pdptEntry s.hhdmOffset s.mem root virt)) :
    vmmVirtToPhys virt s =
      let pt := (pdEntry s.hhdmOffset s.mem root virt &&& ~~~0xFFF) + s.hhdmOffset
      if pt = 0 then 0 else readEntry s.mem pt (ptIndex virt) &&& ~~~0xFFF := by
  have hread : readEntry s.mem (entryFrame (pdptEntry s.hhdmOffset s.mem root virt) + s.hhdmOffset)
      (pdIndex virt) = pdEntry s.hhdmOffset s.mem root virt := by
    rw [pdIndex_eq]
    rfl
  rw [virtToPhys_second hroot h1]
  simp only [and_not_low_eq h2.high, h2.pointer, if_false, hread]

theorem virtToPhys_leaf (hroot : s.pml4 = root + s.hhdmOffset)
    (h : ToLeaf s.hhdmOffset s.mem root virt) :
    vmmVirtToPhys virt s = ptEntry s.hhdmOffset s.mem root virt &&& ~~~0xFFF := by
  have hread : readEntry s.mem (entryFrame (pdEntry s.hhdmOffset s.mem root virt) + s.hhdmOffset)
      (ptIndex virt) = ptEntry s.hhdmOffset s.mem root virt := by
    rw [ptIndex_eq]
    rfl
  rw [virtToPhys_third hroot h.pml4e h.pdpte]
  simp only [and_not_low_eq h.pde.high, h.pde.pointer, if_false, hread]

theorem hardwareWalk_leaf {hhdm : BitVec 64} {m : Memory 64} (h : ToLeaf hhdm m root virt) :
    hardwareWalk hhdm m root virt = if ptEntry hhdm m root virt &&& ptePresent = 0 then none
      else some (entryFrame (ptEntry hhdm m root virt)) := by
  simp only [hardwareWalk, show ¬pml4Entry hhdm m root virt &&& ptePresent = 0 from h.pml4e.present,
    show ¬pdptEntry hhdm m root virt &&& ptePresent = 0 from h.pdpte.present,
    show ¬pdEntry hhdm m root virt &&& ptePresent = 0 from h.pde.present, h.pdpte_huge, h.pde_huge,
    ne_eq, not_true_eq_false, if_false]

-- The bits above bit 51 of a present leaf entry are all that can go wrong with it.
theorem leafRead_iff (e : BitVec 64) :
    (e &&& ~~~0xFFF = (if e &&& ptePresent = 0 then none else some (entryFrame e)).getD 0) ↔
      LeafRead e := by
  unfold LeafRead Present
  by_cases hp : e &&& ptePresent = 0
  · simp [hp]
  · simp only [hp, if_false, Option.getD_some, ne_eq, not_false_eq_true, true_and,
      not_true_eq_false, false_and, or_false]
    refine ⟨fun he => ?_, and_not_low_eq⟩
    have hmask : (0xFFF0000000000000 : BitVec 64) = ~~~0xFFF &&& 0xFFF0000000000000 := by decide
    rw [hmask, ← BitVec.and_assoc, he, entryFrame, BitVec.and_assoc]
    have hz : frameMask &&& (0xFFF0000000000000 : BitVec 64) = 0 := by decide
    rw [hz]
    exact BitVec.and_zero

-- Where the walk is straight the code finds what the processor finds; and once
-- the upper entries lead to a leaf table, it does so exactly for the leaf entries
-- that it reads right.
theorem virtToPhys_agrees (s : State σ) (root virt : BitVec 64)
    (hroot : s.pml4 = root + s.hhdmOffset) :
    (Straight s.hhdmOffset s.mem root virt →
      vmmVirtToPhys virt s = (hardwareWalk s.hhdmOffset s.mem root virt).getD 0) ∧
    (ToLeaf s.hhdmOffset s.mem root virt →
      (vmmVirtToPhys virt s = (hardwareWalk s.hhdmOffset s.mem root virt).getD 0 ↔
        LeafRead (ptEntry s.hhdmOffset s.mem root virt))) := by
  have hleaf : ToLeaf s.hhdmOffset s.mem root virt →
      (vmmVirtToPhys virt s = (hardwareWalk s.hhdmOffset s.mem root virt).getD 0 ↔
        LeafRead (ptEntry s.hhdmOffset s.mem root virt)) := by
    intro h
    rw [virtToPhys_leaf hroot h, hardwareWalk_leaf h]
    exact leafRead_iff _
  refine ⟨fun h => ?_, hleaf⟩
  rcases h with hstop | ⟨hpml4e, h⟩
  · rw [virtToPhys_first hroot hstop, hardwareWalk, if_pos (not_not.mp hstop.1)]
    rfl
  · rcases h with hstop | ⟨hpdpte, hhuge, h⟩
    · rw [virtToPhys_second hroot hpml4e, hardwareWalk, if_neg hpml4e.present,
        if_pos (not_not.mp hstop.1)]
      simp only [hstop.2, if_true, Option.getD_none]
    · rcases h with hstop | ⟨hpde, hhuge', hread⟩
      · rw [virtToPhys_third hroot hpml4e hpdpte, hardwareWalk, if_neg hpml4e.present,
          if_neg hpdpte.present, if_neg (not_not.mpr hhuge), if_pos (not_not.mp hstop.1)]
        simp only [hstop.2, if_true, Option.getD_none]
      · exact (hleaf ⟨hpml4e, hpdpte, hhuge, hpde, hhuge'⟩).mpr hread

end Agreement

section Reading

variable {hhdm root virt : BitVec 64} {m : Memory 64}

-- The byte at a virtual address.
def readVirtual (hhdm : BitVec 64) (m : Memory 64) (root virt : BitVec 64) : Option (BitVec 8) :=
  (hardwareWalk hhdm m root virt).map (fun frame => m (frame + hhdm + (virt &&& 0xFFF)))

theorem child_slot (path : List (BitVec 9)) {i : BitVec 9} {g : BitVec 64}
    (h : tableAt hhdm m root (path ++ [i]) = some g) :
    ∃ f, tableAt hhdm m root path = some f ∧ Present (slot hhdm m f i) ∧
      slot hhdm m f i &&& pteHuge = 0 ∧ entryFrame (slot hhdm m f i) = g := by
  rw [tableAt, lookup_snoc] at h
  obtain ⟨f, hf, hc⟩ := Option.bind_eq_some_iff.mp h
  obtain ⟨hpres, hframe⟩ := child_some hc
  refine ⟨f, hf, hpres, ?_, hframe⟩
  unfold child at hc
  split at hc
  · rename_i hboth
    exact hboth.2
  · cases hc

-- The walk of the processor follows the tree to a present leaf entry.
theorem hardwareWalk_of_leaf (h : Present (leafEntry hhdm m root (pageNumber virt))) :
    hardwareWalk hhdm m root virt = some (entryFrame (leafEntry hhdm m root (pageNumber virt))) := by
  cases hpt : tableAt hhdm m root (tablePath (pageNumber virt)) with
  | none =>
      simp only [leafEntry, leafAt, hpt] at h
      exact absurd (by decide) h
  | some pt =>
      obtain ⟨pd, hpd, p2, u2, e2⟩ := child_slot [_, _] hpt
      obtain ⟨pdpt, hpdpt, p3, u3, e3⟩ := child_slot [_] hpd
      obtain ⟨r, hr, p4, -, e4⟩ := child_slot [] hpdpt
      cases hr
      have h4 : entryFrame (pml4Entry hhdm m root virt) = pdpt := e4
      have h3 : pdptEntry hhdm m root virt =
          slot hhdm m pdpt ((pageNumber virt).extractLsb' 18 9) := by
        rw [pdptEntry, h4]
      have h2 : pdEntry hhdm m root virt =
          slot hhdm m pd ((pageNumber virt).extractLsb' 9 9) := by
        rw [pdEntry, h3, e3]
      have h1 : ptEntry hhdm m root virt = leafEntry hhdm m root (pageNumber virt) := by
        simp only [ptEntry, h2, e2, leafEntry, leafAt, hpt]
      rw [← h1] at h ⊢
      rw [← h2] at p2 u2
      rw [← h3] at p3 u3
      have h4' : ¬pml4Entry hhdm m root virt &&& ptePresent = 0 := p4
      have hp3 : ¬pdptEntry hhdm m root virt &&& ptePresent = 0 := p3
      have hp2 : ¬pdEntry hhdm m root virt &&& ptePresent = 0 := p2
      have hp1 : ¬ptEntry hhdm m root virt &&& ptePresent = 0 := h
      simp only [hardwareWalk, h4', hp3, u3, hp2, u2, hp1, ne_eq, not_true_eq_false, if_false]

end Reading

-- A tree in frames 1 to 4 that maps page 0 to frame 9.
def onePage : State Unit :=
  let m : Memory 64 := fun _ => 0
  let m := m.store64 0xFFFF800000001000 0x2003
  let m := m.store64 0xFFFF800000002000 0x3003
  let m := m.store64 0xFFFF800000003000 0x4003
  let m := m.store64 0xFFFF800000004000 0x9003
  ⟨m, 0xFFFF800000000000, 0xFFFF800000001000, (), []⟩

theorem virtToPhys_agrees_onePage : vmmVirtToPhys 0 onePage = 0x9000 := by
  have hstraight : Straight onePage.hhdmOffset onePage.mem 0x1000 0 :=
    Or.inr ⟨⟨by decide, by decide, by decide⟩, Or.inr ⟨⟨by decide, by decide, by decide⟩, by decide,
      Or.inr ⟨⟨by decide, by decide, by decide⟩, by decide, Or.inl ⟨by decide, by decide⟩⟩⟩⟩
  have hwalk : hardwareWalk onePage.hhdmOffset onePage.mem 0x1000 0 = some 0x9000 := by decide
  rw [(virtToPhys_agrees onePage 0x1000 0 rfl).1 hstraight, hwalk]
  rfl

-- An empty tree in frame 1, where physical address 0 holds the value 0x5000.
def strayFrame : State Unit :=
  ⟨Memory.store64 (fun _ => 0) 0xFFFF800000000000 0x5000, 0xFFFF800000000000, 0xFFFF800000001000,
    (), []⟩

theorem virtToPhys_stray :
    ¬∀ (s : State Unit) (root virt : BitVec 64), s.pml4 = root + s.hhdmOffset →
      vmmVirtToPhys virt s = (hardwareWalk s.hhdmOffset s.mem root virt).getD 0 := by
  intro hall
  have hstray := hall strayFrame 0x1000 0 rfl
  have hcode : vmmVirtToPhys 0 strayFrame = 0x5000 := by decide
  have hwalk : hardwareWalk strayFrame.hhdmOffset strayFrame.mem 0x1000 0 = none := by decide
  rw [hcode, hwalk] at hstray
  exact absurd hstray (by decide)

end Miyabi.Mm.Vmm
