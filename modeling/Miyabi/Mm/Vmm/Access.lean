import Miyabi.Mm.Vmm.Hardware

namespace Miyabi.Mm.Vmm

open Miyabi.Base Miyabi.Base.Memory Miyabi.Base.TableTree

-- The processor reads no further entry after one of these.
def Ends (e : BitVec 64) : Prop := ¬Present e ∨ e &&& pteHuge ≠ 0

instance (e : BitVec 64) : Decidable (Ends e) := inferInstanceAs (Decidable (_ ∨ _))

section Walks

variable (hhdm : BitVec 64) (m : Memory 64) (root virt : BitVec 64)

-- The entries that the processor reads for an address, in order.
def walkEntries : List (BitVec 64) :=
  let pml4e := pml4Entry hhdm m root virt
  let pdpte := pdptEntry hhdm m root virt
  let pde := pdEntry hhdm m root virt
  pml4e :: if ¬Present pml4e then [] else
    pdpte :: if Ends pdpte then [] else
      pde :: if Ends pde then [] else [ptEntry hhdm m root virt]

-- The tables that it reads them in.
def walkTables : List (BitVec 64) :=
  let pml4e := pml4Entry hhdm m root virt
  let pdpte := pdptEntry hhdm m root virt
  let pde := pdEntry hhdm m root virt
  root :: if ¬Present pml4e then [] else
    entryFrame pml4e :: if Ends pdpte then [] else
      entryFrame pdpte :: if Ends pde then [] else [entryFrame pde]

end Walks

-- What a present page allows: the entry that maps it, the number of entries on the
-- way to it, and whether they all let user mode in and writes through.
structure Access where
  depth : ℕ
  leaf : BitVec 64
  user : Bool
  write : Bool
  deriving DecidableEq

def accessOf (entries : List (BitVec 64)) : Option Access :=
  if entries.all (fun e => Present e) then
    some ⟨entries.length, entries.getLastD 0, entries.all (fun e => e &&& pteUser ≠ 0),
      entries.all (fun e => e &&& pteWrite ≠ 0)⟩
  else none

-- The frame of an address in a page of 4K, 2M or 1G.
def Access.frame (a : Access) (virt : BitVec 64) : BitVec 64 :=
  if a.depth = 2 then (a.leaf &&& 0x000FFFFFC0000000) ||| (virt &&& 0x3FFFF000)
  else if a.depth = 3 then (a.leaf &&& 0x000FFFFFFFE00000) ||| (virt &&& 0x1FF000)
  else entryFrame a.leaf

section Accesses

variable (hhdm : BitVec 64) (m : Memory 64) (root virt : BitVec 64)

def pageAccess : Option Access := accessOf (walkEntries hhdm m root virt)

-- The leaf entry of a present page, with the level it is found at.
def pageLeaf : Option (ℕ × BitVec 64) :=
  (pageAccess hhdm m root virt).map (fun a => (a.depth, a.leaf))

theorem hardwareWalk_eq_frame :
    hardwareWalk hhdm m root virt = (pageAccess hhdm m root virt).map (fun a => a.frame virt) := by
  have habsent : ∀ e : BitVec 64, e &&& ptePresent = 0 ↔ ¬Present e := fun _ => not_not.symm
  unfold hardwareWalk pageAccess walkEntries
  generalize pml4Entry hhdm m root virt = pml4e
  generalize pdptEntry hhdm m root virt = pdpte
  generalize pdEntry hhdm m root virt = pde
  generalize ptEntry hhdm m root virt = pte
  simp only [habsent, accessOf]
  by_cases h4 : Present pml4e
  · by_cases h3 : Present pdpte
    · by_cases u3 : pdpte &&& pteHuge = 0#64
      · by_cases h2 : Present pde
        · by_cases u2 : pde &&& pteHuge = 0#64
          · by_cases h1 : Present pte
            · simp [h4, h3, u3, h2, u2, h1, Ends, Access.frame]
            · simp [h4, h3, u3, h2, u2, h1, Ends]
          · simp [h4, h3, u3, h2, u2, Ends, Access.frame]
        · simp [h4, h3, u3, h2, Ends]
      · simp [h4, h3, u3, Ends, Access.frame]
    · simp [h4, h3, Ends]
  · simp [h4]

end Accesses

section Congruence

variable {hhdm root root' virt f : BitVec 64} {m m' : Memory 64}

-- Below equal root entries the walk depends on the pages of the tables it goes
-- through only.
theorem walkEntries_congr (h4 : pml4Entry hhdm m' root' virt = pml4Entry hhdm m root virt)
    (h : ∀ f ∈ (walkTables hhdm m root virt).tail, Agree m m' (f + hhdm) 4096) :
    walkEntries hhdm m' root' virt = walkEntries hhdm m root virt := by
  unfold walkTables at h
  have h3 : Present (pml4Entry hhdm m root virt) →
      pdptEntry hhdm m' root' virt = pdptEntry hhdm m root virt := by
    intro hp
    rw [pdptEntry, h4]
    exact slot_congr (entryFrame_isFrame _).aligned (h _ (by simp [hp])) _
  have h2 : Present (pml4Entry hhdm m root virt) → ¬Ends (pdptEntry hhdm m root virt) →
      pdEntry hhdm m' root' virt = pdEntry hhdm m root virt := by
    intro hp he
    rw [pdEntry, h3 hp]
    exact slot_congr (entryFrame_isFrame _).aligned (h _ (by simp [hp, he])) _
  have h1 : Present (pml4Entry hhdm m root virt) → ¬Ends (pdptEntry hhdm m root virt) →
      ¬Ends (pdEntry hhdm m root virt) → ptEntry hhdm m' root' virt = ptEntry hhdm m root virt := by
    intro hp he he'
    rw [ptEntry, h2 hp he]
    exact slot_congr (entryFrame_isFrame _).aligned (h _ (by simp [hp, he, he'])) _
  unfold walkEntries
  rw [h4]
  by_cases hp : Present (pml4Entry hhdm m root virt)
  · simp only [hp, not_true_eq_false, if_false, h3 hp]
    by_cases he : Ends (pdptEntry hhdm m root virt)
    · simp only [he, if_true]
    · simp only [he, if_false, h2 hp he]
      by_cases he' : Ends (pdEntry hhdm m root virt)
      · simp only [he', if_true]
      · simp only [he', if_false, h1 hp he he']
  · simp only [hp, not_false_eq_true, if_true]

theorem walkTables_aligned (hroot : Aligned root)
    (hf : f ∈ walkTables hhdm m root virt) : Aligned f := by
  have hframe := fun e : BitVec 64 => (entryFrame_isFrame e).aligned
  unfold walkTables at hf
  rcases List.mem_cons.mp hf with rfl | hf
  · exact hroot
  · split at hf
    · cases hf
    · rcases List.mem_cons.mp hf with rfl | hf
      · exact hframe _
      · split at hf
        · cases hf
        · rcases List.mem_cons.mp hf with rfl | hf
          · exact hframe _
          · split at hf
            · cases hf
            · exact List.mem_singleton.mp hf ▸ hframe _

theorem walkEntries_kept (hroot : Aligned root)
    (h : ∀ f ∈ walkTables hhdm m root virt, Agree m m' (f + hhdm) 4096) :
    walkEntries hhdm m' root virt = walkEntries hhdm m root virt :=
  walkEntries_congr (slot_congr hroot (h root (by simp [walkTables])) _)
    (fun f hf => h f (List.mem_of_mem_tail hf))

theorem pageLeaf_absent (h : ¬Present (pml4Entry hhdm m root virt)) :
    pageLeaf hhdm m root virt = none := by
  simp [pageLeaf, pageAccess, walkEntries, accessOf, h]

-- Two roots whose entries name the same table have the same leaf entries below it.
theorem pageLeaf_congr
    (hpres : Present (pml4Entry hhdm m root' virt) ↔ Present (pml4Entry hhdm m root virt))
    (hframe : entryFrame (pml4Entry hhdm m root' virt) = entryFrame (pml4Entry hhdm m root virt)) :
    pageLeaf hhdm m root' virt = pageLeaf hhdm m root virt := by
  have h3 : pdptEntry hhdm m root' virt = pdptEntry hhdm m root virt := by
    rw [pdptEntry, hframe, pdptEntry]
  have h2 : pdEntry hhdm m root' virt = pdEntry hhdm m root virt := by
    rw [pdEntry, h3, pdEntry]
  have h1 : ptEntry hhdm m root' virt = ptEntry hhdm m root virt := by
    rw [ptEntry, h2, ptEntry]
  unfold pageLeaf pageAccess walkEntries accessOf
  rw [h3, h2, h1]
  by_cases hp : Present (pml4Entry hhdm m root virt)
  · have hp' := hpres.mpr hp
    simp only [hp, hp', not_true_eq_false, if_false, List.all_cons, decide_true, Bool.true_and]
    generalize (if Ends (pdptEntry hhdm m root virt) then [] else _) = rest
    split
    · rfl
    · rfl
  · have hp' : ¬Present (pml4Entry hhdm m root' virt) := fun h => hp (hpres.mp h)
    simp [hp, hp']

end Congruence

section Leaves

variable {hhdm root virt e f g : BitVec 64} {m : Memory 64}

theorem child_of_going (h : ¬Ends e) : child e = some (entryFrame e) := by
  rw [Ends, not_or, not_not, ne_eq, not_not] at h
  exact if_pos h

theorem tableAt_snoc (path : List (BitVec 9)) (i : BitVec 9) (hf : tableAt hhdm m root path = some f)
    (hc : child (slot hhdm m f i) = some g) : tableAt hhdm m root (path ++ [i]) = some g := by
  have hparent : lookup child (slot hhdm m) root path = some f := hf
  rw [tableAt, lookup_snoc, hparent]
  exact hc

-- A present entry of a leaf table is what the processor finds.
theorem pageLeaf_of_leaf (h : Present (leafEntry hhdm m root (pageNumber virt))) :
    pageLeaf hhdm m root virt = some (4, leafEntry hhdm m root (pageNumber virt)) := by
  cases hpt : tableAt hhdm m root (tablePath (pageNumber virt)) with
  | none =>
      simp only [leafEntry, leafAt, hpt] at h
      exact absurd (by decide) h
  | some pt =>
      obtain ⟨pd, hpd, p2, u2, e2⟩ := child_slot [_, _] hpt
      obtain ⟨pdpt, hpdpt, p3, u3, e3⟩ := child_slot [_] hpd
      obtain ⟨r, hr, p4, -, e4⟩ := child_slot [] hpdpt
      cases hr
      have h4 : entryFrame (pml4Entry hhdm m root virt) = pdpt := e4
      have h3 : pdptEntry hhdm m root virt =
          slot hhdm m pdpt ((pageNumber virt).extractLsb' 18 9) := by
        rw [pdptEntry, h4]
      have h2 : pdEntry hhdm m root virt =
          slot hhdm m pd ((pageNumber virt).extractLsb' 9 9) := by
        rw [pdEntry, h3, e3]
      have h1 : ptEntry hhdm m root virt = leafEntry hhdm m root (pageNumber virt) := by
        simp only [ptEntry, h2, e2, leafEntry, leafAt, hpt]
      rw [← h1] at h ⊢
      rw [← h2] at p2 u2
      rw [← h3] at p3 u3
      have hp4 : Present (pml4Entry hhdm m root virt) := p4
      have g3 : ¬Ends (pdptEntry hhdm m root virt) := by simp [Ends, p3, u3]
      have g2 : ¬Ends (pdEntry hhdm m root virt) := by simp [Ends, p2, u2]
      simp [pageLeaf, pageAccess, walkEntries, accessOf, hp4, p3, p2, h, g3, g2]

theorem leaf_of_pageLeaf (hplain : Present (pml4Entry hhdm m root virt) → Plain (pml4Entry hhdm m root virt))
    (h : pageLeaf hhdm m root virt = some (4, e)) :
    leafEntry hhdm m root (pageNumber virt) = e ∧ Present e := by
  unfold pageLeaf pageAccess walkEntries accessOf at h
  by_cases h4 : Present (pml4Entry hhdm m root virt)
  · by_cases h3 : Ends (pdptEntry hhdm m root virt)
    · simp [h4, h3] at h
    · by_cases h2 : Ends (pdEntry hhdm m root virt)
      · simp [h4, h3, h2] at h
      · simp only [h4, h3, h2, not_true_eq_false, if_false] at h
        simp only [Option.map_eq_some_iff, Option.ite_none_right_eq_some, List.all_cons,
          List.all_nil, Bool.and_true, Bool.and_eq_true, decide_eq_true_iff] at h
        obtain ⟨a, ⟨⟨-, -, -, hpres⟩, ha⟩, he⟩ := h
        have hleaf : ptEntry hhdm m root virt = e := by
          rw [← Option.some.inj ha] at he
          exact (Prod.mk.inj he).2
        have c4 := tableAt_snoc [] _ rfl (child_of_plain (hplain h4) h4)
        have c3 := tableAt_snoc _ _ c4 (child_of_going h3)
        have c2 : tableAt hhdm m root (tablePath (pageNumber virt)) =
            some (entryFrame (pdEntry hhdm m root virt)) := tableAt_snoc _ _ c3 (child_of_going h2)
        simp only [leafEntry, leafAt, c2]
        exact ⟨hleaf, hleaf ▸ hpres⟩
  · simp [h4] at h

end Leaves

end Miyabi.Mm.Vmm
