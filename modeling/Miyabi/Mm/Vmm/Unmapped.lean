import Miyabi.Mm.Vmm.Confined
import Miyabi.Mm.Pmm

namespace Miyabi.Mm.Vmm

open Miyabi.Base Miyabi.Base.Memory Miyabi.Base.TableTree

-- The table that vmm_unmap_page comes to: it follows every entry, whatever its
-- flags are.
def rawTable (hhdm : BitVec 64) (m : Memory 64) (root : BitVec 64) (path : List (BitVec 9)) :
    BitVec 64 :=
  path.foldl (fun f i => slot hhdm m f i &&& ~~~0xFFF) root

variable {σ : Type}

section Unmap

variable (hhdm : BitVec 64) (m : Memory 64) (root : BitVec 64) (page : BitVec 36)

-- Its null checks find a table: one whose address in the direct map is 0.
def Caught : Prop :=
  ∃ path, path ≠ [] ∧ path <+: tablePath page ∧ rawTable hhdm m root path + hhdm = 0

-- What it is to do. If the processor finds the table of the page, only the entry
-- of the page is stored to; else nothing changes.
def UnmapConfined (r : Recorded σ) : Prop :=
  match tableAt hhdm m root (tablePath page) with
  | some pt => ∀ addr, .store addr ∈ r.log → addr = pt + hhdm + 8 * (leafIndex page).setWidth 64
  | none => r.state.mem = m

-- The checks find a table; or the page has a table and the entries lead there;
-- or it has none, and the entry that they lead to is zero anyway.
def UnmapLeads : Prop :=
  Caught hhdm m root page ∨
    match tableAt hhdm m root (tablePath page) with
    | some pt => rawTable hhdm m root (tablePath page) = pt
    | none => slot hhdm m (rawTable hhdm m root (tablePath page)) (leafIndex page) = 0

end Unmap

section UnmapPage

variable {s : State σ} {root virt : BitVec 64}

theorem caught_iff (hhdm : BitVec 64) (m : Memory 64) (page : BitVec 36) :
    Caught hhdm m root page ↔
      rawTable hhdm m root [page.extractLsb' 27 9] + hhdm = 0 ∨
      rawTable hhdm m root [page.extractLsb' 27 9, page.extractLsb' 18 9] + hhdm = 0 ∨
      rawTable hhdm m root (tablePath page) + hhdm = 0 := by
  constructor
  · rintro ⟨path, hnil, hpre, hz⟩
    rcases prefix_of_three hnil hpre with rfl | rfl | rfl
    · exact Or.inl hz
    · exact Or.inr (Or.inl hz)
    · exact Or.inr (Or.inr hz)
  · rintro (hz | hz | hz)
    · exact ⟨_, by simp, ⟨_, rfl⟩, hz⟩
    · exact ⟨_, by simp, ⟨_, rfl⟩, hz⟩
    · exact ⟨_, by simp [tablePath], List.prefix_refl _, hz⟩

-- It does nothing, or stores to the entry of the table that it came to.
variable (virt) in
theorem vmmUnmapPage_cases (hpml4 : s.pml4 = root + s.hhdmOffset) :
    (Caught s.hhdmOffset s.mem root (pageNumber virt) ∧
        Recorded.vmmUnmapPage virt ⟨s, []⟩ = ⟨s, []⟩) ∨
      (¬Caught s.hhdmOffset s.mem root (pageNumber virt) ∧
        Recorded.vmmUnmapPage virt ⟨s, []⟩ = Recorded.write ⟨s, []⟩
          (rawTable s.hhdmOffset s.mem root (tablePath (pageNumber virt)) + s.hhdmOffset)
          ((leafIndex (pageNumber virt)).setWidth 64) 0) := by
  have hread : ∀ t (i : BitVec 9), readEntry s.mem (t + s.hhdmOffset) (i.setWidth 64) =
      slot s.hhdmOffset s.mem t i := fun _ _ => rfl
  rw [caught_iff]
  simp only [Recorded.vmmUnmapPage, pml4Index_eq, pdptIndex_eq, pdIndex_eq, ptIndex_eq, hpml4,
    State.physToVirt, hread]
  simp only [rawTable, tablePath, List.foldl_cons, List.foldl_nil]
  split
  · rename_i h
    exact Or.inl ⟨Or.inl h, rfl⟩
  · rename_i h1
    split
    · rename_i h
      exact Or.inl ⟨Or.inr (Or.inl h), rfl⟩
    · rename_i h2
      split
      · rename_i h
        exact Or.inl ⟨Or.inr (Or.inr h), rfl⟩
      · rename_i h3
        refine Or.inr ⟨?_, rfl⟩
        rintro (h | h | h)
        · exact h1 h
        · exact h2 h
        · exact h3 h

theorem vmmUnmapPage_confined_iff (hpml4 : s.pml4 = root + s.hhdmOffset) :
    UnmapConfined s.hhdmOffset s.mem root (pageNumber virt) (Recorded.vmmUnmapPage virt ⟨s, []⟩) ↔
      UnmapLeads s.hhdmOffset s.mem root (pageNumber virt) := by
  rcases vmmUnmapPage_cases virt hpml4 with ⟨hcaught, hrun⟩ | ⟨hcaught, hrun⟩
  · rw [hrun, UnmapConfined, UnmapLeads]
    refine ⟨fun _ => Or.inl hcaught, fun _ => ?_⟩
    cases tableAt s.hhdmOffset s.mem root (tablePath (pageNumber virt)) with
    | none => rfl
    | some pt => exact fun addr h => absurd h List.not_mem_nil
  · rw [hrun, UnmapConfined, UnmapLeads, or_iff_right hcaught]
    cases tableAt s.hhdmOffset s.mem root (tablePath (pageNumber virt)) with
    | none =>
        simp only [Recorded.write]
        constructor
        · intro hsame
          have hslot : slot s.hhdmOffset (writeEntry s.mem
              (rawTable s.hhdmOffset s.mem root (tablePath (pageNumber virt)) + s.hhdmOffset)
              ((leafIndex (pageNumber virt)).setWidth 64) 0)
              (rawTable s.hhdmOffset s.mem root (tablePath (pageNumber virt)))
              (leafIndex (pageNumber virt)) = 0 := slot_writeEntry_same _ _
          rw [hsame] at hslot
          exact hslot
        · intro hzero
          have hkeep := writeEntry_slot s.hhdmOffset s.mem
            (rawTable s.hhdmOffset s.mem root (tablePath (pageNumber virt))) (leafIndex (pageNumber virt))
          rw [hzero] at hkeep
          exact hkeep
    | some pt =>
        simp only [Recorded.write, List.mem_singleton, Event.store.injEq, forall_eq]
        constructor
        · intro h
          exact add_right_cancel (add_right_cancel h)
        · intro h
          rw [h]

end UnmapPage

-- The frames that pmm_alloc returns lie at multiples of the page size.
theorem pmmAlloc_aligned (p : Pmm.Statics) (m : Memory 64) : Aligned (Pmm.pmmAlloc p m).1 := by
  have hframe : ∀ i : BitVec 64, Aligned (i * 4096) := by
    intro i
    rw [Aligned, BitVec.toNat_mul]
    have h4096 : (4096 : BitVec 64).toNat = 4096 := rfl
    rw [h4096]
    omega
  have hfrom : ∀ fuel i, Aligned (Pmm.pmmAllocFrom p fuel i m).1 := by
    intro fuel
    induction fuel with
    | zero => exact fun i => rfl
    | succ fuel ih =>
        intro i
        rw [Pmm.pmmAllocFrom]
        split
        · split
          · exact ih (i + 1)
          · exact hframe i
        · rfl
  exact hfrom _ _

-- Entries without PTE_HUGE and without bits above bit 51 lead there.
theorem visits_treeTables {hhdm root : BitVec 64} {m : Memory 64} {page : BitVec 36}
    (hplain : PlainWalk hhdm m root page) {f : BitVec 64} (h : Visits hhdm m root page f) :
    f ∈ treeTables hhdm m root := by
  have hfirst : everywhere (page.extractLsb' 27 9) := trivial
  obtain ⟨path, -, hwalk, hf⟩ := h.table hplain hfirst
  exact ⟨path, hwalk, hf⟩

-- vmm_map_page stores to tables of the tree and to new frames, whatever frames
-- pmm_alloc returns, and vmm_unmap_page to the entry of the page alone, exactly
-- if the entries on the way lead to tables of the tree.
theorem page_table_stores_iff (s : State σ) (root virt : BitVec 64) (hroot : Aligned root)
    (hpml4 : s.pml4 = s.physToVirt root) :
    ((∀ alloc : Memory 64 → σ → BitVec 64 × Memory 64 × σ, (∀ m frames, Aligned (alloc m frames).1) →
        ∀ phys flags, Confined s.hhdmOffset (treeTables s.hhdmOffset s.mem root)
          (Recorded.vmmMapPage alloc virt phys flags ⟨s, []⟩).2.log) ∧
      UnmapConfined s.hhdmOffset s.mem root (pageNumber virt) (Recorded.vmmUnmapPage virt ⟨s, []⟩)) ↔
    (∀ f, Visits s.hhdmOffset s.mem root (pageNumber virt) f →
        f ∈ treeTables s.hhdmOffset s.mem root) ∧
      UnmapLeads s.hhdmOffset s.mem root (pageNumber virt) := by
  rw [vmmUnmapPage_confined_iff hpml4]
  refine and_congr_left fun _ => ⟨fun h f hvisit => ?_, fun hvisit alloc hal phys flags =>
    vmmMapPage_confined hal hroot hpml4 hvisit phys flags⟩
  by_contra hout
  -- a frame that is not the stray one
  obtain ⟨c, hc, hzero, hne⟩ : ∃ c, Aligned c ∧ c ≠ 0 ∧ f ≠ c := by
    by_cases hf : f = 0x1000
    · exact ⟨0x2000, rfl, by decide, by rw [hf]; decide⟩
    · exact ⟨0x1000, rfl, by decide, hf⟩
  exact vmmMapPage_strays hroot hpml4 hvisit hout hc hzero hne 0 0
    (h (sameFrame c) (sameFrame_aligned hc) 0 0)

-- Page 3 is mapped to frame 9 through the tables in frames 1 to 4.
def mappedTree : State Unit where
  mem :=
    let m : Memory 64 := fun _ => 0
    let m := (m.store64 0xFFFF800000001000 0x2007).store64 0xFFFF800000002000 0x3007
    (m.store64 0xFFFF800000003000 0x4007).store64 0xFFFF800000004018 0x9003
  hhdmOffset := 0xFFFF800000000000
  pml4 := 0xFFFF800000001000
  frames := ()
  handed := []

theorem mappedTree_plain :
    PlainWalk mappedTree.hhdmOffset mappedTree.mem 0x1000 (pageNumber 0x3000) := by
  have hpath : tablePath (pageNumber 0x3000) = [0, 0, 0] := by decide
  have hpdpt : tableAt mappedTree.hhdmOffset mappedTree.mem 0x1000 [0] = some 0x2000 := by
    decide +kernel
  have hpd : tableAt mappedTree.hhdmOffset mappedTree.mem 0x1000 [0, 0] = some 0x3000 := by
    decide +kernel
  have hplain : ∀ f ∈ [0x1000, 0x2000, 0x3000],
      Plain (slot mappedTree.hhdmOffset mappedTree.mem f 0) := by
    simp only [List.forall_mem_cons]
    refine ⟨⟨by decide +kernel, by decide +kernel⟩, ⟨by decide +kernel, by decide +kernel⟩,
      ⟨by decide +kernel, by decide +kernel⟩, fun f hf => ?_⟩
    cases hf
  intro path i f hpre hf _
  rw [hpath] at hpre
  rcases path with _ | ⟨a, _ | ⟨b, _ | ⟨c, rest⟩⟩⟩
  · obtain rfl : i = 0 := by simpa using hpre
    cases hf
    exact hplain _ (by simp)
  · obtain ⟨rfl, rfl⟩ : a = 0 ∧ i = 0 := by simpa using hpre
    cases hpdpt.symm.trans hf
    exact hplain _ (by simp)
  · obtain ⟨rfl, rfl, rfl⟩ : a = 0 ∧ b = 0 ∧ i = 0 := by simpa using hpre
    cases hpd.symm.trans hf
    exact hplain _ (by simp)
  · have hlen := hpre.length_le
    simp only [List.length_append, List.length_cons, List.length_nil] at hlen
    omega

theorem page_table_stores_iff_mapped :
    (∀ alloc : Memory 64 → Unit → BitVec 64 × Memory 64 × Unit, (∀ m frames, Aligned (alloc m frames).1) →
        ∀ phys flags, Confined mappedTree.hhdmOffset (treeTables mappedTree.hhdmOffset mappedTree.mem 0x1000)
          (Recorded.vmmMapPage alloc 0x3000 phys flags ⟨mappedTree, []⟩).2.log) ∧
      UnmapConfined mappedTree.hhdmOffset mappedTree.mem 0x1000 (pageNumber 0x3000)
        (Recorded.vmmUnmapPage 0x3000 ⟨mappedTree, []⟩) := by
  have hleads : UnmapLeads mappedTree.hhdmOffset mappedTree.mem 0x1000 (pageNumber 0x3000) := by
    have htable : tableAt mappedTree.hhdmOffset mappedTree.mem 0x1000 (tablePath (pageNumber 0x3000)) =
        some 0x4000 := by decide +kernel
    have hraw : rawTable mappedTree.hhdmOffset mappedTree.mem 0x1000 (tablePath (pageNumber 0x3000)) =
        0x4000 := by decide +kernel
    refine Or.inr ?_
    rw [htable]
    exact hraw
  exact (page_table_stores_iff mappedTree 0x1000 0x3000 rfl rfl).mpr
    ⟨fun f h => visits_treeTables mappedTree_plain h, hleads⟩

-- Without tables the walk goes through frame 0 to its first word and clears it.
theorem unmap_clears_frame :
    (vmmUnmapPage 0 strayFrame).mem 0xFFFF800000000001 ≠ strayFrame.mem 0xFFFF800000000001 ∧
    ¬∀ (s : State Unit) (root virt : BitVec 64), Aligned root → s.pml4 = s.physToVirt root →
      (∀ alloc : Memory 64 → Unit → BitVec 64 × Memory 64 × Unit,
          (∀ m frames, Aligned (alloc m frames).1) →
          ∀ phys flags, Confined s.hhdmOffset (treeTables s.hhdmOffset s.mem root)
            (Recorded.vmmMapPage alloc virt phys flags ⟨s, []⟩).2.log) ∧
        UnmapConfined s.hhdmOffset s.mem root (pageNumber virt) (Recorded.vmmUnmapPage virt ⟨s, []⟩) := by
  have hcleared : (vmmUnmapPage 0 strayFrame).mem 0xFFFF800000000001 ≠
      strayFrame.mem 0xFFFF800000000001 := by decide
  refine ⟨hcleared, fun hall => ?_⟩
  have hunmap := (hall strayFrame 0x1000 0 rfl rfl).2
  have hnone : tableAt strayFrame.hhdmOffset strayFrame.mem 0x1000 (tablePath (pageNumber 0)) = none := by
    decide
  rw [UnmapConfined, hnone, Recorded.vmmUnmapPage_state] at hunmap
  exact hcleared (congrFun hunmap 0xFFFF800000000001)

end Miyabi.Mm.Vmm
