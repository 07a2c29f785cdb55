import Miyabi.Mm.Vmm.Stores

namespace Miyabi.Mm.Vmm

open Miyabi.Base Miyabi.Base.Memory Miyabi.Base.TableTree

variable {σ : Type} {alloc : Memory 64 → σ → BitVec 64 × Memory 64 × σ}

section Steps

variable {hhdm g p : BitVec 64} {i : BitVec 9} {r : Recorded σ}

-- An entry that is present gets its flags, and is followed whatever else it holds.
theorem ensureTable_present (hh : r.state.hhdmOffset = hhdm)
    (hpres : Present (slot hhdm r.state.mem g i)) :
    Recorded.ensureTable alloc (g + hhdm) (i.setWidth 64) r =
      (some ((slot hhdm r.state.mem g i &&& ~~~0xFFF) + hhdm),
        r.write (g + hhdm) (i.setWidth 64) (slot hhdm r.state.mem g i ||| (pteUser ||| pteWrite))) := by
  subst hh
  have hread : ∀ m, readEntry m (g + r.state.hhdmOffset) (i.setWidth 64) =
      slot r.state.hhdmOffset m g i := fun _ => rfl
  have hlow : (slot r.state.hhdmOffset r.state.mem g i ||| (pteUser ||| pteWrite)) &&& ~~~0xFFF =
      slot r.state.hhdmOffset r.state.mem g i &&& ~~~0xFFF := or_and_of_zero (by decide)
  rw [Recorded.ensureTable, hread, if_neg hpres]
  simp only [Recorded.write, hread, slot_writeEntry_same, State.physToVirt, hlow]

-- The entries of a table that was just made: none, or the table itself where its
-- frame was that of the table above it.
def Made (hhdm : BitVec 64) (r : Recorded σ) (g : BitVec 64) : Prop :=
  .obtained g ∈ r.log ∧
    ∀ j, Present (slot hhdm r.state.mem g j) → slot hhdm r.state.mem g j &&& ~~~0xFFF = g

theorem zeroTable_log (n : ℕ) {e : Event} (he : e ∈ r.log) :
    e ∈ (Recorded.zeroTable (p + hhdm) n r).log := by
  induction n with
  | zero => exact he
  | succ n ih => exact List.mem_cons_of_mem _ ih

theorem zeroTable_obtained (n : ℕ) {q : BitVec 64}
    (h : .obtained q ∈ (Recorded.zeroTable (p + hhdm) n r).log) : .obtained q ∈ r.log := by
  induction n with
  | zero => exact h
  | succ n ih => exact ih (by simpa [Recorded.zeroTable, Recorded.write] using h)

theorem zeroTable_confined {frames : Set (BitVec 64)} (hp : Aligned p) (n : ℕ) (hn : n ≤ 512)
    (ho : .obtained p ∈ r.log) (hc : Confined hhdm frames r.log) :
    Confined hhdm frames (Recorded.zeroTable (p + hhdm) n r).log := by
  induction n with
  | zero => exact hc
  | succ n ih =>
      rw [Recorded.zeroTable, ofNat_index n (by omega)]
      exact (ih (by omega)).store hp (Or.inr (zeroTable_log n ho)) _

-- What a new table does to the record.
structure Grafted (hhdm : BitVec 64) (g : BitVec 64) (i : BitVec 9) (p : BitVec 64) (r r' : Recorded σ) :
    Prop where
  hhdmOffset : r'.state.hhdmOffset = hhdm
  made : Made hhdm r' p
  stored : .store (g + hhdm + 8 * i.setWidth 64) ∈ r'.log
  keeps : ∀ e ∈ r.log, e ∈ r'.log
  obtained : ∀ q, .obtained q ∈ r'.log → .obtained q ∈ r.log ∨ q = p
  confined : ∀ frames, Confined hhdm frames r.log → g ∈ frames ∨ .obtained g ∈ r.log →
    Confined hhdm frames r'.log

variable (alloc) in
theorem ensureTable_absent (hh : r.state.hhdmOffset = hhdm) (hg : Aligned g) (hp : Aligned p)
    (habs : ¬Present (slot hhdm r.state.mem g i)) (hcall : (alloc r.state.mem r.state.frames).1 = p)
    (hne : p ≠ 0) :
    ∃ r', Recorded.ensureTable alloc (g + hhdm) (i.setWidth 64) r = (some (p + hhdm), r') ∧
      Grafted hhdm g i p r r' := by
  subst hh
  have hread : ∀ m, readEntry m (g + r.state.hhdmOffset) (i.setWidth 64) =
      slot r.state.hhdmOffset m g i := fun _ => rfl
  rcases hc : alloc r.state.mem r.state.frames with ⟨page, m1, frames1⟩
  rw [hc] at hcall
  obtain rfl : page = p := hcall
  let s1 : State σ := { r.state with mem := m1, frames := frames1, handed := r.state.handed ++ [page] }
  have hpmm : r.state.pmmAlloc alloc = (page, s1) := by
    simp only [State.pmmAlloc, hc, s1]
  obtain ⟨r1, hr1⟩ : ∃ r1, r1 = Recorded.zeroTable (page + r.state.hhdmOffset) 512
      ⟨s1, .obtained page :: r.log⟩ := ⟨_, rfl⟩
  have halloc : r.allocPageTable alloc = (some page, r1) := by
    simp only [Recorded.allocPageTable, hpmm, if_neg hne, hr1]
    rfl
  have hstate : r1.state = { s1 with mem := zeroTable m1 (page + r.state.hhdmOffset) 512 } := by
    rw [hr1, Recorded.zeroTable_state]
  have hhdm1 : r1.state.hhdmOffset = r.state.hhdmOffset := by
    rw [hstate]
  have hbase : (page ||| ptePresent ||| pteWrite ||| pteUser) &&& ~~~0xFFF = page := tableEntry_base hp
  have hzero : ∀ j, slot r.state.hhdmOffset r1.state.mem page j = 0 := by
    intro j
    rw [hstate]
    exact (zeroTable_spec r.state.hhdmOffset m1 hp 512 le_rfl).1 j (toNat_index j).2
  have hfirst : Event.obtained page ∈ r1.log := by
    rw [hr1]
    exact zeroTable_log 512 (by simp)
  have hkeep : ∀ e ∈ r.log, e ∈ r1.log := by
    intro e he
    rw [hr1]
    exact zeroTable_log 512 (List.mem_cons_of_mem _ he)
  refine ⟨r1.write (g + r.state.hhdmOffset) (i.setWidth 64)
    (page ||| ptePresent ||| pteWrite ||| pteUser), ?_, hhdm1, ⟨?_, fun j hj => ?_⟩,
    List.mem_cons_self, fun e he => List.mem_cons_of_mem _ (hkeep e he), fun q hq => ?_,
    fun frames hconf hgood => ?_⟩
  · rw [Recorded.ensureTable, hread, if_pos (not_not.mp habs), halloc]
    simp only [Recorded.write, hread, slot_writeEntry_same, State.physToVirt, hhdm1, hbase]
  · exact List.mem_cons_of_mem _ hfirst
  · simp only [Recorded.write] at hj ⊢
    by_cases he : page = g ∧ j = i
    · obtain ⟨rfl, rfl⟩ := he
      rw [slot_writeEntry_same]
      exact hbase
    · rw [slot_writeEntry_ne hp hg he, hzero] at hj
      exact absurd (by decide) hj
  · have hq1 : .obtained q ∈ r1.log := by simpa [Recorded.write] using hq
    rw [hr1] at hq1
    have hq2 := zeroTable_obtained 512 hq1
    rcases List.mem_cons.mp hq2 with he | hrest
    · cases he
      exact Or.inr rfl
    · exact Or.inl hrest
  · have hcleared : Confined r.state.hhdmOffset frames r1.log := by
      rw [hr1]
      exact zeroTable_confined hp 512 le_rfl (by simp) hconf
    exact hcleared.store hg (hgood.imp_right (hkeep _)) i

variable (alloc) in
theorem ensureTable_null (hh : r.state.hhdmOffset = hhdm)
    (habs : ¬Present (slot hhdm r.state.mem g i)) (hcall : (alloc r.state.mem r.state.frames).1 = 0) :
    ∃ s', Recorded.ensureTable alloc (g + hhdm) (i.setWidth 64) r = (none, ⟨s', r.log⟩) := by
  subst hh
  have hread : ∀ m, readEntry m (g + r.state.hhdmOffset) (i.setWidth 64) =
      slot r.state.hhdmOffset m g i := fun _ => rfl
  have hpmm : (r.state.pmmAlloc alloc).1 = 0 := hcall
  have halloc : r.allocPageTable alloc = (none, ⟨(r.state.pmmAlloc alloc).2, r.log⟩) := by
    simp only [Recorded.allocPageTable, hpmm, if_true]
  rw [Recorded.ensureTable, hread, if_pos (not_not.mp habs), halloc]
  exact ⟨_, rfl⟩

end Steps

section Walking

variable {hhdm root g : BitVec 64} {m0 : Memory 64} {page : BitVec 36} {path : List (BitVec 9)}
variable {i : BitVec 9} {r r' : Recorded σ} {frames : Set (BitVec 64)}

-- The walk has come along `path` to a table that was there from the start; the
-- stores so far have changed flags only.
structure Found (hhdm : BitVec 64) (m0 : Memory 64) (root : BitVec 64) (path : List (BitVec 9))
    (r : Recorded σ) (g : BitVec 64) : Prop where
  table : codeTable hhdm m0 root path = some g
  same : ∀ h j, Aligned h →
    codeChild (slot hhdm r.state.mem h j) = codeChild (slot hhdm m0 h j)

theorem Found.present (h : Found hhdm m0 root path r g) (hg : Aligned g) {f : BitVec 64}
    (hf : codeTable hhdm m0 root (path ++ [i]) = some f) :
    Present (slot hhdm r.state.mem g i) ∧ slot hhdm r.state.mem g i &&& ~~~0xFFF = f := by
  have hparent : lookup codeChild (slot hhdm m0) root path = some g := h.table
  rw [codeTable, lookup_snoc, hparent, Option.bind_some, ← h.same g i hg, codeChild] at hf
  split at hf
  · exact ⟨‹_›, Option.some.inj hf⟩
  · cases hf

-- A step over an entry that was present.
theorem Found.step (h : Found hhdm m0 root path r g) (hg : Aligned g)
    (hpres : Present (slot hhdm r.state.mem g i)) :
    Found hhdm m0 root (path ++ [i])
      (r.write (g + hhdm) (i.setWidth 64) (slot hhdm r.state.mem g i ||| (pteUser ||| pteWrite)))
      (slot hhdm r.state.mem g i &&& ~~~0xFFF) := by
  have hparent : lookup codeChild (slot hhdm m0) root path = some g := h.table
  refine ⟨?_, fun f j hf => ?_⟩
  · rw [codeTable, lookup_snoc, hparent, Option.bind_some, ← h.same g i hg, codeChild, if_pos hpres]
  · simp only [Recorded.write]
    by_cases he : f = g ∧ j = i
    · obtain ⟨rfl, rfl⟩ := he
      rw [slot_writeEntry_same, codeChild_or_flags, h.same f j hf]
    · rw [slot_writeEntry_ne hf hg he, h.same f j hf]

-- Where a walk that stores to good frames only can be.
structure Stage (hhdm : BitVec 64) (m0 : Memory 64) (root : BitVec 64) (frames : Set (BitVec 64))
    (path : List (BitVec 9)) (r : Recorded σ) (g : BitVec 64) : Prop where
  hhdmOffset : r.state.hhdmOffset = hhdm
  aligned : Aligned g
  confined : Confined hhdm frames r.log
  place : Found hhdm m0 root path r g ∨ Made hhdm r g

theorem Stage.good (h : Stage hhdm m0 root frames path r g)
    (hvisit : ∀ f, codeTable hhdm m0 root path = some f → f ∈ frames) :
    g ∈ frames ∨ .obtained g ∈ r.log :=
  h.place.imp (fun hf => hvisit g hf.table) (fun hm => hm.1)

theorem Stage.step (hal : ∀ m fr, Aligned (alloc m fr).1) (h : Stage hhdm m0 root frames path r g)
    (hvisit : ∀ f, codeTable hhdm m0 root path = some f → f ∈ frames) {run : Option (BitVec 64) × Recorded σ}
    (he : Recorded.ensureTable alloc (g + hhdm) (i.setWidth 64) r = run) :
    Confined hhdm frames run.2.log ∧
      ∀ q, run.1 = some q → ∃ g', q = g' + hhdm ∧ Stage hhdm m0 root frames (path ++ [i]) run.2 g' := by
  have hgood := h.good hvisit
  by_cases hpres : Present (slot hhdm r.state.mem g i)
  · rw [ensureTable_present h.hhdmOffset hpres] at he
    subst he
    have hconf := h.confined.store h.aligned hgood i
    refine ⟨hconf, fun q hq => ⟨_, (Option.some.inj hq).symm, h.hhdmOffset, aligned_and_not_low _,
      hconf, ?_⟩⟩
    rcases h.place with hfound | ⟨ho, hself⟩
    · exact Or.inl (hfound.step h.aligned hpres)
    · -- the entry names the new table itself
      rw [hself i hpres]
      refine Or.inr ⟨List.mem_cons_of_mem _ ho, fun j hj => ?_⟩
      simp only [Recorded.write] at hj ⊢
      by_cases hij : j = i
      · subst hij
        rw [slot_writeEntry_same, or_and_of_zero (by decide)]
        exact hself j hpres
      · rw [slot_writeEntry_ne h.aligned h.aligned (fun hne => hij hne.2)] at hj ⊢
        exact hself j hj
  · by_cases hnull : (alloc r.state.mem r.state.frames).1 = 0
    · obtain ⟨s', hs'⟩ := ensureTable_null alloc h.hhdmOffset hpres hnull
      rw [hs'] at he
      subst he
      exact ⟨h.confined, fun q hq => by cases hq⟩
    · have hp := hal r.state.mem r.state.frames
      obtain ⟨r', hr', hgraft⟩ := ensureTable_absent alloc h.hhdmOffset h.aligned hp hpres rfl hnull
      rw [hr'] at he
      subst he
      have hconf := hgraft.confined frames h.confined hgood
      exact ⟨hconf, fun q hq => ⟨_, (Option.some.inj hq).symm, hgraft.hhdmOffset, hp, hconf,
        Or.inr hgraft.made⟩⟩

-- The tables of the tree: what the processor can reach from the root.
abbrev treeTables (hhdm : BitVec 64) (m : Memory 64) (root : BitVec 64) : Set (BitVec 64) :=
  tables everywhere hhdm m root

-- If vmm_map_page finds only tables of the tree on its way, it stores to these
-- and to frames that it has obtained.
theorem vmmMapPage_confined (hal : ∀ m fr, Aligned (alloc m fr).1) {s : State σ} (hroot : Aligned root)
    (hpml4 : s.pml4 = root + s.hhdmOffset) {virt : BitVec 64}
    (hvisit : ∀ f, Visits s.hhdmOffset s.mem root (pageNumber virt) f →
      f ∈ treeTables s.hhdmOffset s.mem root) (phys flags : BitVec 64) :
    Confined s.hhdmOffset (treeTables s.hhdmOffset s.mem root)
      (Recorded.vmmMapPage alloc virt phys flags ⟨s, []⟩).2.log := by
  have hgood : ∀ path, path <+: tablePath (pageNumber virt) →
      ∀ f, codeTable s.hhdmOffset s.mem root path = some f → f ∈ treeTables s.hhdmOffset s.mem root := by
    intro path hpre f hf
    by_cases hnil : path = []
    · subst hnil
      exact ⟨[], ⟨by simp, by simp⟩, hf⟩
    · exact hvisit f ⟨path, hnil, hpre, hf⟩
  have h0 : Stage s.hhdmOffset s.mem root (treeTables s.hhdmOffset s.mem root) [] ⟨s, []⟩ root :=
    ⟨rfl, hroot, trivial, Or.inl ⟨rfl, fun _ _ _ => rfl⟩⟩
  rw [Recorded.vmmMapPage, pml4Index_eq, hpml4, pdptIndex_eq, pdIndex_eq, ptIndex_eq]
  rcases e1 : Recorded.ensureTable alloc (root + s.hhdmOffset)
    (((pageNumber virt).extractLsb' 27 9).setWidth 64) ⟨s, []⟩ with ⟨_ | q1, r1⟩
  · exact (h0.step hal (hgood _ List.nil_prefix) e1).1
  · obtain ⟨g1, rfl, h1⟩ := (h0.step hal (hgood _ List.nil_prefix) e1).2 q1 rfl
    have hpre1 : [] ++ [(pageNumber virt).extractLsb' 27 9] <+: tablePath (pageNumber virt) := ⟨_, rfl⟩
    simp only
    rcases e2 : Recorded.ensureTable alloc (g1 + s.hhdmOffset)
      (((pageNumber virt).extractLsb' 18 9).setWidth 64) r1 with ⟨_ | q2, r2⟩
    · exact (h1.step hal (hgood _ hpre1) e2).1
    · obtain ⟨g2, rfl, h2⟩ := (h1.step hal (hgood _ hpre1) e2).2 q2 rfl
      have hpre2 : [] ++ [(pageNumber virt).extractLsb' 27 9] ++ [(pageNumber virt).extractLsb' 18 9] <+:
          tablePath (pageNumber virt) := ⟨_, rfl⟩
      simp only
      rcases e3 : Recorded.ensureTable alloc (g2 + s.hhdmOffset)
        (((pageNumber virt).extractLsb' 9 9).setWidth 64) r2 with ⟨_ | q3, r3⟩
      · exact (h2.step hal (hgood _ hpre2) e3).1
      · obtain ⟨g3, rfl, h3⟩ := (h2.step hal (hgood _ hpre2) e3).2 q3 rfl
        exact h3.confined.store h3.aligned (h3.good (hgood _ (List.prefix_refl _))) _

-- An allocator that always returns the frame c.
def sameFrame (c : BitVec 64) (m : Memory 64) (frames : σ) : BitVec 64 × Memory 64 × σ := (c, m, frames)

theorem sameFrame_aligned {c : BitVec 64} (hc : Aligned c) (m : Memory 64) (frames : σ) :
    Aligned (sameFrame c m frames).1 := hc

-- A step with that allocator, from the table g to the table g'.
structure Stepped (c : BitVec 64) (hhdm : BitVec 64) (m0 : Memory 64) (root : BitVec 64)
    (path : List (BitVec 9)) (i : BitVec 9) (g g' : BitVec 64) (r r' : Recorded σ) : Prop where
  aligned : Aligned g'
  hhdmOffset : r'.state.hhdmOffset = hhdm
  stored : .store (g + hhdm + 8 * i.setWidth 64) ∈ r'.log
  keeps : ∀ e ∈ r.log, e ∈ r'.log
  obtained : ∀ p, .obtained p ∈ r'.log → .obtained p ∈ r.log ∨ p = c
  found : ∀ f, Found hhdm m0 root path r g → codeTable hhdm m0 root (path ++ [i]) = some f →
    g' = f ∧ Found hhdm m0 root (path ++ [i]) r' g'

variable (m0 root path i) in
theorem ensureTable_sameFrame {c : BitVec 64} (hc : Aligned c) (hne : c ≠ 0)
    (hh : r.state.hhdmOffset = hhdm) (hg : Aligned g) :
    ∃ g' r', Recorded.ensureTable (sameFrame c) (g + hhdm) (i.setWidth 64) r = (some (g' + hhdm), r') ∧
      Stepped c hhdm m0 root path i g g' r r' := by
  by_cases hpres : Present (slot hhdm r.state.mem g i)
  · refine ⟨_, _, ensureTable_present hh hpres, aligned_and_not_low _, hh, List.mem_cons_self,
      fun e he => List.mem_cons_of_mem _ he, fun p hp => Or.inl (by simpa [Recorded.write] using hp), ?_⟩
    intro f hfound hf
    obtain ⟨-, rfl⟩ := hfound.present hg hf
    exact ⟨rfl, hfound.step hg hpres⟩
  · obtain ⟨r', hr', hgraft⟩ := ensureTable_absent (sameFrame c) hh hg hc hpres rfl hne
    refine ⟨c, r', hr', hc, hgraft.hhdmOffset, hgraft.stored, hgraft.keeps, hgraft.obtained, ?_⟩
    intro f hfound hf
    exact absurd (hfound.present hg hf).1 hpres

theorem not_confined_of_store {f c : BitVec 64} {log : List Event}
    (hobt : ∀ p, .obtained p ∈ log → p = c) (hf : Aligned f) (hout : f ∉ frames) (hne : f ≠ c)
    (hs : ∃ i : BitVec 9, .store (f + hhdm + 8 * i.setWidth 64) ∈ log) : ¬Confined hhdm frames log := by
  intro h
  obtain ⟨i, hs⟩ := hs
  rcases h.mem hs with hin | ho
  · rw [storeFrame_entry hf] at hin
    exact hout hin
  · rw [storeFrame_entry hf] at ho
    exact hne (hobt f ho)

theorem prefix_of_three {α : Type*} {a b c : α} {path : List α} (hnil : path ≠ [])
    (hpre : path <+: [a, b, c]) : path = [a] ∨ path = [a, b] ∨ path = [a, b, c] := by
  match path, hnil with
  | x :: rest, _ =>
      obtain ⟨rfl, hrest⟩ := List.cons_prefix_cons.mp hpre
      match rest with
      | [] => exact Or.inl rfl
      | y :: more =>
          obtain ⟨rfl, hmore⟩ := List.cons_prefix_cons.mp hrest
          match more with
          | [] => exact Or.inr (Or.inl rfl)
          | z :: last =>
              obtain ⟨rfl, hlast⟩ := List.cons_prefix_cons.mp hmore
              rw [List.prefix_nil.mp hlast]
              exact Or.inr (Or.inr rfl)

-- If it comes to another frame it stores there, and an allocator that returns
-- other frames has not returned that one.
theorem vmmMapPage_strays {s : State σ} (hroot : Aligned root) (hpml4 : s.pml4 = root + s.hhdmOffset)
    {virt f c : BitVec 64} (hvisit : Visits s.hhdmOffset s.mem root (pageNumber virt) f)
    (hout : f ∉ frames) (hc : Aligned c) (hzero : c ≠ 0) (hne : f ≠ c) (phys flags : BitVec 64) :
    ¬Confined s.hhdmOffset frames
      (Recorded.vmmMapPage (sameFrame c) virt phys flags ⟨s, []⟩).2.log := by
  have hal := hvisit.aligned
  obtain ⟨path, hnil, hpre, hf⟩ := hvisit
  have h0 : Found s.hhdmOffset s.mem root [] ⟨s, []⟩ root := ⟨rfl, fun _ _ _ => rfl⟩
  have hnone : ∀ p, Event.obtained p ∈ (Recorded.log (⟨s, []⟩ : Recorded σ)) → p = c := by
    intro p hp
    cases hp
  rw [Recorded.vmmMapPage, pml4Index_eq, hpml4, pdptIndex_eq, pdIndex_eq, ptIndex_eq]
  obtain ⟨g1, r1, e1, h1⟩ := ensureTable_sameFrame root s.mem [] ((pageNumber virt).extractLsb' 27 9)
    hc hzero (rfl : (⟨s, []⟩ : Recorded σ).state.hhdmOffset = s.hhdmOffset) hroot
  rw [e1]
  simp only
  obtain ⟨g2, r2, e2, h2⟩ := ensureTable_sameFrame root s.mem [(pageNumber virt).extractLsb' 27 9]
    ((pageNumber virt).extractLsb' 18 9) hc hzero h1.hhdmOffset h1.aligned
  rw [e2]
  simp only
  obtain ⟨g3, r3, e3, h3⟩ := ensureTable_sameFrame root s.mem
    [(pageNumber virt).extractLsb' 27 9, (pageNumber virt).extractLsb' 18 9]
    ((pageNumber virt).extractLsb' 9 9) hc hzero h2.hhdmOffset h2.aligned
  rw [e3]
  have n1 : ∀ p, .obtained p ∈ r1.log → p = c := fun p hp => (h1.obtained p hp).elim (hnone p) id
  have n2 : ∀ p, .obtained p ∈ r2.log → p = c := fun p hp => (h2.obtained p hp).elim (n1 p) id
  have n3 : ∀ p, .obtained p ∈ r3.log → p = c := fun p hp => (h3.obtained p hp).elim (n2 p) id
  refine not_confined_of_store (fun p hp => n3 p (by simpa [Recorded.write] using hp)) hal hout hne ?_
  have hinit : ∀ path (i : BitVec 9) f, codeTable s.hhdmOffset s.mem root (path ++ [i]) = some f →
      ∃ t, codeTable s.hhdmOffset s.mem root path = some t := by
    intro path i f hf
    rw [codeTable, lookup_snoc] at hf
    obtain ⟨t, ht, -⟩ := Option.bind_eq_some_iff.mp hf
    exact ⟨t, ht⟩
  -- the stray table is the one below the root, the next or the last
  rcases prefix_of_three hnil hpre with rfl | rfl | rfl
  · obtain ⟨rfl, -⟩ := h1.found f h0 hf
    exact ⟨_, List.mem_cons_of_mem _ (h3.keeps _ h2.stored)⟩
  · obtain ⟨t1, ht1⟩ := hinit [_] _ f hf
    obtain ⟨-, f1⟩ := h1.found t1 h0 ht1
    obtain ⟨rfl, -⟩ := h2.found f f1 hf
    exact ⟨_, List.mem_cons_of_mem _ h3.stored⟩
  · obtain ⟨t2, ht2⟩ := hinit [_, _] _ f hf
    obtain ⟨t1, ht1⟩ := hinit [_] _ t2 ht2
    obtain ⟨-, f1⟩ := h1.found t1 h0 ht1
    obtain ⟨-, f2⟩ := h2.found t2 f1 ht2
    obtain ⟨rfl, -⟩ := h3.found f f2 hf
    exact ⟨_, List.mem_cons_self⟩

end Walking

end Miyabi.Mm.Vmm
