import Miyabi.Mm.Vmm.Writes

namespace Miyabi.Mm.Vmm

open Miyabi.Base Miyabi.Base.Memory Miyabi.Base.TableTree

variable {σ : Type}

-- A store of vmm.c, by its address, or a frame that pmm_alloc has returned.
inductive Event where
  | store (addr : BitVec 64)
  | obtained (page : BitVec 64)

-- A state with the events so far, the last one first.
structure Recorded (σ : Type) where
  state : State σ
  log : List Event

namespace Recorded

def write (r : Recorded σ) (table index value : BitVec 64) : Recorded σ :=
  ⟨{ r.state with mem := writeEntry r.state.mem table index value },
    .store (table + 8 * index) :: r.log⟩

-- The functions of vmm.c with their events. A run that halts keeps those it had.
def zeroTable (pt : BitVec 64) : ℕ → Recorded σ → Recorded σ
  | 0, r => r
  | n + 1, r => (zeroTable pt n r).write pt (BitVec.ofNat 64 n) 0

section Allocating

variable (alloc : Memory 64 → σ → BitVec 64 × Memory 64 × σ)

def allocPageTable (r : Recorded σ) : Option (BitVec 64) × Recorded σ :=
  let (page, s) := r.state.pmmAlloc alloc
  if page = 0 then (none, ⟨s, r.log⟩)
  else (some page, zeroTable (s.physToVirt page) 512 ⟨s, .obtained page :: r.log⟩)

def ensureTable (table index : BitVec 64) (r : Recorded σ) : Option (BitVec 64) × Recorded σ :=
  if readEntry r.state.mem table index &&& ptePresent = 0 then
    match r.allocPageTable alloc with
    | (none, r) => (none, r)
    | (some newTable, r) =>
        let r := r.write table index (newTable ||| ptePresent ||| pteWrite ||| pteUser)
        (some (r.state.physToVirt (readEntry r.state.mem table index &&& ~~~0xFFF)), r)
  else
    let r := r.write table index (readEntry r.state.mem table index ||| (pteUser ||| pteWrite))
    (some (r.state.physToVirt (readEntry r.state.mem table index &&& ~~~0xFFF)), r)

def vmmMapPage (virt phys flags : BitVec 64) (r : Recorded σ) : Option Unit × Recorded σ :=
  match ensureTable alloc r.state.pml4 (pml4Index virt) r with
  | (none, r) => (none, r)
  | (some pdpt, r) =>
      match ensureTable alloc pdpt (pdptIndex virt) r with
      | (none, r) => (none, r)
      | (some pd, r) =>
          match ensureTable alloc pd (pdIndex virt) r with
          | (none, r) => (none, r)
          | (some pt, r) =>
              (some (), r.write pt (ptIndex virt) ((phys &&& ~~~0xFFF) ||| flags ||| ptePresent))

end Allocating

def vmmUnmapPage (virt : BitVec 64) (r : Recorded σ) : Recorded σ :=
  let s := r.state
  let pdpt := s.physToVirt (readEntry s.mem s.pml4 (pml4Index virt) &&& ~~~0xFFF)
  if pdpt = 0 then r
  else
    let pd := s.physToVirt (readEntry s.mem pdpt (pdptIndex virt) &&& ~~~0xFFF)
    if pd = 0 then r
    else
      let pt := s.physToVirt (readEntry s.mem pd (pdIndex virt) &&& ~~~0xFFF)
      if pt = 0 then r else r.write pt (ptIndex virt) 0

section Erase

variable (alloc : Memory 64 → σ → BitVec 64 × Memory 64 × σ)

theorem zeroTable_state (pt : BitVec 64) (n : ℕ) (r : Recorded σ) :
    (zeroTable pt n r).state = { r.state with mem := Vmm.zeroTable r.state.mem pt n } := by
  induction n with
  | zero => rfl
  | succ n ih => simp only [zeroTable, write, ih, Vmm.zeroTable]

-- What a run leaves, or none if it halts.
def result {α : Type} (run : Option α × Recorded σ) : Option (α × State σ) :=
  run.1.map (fun a => (a, run.2.state))

theorem allocPageTable_state (r : Recorded σ) :
    result (r.allocPageTable alloc) = Vmm.allocPageTable alloc r.state := by
  simp only [allocPageTable, Vmm.allocPageTable]
  by_cases hp : (r.state.pmmAlloc alloc).1 = 0
  · simp only [hp, if_true]
    rfl
  · simp only [hp, if_false, result, zeroTable_state, Option.map_some]

theorem ensureTable_state (table index : BitVec 64) (r : Recorded σ) :
    result (ensureTable alloc table index r) = Vmm.ensureTable alloc table index r.state := by
  have ha := allocPageTable_state alloc r
  simp only [ensureTable, Vmm.ensureTable]
  by_cases habs : readEntry r.state.mem table index &&& ptePresent = 0
  · simp only [habs, if_true, ← ha]
    rcases r.allocPageTable alloc with ⟨_ | page, r'⟩
    · rfl
    · rfl
  · simp only [habs, if_false]
    rfl

-- Without the events these are the functions of vmm.c.
theorem vmmMapPage_state (virt phys flags : BitVec 64) (r : Recorded σ) :
    (result (vmmMapPage alloc virt phys flags r)).map Prod.snd =
      Vmm.vmmMapPage alloc virt phys flags r.state := by
  have h1 := ensureTable_state alloc r.state.pml4 (pml4Index virt) r
  simp only [vmmMapPage, Vmm.vmmMapPage, ← h1]
  rcases ensureTable alloc r.state.pml4 (pml4Index virt) r with ⟨_ | pdpt, r1⟩
  · rfl
  · have h2 := ensureTable_state alloc pdpt (pdptIndex virt) r1
    simp only [result, Option.map_some] at h2 ⊢
    simp only [← h2]
    rcases ensureTable alloc pdpt (pdptIndex virt) r1 with ⟨_ | pd, r2⟩
    · rfl
    · have h3 := ensureTable_state alloc pd (pdIndex virt) r2
      simp only [result, Option.map_some] at h3 ⊢
      simp only [← h3]
      rcases ensureTable alloc pd (pdIndex virt) r2 with ⟨_ | pt, r3⟩
      · rfl
      · rfl

theorem vmmUnmapPage_state (virt : BitVec 64) (r : Recorded σ) :
    (vmmUnmapPage virt r).state = Vmm.vmmUnmapPage virt r.state := by
  simp only [vmmUnmapPage, Vmm.vmmUnmapPage]
  split
  · rfl
  · split
    · rfl
    · split
      · rfl
      · rfl

end Erase

section Rule

variable {alloc : Memory 64 → σ → BitVec 64 × Memory 64 × σ}

-- What holds of each store and of each call of alloc_page_table holds of vmm_map_page.
-- The second argument of T says whether the run goes on.
theorem vmmMapPage_rule {T : Recorded σ → Bool → Recorded σ → Prop}
    (hwrite : ∀ r table index value, T r true (r.write table index value))
    (halloc : ∀ r : Recorded σ, T r (r.allocPageTable alloc).1.isSome (r.allocPageTable alloc).2)
    (htrans : ∀ r r1 r2 b, T r true r1 → T r1 b r2 → T r b r2)
    (virt phys flags : BitVec 64) (r : Recorded σ) :
    T r (vmmMapPage alloc virt phys flags r).1.isSome (vmmMapPage alloc virt phys flags r).2 := by
  have hensure : ∀ (table index : BitVec 64) (r : Recorded σ),
      T r (ensureTable alloc table index r).1.isSome (ensureTable alloc table index r).2 := by
    intro table index r
    have h := halloc r
    unfold ensureTable
    by_cases habs : readEntry r.state.mem table index &&& ptePresent = 0
    · simp only [habs, if_true]
      generalize r.allocPageTable alloc = run at h ⊢
      rcases run with ⟨_ | page, r1⟩
      · exact h
      · exact htrans r r1 _ true h (hwrite r1 _ _ _)
    · simp only [habs, if_false]
      exact hwrite r _ _ _
  have h1 := hensure r.state.pml4 (pml4Index virt) r
  unfold vmmMapPage
  generalize ensureTable alloc r.state.pml4 (pml4Index virt) r = run1 at h1 ⊢
  rcases run1 with ⟨_ | pdpt, r1⟩
  · exact h1
  · have h2 := htrans r r1 _ _ h1 (hensure pdpt (pdptIndex virt) r1)
    dsimp only
    generalize ensureTable alloc pdpt (pdptIndex virt) r1 = run2 at h2 ⊢
    rcases run2 with ⟨_ | pd, r2⟩
    · exact h2
    · have h3 := htrans r r2 _ _ h2 (hensure pd (pdIndex virt) r2)
      dsimp only
      generalize ensureTable alloc pd (pdIndex virt) r2 = run3 at h3 ⊢
      rcases run3 with ⟨_ | pt, r3⟩
      · exact h3
      · exact htrans r r3 _ true h3 (hwrite r3 _ _ _)

-- The events that are new, and where the memory has changed: at the stores and, by
-- pmm_alloc itself, inside R.
structure Added (R : Set (BitVec 64)) (r r' : Recorded σ) (new : List Event) : Prop where
  log : r'.log = new ++ r.log
  hhdm : r'.state.hhdmOffset = r.state.hhdmOffset
  obtained : ∀ p, .obtained p ∈ new → p ≠ 0
  kept : ∀ x, x ∉ R → (∀ a, .store a ∈ new → ¬InRange a 8 x) → r'.state.mem x = r.state.mem x

variable {R : Set (BitVec 64)} {r r1 r2 : Recorded σ} {new new' : List Event}

theorem Added.trans (h : Added R r r1 new) (h' : Added R r1 r2 new') :
    Added R r r2 (new' ++ new) := by
  refine ⟨by rw [h'.log, h.log, List.append_assoc], h'.hhdm.trans h.hhdm, ?_, ?_⟩
  · intro p hp
    rcases List.mem_append.mp hp with hp | hp
    · exact h'.obtained p hp
    · exact h.obtained p hp
  · intro x hx hstores
    rw [h'.kept x hx (fun a ha => hstores a (List.mem_append_left _ ha)),
      h.kept x hx (fun a ha => hstores a (List.mem_append_right _ ha))]

theorem write_added (table index value : BitVec 64) :
    Added R r (r.write table index value) [.store (table + 8 * index)] := by
  refine ⟨rfl, rfl, fun p hp => by simp at hp, fun x _ hx => ?_⟩
  exact store_of_not_inRange _ _ x _ (hx _ (List.mem_singleton_self _))

theorem zeroTable_added (pt : BitVec 64) (n : ℕ) : ∃ new, Added R r (zeroTable pt n r) new := by
  induction n with
  | zero => exact ⟨[], rfl, rfl, fun p hp => by simp at hp, fun x _ _ => rfl⟩
  | succ n ih =>
      obtain ⟨new, hnew⟩ := ih
      exact ⟨_, hnew.trans (write_added pt (BitVec.ofNat 64 n) 0)⟩

theorem allocPageTable_added (hfoot : Footprint alloc R) :
    ∃ new, Added R r (r.allocPageTable alloc).2 new := by
  have hcall : ∀ x, x ∉ R → (r.state.pmmAlloc alloc).2.mem x = r.state.mem x :=
    fun x hx => hfoot r.state.mem r.state.frames x hx
  simp only [allocPageTable]
  by_cases hp : (r.state.pmmAlloc alloc).1 = 0
  · simp only [hp, if_true]
    exact ⟨[], rfl, rfl, fun p hp => by simp at hp, fun x hx _ => hcall x hx⟩
  · simp only [hp, if_false]
    have hpage : Added R r ⟨(r.state.pmmAlloc alloc).2,
        .obtained (r.state.pmmAlloc alloc).1 :: r.log⟩ [.obtained (r.state.pmmAlloc alloc).1] := by
      refine ⟨rfl, rfl, fun p hin => ?_, fun x hx _ => hcall x hx⟩
      rw [List.mem_singleton, Event.obtained.injEq] at hin
      rwa [hin]
    obtain ⟨new, hnew⟩ := zeroTable_added _ 512
    exact ⟨_, hpage.trans hnew⟩

theorem vmmMapPage_added (hfoot : Footprint alloc R) (virt phys flags : BitVec 64) (r : Recorded σ) :
    ∃ new, Added R r (vmmMapPage alloc virt phys flags r).2 new := by
  refine vmmMapPage_rule (T := fun r _ r' => ∃ new, Added R r r' new) ?_ ?_ ?_ virt phys flags r
  · exact fun r table index value => ⟨_, write_added table index value⟩
  · exact fun r => allocPageTable_added hfoot
  · exact fun r r1 r2 _ ⟨_, h⟩ ⟨_, h'⟩ => ⟨_, h.trans h'⟩

end Rule

end Recorded

-- The frame that an address of the direct map belongs to.
def storeFrame (hhdm addr : BitVec 64) : BitVec 64 := (addr - hhdm) &&& ~~~0xFFF

-- Every store goes to one of the frames, or to one obtained before it.
def Confined (hhdm : BitVec 64) (frames : Set (BitVec 64)) : List Event → Prop
  | [] => True
  | .obtained _ :: log => Confined hhdm frames log
  | .store addr :: log =>
      (storeFrame hhdm addr ∈ frames ∨ .obtained (storeFrame hhdm addr) ∈ log) ∧
        Confined hhdm frames log

section Confinement

variable {hhdm f : BitVec 64} {frames : Set (BitVec 64)} {log : List Event}

theorem storeFrame_entry (hf : Aligned f) (i : BitVec 9) :
    storeFrame hhdm (f + hhdm + 8 * i.setWidth 64) = f := by
  obtain ⟨hi, hlt⟩ := toNat_index i
  have hsub : f + hhdm + 8 * i.setWidth 64 - hhdm = f + 8 * i.setWidth 64 := by ring
  have hnat : (f + 8 * i.setWidth 64).toNat = f.toNat + 8 * i.toNat := by
    simp only [Aligned] at hf
    rw [← hi]
    rw [← hi] at hlt
    bv_omega
  apply BitVec.eq_of_toNat_eq
  rw [storeFrame, hsub, Word.toNat_and_not_mask _ 0xFFF 12 (by decide), hnat]
  simp only [Aligned] at hf
  omega

theorem Confined.store (h : Confined hhdm frames log) (hf : Aligned f)
    (hgood : f ∈ frames ∨ .obtained f ∈ log) (i : BitVec 9) :
    Confined hhdm frames (.store (f + hhdm + 8 * i.setWidth 64) :: log) := by
  refine ⟨?_, h⟩
  rw [storeFrame_entry hf]
  exact hgood

theorem Confined.mem {addr : BitVec 64} (h : Confined hhdm frames log) (hm : .store addr ∈ log) :
    storeFrame hhdm addr ∈ frames ∨ .obtained (storeFrame hhdm addr) ∈ log := by
  induction log with
  | nil => cases hm
  | cons e log ih =>
      cases e with
      | obtained page =>
          rcases ih h (by simpa using hm) with hf | ho
          · exact Or.inl hf
          · exact Or.inr (List.mem_cons_of_mem _ ho)
      | store a =>
          rcases List.mem_cons.mp hm with he | hrest
          · cases he
            exact h.1.imp_right (List.mem_cons_of_mem _)
          · exact (ih h.2 hrest).imp_right (List.mem_cons_of_mem _)

end Confinement

end Miyabi.Mm.Vmm
