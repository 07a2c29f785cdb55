import Mathlib.Data.List.GetD
import Miyabi.Fs.Node
import Miyabi.Mm.Heap.Fresh

namespace Miyabi.Fs

open Miyabi.Base.Transition Miyabi.Mm.Heap

-- sizeof(vfs_node_t)
def vfsNodeSize : BitVec 64 := 216

-- What the heap returns to a run of requests, up to the one that halts for lack of frames.
def answers : List (BitVec 64) → System → List (BitVec 64)
  | [], _ => []
  | size :: rest, s =>
      match kmalloc size s.heap with
      | none => []
      | some (p, heap) =>
          p :: answers rest ⟨heap, if p = 0 then s.live else ⟨p, size⟩ :: s.live⟩

-- What the n-th call of kmalloc returns, where the answers start after `made` calls.
def blocksFrom (made : ℕ) (given : List (BitVec 64)) (n : ℕ) : BitVec 64 :=
  if n < made then 0 else given.getD (n - made) 0

section Answers

variable {s s' : System} {bs : List Block} {size p : BitVec 64} {sizes : List (BitVec 64)}

theorem answers_none (h : s.kmalloc size = none) : answers (size :: sizes) s = [] := by
  unfold System.kmalloc at h
  rw [answers]
  split at h
  · simp only [*]
  · cases h

theorem answers_some (h : s.kmalloc size = some (p, s')) :
    answers (size :: sizes) s = p :: answers sizes s' := by
  unfold System.kmalloc at h
  rw [answers]
  split at h
  · cases h
  · obtain ⟨rfl, rfl⟩ := Prod.mk.inj (Option.some.inj h)
    simp only [*]

-- The blocks that a client holds are not given out again.
theorem answers_distinct : ∀ {s : System} {bs : List Block}, Mm.Heap.Tidy s bs →
    PermittedRun System.step Permitted s (sizes.map .kmalloc) →
      (∀ p ∈ answers sizes s, p ≠ 0 → p ∉ s.live.map Alloc.ptr) ∧
        (answers sizes s).Pairwise fun p q => p ≠ 0 → p ≠ q := by
  induction sizes with
  | nil =>
    intro s bs _ _
    refine ⟨fun p hp => ?_, List.Pairwise.nil⟩
    cases hp
  | cons size rest ih =>
    intro s bs h hrun
    obtain ⟨hpermitted, hrest⟩ := hrun
    cases hmalloc : s.kmalloc size with
    | none =>
      rw [answers_none hmalloc]
      refine ⟨fun p hp => ?_, List.Pairwise.nil⟩
      cases hp
    | some answer =>
      obtain ⟨p, s'⟩ := answer
      have hstep := System.kmalloc_step hmalloc
      obtain ⟨bs', h'⟩ := kmalloc_tidy h size hpermitted hstep
      obtain ⟨hnew, hpairs⟩ := ih h' (hrest s' hstep)
      have hlive := System.kmalloc_live hmalloc
      have hnodup := h'.nodup
      rw [answers_some hmalloc]
      by_cases hp : p = 0
      · rw [if_pos hp] at hlive
        rw [hlive] at hnew
        refine ⟨?_, List.pairwise_cons.mpr ⟨fun q _ hne => absurd hp hne, hpairs⟩⟩
        intro q hq hne
        rcases List.mem_cons.mp hq with rfl | hq
        · exact absurd hp hne
        · exact hnew q hq hne
      · rw [if_neg hp] at hlive
        rw [hlive, List.map_cons] at hnew hnodup
        refine ⟨?_, List.pairwise_cons.mpr ⟨?_, hpairs⟩⟩
        · intro q hq hne
          rcases List.mem_cons.mp hq with rfl | hq
          · exact (List.nodup_cons.mp hnodup).1
          · exact fun hmem => hnew q hq hne (List.mem_cons_of_mem _ hmem)
        · rintro q hq hne rfl
          exact hnew p hq hne List.mem_cons_self

-- A request of some bytes is not answered by NULL.
theorem answers_ne_zero : ∀ {s : System} {bs : List Block}, Mm.Heap.Tidy s bs →
    PermittedRun System.step Permitted s (sizes.map .kmalloc) → (∀ size ∈ sizes, size ≠ 0) →
      ∀ p ∈ answers sizes s, p ≠ 0 := by
  induction sizes with
  | nil =>
    intro s bs _ _ _ p hp
    cases hp
  | cons size rest ih =>
    intro s bs h hrun hsizes q hq
    obtain ⟨hpermitted, hrest⟩ := hrun
    obtain ⟨hsize, hsizes⟩ := List.forall_mem_cons.mp hsizes
    cases hmalloc : s.kmalloc size with
    | none =>
      rw [answers_none hmalloc] at hq
      cases hq
    | some answer =>
      obtain ⟨p, s'⟩ := answer
      have hstep := System.kmalloc_step hmalloc
      obtain ⟨bs', h'⟩ := kmalloc_tidy h size hpermitted hstep
      rw [answers_some hmalloc] at hq
      rcases List.mem_cons.mp hq with rfl | hq
      · rintro rfl
        exact hsize (h.kmalloc_null hmalloc).1
      · exact ih h' (hrest s' hstep) hsizes q hq

-- The blocks that kmalloc returns to any run of permitted requests, from any
-- state of the heap in order, are fresh.
theorem heap_blocks_fresh (h : Mm.Heap.Tidy s bs)
    (hrun : PermittedRun System.step Permitted s (sizes.map .kmalloc)) (made : ℕ) :
    State.Fresh (blocksFrom made (answers sizes s)) := by
  obtain ⟨-, hpairs⟩ := answers_distinct h hrun
  have hlt : ∀ i j, i < j → (answers sizes s).getD i 0 ≠ 0 →
      (answers sizes s).getD i 0 ≠ (answers sizes s).getD j 0 := by
    intro i j hij hne heq
    have hi : i < (answers sizes s).length := by
      by_contra hout
      exact hne (List.getD_eq_default _ _ (by omega))
    have hj : j < (answers sizes s).length := by
      by_contra hout
      rw [heq] at hne
      exact hne (List.getD_eq_default _ _ (by omega))
    rw [List.getD_eq_getElem _ _ hi] at heq hne
    rw [List.getD_eq_getElem _ _ hj] at heq
    exact List.pairwise_iff_getElem.mp hpairs i j hi hj hij hne heq
  intro i j hne heq
  by_cases hi : i < made
  · rw [blocksFrom, if_pos hi] at hne
    exact absurd rfl hne
  by_cases hj : j < made
  · rw [heq, blocksFrom, if_pos hj] at hne
    exact absurd rfl hne
  rw [blocksFrom, if_neg hi] at hne heq
  rw [blocksFrom, if_neg hj] at heq
  rcases Nat.lt_trichotomy i j with hij | hij | hij
  · exact absurd heq (hlt (i - made) (j - made) (by omega) hne)
  · exact hij
  · exact absurd heq.symm (hlt (j - made) (i - made) (by omega) fun hzero => hne (heq.trans hzero))

end Answers

theorem blocksFrom_ne_zero {made i : ℕ} {given : List (BitVec 64)} (h : ∀ p ∈ given, p ≠ 0)
    (hle : made ≤ i) (hlt : i < made + given.length) : blocksFrom made given i ≠ 0 := by
  have hi : i - made < given.length := by omega
  rw [blocksFrom, if_neg (Nat.not_lt.mpr hle), List.getD_eq_getElem _ _ hi]
  exact h _ (List.getElem_mem hi)

section Nodes

variable {s : System} {bs : List Block} {k : ℕ}

-- `k` calls of kmalloc for a node
def nodeCalls (k : ℕ) : List Call := List.replicate k (.kmalloc vfsNodeSize)

def nodeAnswers (k : ℕ) (s : System) : List (BitVec 64) := answers (List.replicate k vfsNodeSize) s

theorem nodeCalls_eq (k : ℕ) : nodeCalls k = (List.replicate k vfsNodeSize).map .kmalloc :=
  List.map_replicate.symm

theorem nodeAnswers_fresh (h : Mm.Heap.Tidy s bs) (hroom : PermittedRun System.step HasRoom s (nodeCalls k))
    (made : ℕ) : State.Fresh (blocksFrom made (nodeAnswers k s)) :=
  heap_blocks_fresh h (nodeCalls_eq k ▸ permitted_of_room h _ hroom) made

theorem nodeAnswers_ne_zero (h : Mm.Heap.Tidy s bs)
    (hroom : PermittedRun System.step HasRoom s (nodeCalls k)) : ∀ p ∈ nodeAnswers k s, p ≠ 0 := by
  refine answers_ne_zero h (nodeCalls_eq k ▸ permitted_of_room h _ hroom) fun size hsize => ?_
  rw [List.eq_of_mem_replicate hsize]
  decide

-- One node from a block on the list.
theorem nodeAnswers_found {current last : BitVec 64}
    (hfound : findFit s.heap.mem (alignUp vfsNodeSize 16) (2 ^ 64) s.heap.head 0 =
      some (current, last)) (hz : current ≠ 0) (hne : current + headerSize ≠ 0) :
    ∃ s', nodeAnswers (k + 1) s = (current + headerSize) :: nodeAnswers k s' ∧
      s'.heap.mem = carved s.heap.mem current (alignUp vfsNodeSize 16) ∧
      s'.heap.head = s.heap.head := by
  have hmalloc := System.kmalloc_search (by decide : vfsNodeSize ≠ 0) hfound hz hne
  exact ⟨_, answers_some hmalloc, rfl, rfl⟩

-- A page for each node below the top of the address space is enough.
theorem nodeCalls_room : ∀ {k : ℕ} {s : System}, s.heap.heapEnd.toNat + 4096 * k < 2 ^ 64 →
    PermittedRun System.step HasRoom s (nodeCalls k)
  | 0, _, _ => trivial
  | k + 1, s, hend => by
    refine ⟨Or.inr (Or.inr ?_), fun s' hstep => nodeCalls_room ?_⟩
    · have hpages : pagesFor vfsNodeSize = 4096 := rfl
      omega
    · have hreq : RequestFits vfsNodeSize := ⟨by decide, by decide⟩
      have hpages : pagesFor vfsNodeSize = 4096 := rfl
      cases hmalloc : kmalloc vfsNodeSize s.heap with
      | none => simp [System.step, hmalloc] at hstep
      | some answer =>
        obtain ⟨p, heap⟩ := answer
        have hgrown := (kmalloc_heapEnd hreq (by omega) hmalloc).2
        simp only [System.step, hmalloc, Option.some.injEq] at hstep
        rw [← hstep]
        dsimp only
        omega

end Nodes

end Miyabi.Fs
