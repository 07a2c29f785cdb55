import Miyabi.Mm.Heap.Balance

namespace Miyabi.Mm.Heap

open Miyabi.Base Miyabi.Base.Memory Miyabi.Base.Transition

-- The walk from p meets b as the first free block of at least `size` bytes.
inductive FirstFit (m : Memory 64) (size : BitVec 64) : BitVec 64 → BitVec 64 → Prop
  | here (p : BitVec 64) (hz : p ≠ 0) (hf : blockIsFree m p = true ∧ size ≤ blockSize m p) :
      FirstFit m size p p
  | next (p b : BitVec 64) (hz : p ≠ 0) (hn : ¬(blockIsFree m p = true ∧ size ≤ blockSize m p))
      (h : FirstFit m size (blockNext m p) b) : FirstFit m size p b

section Search

variable {m : Memory 64} {size : BitVec 64}

theorem FirstFit.ne_zero {p b : BitVec 64} (h : FirstFit m size p b) : p ≠ 0 := by
  cases h with
  | here _ hz hf => exact hz
  | next _ _ hz hn h => exact hz

theorem FirstFit.unique {p b c : BitVec 64} (hb : FirstFit m size p b) (hc : FirstFit m size p c) :
    b = c := by
  induction hb with
  | here p hz hf =>
      cases hc with
      | here => rfl
      | next _ _ _ hn _ => exact absurd hf hn
  | next p b hz hn h ih =>
      cases hc with
      | here _ _ hf => exact absurd hf hn
      | next _ _ _ _ hc => exact ih hc

-- The search loop finds that block, or NULL if there is none.
theorem findFit_firstFit {fuel : Nat} {p last current before : BitVec 64}
    (he : findFit m size fuel p last = some (current, before)) :
    (current ≠ 0 → FirstFit m size p current) ∧ (current = 0 → ∀ b, ¬FirstFit m size p b) := by
  induction fuel generalizing p last with
  | zero => cases he
  | succ fuel ih =>
      simp only [findFit] at he
      by_cases hz : p = 0
      · simp only [hz, if_true, Option.some.injEq, Prod.mk.injEq] at he
        obtain ⟨rfl, rfl⟩ := he
        exact ⟨fun h => absurd rfl h, fun _ b hb => hb.ne_zero hz⟩
      · by_cases hf : blockIsFree m p = true ∧ size ≤ blockSize m p
        · rw [if_neg hz, if_pos hf, Option.some.injEq, Prod.mk.injEq] at he
          obtain ⟨rfl, rfl⟩ := he
          exact ⟨fun _ => .here p hz hf, fun h => absurd h hz⟩
        · rw [if_neg hz, if_neg hf] at he
          obtain ⟨hfound, hnone⟩ := ih he
          refine ⟨fun hc => .next p current hz hf (hfound hc), fun hc b hb => ?_⟩
          cases hb with
          | here _ _ hf' => exact hf hf'
          | next _ _ _ _ hb => exact hnone hc b hb

end Search

-- A call that returns has used the block found or the page-aligned heap_end.
theorem kmalloc_returned {h h' : State} {size p : BitVec 64} (hsize : size ≠ 0)
    (he : kmalloc size h = some (p, h')) :
    (∃ b, FirstFit h.mem (alignUp size 16) h.head b ∧ p = b + headerSize ∧
        h'.heapEnd = h.heapEnd) ∨
      ((∀ b, ¬FirstFit h.mem (alignUp size 16) h.head b) ∧ p = h.heapEnd + headerSize ∧
        h'.heapEnd = h.heapEnd + alignUp (alignUp size 16 + headerSize) pageSize) := by
  cases hf : findFit h.mem (alignUp size 16) (2 ^ 64) h.head 0 with
  | none =>
      simp only [kmalloc, hsize, if_false, hf] at he
      cases he
  | some r =>
      obtain ⟨current, last⟩ := r
      obtain ⟨hfound, hnone⟩ := findFit_firstFit hf
      by_cases hz : current = 0
      · simp only [kmalloc, hsize, if_false, hf, hz, ne_eq, not_true_eq_false] at he
        cases hx : heapExpand (alignUp size 16 + headerSize) h with
        | none =>
            simp only [hx] at he
            cases he
        | some r =>
            obtain ⟨new, h1⟩ := r
            obtain ⟨rfl, hex⟩ := heapExpand_returned hx
            simp only [hx, Option.some.injEq, Prod.mk.injEq] at he
            refine Or.inr ⟨hnone hz, he.1.symm, ?_⟩
            rw [← he.2]
            exact hex.heapEnd
      · rw [kmalloc_found hsize hf hz, Option.some.injEq, Prod.mk.injEq] at he
        refine Or.inl ⟨current, hfound hz, he.1.symm, ?_⟩
        rw [← he.2]

theorem kfree_heapEnd {h h' : State} {ptr : BitVec 64} (he : kfree ptr h = some h') :
    h'.heapEnd = h.heapEnd := by
  by_cases hz : ptr = 0
  · simp only [kfree, hz, if_true, Option.some.injEq] at he
    rw [he]
  · cases hc : coalesce (setIsFree h.mem (ptr - headerSize) true) h.head (2 ^ 64) with
    | none =>
        simp only [kfree, hz, if_false, hc] at he
        cases he
    | some m =>
        simp only [kfree, hz, if_false, hc, Option.some.injEq] at he
        rw [← he]

-- heap_end stays on a page boundary, also where it wraps.
theorem step_whole {s s' : System} (call : Call) (hw : s.heap.heapEnd.toNat % 4096 = 0)
    (he : s.step call = some s') : s'.heap.heapEnd.toNat % 4096 = 0 := by
  cases call with
  | kfree ptr =>
      cases hk : Heap.kfree ptr s.heap with
      | none => simp [System.step, hk] at he
      | some h' =>
          simp only [System.step, hk, Option.some.injEq] at he
          rw [← he]
          simp only [kfree_heapEnd hk]
          exact hw
  | kmalloc size =>
      cases hk : Heap.kmalloc size s.heap with
      | none => simp [System.step, hk] at he
      | some r =>
          obtain ⟨p, h'⟩ := r
          simp only [System.step, hk, Option.some.injEq] at he
          rw [← he]
          show h'.heapEnd.toNat % 4096 = 0
          by_cases hz : size = 0
          · simp only [Heap.kmalloc, hz, if_true, Option.some.injEq, Prod.mk.injEq] at hk
            rw [← hk.2]
            exact hw
          · have hd := growth_dvd size
            rw [growth] at hd
            rcases kmalloc_returned hz hk with ⟨b, -, -, hend⟩ | ⟨-, -, hend⟩
            · rw [hend]
              exact hw
            · rw [hend, BitVec.toNat_add]
              omega

theorem run_whole {s0 s : System} (calls : List Call) (hw : s0.heap.heapEnd.toNat % 4096 = 0)
    (hr : run System.step s0 calls = some s) : s.heap.heapEnd.toNat % 4096 = 0 := by
  induction calls generalizing s0 with
  | nil =>
      cases hr
      exact hw
  | cons call rest ih =>
      cases he : s0.step call with
      | none => simp [run, he] at hr
      | some s1 =>
          simp only [run, he] at hr
          exact ih (step_whole call hw he) hr

theorem add_header_mod (b : BitVec 64) : (b + headerSize).toNat % 16 = 0 ↔ b.toNat % 16 = 8 := by
  have hh : headerSize.toNat = 24 := rfl
  rw [BitVec.toNat_add, hh]
  omega

-- A pointer that kmalloc returns is a multiple of 16 exactly if it comes from a
-- block on the list that starts 8 bytes behind one.
theorem kmalloc_aligned_iff (mem : Memory 64) (frames : FrameSupply) (calls : List Call)
    (s0 s : System) (hb : boot mem frames = some s0) (hr : run System.step s0 calls = some s)
    (size p : BitVec 64) (h' : State) (he : kmalloc size s.heap = some (p, h')) (hp : p ≠ 0) :
    p.toNat % 16 = 0 ↔
      ∃ b, FirstFit s.heap.mem (alignUp size 16) s.heap.head b ∧ b.toNat % 16 = 8 := by
  have hw := run_whole calls (boot_returned hb).1.mapped.whole hr
  by_cases hz : size = 0
  · simp only [kmalloc, hz, if_true, Option.some.injEq, Prod.mk.injEq] at he
    exact absurd he.1.symm hp
  · rcases kmalloc_returned hz he with ⟨b, hf, rfl, -⟩ | ⟨hn, rfl, -⟩
    · rw [add_header_mod]
      constructor
      · exact fun h => ⟨b, hf, h⟩
      · rintro ⟨c, hc, h⟩
        rwa [hf.unique hc]
    · rw [add_header_mod]
      constructor
      · intro h
        omega
      · rintro ⟨c, hc, -⟩
        exact absurd hc (hn c)

-- The second of two small blocks is aligned, the first is not.
theorem kmalloc_aligned_second :
    ∃ s0 s p h', boot (fun _ => 0) sampleFrames = some s0 ∧
      run System.step s0 [.kmalloc 8] = some s ∧ kmalloc 8 s.heap = some (p, h') ∧
      p.toNat % 16 = 0 := by
  obtain ⟨s0, hb, -⟩ := boot_invariant (fun _ => 0) sampleFrames sampleFrames_ne
  obtain ⟨hm, hh, -, -⟩ := boot_state hb
  have hfirst : findFit s0.heap.mem (alignUp 8 16) (2 ^ 64) s0.heap.head 0 = some (heapStart, 0) := by
    rw [hm, hh]
    decide +kernel
  have he := kmalloc_found (by decide) hfirst (by decide)
  have hne : heapStart + headerSize ≠ 0 := by decide
  have hr : run System.step s0 [.kmalloc 8] = some
      ⟨{ s0.heap with mem := carved (firstHeader fun _ => 0) heapStart 16 },
        ⟨heapStart + headerSize, 8⟩ :: s0.live⟩ := by
    have hround : alignUp 8 16 = 16 := by decide
    simp only [run, System.step, he, hne, if_false, hm, hround]
  have hsecond : findFit (carved (firstHeader fun _ => 0) heapStart 16) (alignUp 8 16) (2 ^ 64)
      s0.heap.head 0 = some (heapStart + 40, heapStart) := by
    rw [hh]
    decide +kernel
  have hz : heapStart + 40 ≠ 0 := by decide
  have he2 := kmalloc_found
    (h := { s0.heap with mem := carved (firstHeader fun _ => 0) heapStart 16 })
    (by decide : (8 : BitVec 64) ≠ 0) hsecond hz
  refine ⟨s0, _, _, _, hb, hr, he2, ?_⟩
  refine (kmalloc_aligned_iff (fun _ => 0) sampleFrames [.kmalloc 8] s0 _ hb hr 8 _ _ he2
    (by decide)).mpr ⟨heapStart + 40, ?_, by decide⟩
  exact (findFit_firstFit hsecond).1 hz

theorem kmalloc_unaligned :
    ∃ s0 p h', boot (fun _ => 0) sampleFrames = some s0 ∧ kmalloc 1 s0.heap = some (p, h') ∧
      p ≠ 0 ∧ p.toNat % 16 ≠ 0 := by
  obtain ⟨s0, hb, -⟩ := boot_invariant (fun _ => 0) sampleFrames sampleFrames_ne
  obtain ⟨hm, hh, -, -⟩ := boot_state hb
  have hfirst : findFit s0.heap.mem (alignUp 1 16) (2 ^ 64) s0.heap.head 0 = some (heapStart, 0) := by
    rw [hm, hh]
    decide +kernel
  exact ⟨s0, _, _, hb, kmalloc_found (by decide) hfirst (by decide), by decide, by decide⟩

end Miyabi.Mm.Heap
