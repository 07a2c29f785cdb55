import Mathlib.Data.Set.Finite.Basic
import Mathlib.Order.Bounds.Basic

namespace Miyabi.Base

variable {α : Type} [LinearOrder α]

-- A pool from which the least element is drawn again and again, until it is empty.
structure LeastFirst (pool : ℕ → Set α) (drawn : ℕ → Option α) : Prop where
  step : ∀ k, (drawn k = none ∧ pool k = ∅ ∧ pool (k + 1) = pool k) ∨
    ∃ x, drawn k = some x ∧ IsLeast (pool k) x ∧ pool (k + 1) = pool k \ {x}

namespace LeastFirst

variable {pool : ℕ → Set α} {drawn : ℕ → Option α}

theorem drawn_some (h : LeastFirst pool drawn) {k : ℕ} {x : α} (hk : drawn k = some x) :
    IsLeast (pool k) x ∧ pool (k + 1) = pool k \ {x} := by
  rcases h.step k with ⟨hn, -⟩ | ⟨y, hy, hrest⟩
  · rw [hn] at hk
    cases hk
  · rw [hy] at hk
    cases hk
    exact hrest

theorem drawn_none (h : LeastFirst pool drawn) {k : ℕ} (hk : drawn k = none) :
    pool k = ∅ ∧ pool (k + 1) = pool k := by
  rcases h.step k with ⟨-, hrest⟩ | ⟨y, hy, -⟩
  · exact hrest
  · rw [hy] at hk
    cases hk

theorem pool_succ (h : LeastFirst pool drawn) (k : ℕ) (x : α) :
    x ∈ pool (k + 1) ↔ x ∈ pool k ∧ drawn k ≠ some x := by
  cases hd : drawn k with
  | none =>
      rw [(h.drawn_none hd).2]
      simp
  | some y =>
      rw [(h.drawn_some hd).2, Set.mem_sdiff, Set.mem_singleton_iff, Ne, Option.some_inj, eq_comm (a := x)]

-- The pool holds what it held at first and has not given away.
theorem mem_pool (h : LeastFirst pool drawn) (k : ℕ) (x : α) :
    x ∈ pool k ↔ x ∈ pool 0 ∧ ∀ j < k, drawn j ≠ some x := by
  induction k with
  | zero => simp
  | succ k ih =>
      rw [h.pool_succ, ih, and_assoc]
      refine and_congr_right (fun _ => ⟨fun hk j hj => ?_, fun hk => ?_⟩)
      · rcases Nat.lt_succ_iff_lt_or_eq.mp hj with hlt | rfl
        · exact hk.1 j hlt
        · exact hk.2
      · exact ⟨fun j hj => hk j (by omega), hk k (by omega)⟩

theorem pool_anti (h : LeastFirst pool drawn) {j k : ℕ} (hjk : j ≤ k) : pool k ⊆ pool j := by
  intro x hx
  rw [h.mem_pool] at hx ⊢
  exact ⟨hx.1, fun i hi => hx.2 i (by omega)⟩

theorem drawn_mem (h : LeastFirst pool drawn) {k : ℕ} {x : α} (hk : drawn k = some x) :
    x ∈ pool 0 :=
  h.pool_anti (Nat.zero_le k) (h.drawn_some hk).1.1

theorem drawn_lt (h : LeastFirst pool drawn) {j k : ℕ} {x y : α} (hjk : j < k)
    (hj : drawn j = some x) (hk : drawn k = some y) : x < y := by
  have hy : y ∈ pool (j + 1) := h.pool_anti hjk (h.drawn_some hk).1.1
  rw [(h.drawn_some hj).2] at hy
  have hle : x ≤ y := (h.drawn_some hj).1.2 hy.1
  exact lt_of_le_of_ne hle (fun he => hy.2 he.symm)

theorem all_drawn (h : LeastFirst pool drawn) {k : ℕ} (hk : drawn k = none) {x : α}
    (hx : x ∈ pool 0) : ∃ j < k, drawn j = some x := by
  by_contra hn
  push Not at hn
  have hxk : x ∈ pool k := (h.mem_pool k x).mpr ⟨hx, hn⟩
  rw [(h.drawn_none hk).1] at hxk
  exact hxk

theorem none_after (h : LeastFirst pool drawn) {j k : ℕ} (hjk : j ≤ k) (hj : drawn j = none) :
    drawn k = none := by
  by_contra hn
  obtain ⟨x, hx⟩ := Option.ne_none_iff_exists'.mp hn
  have hmem : x ∈ pool j := h.pool_anti hjk (h.drawn_some hx).1.1
  rw [(h.drawn_none hj).1] at hmem
  exact hmem

-- A finite pool is drawn empty.
theorem eventually_drawn (h : LeastFirst pool drawn) (hfin : (pool 0).Finite) {x : α}
    (hx : x ∈ pool 0) : ∃ j, drawn j = some x := by
  by_contra hn
  push Not at hn
  have hsome : ∀ k, ∃ y, drawn k = some y := by
    intro k
    apply Option.ne_none_iff_exists'.mp
    intro hk
    obtain ⟨j, -, hj⟩ := h.all_drawn hk hx
    exact hn j hj
  choose f hf using hsome
  have hmono : StrictMono f := fun j k hjk => h.drawn_lt hjk (hf j) (hf k)
  exact Set.infinite_of_injective_forall_mem hmono.injective (fun k => h.drawn_mem (hf k)) hfin

end LeastFirst

end Miyabi.Base
