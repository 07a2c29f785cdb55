import Mathlib.Logic.Relation

namespace Miyabi.Base

variable {α β : Type*} (step : α → β ⊕ α)

-- A loop whose body ends it with an answer or goes on. `out` is the answer
-- when the fuel is used up.
def loop (out : β) : Nat → α → β
  | 0, _ => out
  | n + 1, a =>
      match step a with
      | .inl b => b
      | .inr a => loop out n a

-- The turns a loop comes to.
def Reaches : α → α → Prop := Relation.ReflTransGen fun a b => step a = .inr b

variable {step}

theorem Reaches.refl (a : α) : Reaches step a a := Relation.ReflTransGen.refl

theorem Reaches.tail {a b c : α} (h : Reaches step a b) (hstep : step b = .inr c) :
    Reaches step a c := Relation.ReflTransGen.tail h hstep

theorem Reaches.head {a b c : α} (hstep : step a = .inr b) (h : Reaches step b c) :
    Reaches step a c := Relation.ReflTransGen.head hstep h

-- What every turn keeps holds at every turn the loop comes to.
theorem Reaches.invariant (inv : α → Prop) (hkeep : ∀ a b, inv a → step a = .inr b → inv b)
    {a b : α} (h : Reaches step a b) (ha : inv a) : inv b := by
  induction h with
  | refl => exact ha
  | tail _ hstep ih => exact hkeep _ _ ih hstep

-- A turn that is reached lies before the one that ends the loop.
theorem Reaches.to_end {a b c : α} {r : β} (hb : Reaches step a b) (hc : Reaches step a c)
    (hend : step c = .inl r) : Reaches step b c := by
  have hunique : Relator.RightUnique fun a b => step a = .inr b := by
    intro x y z hy hz
    exact Sum.inr.inj (hy.symm.trans hz)
  rcases Relation.ReflTransGen.total_of_right_unique hunique hb hc with h | h
  · exact h
  · cases h using Relation.ReflTransGen.head_induction_on with
    | refl => exact Reaches.refl _
    | head hstep _ =>
      rw [hend] at hstep
      cases hstep

-- An answer other than `out` is one that a turn gives.
theorem loop_reaches {out : β} {n : Nat} {a : α} (h : loop step out n a ≠ out) :
    ∃ c, Reaches step a c ∧ step c = .inl (loop step out n a) := by
  induction n generalizing a with
  | zero => exact absurd rfl h
  | succ n ih =>
    rw [loop] at h ⊢
    cases hstep : step a with
    | inl b => exact ⟨a, Reaches.refl a, hstep⟩
    | inr b =>
      rw [hstep] at h
      obtain ⟨c, hreach, hend⟩ := ih h
      exact ⟨c, Reaches.head hstep hreach, hend⟩

-- The turn that ends a loop gives its answer, if the fuel lasts.
theorem loop_of_reaches (out : β) {b : β} {a c : α} (hreach : Reaches step a c) (hend : step c = .inl b) :
    ∀ n, loop step out n a = b ∨ loop step out n a = out := by
  induction hreach using Relation.ReflTransGen.head_induction_on with
  | refl =>
    intro n
    cases n with
    | zero => exact Or.inr rfl
    | succ n =>
      rw [loop, hend]
      exact Or.inl rfl
  | head hstep _ ih =>
    intro n
    cases n with
    | zero => exact Or.inr rfl
    | succ n =>
      rw [loop, hstep]
      exact ih n

-- A measure that every turn makes less bounds the number of turns.
theorem loop_ends (out : β) (measure : α → Nat) {n : Nat} {a : α}
    (hless : ∀ b c, Reaches step a b → step b = .inr c → measure c < measure b)
    (hn : measure a < n) :
    ∃ c b, Reaches step a c ∧ step c = .inl b ∧ loop step out n a = b := by
  induction n generalizing a with
  | zero => exact absurd hn (Nat.not_lt_zero _)
  | succ n ih =>
    cases hstep : step a with
    | inl b => exact ⟨a, b, Reaches.refl a, hstep, by rw [loop, hstep]⟩
    | inr b =>
      have hb := hless a b (Reaches.refl a) hstep
      have hrest : ∀ c d, Reaches step b c → step c = .inr d → measure d < measure c :=
        fun c d hreach => hless c d (Reaches.head hstep hreach)
      obtain ⟨c, d, hreach, hend, heq⟩ := ih hrest (by omega)
      refine ⟨c, d, Reaches.head hstep hreach, hend, ?_⟩
      rw [loop, hstep]
      exact heq

end Miyabi.Base
