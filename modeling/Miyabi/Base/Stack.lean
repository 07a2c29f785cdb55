import Miyabi.Base.Memory

namespace Miyabi.Base.Stack

open Miyabi.Base Miyabi.Base.Memory

variable {m m' : Memory 64} {sp v w : BitVec 64} {ws : List (BitVec 64)}

-- The words from sp upwards, as pops would take them off.
def Holds (m : Memory 64) : BitVec 64 → List (BitVec 64) → Prop
  | _, [] => True
  | sp, w :: ws => m.load64 sp = w ∧ Holds m (sp + 8) ws

theorem below_apart (n : ℕ) (hn : n + 8 ≤ 2 ^ 64) : Apart sp n (sp - 8) 8 := by
  have h := (apart_next (sp - 8) 8 8 n rfl (by omega)).symm
  rwa [sub_add_cancel] at h

theorem holds_congr (h : Holds m sp ws) (hlen : 8 * ws.length ≤ 2 ^ 64)
    (ha : Agree m m' sp (8 * ws.length)) : Holds m' sp ws := by
  induction ws generalizing sp with
  | nil => trivial
  | cons w ws ih =>
      obtain ⟨hw, hws⟩ := h
      simp only [List.length_cons] at hlen ha
      have hfirst : Agree m m' sp 8 := fun x hx => ha x (inRange_mono sp x (by omega) hx)
      have hrest : Agree m m' (sp + 8) (8 * ws.length) := by
        apply ha.inner
        have h8 : (8 : BitVec 64).toNat = 8 := rfl
        omega
      exact ⟨(load_congr hfirst).trans hw, ih hws (by omega) hrest⟩

theorem holds_replace (h : Holds m sp (w :: ws)) (hlen : 8 * (ws.length + 1) ≤ 2 ^ 64) :
    Holds (m.store64 sp v) sp (v :: ws) := by
  have hkeep : Agree m (m.store64 sp v) (sp + 8) (8 * ws.length) :=
    agree_store (k := 8) m (sp + 8) sp v (apart_next sp 8 8 _ rfl (by omega)).symm
  exact ⟨load_store_same (n := 8) m sp v (by decide), holds_congr h.2 (by omega) hkeep⟩

theorem holds_push (h : Holds m sp ws) (hlen : 8 * (ws.length + 1) ≤ 2 ^ 64) :
    Holds (m.store64 (sp - 8) v) (sp - 8) (v :: ws) := by
  have hkeep : Agree m (m.store64 (sp - 8) v) sp (8 * ws.length) :=
    agree_store (k := 8) m sp (sp - 8) v (below_apart _ (by omega))
  have hrest : Holds (m.store64 (sp - 8) v) (sp - 8 + 8) ws := by
    rw [sub_add_cancel]
    exact holds_congr h (by omega) hkeep
  exact ⟨load_store_same (n := 8) m (sp - 8) v (by decide), hrest⟩

-- A push writes below what has been pushed before.
theorem keeps_push {n : ℕ} (h : KeepsOutside m m' sp n) :
    KeepsOutside m (m'.store64 (sp - 8) v) (sp - 8) (n + 8) := by
  intro x hx
  have hbelow : ¬InRange (sp - 8) 8 x := fun hin => hx (inRange_mono _ x (by omega) hin)
  have hat : ¬InRange sp n x := by
    intro hin
    have he : sp - 8 + 8 = sp := sub_add_cancel sp 8
    exact hx (inRange_inner (sp - 8) 8 x (Nat.add_comm 8 n).le (he.symm ▸ hin))
  rw [store64, store_of_not_inRange (n := 8) m' (sp - 8) x v hbelow]
  exact h x hat

-- The stack after some pushes from m on, which take n bytes.
structure Pushed (m m' : Memory 64) (sp : BitVec 64) (ws : List (BitVec 64)) (n : ℕ) : Prop where
  holds : Holds m' sp ws
  keeps : KeepsOutside m m' sp n

theorem Pushed.push {n : ℕ} (h : Pushed m m' sp ws n) (v : BitVec 64)
    (hlen : 8 * (ws.length + 1) ≤ 2 ^ 64) :
    Pushed m (m'.store64 (sp - 8) v) (sp - 8) (v :: ws) (n + 8) :=
  ⟨holds_push h.holds hlen, keeps_push h.keeps⟩

-- Pushes, the first of the list first.
def pushes (m : Memory 64) (sp : BitVec 64) : List (BitVec 64) → Memory 64 × BitVec 64
  | [] => (m, sp)
  | v :: vs => pushes (m.store64 (sp - 8) v) (sp - 8) vs

theorem pushes_sp (m : Memory 64) (sp : BitVec 64) (vs : List (BitVec 64)) :
    (pushes m sp vs).2 = sp - BitVec.ofNat 64 (8 * vs.length) := by
  induction vs generalizing m sp with
  | nil => simp [pushes]
  | cons v vs ih =>
      rw [pushes, ih, List.length_cons, Nat.mul_succ, Nat.add_comm, BitVec.ofNat_add, sub_sub]
      rfl

theorem pushes_append (m : Memory 64) (sp : BitVec 64) (vs vs' : List (BitVec 64)) :
    pushes m sp (vs ++ vs') = pushes (pushes m sp vs).1 (pushes m sp vs).2 vs' := by
  induction vs generalizing m sp with
  | nil => rfl
  | cons v vs ih => exact ih (m.store64 (sp - 8) v) (sp - 8)

theorem Pushed.pushes {n : ℕ} (h : Pushed m m' sp ws n) (vs : List (BitVec 64))
    (hlen : 8 * (ws.length + vs.length) ≤ 2 ^ 64) :
    Pushed m (pushes m' sp vs).1 (pushes m' sp vs).2 (vs.reverse ++ ws) (n + 8 * vs.length) := by
  induction vs generalizing m' sp ws n with
  | nil => exact h
  | cons v vs ih =>
      simp only [List.length_cons] at hlen
      have hnext := ih (h.push v (by omega)) (by simp only [List.length_cons]; omega)
      simpa [Stack.pushes, Nat.mul_succ, Nat.add_assoc, Nat.add_comm 8] using hnext

theorem pushed_none (h : Holds m sp ws) : Pushed m m sp ws 0 := ⟨h, fun _ _ => rfl⟩

end Miyabi.Base.Stack
