import Mathlib.Data.List.Basic

namespace Miyabi.Base.Tiling

variable {α : Type}

-- The pieces cover [lo, hi) in order, without gap or overlap.
def Tiles (start len : α → Nat) : Nat → List α → Nat → Prop
  | lo, [], hi => lo = hi
  | lo, b :: rest, hi => start b = lo ∧ Tiles start len (lo + len b) rest hi

variable {start len : α → Nat} {lo hi : Nat} {bs : List α}

theorem tiles_append (xs ys : List α) :
    Tiles start len lo (xs ++ ys) hi ↔
      ∃ mid, Tiles start len lo xs mid ∧ Tiles start len mid ys hi := by
  induction xs generalizing lo with
  | nil => simp [Tiles]
  | cons x xs ih =>
      simp only [List.cons_append, Tiles, ih]
      constructor
      · rintro ⟨hx, mid, hxs, hys⟩
        exact ⟨mid, ⟨hx, hxs⟩, hys⟩
      · rintro ⟨mid, ⟨hx, hxs⟩, hys⟩
        exact ⟨hx, mid, hxs, hys⟩

theorem tiles_middle (pre post : List α) (b : α) :
    Tiles start len lo (pre ++ b :: post) hi ↔
      Tiles start len lo pre (start b) ∧ Tiles start len (start b + len b) post hi := by
  rw [tiles_append]
  constructor
  · rintro ⟨mid, hpre, rfl, hpost⟩
    exact ⟨hpre, hpost⟩
  · rintro ⟨hpre, hpost⟩
    exact ⟨start b, hpre, rfl, hpost⟩

theorem tiles_le (h : Tiles start len lo bs hi) : lo ≤ hi := by
  induction bs generalizing lo with
  | nil => exact Nat.le_of_eq h
  | cons b rest ih => exact Nat.le_trans (Nat.le_add_right _ _) (ih h.2)

theorem tiles_bounds (h : Tiles start len lo bs hi) {b : α} (hb : b ∈ bs) :
    lo ≤ start b ∧ start b + len b ≤ hi := by
  induction bs generalizing lo with
  | nil => cases hb
  | cons c rest ih =>
      rcases List.mem_cons.mp hb with rfl | hb
      · have hs := h.1
        have hle := tiles_le h.2
        omega
      · have hi := ih h.2 hb
        omega

theorem tiles_pairwise (h : Tiles start len lo bs hi) :
    bs.Pairwise (fun a b => start a + len a ≤ start b) := by
  induction bs generalizing lo with
  | nil => exact List.Pairwise.nil
  | cons c rest ih =>
      refine List.Pairwise.cons ?_ (ih h.2)
      intro b hb
      have hs := h.1
      have hbounds := (tiles_bounds h.2 hb).1
      omega

-- Two pieces of a tiling are one and the same, or lie one after the other.
theorem tiles_apart (h : Tiles start len lo bs hi) {a b : α} (ha : a ∈ bs) (hb : b ∈ bs) :
    a = b ∨ start a + len a ≤ start b ∨ start b + len b ≤ start a := by
  induction bs generalizing lo with
  | nil => cases ha
  | cons c rest ih =>
      have hs := h.1
      rw [List.mem_cons] at ha hb
      rcases ha with rfl | ha <;> rcases hb with rfl | hb
      · exact Or.inl rfl
      · have hbounds := (tiles_bounds h.2 hb).1
        exact Or.inr (Or.inl (by omega))
      · have hbounds := (tiles_bounds h.2 ha).1
        exact Or.inr (Or.inr (by omega))
      · exact ih h.2 ha hb

theorem tiles_length (h : Tiles start len lo bs hi) (least : Nat)
    (hlen : ∀ b ∈ bs, least ≤ len b) : lo + least * bs.length ≤ hi := by
  induction bs generalizing lo with
  | nil => simpa using Nat.le_of_eq h
  | cons b rest ih =>
      have hb := hlen b (by simp)
      have hr := ih h.2 (fun c hc => hlen c (by simp [hc]))
      rw [List.length_cons, Nat.mul_succ]
      omega

end Miyabi.Base.Tiling
