import Mathlib.Data.List.Basic
import Mathlib.Logic.Function.Basic

namespace Miyabi.Base.Linked

variable {α β : Type}

-- Following `next` from p meets the nodes of the list in order, each at its
-- address and as `holds` says, and stops at q.
def Segment (next : α → α) (addr : β → α) (holds : β → Prop) : α → List β → α → Prop
  | p, [], q => p = q
  | p, b :: rest, q => p = addr b ∧ holds b ∧ Segment next addr holds (next p) rest q

variable {next next' : α → α} {addr : β → α} {holds holds' : β → Prop} {p q : α}

theorem segment_append (xs ys : List β) :
    Segment next addr holds p (xs ++ ys) q ↔
      ∃ r, Segment next addr holds p xs r ∧ Segment next addr holds r ys q := by
  induction xs generalizing p with
  | nil => simp [Segment]
  | cons x xs ih =>
      simp only [List.cons_append, Segment, ih]
      constructor
      · rintro ⟨hp, hx, r, hxs, hys⟩
        exact ⟨r, ⟨hp, hx, hxs⟩, hys⟩
      · rintro ⟨r, ⟨hp, hx, hxs⟩, hys⟩
        exact ⟨hp, hx, r, hxs, hys⟩

theorem segment_congr {bs : List β} (h : Segment next addr holds p bs q)
    (hb : ∀ b ∈ bs, next' (addr b) = next (addr b) ∧ (holds b → holds' b)) :
    Segment next' addr holds' p bs q := by
  induction bs generalizing p with
  | nil => exact h
  | cons b rest ih =>
      obtain ⟨rfl, hh, hr⟩ := h
      obtain ⟨hn, hi⟩ := hb b (by simp)
      refine ⟨rfl, hi hh, ?_⟩
      rw [hn]
      exact ih hr (fun c hc => hb c (by simp [hc]))

-- A node in the middle splits the walk, and its link leads to the rest.
theorem segment_middle (pre post : List β) (b : β) :
    Segment next addr holds p (pre ++ b :: post) q ↔
      Segment next addr holds p pre (addr b) ∧ holds b ∧
        Segment next addr holds (next (addr b)) post q := by
  rw [segment_append]
  constructor
  · rintro ⟨r, hpre, rfl, hb, hpost⟩
    exact ⟨hpre, hb, hpost⟩
  · rintro ⟨hpre, hb, hpost⟩
    exact ⟨addr b, hpre, rfl, hb, hpost⟩

theorem segment_holds {bs : List β} (h : Segment next addr holds p bs q) {b : β} (hb : b ∈ bs) :
    holds b := by
  induction bs generalizing p with
  | nil => cases hb
  | cons c rest ih =>
      rcases List.mem_cons.mp hb with rfl | hb
      · exact h.2.1
      · exact ih h.2.2 hb

-- A walk whose nodes are not at its end is the only one.
theorem segment_unique {bs cs : List β} (hinj : ∀ b c, holds b → holds c → addr b = addr c → b = c)
    (hbs : ∀ b ∈ bs, addr b ≠ q) (hcs : ∀ c ∈ cs, addr c ≠ q) (h : Segment next addr holds p bs q)
    (h' : Segment next addr holds p cs q) : bs = cs := by
  induction bs generalizing p cs with
  | nil =>
      obtain rfl := h
      cases cs with
      | nil => rfl
      | cons c cs => exact absurd h'.1.symm (hcs c (by simp))
  | cons b bs ih =>
      cases cs with
      | nil => exact absurd (h.1.symm.trans h') (hbs b (by simp))
      | cons c cs =>
          obtain ⟨rfl, hb, hbrest⟩ := h
          obtain ⟨hp, hc, hcrest⟩ := h'
          obtain rfl := hinj b c hb hc hp
          rw [ih (fun d hd => hbs d (by simp [hd])) (fun d hd => hcs d (by simp [hd])) hbrest hcrest]

end Miyabi.Base.Linked
