import Mathlib.Data.List.Flatten

namespace Miyabi.Base

variable {α β γ σ : Type*} (body : α → σ → Option β × σ)

-- A loop over a list whose body can return.
def search : List α → σ → Option β × σ
  | [], s => (none, s)
  | a :: rest, s =>
      match body a s with
      | (some b, s) => (some b, s)
      | (none, s) => search rest s

variable {body}

theorem search_append (front back : List α) (s : σ) :
    search body (front ++ back) s =
      match search body front s with
      | (some b, s) => (some b, s)
      | (none, s) => search body back s := by
  induction front generalizing s with
  | nil => rfl
  | cons a front ih =>
    rw [List.cons_append, search, search]
    rcases body a s with ⟨_ | b, s'⟩
    · exact ih s'
    · rfl

-- A loop in a loop is one over the pairs.
theorem search_search (inner : γ → List α) (outer : List γ) (s : σ) :
    search (fun c => search body (inner c)) outer s = search body (outer.flatMap inner) s := by
  induction outer generalizing s with
  | nil => rfl
  | cons c outer ih =>
    rw [search, List.flatMap_cons, search_append]
    rcases search body (inner c) s with ⟨_ | b, s'⟩
    · exact ih s'
    · rfl

theorem search_map (f : γ → α) (list : List γ) (s : σ) :
    search body (list.map f) s = search (fun c => body (f c)) list s := by
  induction list generalizing s with
  | nil => rfl
  | cons c list ih =>
    rw [List.map_cons, search, search]
    rcases body (f c) s with ⟨_ | b, s'⟩
    · exact ih s'
    · rfl

theorem search_congr {body' : α → σ → Option β × σ} {list : List α}
    (h : ∀ a ∈ list, body a = body' a) (s : σ) : search body list s = search body' list s := by
  induction list generalizing s with
  | nil => rfl
  | cons a list ih =>
    rw [search, search, h a List.mem_cons_self]
    rcases body' a s with ⟨_ | b, s'⟩
    · exact ih (fun b hb => h b (List.mem_cons_of_mem a hb)) s'
    · rfl

section Hit

variable {hit : α → Prop} {inv : σ → Prop}
variable (hmiss : ∀ a s, inv s → ¬hit a → ∃ s', body a s = (none, s') ∧ inv s')

include hmiss

-- A loop that hits nothing comes to its end.
theorem search_none {list : List α} (hnone : ∀ a ∈ list, ¬hit a) {s : σ} (hs : inv s) :
    ∃ s', search body list s = (none, s') ∧ inv s' := by
  induction list generalizing s with
  | nil => exact ⟨s, rfl, hs⟩
  | cons a list ih =>
    obtain ⟨s1, hbody, h1⟩ := hmiss a s hs (hnone a List.mem_cons_self)
    rw [search, hbody]
    exact ih (fun b hb => hnone b (List.mem_cons_of_mem a hb)) h1

-- Otherwise it returns from its first hit.
theorem search_first {front back : List α} {a : α} (hfront : ∀ b ∈ front, ¬hit b) {s : σ}
    (hs : inv s) (hfound : ∀ s, inv s → (body a s).1.isSome) :
    ∃ s', inv s' ∧ search body (front ++ a :: back) s = body a s' := by
  obtain ⟨s', hnone, h'⟩ := search_none hmiss hfront hs
  refine ⟨s', h', ?_⟩
  have hsome := hfound s' h'
  rw [search_append, hnone]
  simp only [search]
  rcases hbody : body a s' with ⟨_ | b, s''⟩
  · rw [hbody] at hsome
    cases hsome
  · rfl

end Hit

end Miyabi.Base
