import Mathlib.Data.List.Induction
import Mathlib.Data.List.TakeWhile

namespace Miyabi.Base

variable {α : Type*} [DecidableEq α] (sep : α)

-- The first maximal run of elements other than `sep`, with what follows it.
def nextWord (s : List α) : Option (List α × List α) :=
  match s.dropWhile (· = sep) with
  | [] => none
  | c :: rest => some ((c :: rest).takeWhile (· ≠ sep), (c :: rest).dropWhile (· ≠ sep))

variable {sep}

theorem nextWord_sep (s : List α) : nextWord sep (sep :: s) = nextWord sep s := by
  simp [nextWord]

-- A word ends at a separator or at the end of the list.
theorem nextWord_append {w rest : List α} (hne : w ≠ []) (hsep : sep ∉ w)
    (hrest : ∀ c ∈ rest.head?, c = sep) : nextWord sep (w ++ rest) = some (w, rest) := by
  obtain ⟨c, w', rfl⟩ := List.exists_cons_of_ne_nil hne
  have hc : c ≠ sep := fun h => hsep (h ▸ List.mem_cons_self)
  have hw : ∀ x ∈ c :: w', decide (x ≠ sep) = true := by
    intro x hx
    exact decide_eq_true fun h => hsep (h ▸ hx)
  have htake : rest.takeWhile (fun x => decide (x ≠ sep)) = [] := by
    cases rest with
    | nil => rfl
    | cons d _ => rw [hrest d rfl, List.takeWhile_cons_of_neg (by simp)]
  have hdrop : rest.dropWhile (fun x => decide (x ≠ sep)) = rest := by
    cases rest with
    | nil => rfl
    | cons d _ => rw [hrest d rfl, List.dropWhile_cons_of_neg (by simp)]
  have hstart : (c :: w' ++ rest).dropWhile (· = sep) = c :: (w' ++ rest) := by
    rw [List.cons_append, List.dropWhile_cons_of_neg (by simpa using hc)]
  rw [nextWord, hstart]
  simp only [← List.cons_append]
  rw [List.takeWhile_append_of_pos hw, List.dropWhile_append_of_pos hw, htake, hdrop,
    List.append_nil]

theorem nextWord_spec {s w rest : List α} (h : nextWord sep s = some (w, rest)) :
    w ≠ [] ∧ sep ∉ w ∧ (∀ c ∈ rest.head?, c = sep) ∧ rest.length < s.length := by
  rw [nextWord] at h
  split at h
  · cases h
  · next c tail hdrop =>
    have hc : c ≠ sep := by
      have hhead := List.head?_dropWhile_not (fun x => decide (x = sep)) s
      rw [hdrop] at hhead
      simpa using hhead
    have hlen : (c :: tail).length ≤ s.length := by
      rw [← hdrop]
      exact (List.dropWhile_sublist _).length_le
    simp only [Option.some.injEq, Prod.mk.injEq] at h
    obtain ⟨rfl, rfl⟩ := h
    have htake : (c :: tail).takeWhile (fun x => decide (x ≠ sep)) =
        c :: tail.takeWhile (fun x => decide (x ≠ sep)) :=
      List.takeWhile_cons_of_pos (by simpa using hc)
    have hdrop' : (c :: tail).dropWhile (fun x => decide (x ≠ sep)) =
        tail.dropWhile (fun x => decide (x ≠ sep)) :=
      List.dropWhile_cons_of_pos (by simpa using hc)
    refine ⟨by rw [htake]; exact List.cons_ne_nil _ _, ?_, ?_, ?_⟩
    · intro hmem
      have hself := List.mem_takeWhile_imp hmem
      simp at hself
    · intro d hd
      have hhead := List.head?_dropWhile_not (fun x => decide (x ≠ sep)) (c :: tail)
      rw [Option.mem_def.mp hd] at hhead
      simpa using hhead
    · rw [hdrop']
      have := (List.dropWhile_sublist (l := tail) (fun x => decide (x ≠ sep))).length_le
      simp only [List.length_cons] at hlen
      omega

variable (sep)

-- The words between the separators. Leading, repeated and trailing separators
-- make no word.
def words (s : List α) : List (List α) :=
  match _h : nextWord sep s with
  | none => []
  | some (w, rest) => w :: words rest
termination_by s.length
decreasing_by exact (nextWord_spec _h).2.2.2

variable {sep}

theorem words_none {s : List α} (h : nextWord sep s = none) : words sep s = [] := by
  rw [words]
  split
  · rfl
  · next hsome => rw [h] at hsome; cases hsome

theorem words_some {s w rest : List α} (h : nextWord sep s = some (w, rest)) :
    words sep s = w :: words sep rest := by
  rw [words]
  split
  · next hnone => rw [h] at hnone; cases hnone
  · next w' rest' hsome =>
    rw [h] at hsome
    cases hsome
    rfl

theorem words_nil : words sep ([] : List α) = [] := words_none rfl

theorem words_sep (s : List α) : words sep (sep :: s) = words sep s := by
  cases h : nextWord sep s with
  | none => rw [words_none h, words_none (by rw [nextWord_sep, h])]
  | some p =>
    obtain ⟨w, rest⟩ := p
    rw [words_some h, words_some (by rw [nextWord_sep, h])]

theorem words_append {w rest : List α} (hne : w ≠ []) (hsep : sep ∉ w)
    (hrest : ∀ c ∈ rest.head?, c = sep) : words sep (w ++ rest) = w :: words sep rest :=
  words_some (nextWord_append hne hsep hrest)

theorem words_word {w : List α} (hne : w ≠ []) (hsep : sep ∉ w) : words sep w = [w] := by
  have h := words_append hne hsep fun c (hc : c ∈ ([] : List α).head?) => nomatch hc
  rwa [List.append_nil, words_nil] at h

theorem words_spec {s w : List α} (h : w ∈ words sep s) : w ≠ [] ∧ sep ∉ w := by
  induction hlen : s.length using Nat.strong_induction_on generalizing s with
  | _ n ih =>
    subst hlen
    cases hnext : nextWord sep s with
    | none =>
      rw [words_none hnext] at h
      cases h
    | some p =>
      obtain ⟨first, rest⟩ := p
      obtain ⟨hne, hsep, -, hlt⟩ := nextWord_spec hnext
      rw [words_some hnext] at h
      rcases List.mem_cons.mp h with rfl | h
      · exact ⟨hne, hsep⟩
      · exact ih rest.length hlt h rfl

-- The words are the parts between the separators that are not empty.
theorem words_eq_splitOn (s : List α) : words sep s = (s.splitOn sep).filter (· ≠ []) := by
  induction hlen : s.length using Nat.strong_induction_on generalizing s with
  | _ n ih =>
    subst hlen
    by_cases hmem : sep ∈ s
    · obtain ⟨w, rest, rfl, hsep⟩ := List.eq_append_cons_of_mem hmem
      have hlt : rest.length < (w ++ sep :: rest).length := by
        rw [List.length_append, List.length_cons]
        omega
      have hrest := ih rest.length hlt rest rfl
      rw [List.splitOn_append_cons_self_of_not_mem hsep, List.filter_cons, ← hrest]
      by_cases hw : w = []
      · subst hw
        rw [List.nil_append, words_sep, if_neg (by simp)]
      · have hnext : ∀ c ∈ (sep :: rest).head?, c = sep := by simp
        rw [words_append hw hsep hnext, words_sep, if_pos (by simpa using hw)]
    · rw [List.splitOn_eq_singleton hmem]
      by_cases hs : s = []
      · subst hs
        rw [words_nil]
        rfl
      · rw [words_word hs hmem, List.filter_cons_of_pos (by simpa using hs), List.filter_nil]

theorem words_append_sep (s t : List α) :
    words sep (s ++ sep :: t) = words sep s ++ words sep t := by
  simp only [words_eq_splitOn]
  rw [List.splitOn_append_cons_self, List.filter_append]

theorem nextWord_split {s w rest : List α} (h : nextWord sep s = some (w, rest)) :
    ∃ lead, s = lead ++ (w ++ rest) := by
  rw [nextWord] at h
  split at h
  · cases h
  · next c tail hdrop =>
    simp only [Option.some.injEq, Prod.mk.injEq] at h
    obtain ⟨rfl, rfl⟩ := h
    refine ⟨s.takeWhile (· = sep), ?_⟩
    rw [List.takeWhile_append_dropWhile, ← hdrop, List.takeWhile_append_dropWhile]

omit [DecidableEq α] in
theorem intercalate_append {ws vs : List (List α)} (hws : ws ≠ []) (hvs : vs ≠ []) :
    [sep].intercalate (ws ++ vs) = [sep].intercalate ws ++ sep :: [sep].intercalate vs := by
  induction ws with
  | nil => exact absurd rfl hws
  | cons w ws ih =>
    cases ws with
    | nil =>
      rw [List.singleton_append, List.intercalate_cons_of_ne_nil hvs, List.intercalate_singleton,
        List.append_assoc, List.singleton_append]
    | cons w' ws =>
      rw [List.cons_append, List.cons_append, List.intercalate_cons_cons,
        List.intercalate_cons_cons, ← List.cons_append, ih (List.cons_ne_nil _ _),
        List.append_assoc, List.append_assoc, List.append_assoc]

theorem words_intercalate {ws : List (List α)} (hws : ∀ w ∈ ws, w ≠ [] ∧ sep ∉ w) :
    words sep ([sep].intercalate ws) = ws := by
  by_cases hne : ws = []
  · rw [hne, List.intercalate_nil, words_nil]
  rw [words_eq_splitOn, List.splitOn_intercalate sep (fun w hw => (hws w hw).2) hne,
    List.filter_eq_self]
  exact fun w hw => decide_eq_true (hws w hw).1

-- What stands around a separator of a list of words are lists of words.
theorem intercalate_split {ws : List (List α)} (hws : ∀ w ∈ ws, sep ∉ w) {front back : List α}
    (h : [sep].intercalate ws = front ++ sep :: back) :
    ∃ us vs, us ≠ [] ∧ vs ≠ [] ∧ ws = us ++ vs ∧ [sep].intercalate us = front := by
  have hne : ws ≠ [] := by
    rintro rfl
    rw [List.intercalate_nil] at h
    exact absurd h.symm (by simp)
  refine ⟨front.splitOn sep, back.splitOn sep, List.splitOn_ne_nil _ _, List.splitOn_ne_nil _ _,
    ?_, List.intercalate_splitOn sep⟩
  rw [← List.splitOn_append_cons_self, ← h, List.splitOn_intercalate sep hws hne]

theorem words_length {s w : List α} (h : w ∈ words sep s) : w.length ≤ s.length := by
  induction hlen : s.length using Nat.strong_induction_on generalizing s with
  | _ n ih =>
    subst hlen
    cases hnext : nextWord sep s with
    | none =>
      rw [words_none hnext] at h
      cases h
    | some p =>
      obtain ⟨first, rest⟩ := p
      have hlt := (nextWord_spec hnext).2.2.2
      rw [words_some hnext] at h
      rcases List.mem_cons.mp h with rfl | h
      · obtain ⟨lead, rfl⟩ := nextWord_split hnext
        rw [List.length_append, List.length_append]
        omega
      · exact (ih rest.length hlt h rfl).trans (by omega)

-- What stands before a word in a list, up to the last separator.
theorem split_last_sep (sep : α) (pre : List α) :
    ∃ front last, pre = front ++ last ∧ sep ∉ last ∧
      ∀ t, words sep (front ++ t) = words sep front ++ words sep t := by
  induction pre using List.reverseRecOn with
  | nil =>
    refine ⟨[], [], rfl, List.not_mem_nil, fun t => ?_⟩
    rw [List.nil_append, words_nil, List.nil_append]
  | append_singleton pre c ih =>
    by_cases hc : c = sep
    · refine ⟨pre ++ [c], [], (List.append_nil _).symm, List.not_mem_nil, fun t => ?_⟩
      rw [hc, List.append_assoc, List.singleton_append, words_append_sep, words_append_sep, words_nil,
        List.append_nil]
    · obtain ⟨front, last, rfl, hlast, hwords⟩ := ih
      refine ⟨front, last ++ [c], List.append_assoc _ _ _, ?_, hwords⟩
      rw [List.mem_append, List.mem_singleton, not_or]
      exact ⟨hlast, fun h => hc h.symm⟩

-- A part without separators ends a word where a separator or the end of the list follows it.
theorem suffix_word_iff {s t : List α} (hne : t ≠ []) (hsep : sep ∉ t) :
    (∃ w ∈ words sep s, t <:+ w) ↔
      ∃ pre post, s = pre ++ (t ++ post) ∧ ∀ c ∈ post.head?, c = sep := by
  constructor
  · induction hlen : s.length using Nat.strong_induction_on generalizing s with
    | _ n ih =>
      subst hlen
      rintro ⟨w, hw, pre, rfl⟩
      cases hnext : nextWord sep s with
      | none =>
        rw [words_none hnext] at hw
        cases hw
      | some p =>
        obtain ⟨first, rest⟩ := p
        obtain ⟨-, -, hrest, hlt⟩ := nextWord_spec hnext
        obtain ⟨lead, rfl⟩ := nextWord_split hnext
        rw [words_some hnext] at hw
        rcases List.mem_cons.mp hw with rfl | hw
        · exact ⟨lead ++ pre, rest, by simp only [List.append_assoc], hrest⟩
        · obtain ⟨pre', post, rfl, hpost⟩ := ih rest.length hlt rfl ⟨_, hw, pre, rfl⟩
          exact ⟨lead ++ (first ++ pre'), post, by simp only [List.append_assoc], hpost⟩
  · rintro ⟨pre, post, rfl, hpost⟩
    obtain ⟨front, last, rfl, hlast, hwords⟩ := split_last_sep sep pre
    have hword : sep ∉ last ++ t := by
      rw [List.mem_append, not_or]
      exact ⟨hlast, hsep⟩
    have hlong : last ++ t ≠ [] := by
      intro h
      exact hne (List.append_eq_nil_iff.mp h).2
    refine ⟨last ++ t, ?_, last, rfl⟩
    rw [List.append_assoc, hwords, ← List.append_assoc last, words_append hlong hword hpost]
    exact List.mem_append_right _ List.mem_cons_self

end Miyabi.Base
