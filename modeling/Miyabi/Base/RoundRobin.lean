import Mathlib.Data.List.Rotate
import Miyabi.Base.Transition

namespace Miyabi.Base.RoundRobin

open Miyabi.Base.Transition

variable {α : Type} [DecidableEq α]

-- The members in the order they joined, the one whose turn it is, and those
-- that have left but keep their place in the queue.
structure Rota (α : Type) where
  queue : List α
  current : α
  gone : List α

inductive Event (α : Type) where
  | idle
  | turn
  | join (member : α)
  | leave

-- The members as a search meets them that starts behind the current one and
-- begins again at the head.
def order (r : Rota α) : List α := r.queue.rotate (r.queue.idxOf r.current + 1)

def passTurn (r : Rota α) : Option (Rota α) :=
  ((order r).find? (fun a => a ∉ r.gone)).map fun a => { r with current := a }

def step : Rota α → Event α → Option (Rota α)
  | r, .idle => some r
  | r, .turn => passTurn r
  | r, .join member => some { r with queue := r.queue ++ [member] }
  | r, .leave => passTurn { r with gone := r.current :: r.gone }

-- The member that an event chose.
def chosen : Event α → Rota α → Option α
  | .turn, r => some r.current
  | .leave, r => some r.current
  | _, _ => none

def Permitted (anchor : α) (r : Rota α) : Event α → Prop
  | .join member => member ∉ r.queue
  | .leave => r.current ≠ anchor
  | _ => True

-- The anchor joined first and never leaves, so that a search always ends.
structure Sound (anchor : α) (r : Rota α) : Prop where
  nodup : r.queue.Nodup
  head : r.queue.head? = some anchor
  current : r.current ∈ r.queue
  live : r.current ∉ r.gone
  anchor_live : anchor ∉ r.gone
  gone_queued : ∀ a ∈ r.gone, a ∈ r.queue

variable {anchor x y : α} {r r' : Rota α}

omit [DecidableEq α] in
theorem Sound.anchor_mem (h : Sound anchor r) : anchor ∈ r.queue := List.mem_of_head? h.head

theorem mem_order : y ∈ order r ↔ y ∈ r.queue := List.mem_rotate

theorem order_eq (before behind : List α) (hq : r.queue = before ++ r.current :: behind)
    (hn : r.queue.Nodup) : order r = behind ++ (before ++ [r.current]) := by
  have hnot : r.current ∉ before := by
    intro hb
    rw [hq] at hn
    exact (List.nodup_append.mp hn).2.2 _ hb _ (by simp) rfl
  have hidx : r.queue.idxOf r.current = before.length := by
    simp [hq, List.idxOf_append, hnot]
  have hsplit : r.queue = (before ++ [r.current]) ++ behind := by simp [hq]
  rw [order, hidx, hsplit]
  have hrot := List.rotate_append_length_eq (before ++ [r.current]) behind
  simpa using hrot

-- Where the search stops: the members passed over have all left.
theorem passTurn_cases (h : passTurn r = some r') :
    ∃ passed rest, order r = passed ++ r'.current :: rest ∧ (∀ a ∈ passed, a ∈ r.gone) ∧
      r'.current ∉ r.gone ∧ r'.queue = r.queue ∧ r'.gone = r.gone := by
  obtain ⟨a, hfind, rfl⟩ := Option.map_eq_some_iff.mp h
  obtain ⟨hlive, passed, rest, hsplit, hpassed⟩ := List.find?_eq_some_iff_append.mp hfind
  exact ⟨passed, rest, hsplit, fun b hb => by simpa using hpassed b hb, by simpa using hlive,
    rfl, rfl⟩

theorem passTurn_returns (hy : y ∈ r.queue) (hl : y ∉ r.gone) : ∃ r', passTurn r = some r' := by
  have hsome : ((order r).find? (fun a => a ∉ r.gone)).isSome := by
    rw [List.find?_isSome]
    exact ⟨y, mem_order.mpr hy, by simpa using hl⟩
  obtain ⟨a, ha⟩ := Option.isSome_iff_exists.mp hsome
  exact ⟨_, by rw [passTurn, ha]; rfl⟩

-- An occurrence in a concatenation lies in the second part or in the first.
omit [DecidableEq α] in
theorem append_split {a b c d : List α} (h : a ++ b = c ++ x :: d) :
    (∃ mid, c = a ++ mid ∧ b = mid ++ x :: d) ∨ ∃ mid, a = c ++ x :: mid ∧ d = mid ++ b := by
  rcases List.append_eq_append_iff.mp h with ⟨mid, hc, hb⟩ | ⟨mid, ha, hd⟩
  · exact Or.inl ⟨mid, hc, hb⟩
  · cases mid with
    | nil =>
        rw [List.append_nil] at ha
        exact Or.inl ⟨[], by simp [ha], by simpa using hd.symm⟩
    | cons z mid =>
        obtain ⟨rfl, htail⟩ := List.cons.inj hd
        exact Or.inr ⟨mid, ha, htail⟩

theorem nodup_order (hn : r.queue.Nodup) : (order r).Nodup := List.nodup_rotate.mpr hn

theorem order_split_unique {f b f' b' : List α} (hn : r.queue.Nodup) (h : order r = f ++ x :: b)
    (h' : order r = f' ++ x :: b') : f = f' ∧ b = b' := by
  have hno := nodup_order hn
  rw [h] at h' hno
  have hnf := List.nodup_append.mp hno
  have hnot : x ∉ f := fun hin => hnf.2.2 _ hin _ (by simp) rfl
  have hnot' : x ∉ b := (List.nodup_cons.mp hnf.2.1).1
  obtain ⟨hf, -, hb⟩ := (List.append_cons_inj_of_notMem hnot hnot').mp h'
  exact ⟨hf, hb⟩

-- The members passed over move behind the others, and the member chosen last.
theorem order_passTurn {passed rest : List α} (hn : r.queue.Nodup) (hr : r.current ∈ r.queue)
    (hsplit : order r = passed ++ r'.current :: rest) (hq : r'.queue = r.queue) :
    order r' = rest ++ (passed ++ [r'.current]) := by
  obtain ⟨before, behind, hqueue⟩ := List.append_of_mem hr
  have ho := order_eq _ _ hqueue hn
  have hn' : r'.queue.Nodup := hq ▸ hn
  have hunique : ∀ front back, order r = front ++ r'.current :: back →
      front = passed ∧ back = rest := fun front back he => order_split_unique hn he hsplit
  have hmem : r'.current ∈ behind ++ (before ++ [r.current]) := by
    rw [← ho, hsplit]
    simp
  rcases List.mem_append.mp hmem with hz | hz
  · obtain ⟨b, b', rfl⟩ := List.append_of_mem hz
    obtain ⟨rfl, rfl⟩ := hunique b (b' ++ (before ++ [r.current])) (by simp [ho])
    rw [order_eq (before ++ r.current :: b) b' (by simp [hq, hqueue]) hn']
    simp
  rcases List.mem_append.mp hz with hz | hz
  · obtain ⟨b, b', rfl⟩ := List.append_of_mem hz
    obtain ⟨rfl, rfl⟩ := hunique (behind ++ b) (b' ++ [r.current]) (by simp [ho])
    rw [order_eq b (b' ++ r.current :: behind) (by simp [hq, hqueue]) hn']
    simp
  · have hz := List.mem_singleton.mp hz
    obtain ⟨rfl, rfl⟩ := hunique (behind ++ before) [] (by simp [ho, hz])
    rw [order_eq before behind (by simp [hq, hqueue, hz]) hn']
    simp

theorem passTurn_sound (h : Sound anchor r) (hp : passTurn r = some r') : Sound anchor r' := by
  obtain ⟨passed, rest, hsplit, -, hlive, hq, hg⟩ := passTurn_cases hp
  have hmem : r'.current ∈ r.queue := mem_order.mp (by simp [hsplit])
  exact ⟨hq ▸ h.nodup, hq ▸ h.head, hq ▸ hmem, hg ▸ hlive, hg ▸ h.anchor_live,
    by rw [hq, hg]; exact h.gone_queued⟩

-- Every event returns, as the anchor is there to be chosen.
theorem step_sound (h : Sound anchor r) (e : Event α) (hp : Permitted anchor r e) :
    ∃ r', step r e = some r' ∧ Sound anchor r' := by
  cases e with
  | idle => exact ⟨r, rfl, h⟩
  | turn =>
      obtain ⟨r', hr⟩ := passTurn_returns h.current h.live
      exact ⟨r', hr, passTurn_sound h hr⟩
  | join member =>
      have hnew : member ∉ r.queue := hp
      refine ⟨_, rfl, ?_, ?_, ?_, h.live, h.anchor_live, ?_⟩
      · exact List.Nodup.append h.nodup (List.nodup_singleton _) (by simpa using hnew)
      · have hhead := h.head
        cases hqueue : r.queue with
        | nil => simp [hqueue] at hhead
        | cons a rest => simpa [hqueue] using hhead
      · exact List.mem_append_left _ h.current
      · exact fun a ha => List.mem_append_left _ (h.gone_queued a ha)
  | leave =>
      have hne : r.current ≠ anchor := hp
      have hanchor : anchor ∉ r.current :: r.gone := by
        simp [h.anchor_live, Ne.symm hne]
      obtain ⟨r', hr⟩ := passTurn_returns (r := { r with gone := r.current :: r.gone })
        h.anchor_mem hanchor
      obtain ⟨passed, rest, hsplit, -, hlive, hq, hg⟩ := passTurn_cases hr
      have hmem : r'.current ∈ r.queue := by
        have hm := mem_order (y := r'.current) (r := { r with gone := r.current :: r.gone })
        exact hm.mp (by simp [hsplit])
      refine ⟨r', hr, hq ▸ h.nodup, hq ▸ h.head, hq ▸ hmem, hg ▸ hlive, hg ▸ hanchor, ?_⟩
      rw [hq, hg]
      simpa using ⟨h.current, h.gone_queued⟩

section Fairness

variable {e : Event α} {es : List (Event α)} {k : ℕ}

-- An event that chooses a member searches the queue, the member that leaves
-- being passed over.
theorem step_chosen (h : step r e = some r') (hc : chosen e r' = some x) :
    r'.current = x ∧ ∃ gone, passTurn { r with gone := gone } = some r' ∧ r.gone ⊆ gone ∧
      gone ⊆ r.current :: r.gone := by
  cases e with
  | idle => cases hc
  | join member => cases hc
  | turn => exact ⟨Option.some.inj hc, r.gone, h, fun _ ha => ha, fun _ ha => by simp [ha]⟩
  | leave =>
      exact ⟨Option.some.inj hc, r.current :: r.gone, h, fun _ ha => by simp [ha], fun _ ha => ha⟩

-- Members neither give up their places nor come back.
theorem step_grows (h : step r e = some r') : r.gone ⊆ r'.gone ∧ r.queue ⊆ r'.queue := by
  cases e with
  | idle =>
      cases h
      exact ⟨fun _ ha => ha, fun _ ha => ha⟩
  | turn =>
      obtain ⟨-, -, -, -, -, hq, hg⟩ := passTurn_cases h
      rw [hq, hg]
      exact ⟨fun _ ha => ha, fun _ ha => ha⟩
  | join member =>
      cases h
      exact ⟨fun _ ha => ha, fun _ ha => List.mem_append_left _ ha⟩
  | leave =>
      obtain ⟨-, -, -, -, -, hq, hg⟩ := passTurn_cases h
      rw [hq, hg]
      exact ⟨fun _ ha => List.mem_cons_of_mem _ ha, fun _ ha => ha⟩

theorem run_grows (h : run step r es = some r') : r.gone ⊆ r'.gone ∧ r.queue ⊆ r'.queue := by
  induction es generalizing r with
  | nil =>
      cases h
      exact ⟨fun _ ha => ha, fun _ ha => ha⟩
  | cons e es ih =>
      cases he : step r e with
      | none => simp [run, he] at h
      | some r1 =>
          simp only [run, he] at h
          obtain ⟨hgone, hqueue⟩ := step_grows he
          exact ⟨fun _ ha => (ih h).1 (hgone ha), fun _ ha => (ih h).2 (hqueue ha)⟩

-- Who has left is not chosen again.
theorem gone_not_shown (h : run step r es = some r') (hx : x ∈ r.gone) :
    x ∉ shown step chosen r es := by
  induction es generalizing r with
  | nil => simp [shown]
  | cons e es ih =>
      cases he : step r e with
      | none => simp [run, he] at h
      | some r1 =>
          simp only [run, he] at h
          simp only [shown, he, List.mem_append, not_or]
          refine ⟨fun hin => ?_, ih h ((step_grows he).1 hx)⟩
          obtain ⟨hcur, gone, hpass, hgone, -⟩ := step_chosen he (Option.mem_toList.mp hin)
          obtain ⟨-, -, -, -, hlive, -, -⟩ := passTurn_cases hpass
          rw [hcur] at hlive
          exact hlive (hgone hx)

-- The state of a round since x was chosen: y has had its turn exactly when it
-- no longer stands before x in the order of the search.
def Round (x y : α) (r : Rota α) (k : ℕ) : Prop :=
  ∃ ahead behind, order r = ahead ++ x :: behind ∧ (y ∈ ahead ∧ k = 0 ∨ y ∉ ahead ∧ k = 1)

-- Who joins stands behind everyone, which moves nobody past x.
theorem round_join {m : α} (hn : r.queue.Nodup) (hc : r.current ∈ r.queue) (hm : m ∉ r.queue)
    (hy : y ∈ r.queue) (h : Round x y r k) :
    Round x y { r with queue := r.queue ++ [m] } k := by
  obtain ⟨ahead, after, hsplit, hcount⟩ := h
  obtain ⟨before, behind, hqueue⟩ := List.append_of_mem hc
  have hn' : (r.queue ++ [m]).Nodup :=
    List.Nodup.append hn (List.nodup_singleton _) (by simpa using hm)
  have ho := order_eq _ _ hqueue hn
  have ho' : order { r with queue := r.queue ++ [m] } =
      (behind ++ [m]) ++ (before ++ [r.current]) :=
    order_eq (r := { r with queue := r.queue ++ [m] }) _ _ (by simp [hqueue]) hn'
  have hym : y ≠ m := fun he => hm (he ▸ hy)
  rw [hsplit] at ho
  rcases append_split ho.symm with ⟨mid, hahead, hrest⟩ | ⟨mid, hbehind, hrest⟩
  · refine ⟨behind ++ m :: mid, after, by simp [ho', hrest], ?_⟩
    simpa [hahead, hym] using hcount
  · exact ⟨ahead, mid ++ m :: (before ++ [r.current]), by simp [ho', hbehind], hcount⟩

-- Choosing a member other than x moves exactly this one past x, as those
-- passed over have left.
theorem round_choose {gone : List α} (hn : r.queue.Nodup) (hc : r.current ∈ r.queue)
    (hp : passTurn { r with gone := gone } = some r') (hx : x ∉ r'.gone) (hy : y ∉ r'.gone)
    (hne : r'.current ≠ x) (h : Round x y r k) :
    Round x y r' (k + [r'.current].count y) := by
  obtain ⟨ahead, after, hsplit, hcount⟩ := h
  obtain ⟨passed, rest, hsearch, hpassed, -, hq, hg⟩ := passTurn_cases hp
  have horder := order_passTurn hn hc hsearch hq
  have hnot : x ∉ passed := fun hin => hx (hg ▸ hpassed x hin)
  have hover : y ∉ passed := fun hin => hy (hg ▸ hpassed y hin)
  have hboth : ahead ++ x :: after = passed ++ r'.current :: rest := hsplit.symm.trans hsearch
  obtain ⟨mid, hahead, hrest⟩ : ∃ mid, ahead = passed ++ r'.current :: mid ∧
      rest = mid ++ x :: after := by
    rcases append_split hboth with ⟨mid, hpass, hafter⟩ | ⟨mid, hahead, hrest⟩
    · cases mid with
      | nil => exact absurd (List.cons.inj hafter).1.symm hne
      | cons z mid =>
          obtain ⟨rfl, -⟩ := List.cons.inj hafter
          exact absurd (by simp [hpass]) hnot
    · exact ⟨mid, hahead, hrest⟩
  refine ⟨mid, after ++ (passed ++ [r'.current]), by simp [horder, hrest], ?_⟩
  have hno := nodup_order hn
  have hnew : r'.current ∉ mid := by
    rw [hsplit, hahead] at hno
    simp only [List.append_assoc, List.cons_append] at hno
    have hcons := List.nodup_cons.mp (List.nodup_append.mp hno).2.1
    exact fun hin => hcons.1 (List.mem_append_left _ hin)
  by_cases hyc : y = r'.current
  · right
    subst hyc
    have hk : k = 0 := by simpa [hahead] using hcount
    exact ⟨hnew, by simp [hk]⟩
  · have hcz : [r'.current].count y = 0 := List.count_eq_zero.mpr (by simpa using hyc)
    simpa [hahead, hover, hyc, hcz] using hcount

-- The next choice of x passes over everyone still before it.
theorem round_end {gone : List α} (hn : r.queue.Nodup) (hc : r.current ∈ r.queue)
    (hp : passTurn { r with gone := gone } = some r') (hx : r'.current = x)
    (hgone : gone ⊆ r.current :: r.gone) (hy : y ∉ r.gone) (h : Round x y r k) :
    k = 1 := by
  obtain ⟨ahead, after, hsplit, hcount⟩ := h
  obtain ⟨passed, rest, hsearch, hpassed, -, -, -⟩ := passTurn_cases hp
  obtain ⟨rfl, rfl⟩ := order_split_unique hn hsplit (hx ▸ hsearch)
  rcases hcount with ⟨hin, -⟩ | ⟨-, hk⟩
  · -- Only the current member can have left just now, and it stands last.
    have hcur : y = r.current := by
      rcases List.mem_cons.mp (hgone (hpassed y hin)) with he | hin
      · exact he
      · exact absurd hin hy
    obtain ⟨before, behind, hqueue⟩ := List.append_of_mem hc
    have hlast : (x :: after).getLast? = some r.current := by
      have ho := congrArg List.getLast? ((order_eq _ _ hqueue hn).symm.trans hsplit)
      simpa [List.getLast?_append] using ho.symm
    have hno := nodup_order hn
    rw [hsplit] at hno
    exact absurd rfl ((List.nodup_append.mp hno).2.2 _ (hcur ▸ hin) _ (List.mem_of_getLast? hlast))
  · exact hk

theorem round_step (hs : Sound anchor r) (hp : Permitted anchor r e) (h : step r e = some r')
    (hy : y ∈ r.queue) (hyl : y ∉ r'.gone) (hxl : x ∉ r'.gone)
    (hx : x ∉ (chosen e r').toList) (hr : Round x y r k) :
    Round x y r' (k + (chosen e r').toList.count y) := by
  cases hc : chosen e r' with
  | none =>
      cases e with
      | idle =>
          cases h
          simpa using hr
      | join member =>
          cases h
          simpa using round_join hs.nodup hs.current hp hy hr
      | turn => cases hc
      | leave => cases hc
  | some z =>
      obtain ⟨rfl, gone, hpass, -, -⟩ := step_chosen h hc
      rw [hc] at hx
      have hne : r'.current ≠ x := fun he => hx (by simp [he])
      exact round_choose hs.nodup hs.current hpass hxl hyl hne hr

theorem round_run (hs : Sound anchor r) (hp : PermittedRun step (Permitted anchor) r es)
    (h : run step r es = some r') (hy : y ∈ r.queue) (hyl : y ∉ r'.gone) (hxl : x ∉ r'.gone)
    (hx : x ∉ shown step chosen r es) (hr : Round x y r k) :
    Round x y r' (k + (shown step chosen r es).count y) ∧ Sound anchor r' := by
  induction es generalizing r k with
  | nil =>
      cases h
      exact ⟨hr, hs⟩
  | cons e es ih =>
      cases he : step r e with
      | none => simp [run, he] at h
      | some r1 =>
          simp only [run, he] at h
          simp only [shown, he, List.mem_append, not_or] at hx ⊢
          obtain ⟨hgone, -⟩ := run_grows h
          have hsound : Sound anchor r1 := by
            obtain ⟨r2, he2, h2⟩ := step_sound hs e hp.1
            cases he.symm.trans he2
            exact h2
          have hr1 := round_step hs hp.1 he hy (fun hin => hyl (hgone hin))
            (fun hin => hxl (hgone hin)) hx.1 hr
          have hrest := ih hsound (hp.2 r1 he) h ((step_grows he).2 hy) hx.2 hr1
          rwa [Nat.add_assoc, ← List.count_append] at hrest

-- Between two consecutive choices of x every other member that stays is
-- chosen exactly once. It is enough that it is there at the first one and has
-- not left when the events before the second one are over.
theorem chosen_once {r'' : Rota α} (hs : Sound anchor r)
    (hp : PermittedRun step (Permitted anchor) r es) (h : run step r es = some r')
    (hcur : r.current = x) (hx : x ∉ shown step chosen r es) (hlast : step r' e = some r'')
    (hc : chosen e r'' = some x) (hy : y ∈ r.queue) (hyl : y ∉ r'.gone) (hne : y ≠ x) :
    (shown step chosen r es).count y = 1 := by
  obtain ⟨hx'', gone, hpass, hgone, hpassed⟩ := step_chosen hlast hc
  have hxl : x ∉ r'.gone := by
    obtain ⟨-, -, -, -, hlive, -, hg⟩ := passTurn_cases hpass
    rw [hx''] at hlive
    exact fun hin => hlive (hgone hin)
  have hstart : Round x y r 0 := by
    obtain ⟨before, behind, hqueue⟩ := List.append_of_mem hs.current
    refine ⟨behind ++ before, [], by simp [order_eq _ _ hqueue hs.nodup, hcur], Or.inl ⟨?_, rfl⟩⟩
    rw [hqueue, hcur] at hy
    have hor : y ∈ before ∨ y ∈ behind := by simpa [hne] using hy
    exact List.mem_append.mpr hor.symm
  obtain ⟨hround, hsound⟩ := round_run hs hp h hy hyl hxl hx hstart
  have hk := round_end hsound.nodup hsound.current hpass hx'' hpassed hyl hround
  omega

end Fairness

end Miyabi.Base.RoundRobin
