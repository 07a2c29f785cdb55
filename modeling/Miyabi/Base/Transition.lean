import Mathlib.Logic.Basic

namespace Miyabi.Base.Transition

variable {σ ι : Type}

-- A run of a step function that may fail to return.
def run (step : σ → ι → Option σ) : σ → List ι → Option σ
  | s, [] => some s
  | s, a :: rest =>
      match step s a with
      | none => none
      | some s' => run step s' rest

-- Every action of the run is permitted in the state it is taken in.
def PermittedRun (step : σ → ι → Option σ) (permitted : σ → ι → Prop) : σ → List ι → Prop
  | _, [] => True
  | s, a :: rest =>
      permitted s a ∧ ∀ s', step s a = some s' → PermittedRun step permitted s' rest

-- What the steps of a run show, in order.
def shown {β : Type} (step : σ → ι → Option σ) (shows : ι → σ → Option β) : σ → List ι → List β
  | _, [] => []
  | s, a :: rest =>
      match step s a with
      | none => []
      | some s' => (shows a s').toList ++ shown step shows s' rest

variable {step : σ → ι → Option σ} {permitted : σ → ι → Prop}

theorem run_append (s : σ) (front back : List ι) :
    run step s (front ++ back) = (run step s front).bind (fun s' => run step s' back) := by
  induction front generalizing s with
  | nil => rfl
  | cons a rest ih =>
      simp only [List.cons_append, run]
      cases step s a with
      | none => rfl
      | some s' => exact ih s'

theorem run_single (s : σ) (a : ι) : run step s [a] = step s a := by
  rw [run]
  cases step s a with
  | none => rfl
  | some s' => rfl

theorem permittedRun_append (s : σ) (front back : List ι) :
    PermittedRun step permitted s (front ++ back) ↔ PermittedRun step permitted s front ∧
      ∀ s', run step s front = some s' → PermittedRun step permitted s' back := by
  induction front generalizing s with
  | nil =>
      simp only [List.nil_append, PermittedRun, run, Option.some.injEq, true_and]
      exact ⟨fun h s' he => he ▸ h, fun h => h s rfl⟩
  | cons a rest ih =>
      simp only [List.cons_append, PermittedRun, run]
      cases step s a with
      | none => simp
      | some s1 => simp [ih s1, and_assoc]

theorem permittedRun_and {permitted' : σ → ι → Prop} {s : σ} {actions : List ι}
    (h : PermittedRun step permitted s actions) (h' : PermittedRun step permitted' s actions) :
    PermittedRun step (fun s a => permitted s a ∧ permitted' s a) s actions := by
  induction actions generalizing s with
  | nil => trivial
  | cons a rest ih => exact ⟨⟨h.1, h'.1⟩, fun s1 he => ih (h.2 s1 he) (h'.2 s1 he)⟩

theorem permittedRun_true (s : σ) (actions : List ι) :
    PermittedRun step (fun _ _ => True) s actions := by
  induction actions generalizing s with
  | nil => trivial
  | cons a rest ih => exact ⟨trivial, fun s1 _ => ih s1⟩

-- A step that always returns.
theorem run_total (f : σ → ι → σ) (s : σ) (actions : List ι) :
    run (fun s a => some (f s a)) s actions = some (actions.foldl f s) := by
  induction actions generalizing s with
  | nil => rfl
  | cons a rest ih => exact ih (f s a)

instance decidablePermittedRun [h : ∀ s a, Decidable (permitted s a)] (s : σ) :
    ∀ actions : List ι, Decidable (PermittedRun step permitted s actions)
  | [] => isTrue trivial
  | a :: rest =>
      match he : step s a with
      | none => decidable_of_iff (permitted s a) (by simp [PermittedRun, he])
      | some s' =>
          have : Decidable (PermittedRun step permitted s' rest) := decidablePermittedRun s' rest
          decidable_of_iff (permitted s a ∧ PermittedRun step permitted s' rest)
            (by simp [PermittedRun, he])

-- An invariant that lets every permitted step return, and that the step keeps,
-- lets every permitted run return and holds at its end.
theorem run_of_progress (inv : σ → Prop)
    (hstep : ∀ s a, inv s → permitted s a → ∃ s', step s a = some s' ∧ inv s')
    (s : σ) (actions : List ι) (hs : inv s) (hp : PermittedRun step permitted s actions) :
    ∃ s', run step s actions = some s' ∧ inv s' := by
  induction actions generalizing s with
  | nil => exact ⟨s, rfl, hs⟩
  | cons a rest ih =>
      obtain ⟨s1, he, h1⟩ := hstep s a hs hp.1
      obtain ⟨s', hr, h'⟩ := ih s1 h1 (hp.2 s1 he)
      refine ⟨s', ?_, h'⟩
      simp only [run, he]
      exact hr

-- Forward simulation by an abstract model that always returns.
theorem run_simulates {α : Type} (abstract : α → ι → α) (rel : σ → α → Prop)
    (hstep : ∀ s a i s', rel s a → permitted s i → step s i = some s' → rel s' (abstract a i))
    (s s' : σ) (a : α) (actions : List ι) (hs : rel s a) (hp : PermittedRun step permitted s actions)
    (hr : run step s actions = some s') : rel s' (actions.foldl abstract a) := by
  induction actions generalizing s a with
  | nil =>
      cases hr
      exact hs
  | cons i rest ih =>
      cases he : step s i with
      | none => simp [run, he] at hr
      | some s1 =>
          simp only [run, he] at hr
          exact ih s1 (abstract a i) (hstep s a i s1 hs hp.1 he) (hp.2 s1 he) hr

-- An invariant kept by every permitted step that returns holds at the end of
-- every permitted run that returns.
theorem run_of_preservation (inv : σ → Prop)
    (hstep : ∀ s a s', inv s → permitted s a → step s a = some s' → inv s')
    (s s' : σ) (actions : List ι) (hs : inv s) (hp : PermittedRun step permitted s actions)
    (hr : run step s actions = some s') : inv s' := by
  induction actions generalizing s with
  | nil =>
      cases hr
      exact hs
  | cons a rest ih =>
      cases he : step s a with
      | none => simp [run, he] at hr
      | some s1 =>
          simp only [run, he] at hr
          exact ih s1 (hstep s a s1 hs hp.1 he) (hp.2 s1 he) hr

-- Under an invariant that the permitted steps keep, a stronger permission for
-- each step is one for the whole run.
theorem permittedRun_imp (inv : σ → Prop) {permitted' : σ → ι → Prop}
    (hstep : ∀ s a s', inv s → permitted s a → step s a = some s' → inv s')
    (himp : ∀ s a, inv s → permitted s a → permitted' s a) (s : σ) (actions : List ι) (hs : inv s)
    (hp : PermittedRun step permitted s actions) : PermittedRun step permitted' s actions := by
  induction actions generalizing s with
  | nil => trivial
  | cons a rest ih =>
      refine ⟨himp s a hs hp.1, fun s1 he => ?_⟩
      exact ih s1 (hstep s a s1 hs hp.1 he) (hp.2 s1 he)

-- Where a step under the condition keeps the invariant, and any other one returns a state that is not
-- good, the states of a run are good exactly when each of its steps is under the condition.
theorem prefixes_iff {inv good : σ → Prop} {cond : σ → ι → Prop} (hgood : ∀ s, inv s → good s)
    (hkeep : ∀ s a s', inv s → permitted s a → cond s a → step s a = some s' → inv s')
    (hbreak : ∀ s a, inv s → permitted s a → ¬cond s a → ∃ s', step s a = some s' ∧ ¬good s')
    {s : σ} {actions : List ι} (hs : inv s) (hp : PermittedRun step permitted s actions) :
    (∀ front back s', actions = front ++ back → run step s front = some s' → good s') ↔
      PermittedRun step cond s actions := by
  constructor
  · intro hall
    induction actions generalizing s with
    | nil => trivial
    | cons a rest ih =>
      have hcond : cond s a := by
        apply Classical.byContradiction
        intro hnot
        obtain ⟨s', he, hbad⟩ := hbreak s a hs hp.1 hnot
        exact hbad (hall [a] rest s' rfl (by rw [run_single, he]))
      refine ⟨hcond, fun s1 he => ?_⟩
      refine ih (hkeep s a s1 hs hp.1 hcond he) (hp.2 s1 he) fun front back s' heq hr => ?_
      refine hall (a :: front) back s' (by rw [heq, List.cons_append]) ?_
      simp only [run, he]
      exact hr
  · intro hcond front back s' heq hr
    subst heq
    have hboth := permittedRun_and ((permittedRun_append s front back).mp hp).1
      ((permittedRun_append s front back).mp hcond).1
    exact hgood s' (run_of_preservation inv (fun s a s' hs hp he => hkeep s a s' hs hp.1 hp.2 he)
      s s' front hs hboth hr)

section Refinement

variable {τ κ β : Type} {step' : τ → κ → Option τ} {permitted' : τ → κ → Prop}
variable {shows : ι → σ → Option β} {shows' : κ → τ → Option β}

-- Steps that keep two systems related, and show the same, make runs that do.
theorem run_refines (rel : σ → τ → Prop) (event : ι → κ)
    (hstep : ∀ s t i, rel s t → permitted s i → permitted' t (event i) ∧
      ∃ s' t', step s i = some s' ∧ step' t (event i) = some t' ∧ rel s' t' ∧
        shows i s' = shows' (event i) t')
    (s : σ) (t : τ) (actions : List ι) (hs : rel s t) (hp : PermittedRun step permitted s actions) :
    PermittedRun step' permitted' t (actions.map event) ∧
      ∃ s' t', run step s actions = some s' ∧ run step' t (actions.map event) = some t' ∧
        rel s' t' ∧ shown step shows s actions = shown step' shows' t (actions.map event) := by
  induction actions generalizing s t with
  | nil => exact ⟨trivial, s, t, rfl, rfl, hs, rfl⟩
  | cons i rest ih =>
      obtain ⟨hperm, s1, t1, he, he', h1, hshow⟩ := hstep s t i hs hp.1
      obtain ⟨hpr, s', t', hr, hr', h', hshown⟩ := ih s1 t1 h1 (hp.2 s1 he)
      refine ⟨⟨hperm, ?_⟩, s', t', ?_, ?_, h', ?_⟩
      · intro t2 he2
        cases he'.symm.trans he2
        exact hpr
      · simp only [run, he]
        exact hr
      · simp only [List.map_cons, run, he']
        exact hr'
      · simp only [List.map_cons, shown, he, he', hshow, hshown]

-- Two systems that take the same actions, and stop together.
theorem run_lockstep {step' : τ → ι → Option τ} {permitted' : τ → ι → Prop} (rel : σ → τ → Prop)
    (hstep : ∀ s t i, rel s t → permitted' t i → Option.Rel rel (step s i) (step' t i))
    (s : σ) (t : τ) (actions : List ι) (hs : rel s t) (hp : PermittedRun step' permitted' t actions) :
    Option.Rel rel (run step s actions) (run step' t actions) := by
  induction actions generalizing s t with
  | nil => exact .some hs
  | cons i rest ih =>
      obtain ⟨hperm, hnext⟩ := hp
      have hturn := hstep s t i hs hperm
      rw [run, run]
      cases hstep' : step' t i with
      | none =>
          rw [hstep'] at hturn
          generalize step s i = r at hturn
          cases hturn
          exact .none
      | some t1 =>
          rw [hstep'] at hturn
          generalize step s i = r at hturn
          cases hturn with
          | some h1 => exact ih _ t1 h1 (hnext t1 hstep')

end Refinement

end Miyabi.Base.Transition
