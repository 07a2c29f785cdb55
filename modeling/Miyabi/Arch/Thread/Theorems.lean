import Miyabi.Arch.Thread.Steps

namespace Miyabi.Arch.Thread

open Miyabi.Base Miyabi.Base.Linked Miyabi.Base.RoundRobin Miyabi.Base.Transition

variable {sym : Symbols} {s s' : System} {op : Op} {r : Rota (BitVec 64)}

-- The callers' side of a run: kmalloc returns NULL or a block that is not in
-- use, and the boot thread does not exit.
def Permitted (sym : Symbols) (s : System) : Op → Prop
  | .kthreadCreate thread _ _ => thread ∉ sym.mainKernelThread :: s.created
  | .kthreadExit => s.kernel.runningThread ≠ sym.mainKernelThread
  | _ => True

instance (sym : Symbols) (s : System) : ∀ op, Decidable (Permitted sym s op)
  | .compute _ _ => isTrue trivial
  | .kthreadCreate _ _ _ => inferInstanceAs (Decidable (_ ∉ _))
  | .schedule => isTrue trivial
  | .kthreadExit => inferInstanceAs (Decidable (_ ≠ _))

-- The thread that schedule has selected in an operation that calls it.
def selected : Op → System → Option (BitVec 64)
  | .schedule, s => some s.kernel.runningThread
  | .kthreadExit, s => some s.kernel.runningThread
  | _, _ => none

-- What an operation is for the rota of the threads.
def eventOf : Op → Event (BitVec 64)
  | .compute _ _ => .idle
  | .kthreadCreate thread stackRaw _ => if thread = 0 ∨ stackRaw = 0 then .idle else .join thread
  | .schedule => .turn
  | .kthreadExit => .leave

-- The links and states of the threads are those of the rota.
structure Follows (sym : Symbols) (s : System) (r : Rota (BitVec 64)) : Prop where
  queue : r.queue = sym.mainKernelThread :: s.created
  links : Links s.kernel s.kernel.threadQueueHead r.queue
  current : r.current = s.kernel.runningThread
  states : ∀ t ∈ r.queue, (s.kernel.threads t).state = stateIn r.gone r.current t
  sound : Sound sym.mainKernelThread r

theorem Follows.created_ne (h : Follows sym s r) {t : BitVec 64} (ht : t ∈ s.created) :
    t ≠ sym.mainKernelThread := by
  have hn := h.sound.nodup
  rw [h.queue] at hn
  exact fun he => (List.nodup_cons.mp hn).1 (he ▸ ht)

theorem follows_start (k : State) :
    Follows sym (start sym k) ⟨[sym.mainKernelThread], sym.mainKernelThread, []⟩ := by
  refine ⟨rfl, ⟨rfl, sym.main_ne_null, ?_⟩, rfl, ?_, ?_⟩
  · simp [start, initScheduler, Segment, setThread]
  · intro t ht
    obtain rfl := List.mem_singleton.mp ht
    simp [start, initScheduler, stateIn, setThread]
  · exact ⟨by simp, rfl, by simp, by simp, by simp, by simp⟩

-- Both callers of schedule let the turn pass.
theorem follows_passTurn {k : State} {r' : Rota (BitVec 64)} {gone : List (BitVec 64)}
    (h : Follows sym s r) (hl : Links k k.threadQueueHead r.queue)
    (hc : k.runningThread = r.current)
    (hs : ∀ t ∈ r.queue, (k.threads t).state = stateIn gone r.current t)
    (hp : passTurn { r with gone := gone } = some r') (hr : Sound sym.mainKernelThread r') :
    ∃ k', schedule k = some k' ∧ Follows sym { s with kernel := k' } r' := by
  obtain ⟨-, -, -, -, -, hq, hg⟩ := passTurn_cases hp
  have hp' : passTurn ⟨r.queue, k.runningThread, gone⟩ = some r' := by rw [hc]; exact hp
  rw [← hc] at hs
  obtain ⟨k', he, hhead, hrun, hl', hs'⟩ :=
    schedule_spec hl h.sound.nodup (hc ▸ h.sound.current) hs hp'
  refine ⟨k', he, ?_, ?_, hrun.symm, ?_, hr⟩
  · exact hq.trans h.queue
  · rw [hq]
    exact hl'
  · rw [hq, hg]
    exact hs'

-- Letting the running thread die before.
theorem states_setState {k : State} {queue gone : List (BitVec 64)}
    (hs : ∀ t ∈ queue, (k.threads t).state = stateIn gone k.runningThread t) :
    ∀ t ∈ queue, ((setState k.runningThread .dead k).threads t).state =
      stateIn (k.runningThread :: gone) k.runningThread t := by
  intro t ht
  rw [setState_threads]
  by_cases he : t = k.runningThread
  · simp [he, stateIn]
  · simp [he, stateIn, hs t ht]

theorem follows_join {thread : BitVec 64} (stackRaw entryPoint : BitVec 64) (h : Follows sym s r)
    (ht : thread ≠ 0) (hstack : stackRaw ≠ 0) (hnew : thread ∉ r.queue)
    (hr : Sound sym.mainKernelThread { r with queue := r.queue ++ [thread] }) :
    ∃ k', kthreadCreate sym thread stackRaw entryPoint s.kernel = some (thread, k') ∧
      Follows sym ⟨k', s.created ++ [thread]⟩ { r with queue := r.queue ++ [thread] } := by
  have hne : r.queue ≠ [] := List.ne_nil_of_mem h.sound.current
  obtain ⟨k', he, hrun, hl, hready, hold⟩ :=
    kthreadCreate_spec sym entryPoint ht hstack hne h.sound.nodup hnew h.links
  refine ⟨k', he, ?_, hl, h.current.trans hrun.symm, ?_, hr⟩
  · rw [h.queue]
    rfl
  · intro t hin
    rcases List.mem_append.mp hin with hin | hin
    · rw [hold t hin]
      exact h.states t hin
    · obtain rfl := List.mem_singleton.mp hin
      have hgone : t ∉ r.gone := fun hg => hnew (h.sound.gone_queued t hg)
      have hcur : t ≠ r.current := fun hc => hnew (hc ▸ h.sound.current)
      rw [hready, stateIn, if_neg hgone, if_neg hcur]

-- An operation does to the threads what its event does to the rota.
theorem step_follows (s : System) (r : Rota (BitVec 64)) (op : Op) (h : Follows sym s r)
    (hp : Permitted sym s op) :
    RoundRobin.Permitted sym.mainKernelThread r (eventOf op) ∧
      ∃ s' r', step sym s op = some s' ∧ RoundRobin.step r (eventOf op) = some r' ∧
        Follows sym s' r' ∧ selected op s' = chosen (eventOf op) r' := by
  cases op with
  | compute registers mem =>
      exact ⟨trivial, _, r, rfl, rfl, ⟨h.queue, h.links, h.current, h.states, h.sound⟩, rfl⟩
  | kthreadCreate thread stackRaw entryPoint =>
      have hnew : thread ∉ r.queue := by
        rw [h.queue]
        exact hp
      by_cases hfail : thread = 0 ∨ stackRaw = 0
      · have he := kthreadCreate_fails (s := s.kernel) sym entryPoint hfail
        simp only [eventOf, if_pos hfail]
        exact ⟨trivial, s, r, by rw [step, he]; rfl, rfl, h, rfl⟩
      · have hboth : thread ≠ 0 ∧ stackRaw ≠ 0 := not_or.mp hfail
        have hperm : RoundRobin.Permitted sym.mainKernelThread r (.join thread) := hnew
        obtain ⟨r', hr', hsound⟩ := step_sound h.sound (.join thread) hperm
        cases hr'
        obtain ⟨k', he, hfollows⟩ :=
          follows_join stackRaw entryPoint h hboth.1 hboth.2 hnew hsound
        simp only [eventOf, if_neg hfail]
        refine ⟨hperm, _, _, ?_, rfl, hfollows, rfl⟩
        rw [step, he]
        simpa using hboth.1
  | schedule =>
      obtain ⟨r', hr', hsound⟩ := step_sound h.sound .turn trivial
      obtain ⟨k', he, hfollows⟩ := follows_passTurn h h.links h.current.symm h.states hr' hsound
      refine ⟨trivial, _, r', by rw [step, he]; rfl, hr', hfollows, ?_⟩
      exact congrArg some hfollows.current.symm
  | kthreadExit =>
      have hperm : RoundRobin.Permitted sym.mainKernelThread r .leave := by
        show r.current ≠ sym.mainKernelThread
        rw [h.current]
        exact hp
      obtain ⟨r', hr', hsound⟩ := step_sound h.sound .leave hperm
      have hstates := states_setState (h.current ▸ h.states)
      have hlinks : Links (setState s.kernel.runningThread .dead s.kernel)
          s.kernel.threadQueueHead r.queue := by
        refine links_congr h.links (fun t _ => ?_)
        rw [setState_threads]
        split <;> rfl
      rw [← h.current] at hstates hlinks
      obtain ⟨k', he, hfollows⟩ := follows_passTurn h hlinks h.current.symm hstates hr' hsound
      refine ⟨hperm, _, r', ?_, hr', hfollows, ?_⟩
      · rw [h.current] at he
        rw [step, kthreadExit, he]
        rfl
      · exact congrArg some hfollows.current.symm

-- Every run has a run of the rota beside it.
theorem run_follows {ops : List Op} (h : Follows sym s r)
    (hp : PermittedRun (step sym) (Permitted sym) s ops) :
    PermittedRun RoundRobin.step (RoundRobin.Permitted sym.mainKernelThread) r (ops.map eventOf) ∧
      ∃ s' r', run (step sym) s ops = some s' ∧
        run RoundRobin.step r (ops.map eventOf) = some r' ∧ Follows sym s' r' ∧
        shown (step sym) selected s ops = shown RoundRobin.step chosen r (ops.map eventOf) :=
  run_refines (Follows sym) eventOf step_follows s r ops h hp

-- What holds between two operations.
structure Scheduled (sym : Symbols) (s : System) : Prop where
  queue : Links s.kernel s.kernel.threadQueueHead (sym.mainKernelThread :: s.created)
  acyclic : (sym.mainKernelThread :: s.created).Nodup
  queued : s.kernel.runningThread ∈ sym.mainKernelThread :: s.created
  running : ∀ t ∈ sym.mainKernelThread :: s.created,
    (s.kernel.threads t).state = .running ↔ t = s.kernel.runningThread
  others : ∀ t ∈ sym.mainKernelThread :: s.created, t ≠ s.kernel.runningThread →
    (s.kernel.threads t).state = .ready ∨ (s.kernel.threads t).state = .dead

theorem stateIn_running {gone : List (BitVec 64)} {current t : BitVec 64} (hc : current ∉ gone) :
    stateIn gone current t = .running ↔ t = current := by
  unfold stateIn
  by_cases ht : t = current
  · simp [ht, hc]
  · simp only [ht, if_false]
    split <;> simp

theorem Follows.scheduled (h : Follows sym s r) : Scheduled sym s := by
  have hrunning : ∀ t ∈ r.queue,
      (s.kernel.threads t).state = .running ↔ t = s.kernel.runningThread := by
    intro t ht
    rw [h.states t ht, stateIn_running h.sound.live, h.current]
  have hqueue := h.queue
  refine ⟨hqueue ▸ h.links, hqueue ▸ h.sound.nodup, ?_, hqueue ▸ hrunning, ?_⟩
  · rw [← h.current, ← hqueue]
    exact h.sound.current
  · intro t ht hne
    cases hst : (s.kernel.threads t).state with
    | ready => exact Or.inl rfl
    | dead => exact Or.inr rfl
    | running => exact absurd ((hrunning t (hqueue ▸ ht)).mp hst) hne

-- Every run returns, so that the loops of schedule and kthread_create end, and
-- a dead thread stays dead and is not selected.
theorem scheduler_state_kept (sym : Symbols) (k : State) (ops : List Op)
    (hp : PermittedRun (step sym) (Permitted sym) (start sym k) ops) :
    ∃ s, run (step sym) (start sym k) ops = some s ∧ Scheduled sym s ∧
      ∀ t ∈ sym.mainKernelThread :: s.created, (s.kernel.threads t).state = .dead →
        ∀ more s', PermittedRun (step sym) (Permitted sym) s more →
          run (step sym) s more = some s' →
          (s'.kernel.threads t).state = .dead ∧ t ∉ shown (step sym) selected s more := by
  obtain ⟨-, s, r, hrun, -, h, -⟩ := run_follows (follows_start k) hp
  refine ⟨s, hrun, h.scheduled, ?_⟩
  intro t ht hdead more s' hpm hrm
  have htq : t ∈ r.queue := h.queue ▸ ht
  have hgone : t ∈ r.gone := by
    rw [h.states t htq] at hdead
    exact stateIn_dead.mp hdead
  obtain ⟨-, s2, r', hrun', hrota, h', hshown⟩ := run_follows h hpm
  cases hrm.symm.trans hrun'
  obtain ⟨hg, hq⟩ := run_grows hrota
  refine ⟨?_, ?_⟩
  · rw [h'.states t (hq htq)]
    exact stateIn_dead.mpr (hg hgone)
  · rw [hshown]
    exact gone_not_shown hrota hgone

-- A machine with zero registers and memory, and symbols for it.
def zeroState : State :=
  ⟨⟨0, 0, 0, 0, 0, 0, 0, 0⟩, fun _ => 0, fun _ => ⟨0, 0, .ready, 0, 0⟩, 0, 0, 1⟩

def someSymbols : Symbols := ⟨0x1000, 0x2000, by decide⟩

-- A thread that is created, runs and exits, and one that stays ready.
def createAndExit : List Op :=
  [.kthreadCreate 0x3000 0x10000 0x4000, .kthreadCreate 0x3100 0x20000 0x4000, .schedule,
    .kthreadExit, .schedule]

theorem scheduler_state_kept_exit :
    ∃ s, run (step someSymbols) (start someSymbols zeroState) createAndExit = some s ∧
      Scheduled someSymbols s :=
  let ⟨s, hr, hs, _⟩ :=
    scheduler_state_kept someSymbols zeroState createAndExit (by decide +kernel)
  ⟨s, hr, hs⟩

def Reachable (sym : Symbols) (s : System) : Prop :=
  ∃ k ops, PermittedRun (step sym) (Permitted sym) (start sym k) ops ∧
    run (step sym) (start sym k) ops = some s

theorem Reachable.follows (h : Reachable sym s) : ∃ r, Follows sym s r := by
  obtain ⟨k, ops, hp, hrun⟩ := h
  obtain ⟨-, s', r, hrun', -, hf, -⟩ := run_follows (follows_start k) hp
  cases hrun.symm.trans hrun'
  exact ⟨r, hf⟩

def OnQueue (s : System) (t : BitVec 64) : Prop :=
  ∃ queue, Links s.kernel s.kernel.threadQueueHead queue ∧ t ∈ queue

theorem Follows.mem_queue (h : Follows sym s r) {t : BitVec 64} : OnQueue s t ↔ t ∈ r.queue := by
  constructor
  · rintro ⟨queue, hl, ht⟩
    have hne : ∀ l, Links s.kernel s.kernel.threadQueueHead l → ∀ b ∈ l, b ≠ 0 :=
      fun _ hl _ hb => links_ne_zero hl hb
    rwa [segment_unique (fun _ _ _ _ he => he) (hne _ h.links) (hne _ hl) h.links hl]
  · intro ht
    exact ⟨r.queue, h.links, ht⟩

-- A thread that is on the queue when x is selected, and not dead when x is
-- about to be selected again, has been selected exactly once in between.
theorem selected_once (sym : Symbols) (s0 s1 s2 s3 : System) (first last : Op)
    (between : List Op) (x y : BitVec 64) (h0 : Reachable sym s0) (hfirst : Permitted sym s0 first)
    (he1 : step sym s0 first = some s1) (hx1 : selected first s1 = some x)
    (hbetween : PermittedRun (step sym) (Permitted sym) s1 between)
    (he2 : run (step sym) s1 between = some s2)
    (hnot : x ∉ shown (step sym) selected s1 between) (hlast : Permitted sym s2 last)
    (he3 : step sym s2 last = some s3) (hx3 : selected last s3 = some x) (hne : y ≠ x)
    (hqueue : OnQueue s1 y) (hlive : (s2.kernel.threads y).state ≠ .dead) :
    (shown (step sym) selected s1 between).count y = 1 := by
  obtain ⟨r0, h0⟩ := h0.follows
  obtain ⟨-, s1', r1, hstep1, -, h1, hsel1⟩ := step_follows s0 r0 first h0 hfirst
  cases he1.symm.trans hstep1
  obtain ⟨hperm, s2', r2, hrun, hrota, h2, hshown⟩ := run_follows h1 hbetween
  cases he2.symm.trans hrun
  obtain ⟨-, s3', r3, hstep3, hrota3, h3, hsel3⟩ := step_follows s2 r2 last h2 hlast
  cases he3.symm.trans hstep3
  have hcur : r1.current = x := by
    rw [h1.current]
    cases first with
    | compute registers mem => cases hx1
    | kthreadCreate thread stackRaw entryPoint => cases hx1
    | schedule => exact Option.some.inj hx1
    | kthreadExit => exact Option.some.inj hx1
  have hy : y ∈ r1.queue := h1.mem_queue.mp hqueue
  have hgone : y ∉ r2.gone := by
    rw [h2.states y ((run_grows hrota).2 hy)] at hlive
    exact fun hin => hlive (stateIn_dead.mpr hin)
  rw [hshown] at hnot ⊢
  exact chosen_once h1.sound hperm hrota hcur hnot hrota3 (hsel3.symm.trans hx3) hy hgone hne

-- The system after operations of a run that returns.
def afterOps (ops : List Op) : System :=
  (run (step someSymbols) (start someSymbols zeroState) ops).getD (start someSymbols zeroState)

theorem afterOps_run (ops : List Op)
    (h : (run (step someSymbols) (start someSymbols zeroState) ops).isSome = true) :
    run (step someSymbols) (start someSymbols zeroState) ops = some (afterOps ops) := by
  obtain ⟨s, hs⟩ := Option.isSome_iff_exists.mp h
  simp [afterOps, hs]

theorem afterOps_more (ops more : List Op)
    (h : (run (step someSymbols) (start someSymbols zeroState) ops).isSome = true)
    (h' : (run (step someSymbols) (start someSymbols zeroState) (ops ++ more)).isSome = true) :
    run (step someSymbols) (afterOps ops) more = some (afterOps (ops ++ more)) := by
  have hboth := afterOps_run _ h'
  rwa [run_append, afterOps_run ops h] at hboth

theorem afterOps_reachable (ops : List Op)
    (h : (run (step someSymbols) (start someSymbols zeroState) ops).isSome = true)
    (hp : PermittedRun (step someSymbols) (Permitted someSymbols) (start someSymbols zeroState) ops) :
    Reachable someSymbols (afterOps ops) := ⟨zeroState, ops, hp, afterOps_run ops h⟩

theorem selected_once_created :
    (shown (step someSymbols) selected
      (afterOps [.kthreadCreate 0x3000 0x10000 0x4000, .schedule, .schedule])
      [.schedule]).count 0x3000 = 1 := by
  have hfirst := afterOps_more [.kthreadCreate 0x3000 0x10000 0x4000, .schedule] [.schedule]
    (by decide +kernel) (by decide +kernel)
  have hbetween := afterOps_more [.kthreadCreate 0x3000 0x10000 0x4000, .schedule, .schedule]
    [.schedule] (by decide +kernel) (by decide +kernel)
  have hlast := afterOps_more
    [.kthreadCreate 0x3000 0x10000 0x4000, .schedule, .schedule, .schedule] [.schedule]
    (by decide +kernel) (by decide +kernel)
  have hqueue : OnQueue (afterOps [.kthreadCreate 0x3000 0x10000 0x4000, .schedule, .schedule])
      0x3000 := by
    have hreach := afterOps_reachable [.kthreadCreate 0x3000 0x10000 0x4000, .schedule, .schedule]
      (by decide +kernel) (by decide +kernel)
    obtain ⟨r, hr⟩ := hreach.follows
    rw [hr.mem_queue, hr.queue]
    decide +kernel
  rw [run_single] at hfirst hlast
  refine selected_once someSymbols _ _ _ _ .schedule .schedule [.schedule] 0x1000 0x3000
    (afterOps_reachable _ (by decide +kernel) (by decide +kernel)) trivial hfirst ?_ ?_ hbetween ?_
    trivial hlast ?_ (by decide) hqueue ?_
  all_goals decide +kernel

end Miyabi.Arch.Thread
