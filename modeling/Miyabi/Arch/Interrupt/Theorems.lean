import Miyabi.Arch.Interrupt

namespace Miyabi.Arch.Interrupt

open Miyabi.Base Miyabi.Base.RoundRobin Miyabi.Base.Transition Miyabi.Arch.Thread

variable {sym : Symbols} {m m' : Machine} {op : Op}

-- Only the boot thread has run so far. The others wait at their entry points.
structure Alone (sym : Symbols) (m : Machine) : Prop where
  threads : ∃ r, Follows sym m.system r ∧ r.current = sym.mainKernelThread ∧ r.gone = []
  flag : m.holder = none ∧ m.interruptFlag = true ∨ m.holder = some sym.mainKernelThread
  waiting : ∀ t ∈ m.system.created, m.resume t = .entryPoint

theorem alone_start (k : State) (resume : BitVec 64 → Resume) : Alone sym (start sym k resume) :=
  ⟨⟨_, follows_start k, rfl, rfl⟩, Or.inl ⟨rfl, rfl⟩, fun _ ht => by cases ht⟩

theorem Alone.running (h : Alone sym m) :
    m.system.kernel.runningThread = sym.mainKernelThread := by
  obtain ⟨r, hf, hc, -⟩ := h.threads
  rw [← hf.current, hc]

theorem Alone.preemptible (h : Alone sym m) : Preemptible m := by
  intro _ hholder
  rw [h.running] at hholder
  rcases h.flag with ⟨-, hflag⟩ | hheld
  · exact hflag
  · exact absurd hheld hholder

theorem alone_create {thread stackRaw entryPoint : BitVec 64} (h : Alone sym m)
    (hp : Permitted sym m (.kthreadCreate thread stackRaw entryPoint))
    (hs : step sym m (.kthreadCreate thread stackRaw entryPoint) = some m') : Alone sym m' := by
  obtain ⟨r, hf, hc, hg⟩ := h.threads
  obtain ⟨-, s', r', hstep, hrota, hf', -⟩ :=
    step_follows m.system r (.kthreadCreate thread stackRaw entryPoint) hf hp
  simp only [step, hstep, Option.map_some, Option.some.injEq] at hs
  subst hs
  have hr' : (r' = r ∨ r' = { r with queue := r.queue ++ [thread] }) := by
    simp only [eventOf] at hrota
    split at hrota
    · exact Or.inl (Option.some.inj hrota).symm
    · exact Or.inr (Option.some.inj hrota).symm
  refine ⟨⟨r', hf', ?_, ?_⟩, h.flag, ?_⟩
  · rcases hr' with rfl | rfl <;> exact hc
  · rcases hr' with rfl | rfl <;> exact hg
  · intro t ht
    have hin : t ∈ r'.queue := by
      rw [hf'.queue]
      exact List.mem_cons_of_mem _ ht
    by_cases htt : t = thread
    · exact if_pos htt
    · refine (if_neg htt).trans (h.waiting t ?_)
      have hold : t ∈ r.queue := by
        rcases hr' with rfl | rfl
        · exact hin
        · simpa [htt] using hin
      have hmain : t ≠ sym.mainKernelThread := hf'.created_ne ht
      rw [hf.queue] at hold
      exact (List.mem_cons.mp hold).resolve_left hmain

-- Without another thread a tick returns to the boot thread.
theorem alone_timer (h : Alone sym m) (hcond : Single m .timer)
    (hs : step sym m .timer = some m') : Alone sym m' := by
  obtain ⟨r, hf, hc, hg⟩ := h.threads
  by_cases hflag : m.interruptFlag = true
  · obtain ⟨-, s', r', hstep, hrota, hf', -⟩ := step_follows m.system r .schedule hf trivial
    obtain ⟨-, -, -, -, -, hq, hg'⟩ := passTurn_cases hrota
    have hcreated : m.system.created = [] := hcond hflag
    have hqueue : r'.queue = [sym.mainKernelThread] := by rw [hq, hf.queue, hcreated]
    have hcur : r'.current = sym.mainKernelThread := by
      have hin := hf'.sound.current
      rw [hqueue] at hin
      exact List.mem_singleton.mp hin
    have hcreated' : s'.created = [] := by
      have he := hf'.queue.symm.trans hqueue
      exact (List.cons.inj he).2
    simp only [step, hflag, if_true, hstep, Option.map_some, Option.some.injEq] at hs
    have hsame : s'.kernel.runningThread = m.system.kernel.runningThread := by
      rw [← hf'.current, hcur, h.running]
    simp only [afterSchedule, if_pos hsame] at hs
    subst hs
    refine ⟨⟨r', hf', hcur, hg'.trans hg⟩, ?_, ?_⟩
    · exact h.flag.imp (fun hh => ⟨hh.1, rfl⟩) (fun hh => hh)
    · intro t ht
      rw [hcreated'] at ht
      cases ht
  · simp only [step, hflag] at hs
    cases hs
    exact h

theorem alone_step (h : Alone sym m) (hp : Permitted sym m op) (hcond : Single m op)
    (hs : step sym m op = some m') : Alone sym m' := by
  obtain ⟨r, hf, hc, hg⟩ := h.threads
  cases op with
  | compute registers mem =>
      cases hs
      exact ⟨⟨r, ⟨hf.queue, hf.links, hf.current, hf.states, hf.sound⟩, hc, hg⟩, h.flag, h.waiting⟩
  | kthreadCreate thread stackRaw entryPoint => exact alone_create h hp hs
  | kthreadExit => exact absurd h.running hp
  | timer => exact alone_timer h hcond hs
  | spinLock =>
      simp only [step] at hs
      split at hs
      · cases hs
        exact ⟨h.threads, Or.inr (congrArg some h.running), h.waiting⟩
      · cases hs
  | spinUnlock =>
      cases hs
      exact ⟨h.threads, Or.inl ⟨rfl, rfl⟩, h.waiting⟩

-- The next thread in turn is one that has not run yet.
theorem turn_waiting {s : System} {r r' : Rota (BitVec 64)} (hf : Follows sym s r)
    (hc : r.current = sym.mainKernelThread) (hg : r.gone = []) (hcreated : s.created ≠ [])
    (hp : passTurn r = some r') :
    r'.current ∈ s.created ∧ r'.current ≠ sym.mainKernelThread := by
  obtain ⟨passed, rest, hsearch, hpassed, -, -, -⟩ := passTurn_cases hp
  have hnone : passed = [] := by
    refine List.eq_nil_iff_forall_not_mem.mpr (fun t ht => ?_)
    have hin := hpassed t ht
    rw [hg] at hin
    cases hin
  have horder := order_eq [] s.created (by rw [hf.queue, hc]; rfl) hf.sound.nodup
  have hin : r'.current ∈ s.created := by
    obtain ⟨t, more, hmore⟩ := List.exists_cons_of_ne_nil hcreated
    rw [hsearch, hnone, hmore] at horder
    rw [hmore, (List.cons.inj horder).1]
    exact List.mem_cons_self
  exact ⟨hin, hf.created_ne hin⟩

-- The tick starts it with the flag that the gate has cleared.
theorem started_masked (h : Alone sym m) (hflag : m.interruptFlag = true)
    (hcreated : m.system.created ≠ []) :
    ∃ m', step sym m .timer = some m' ∧ ¬Preemptible m' := by
  obtain ⟨r, hf, hc, hg⟩ := h.threads
  obtain ⟨-, s', r', hstep, hrota, hf', -⟩ := step_follows m.system r .schedule hf trivial
  obtain ⟨hin, hne⟩ := turn_waiting hf hc hg hcreated hrota
  have hrun : s'.kernel.runningThread = r'.current := hf'.current.symm
  have hswitch : s'.kernel.runningThread ≠ m.system.kernel.runningThread := by
    rw [hrun, h.running]
    exact hne
  have hlive : (s'.kernel.threads s'.kernel.runningThread).state ≠ .dead := by
    rw [hrun, hf'.states _ hf'.sound.current]
    exact fun he => hf'.sound.live (stateIn_dead.mp he)
  have hholder : m.holder ≠ some s'.kernel.runningThread := by
    rw [hrun]
    rcases h.flag with ⟨hnone, -⟩ | hheld
    · simp [hnone]
    · rw [hheld]
      exact fun he => hne (Option.some.inj he).symm
  have hwait : m.resume s'.kernel.runningThread = .entryPoint := by
    rw [hrun]
    exact h.waiting _ hin
  refine ⟨afterSchedule (.irqHandler true) { m with interruptFlag := false } s', ?_, ?_⟩
  · simp only [step, hflag, if_true, hstep, Option.map_some]
  · intro hpre
    simp only [Preemptible, afterSchedule, if_neg hswitch, hwait] at hpre
    cases hpre hlive hholder

theorem preemptible_iff_alone {ops : List Op} (h : Alone sym m)
    (hp : PermittedRun (step sym) (Permitted sym) m ops) :
    (∀ front back m', ops = front ++ back → run (step sym) m front = some m' → Preemptible m') ↔
      PermittedRun (step sym) Single m ops := by
  refine prefixes_iff (fun m (h : Alone sym m) => h.preemptible)
    (fun m op m' h hp hcond hs => alone_step h hp hcond hs) (fun m op h _ hnot => ?_) h hp
  cases op with
  | timer =>
      rw [Single, Classical.not_imp] at hnot
      exact started_masked h hnot.1 hnot.2
  | _ => exact absurd trivial hnot

-- Every state of a run is preemptible exactly when no tick is taken after
-- kthread_create has returned a thread.
theorem preemptible_iff_single (sym : Symbols) (k : State) (resume : BitVec 64 → Resume)
    (ops : List Op) (hp : PermittedRun (step sym) (Permitted sym) (start sym k resume) ops) :
    (∀ front back m, ops = front ++ back →
        run (step sym) (start sym k resume) front = some m → Preemptible m) ↔
      PermittedRun (step sym) Single (start sym k resume) ops :=
  preemptible_iff_alone (alone_start k resume) hp

instance (sym : Symbols) (m : Machine) : ∀ op, Decidable (Permitted sym m op)
  | .compute _ _ => isTrue trivial
  | .kthreadCreate thread stackRaw entryPoint =>
      inferInstanceAs (Decidable (Thread.Permitted sym m.system
        (.kthreadCreate thread stackRaw entryPoint)))
  | .kthreadExit => inferInstanceAs (Decidable (Thread.Permitted sym m.system .kthreadExit))
  | .timer => isTrue trivial
  | .spinLock => isTrue trivial
  | .spinUnlock => inferInstanceAs (Decidable (_ = _))

instance (m : Machine) : Decidable (Preemptible m) := inferInstanceAs (Decidable (_ → _ → _))

instance (m : Machine) : ∀ op, Decidable (Single m op)
  | .compute _ _ => isTrue trivial
  | .kthreadCreate _ _ _ => isTrue trivial
  | .kthreadExit => isTrue trivial
  | .timer => inferInstanceAs (Decidable (_ → _))
  | .spinLock => isTrue trivial
  | .spinUnlock => isTrue trivial

-- Ticks and locked sections of the boot thread, then the creation of a thread.
theorem preemptible_iff_single_boot :
    ∃ m, run (step someSymbols) (start someSymbols zeroState fun _ => .entryPoint)
        [.timer, .spinLock, .timer, .spinUnlock, .timer, .kthreadCreate 0x3000 0x10000 0x4000] =
          some m ∧ Preemptible m := by
  have hrun : ∃ m, run (step someSymbols) (start someSymbols zeroState fun _ => .entryPoint)
      [.timer, .spinLock, .timer, .spinUnlock, .timer, .kthreadCreate 0x3000 0x10000 0x4000] =
        some m := Option.isSome_iff_exists.mp (by decide +kernel)
  obtain ⟨m, hm⟩ := hrun
  refine ⟨m, hm, (preemptible_iff_single someSymbols zeroState (fun _ => .entryPoint) _ ?_).mpr ?_
    _ [] m (List.append_nil _).symm hm⟩
  · decide +kernel
  · decide +kernel

-- The tick after the creation starts the thread at its entry point, with the
-- interrupt flag clear and no lock held.
theorem thread_started_masked :
    ∃ m, PermittedRun (step someSymbols) (Permitted someSymbols)
        (start someSymbols zeroState fun _ => .entryPoint)
        [.kthreadCreate 0x3000 0x10000 0x4000, .timer] ∧
      run (step someSymbols) (start someSymbols zeroState fun _ => .entryPoint)
        [.kthreadCreate 0x3000 0x10000 0x4000, .timer] = some m ∧
      m.system.kernel.runningThread = 0x3000 ∧ m.system.kernel.registers.rip = 0x4000 ∧
      m.holder = none ∧ m.interruptFlag = false ∧ ¬Preemptible m := by
  refine ⟨_, by decide +kernel, (Option.some_get (by decide +kernel)).symm, ?_⟩
  decide +kernel

end Miyabi.Arch.Interrupt
