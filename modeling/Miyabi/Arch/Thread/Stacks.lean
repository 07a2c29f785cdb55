import Miyabi.Arch.Thread.Transparent

namespace Miyabi.Arch.Thread

open Miyabi.Base Miyabi.Base.Memory Miyabi.Base.Stack Miyabi.Base.RoundRobin

variable {boot : Set (BitVec 64)} {sym : Symbols} {s s' : Traced} {op : Op} {t x : BitVec 64}
variable {k k' k1 : State}

-- What an operation may do to a byte of the running thread's own stack.
def Spared (k : State) (x : BitVec 64) : Op → Prop
  | .compute _ mem => mem x = k.mem x
  | .kthreadCreate _ _ _ => True
  | .schedule => ¬InRange (k.registers.rsp - 48) 48 x
  | .kthreadExit => ¬InRange (k.registers.rsp - 48) 48 x

-- schedule changes no stack but for the six registers that it pushes.
theorem schedule_stacks (hcall : Called k k1) (he : schedule k1 = some k') :
    (∀ u, (k'.threads u).stackBottom = (k.threads u).stackBottom) ∧
      KeepsOutside k.mem k'.mem (k.registers.rsp - 48) 48 := by
  rcases schedule_cases he with rfl | ⟨z, hz, rfl⟩
  · refine ⟨hcall.stackBottom, fun x _ => ?_⟩
    rw [hcall.mem]
  · have hw := switched_switchTo hcall hz
    exact ⟨hw.stackBottom, hw.keeps⟩

theorem called_exit (k : State) : Called k (setState k.runningThread .dead k) := by
  refine ⟨rfl, rfl, rfl, fun t => ?_, fun t => ?_⟩
  · rw [setState_threads]
    split <;> rfl
  · rw [setState_threads]
    split <;> rfl

-- The stacks of live threads are where they were, and hold what they held.
theorem stack_kept (hk : Kept boot sym s) (hp : Confined boot sym s op)
    (he : traceStep sym s op = some s') (ht : t ∈ sym.mainKernelThread :: s.system.created)
    (hl : Live s'.system.kernel t) :
    Live s.system.kernel t ∧
      (s'.system.kernel.threads t).stackBottom = (s.system.kernel.threads t).stackBottom ∧
      ∀ x ∈ stackOf boot sym s.system.kernel t,
        (t = s.system.kernel.runningThread → Spared s.system.kernel x op) →
          s'.system.kernel.mem x = s.system.kernel.mem x := by
  obtain ⟨r, hf⟩ := hk.threads
  obtain ⟨-, s1, r', hstep, hrota, hf', -⟩ := step_follows s.system r op hf hp.1
  obtain ⟨s2, hs2, rfl⟩ := Option.map_eq_some_iff.mp he
  cases hstep.symm.trans hs2
  have hlive := live_before hf hf' hrota ht hl
  refine ⟨hlive, ?_⟩
  obtain ⟨hrun, hrunlive⟩ := running_live hf
  -- A byte of another stack is none of those that schedule pushes.
  have hpushed (hroom : ∀ x, InRange (s.system.kernel.registers.rsp - 48) 56 x →
        x ∈ stackOf boot sym s.system.kernel s.system.kernel.runningThread)
      {x : BitVec 64} (hx : x ∈ stackOf boot sym s.system.kernel t)
      (hown : t = s.system.kernel.runningThread →
        ¬InRange (s.system.kernel.registers.rsp - 48) 48 x) :
      ¬InRange (s.system.kernel.registers.rsp - 48) 48 x := by
    by_cases hrunning : t = s.system.kernel.runningThread
    · exact hown hrunning
    · intro hin
      have hold := hroom x (inRange_mono _ x (by omega) hin)
      exact hk.apart t ht hlive _ hrun hrunlive hrunning x hx hold
  cases op with
  | compute registers mem =>
      cases hs2
      refine ⟨rfl, fun x hx hown => ?_⟩
      by_cases hrunning : t = s.system.kernel.runningThread
      · exact hown hrunning
      · exact hp.2 t ht hlive hrunning x hx
  | kthreadCreate thread stackRaw entryPoint =>
      by_cases hfail : thread = 0 ∨ stackRaw = 0
      · rw [step, kthreadCreate_fails sym entryPoint hfail] at hs2
        cases hs2
        exact ⟨rfl, fun _ _ _ => rfl⟩
      · obtain ⟨ht0, hstack⟩ := not_or.mp hfail
        obtain ⟨⟨p, k'⟩, hcreate, rfl⟩ := Option.map_eq_some_iff.mp hs2
        obtain ⟨rfl, hmem, -, -, -, hold⟩ := kthreadCreate_machine ht0 hstack hcreate
        have hne : t ≠ p := fun heq => hp.1 (heq ▸ ht)
        refine ⟨(hold t hne).2.1, fun x hx _ => ?_⟩
        have hbuilt := (initialStack_pushes sym stackRaw entryPoint s.system.kernel.mem).2
        show k'.mem x = s.system.kernel.mem x
        rw [hmem]
        exact hbuilt.keeps x fun hin =>
          hp.2 hstack t ht hlive x hx (inRange_inner stackRaw 16320 x (by decide) hin)
  | schedule =>
      obtain ⟨k', hschedule, rfl⟩ := Option.map_eq_some_iff.mp hs2
      obtain ⟨hbottom, hkeeps⟩ :=
        schedule_stacks ⟨rfl, rfl, rfl, fun _ => rfl, fun _ => rfl⟩ hschedule
      exact ⟨hbottom t, fun x hx hown => hkeeps x (hpushed hp.2 hx hown)⟩
  | kthreadExit =>
      obtain ⟨k', hschedule, rfl⟩ := Option.map_eq_some_iff.mp hs2
      obtain ⟨hbottom, hkeeps⟩ := schedule_stacks (called_exit _) hschedule
      exact ⟨hbottom t, fun x hx hown => hkeeps x (hpushed hp.2 hx hown)⟩

-- Only kthread_create makes threads.
theorem created_cases (he : traceStep sym s op = some s')
    (ht : t ∈ sym.mainKernelThread :: s'.system.created) :
    t ∈ sym.mainKernelThread :: s.system.created ∨
      ∃ stackRaw entryPoint, op = .kthreadCreate t stackRaw entryPoint := by
  obtain ⟨s1, hs1, rfl⟩ := Option.map_eq_some_iff.mp he
  cases op with
  | compute registers mem =>
      cases hs1
      exact Or.inl ht
  | kthreadCreate thread stackRaw entryPoint =>
      obtain ⟨⟨p, k'⟩, hcreate, rfl⟩ := Option.map_eq_some_iff.mp hs1
      by_cases hfail : thread = 0 ∨ stackRaw = 0
      · rw [kthreadCreate_fails sym entryPoint hfail] at hcreate
        cases hcreate
        exact Or.inl ht
      · obtain ⟨ht0, hstack⟩ := not_or.mp hfail
        obtain ⟨rfl, -⟩ := kthreadCreate_machine ht0 hstack hcreate
        have ht : t ∈ sym.mainKernelThread :: (if p = 0 then _ else _ ++ [p]) := ht
        rw [if_neg ht0, List.mem_cons, List.mem_append, List.mem_singleton] at ht
        rcases ht with hmain | hold | rfl
        · exact Or.inl (List.mem_cons.mpr (Or.inl hmain))
        · exact Or.inl (List.mem_cons_of_mem _ hold)
        · exact Or.inr ⟨stackRaw, entryPoint, rfl⟩
  | schedule =>
      obtain ⟨k', -, rfl⟩ := Option.map_eq_some_iff.mp hs1
      exact Or.inl ht
  | kthreadExit =>
      obtain ⟨k', -, rfl⟩ := Option.map_eq_some_iff.mp hs1
      exact Or.inl ht

end Miyabi.Arch.Thread
