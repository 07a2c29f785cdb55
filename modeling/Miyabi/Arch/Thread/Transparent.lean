import Miyabi.Arch.Thread.Theorems
import Miyabi.Base.Stack

namespace Miyabi.Arch.Thread

open Miyabi.Base Miyabi.Base.Memory Miyabi.Base.Stack Miyabi.Base.RoundRobin
open Miyabi.Base.Transition

variable {k k' : State} {old newRsp : BitVec 64} {c : Registers}

-- The words that context_switch pops off a stack, from the top on.
def words (c : Registers) : List (BitVec 64) :=
  [c.r15, c.r14, c.r13, c.r12, c.rbx, c.rbp, c.rip]

-- The registers after a ret. A context_switch that comes back to its caller
-- leaves those of its call.
def ret (k : State) : Registers :=
  { k.registers with
    rip := k.mem.load64 k.registers.rsp
    rsp := k.registers.rsp + 8 }

theorem sub_six (sp : BitVec 64) : sp - 8 - 8 - 8 - 8 - 8 - 8 = sp - 48 := by
  simp [BitVec.sub_sub]

theorem contextSwitch_pushes (old newRsp : BitVec 64) (k : State) :
    Pushed k.mem (contextSwitch old newRsp k).mem (k.registers.rsp - 48) (words (ret k)) 48 := by
  have hstart : Holds k.mem k.registers.rsp [k.mem.load64 k.registers.rsp] := ⟨rfl, trivial⟩
  have hrbp := (pushed_none hstart).push k.registers.rbp (by simp)
  have hrbx := hrbp.push k.registers.rbx (by simp)
  have hr12 := hrbx.push k.registers.r12 (by simp)
  have hr13 := hr12.push k.registers.r13 (by simp)
  have hr14 := hr13.push k.registers.r14 (by simp)
  have hr15 := hr14.push k.registers.r15 (by simp)
  rw [← sub_six]
  simpa only [contextSwitch, pop, push, setThread, words, ret] using hr15

theorem contextSwitch_restores
    (h : Holds (contextSwitch old newRsp k).mem newRsp (words c)) (hsp : c.rsp = newRsp + 56) :
    (contextSwitch old newRsp k).registers = c := by
  have hend : newRsp + 8 + 8 + 8 + 8 + 8 + 8 + 8 = newRsp + 56 := by
    simp [BitVec.add_assoc]
  generalize hm : (contextSwitch old newRsp k).mem = m at h
  obtain ⟨hr15, hr14, hr13, hr12, hrbx, hrbp, hrip, -⟩ := h
  simp only [contextSwitch, pop] at hm ⊢
  rw [hm, hr15, hr14, hr13, hr12, hrbx, hrbp, hrip, hend, ← hsp]

def Live (k : State) (t : BitVec 64) : Prop := (k.threads t).state ≠ .dead

-- A thread's stack. thread.c does not know that of the boot thread.
def stackOf (boot : Set (BitVec 64)) (sym : Symbols) (k : State) (t : BitVec 64) :
    Set (BitVec 64) :=
  if t = sym.mainKernelThread then boot else {x | InRange (k.threads t).stackBottom 16384 x}

-- The word that entry_point returns to.
def returnSlot (k : State) (t : BitVec 64) : BitVec 64 :=
  (k.threads t).stackBottom + stackSize - 8

-- The scheduler beside a record of the registers that each thread is to find
-- when it is switched in, and of the threads that have themselves overwritten
-- the word that their entry_point returns to.
structure Traced where
  system : System
  contexts : BitVec 64 → Registers
  overwritten : BitVec 64 → Prop

-- kthread_create makes the first entry for a thread, and context_switch a new
-- one for the thread that it leaves.
def recorded (s : Traced) (s' : System) : Op → BitVec 64 → Registers
  | .kthreadCreate thread stackRaw entryPoint, t =>
      if t = thread then ⟨entryPoint, stackRaw + stackSize - 8, 0, 0, 0, 0, 0, 0⟩ else s.contexts t
  | _, t =>
      if t = s.system.kernel.runningThread ∧
          s'.kernel.runningThread ≠ s.system.kernel.runningThread then
        ret s.system.kernel
      else s.contexts t

def overwrites (s : Traced) (s' : System) : Op → BitVec 64 → Prop
  | .kthreadCreate thread _ _, t => t ≠ thread ∧ s.overwritten t
  | _, t => s.overwritten t ∨ t = s.system.kernel.runningThread ∧
      ¬Agree s.system.kernel.mem s'.kernel.mem (returnSlot s.system.kernel t) 8

def traceStep (sym : Symbols) (s : Traced) (op : Op) : Option Traced :=
  (step sym s.system op).map fun s' => ⟨s', recorded s s' op, overwrites s s' op⟩

def traceStart (sym : Symbols) (k : State) : Traced :=
  ⟨start sym k, fun _ => k.registers, fun _ => False⟩

-- Own code leaves the stacks of the other live threads alone. It calls schedule
-- with room for the registers on its own, and kmalloc finds a new stack beside
-- the others.
def Confined (boot : Set (BitVec 64)) (sym : Symbols) (s : Traced) (op : Op) : Prop :=
  let k := s.system.kernel
  Permitted sym s.system op ∧
    match op with
    | .compute _ mem =>
        ∀ t ∈ sym.mainKernelThread :: s.system.created, Live k t → t ≠ k.runningThread →
          ∀ x ∈ stackOf boot sym k t, mem x = k.mem x
    | .kthreadCreate _ stackRaw _ =>
        stackRaw ≠ 0 → ∀ t ∈ sym.mainKernelThread :: s.system.created, Live k t →
          ∀ x ∈ stackOf boot sym k t, ¬InRange stackRaw 16384 x
    | .schedule =>
        ∀ x, InRange (k.registers.rsp - 48) 56 x → x ∈ stackOf boot sym k k.runningThread
    | .kthreadExit =>
        ∀ x, InRange (k.registers.rsp - 48) 56 x → x ∈ stackOf boot sym k k.runningThread

-- What a suspended thread's stack holds.
structure Suspended (boot : Set (BitVec 64)) (sym : Symbols) (k : State) (t : BitVec 64)
    (c : Registers) : Prop where
  inside : ∀ x, InRange (k.threads t).rsp 56 x → x ∈ stackOf boot sym k t
  holds : Holds k.mem (k.threads t).rsp (words c)
  rsp : c.rsp = (k.threads t).rsp + 56

structure Kept (boot : Set (BitVec 64)) (sym : Symbols) (s : Traced) : Prop where
  threads : ∃ r, Follows sym s.system r
  apart : ∀ t ∈ sym.mainKernelThread :: s.system.created, Live s.system.kernel t →
    ∀ u ∈ sym.mainKernelThread :: s.system.created, Live s.system.kernel u → t ≠ u →
      ∀ x ∈ stackOf boot sym s.system.kernel t, x ∉ stackOf boot sym s.system.kernel u
  suspended : ∀ t ∈ sym.mainKernelThread :: s.system.created, Live s.system.kernel t →
    t ≠ s.system.kernel.runningThread →
      Suspended boot sym s.system.kernel t (s.contexts t)
  slots : ∀ t ∈ s.system.created, Live s.system.kernel t → ¬s.overwritten t →
    s.system.kernel.mem.load64 (returnSlot s.system.kernel t) = sym.kthreadExit

variable {boot : Set (BitVec 64)} {sym : Symbols} {s s' : Traced} {t z : BitVec 64}

theorem schedule_cases (h : schedule k = some k') :
    k' = k ∨ ∃ z, z ≠ k.runningThread ∧ k' = switchTo z k := by
  simp only [schedule] at h
  split at h
  · exact Or.inl (Option.some.inj h).symm
  · split at h
    · cases h
    · rename_i z _
      by_cases hz : z = k.runningThread
      · rw [if_pos hz] at h
        exact Or.inl (Option.some.inj h).symm
      · rw [if_neg hz] at h
        exact Or.inr ⟨z, hz, (Option.some.inj h).symm⟩

-- What comes before context_switch does not touch the stacks.
theorem switchTo_machine (z : BitVec 64) (k : State) :
    ∃ k1, k1.mem = k.mem ∧ k1.registers = k.registers ∧
      switchTo z k = contextSwitch k.runningThread (k.threads z).rsp k1 := by
  have hrsp : ∀ p q state, ((setState p state k).threads q).rsp = (k.threads q).rsp := by
    intro p q state
    rw [setState_threads]
    split <;> rfl
  by_cases hrun : (k.threads k.runningThread).state = .running
  · refine ⟨{ setState z .running (setState k.runningThread .ready k) with runningThread := z },
      rfl, rfl, ?_⟩
    simp only [switchTo, hrun, if_true]
    rw [setState_threads, if_pos rfl]
    simp only [hrsp]
  · refine ⟨{ setState z .running k with runningThread := z }, rfl, rfl, ?_⟩
    simp only [switchTo, hrun, if_false, hrsp]

theorem stackOf_congr (h : (k'.threads t).stackBottom = (k.threads t).stackBottom) :
    stackOf boot sym k' t = stackOf boot sym k t := by
  simp only [stackOf, h]

theorem slot_inside (boot : Set (BitVec 64)) (k : State) (ht : t ≠ sym.mainKernelThread)
    {x : BitVec 64} (hx : InRange (returnSlot k t) 8 x) : x ∈ stackOf boot sym k t := by
  have hslot : returnSlot k t = (k.threads t).stackBottom + 16376 := by
    rw [returnSlot, stackSize, add_sub_assoc]
    rfl
  have hd : (16376 : BitVec 64).toNat = 16376 := rfl
  rw [stackOf, if_neg ht]
  rw [hslot] at hx
  exact inRange_inner _ 16376 x (by omega) hx

theorem Suspended.congr {c : Registers} (h : Suspended boot sym k t c)
    (hrsp : (k'.threads t).rsp = (k.threads t).rsp)
    (hbottom : (k'.threads t).stackBottom = (k.threads t).stackBottom)
    (hmem : ∀ x ∈ stackOf boot sym k t, k'.mem x = k.mem x) : Suspended boot sym k' t c := by
  refine ⟨?_, ?_, hrsp ▸ h.rsp⟩
  · rw [stackOf_congr hbottom, hrsp]
    exact h.inside
  · rw [hrsp]
    exact holds_congr h.holds (by simp [words]) (fun x hx => hmem x (h.inside x hx))

theorem slot_congr (ht : t ≠ sym.mainKernelThread)
    (hbottom : (k'.threads t).stackBottom = (k.threads t).stackBottom)
    (hmem : ∀ x ∈ stackOf boot sym k t, k'.mem x = k.mem x) :
    k'.mem.load64 (returnSlot k' t) = k.mem.load64 (returnSlot k t) := by
  have hslot : returnSlot k' t = returnSlot k t := by simp only [returnSlot, hbottom]
  rw [hslot]
  exact load_congr (fun x hx => hmem x (slot_inside boot k ht hx))

-- Both callers of schedule come with the processor and the stacks as they were.
structure Called (k k1 : State) : Prop where
  mem : k1.mem = k.mem
  registers : k1.registers = k.registers
  running : k1.runningThread = k.runningThread
  rsp : ∀ t, (k1.threads t).rsp = (k.threads t).rsp
  stackBottom : ∀ t, (k1.threads t).stackBottom = (k.threads t).stackBottom

-- What a switch does to the processor and the stacks.
structure Switched (k k' : State) (z : BitVec 64) : Prop where
  running : k'.runningThread = z
  rsp : ∀ t, t ≠ k.runningThread → (k'.threads t).rsp = (k.threads t).rsp
  left : (k'.threads k.runningThread).rsp = k.registers.rsp - 48
  stackBottom : ∀ t, (k'.threads t).stackBottom = (k.threads t).stackBottom
  keeps : KeepsOutside k.mem k'.mem (k.registers.rsp - 48) 48
  saves : Holds k'.mem (k.registers.rsp - 48) (words (ret k))
  restores : ∀ c, Holds k'.mem (k.threads z).rsp (words c) → c.rsp = (k.threads z).rsp + 56 →
    k'.registers = c

theorem switched_switchTo {k1 : State} (h : Called k k1) (hz : z ≠ k1.runningThread) :
    Switched k (switchTo z k1) z := by
  obtain ⟨k2, hm, hr, he⟩ := switchTo_machine z k1
  have hm2 : k2.mem = k.mem := hm.trans h.mem
  have hr2 : k2.registers = k.registers := hr.trans h.registers
  have hret : ret k2 = ret k := by simp only [ret, hm2, hr2]
  refine ⟨switchTo_runningThread z k1, ?_, ?_, ?_, ?_, ?_, ?_⟩
  · intro t ht
    rw [switchTo_threads hz, ← h.rsp t]
    rw [← h.running] at ht
    rw [if_neg ht]
    split <;> rfl
  · rw [switchTo_threads hz, ← h.running, if_neg hz.symm, if_pos rfl, ← h.registers]
  · intro t
    rw [switchTo_threads hz, ← h.stackBottom t]
    split
    · rfl
    · split <;> rfl
  · rw [he, ← hm2, ← hr2]
    exact (contextSwitch_pushes _ _ k2).keeps
  · rw [he, ← hr2, ← hret]
    exact (contextSwitch_pushes _ _ k2).holds
  · intro c
    rw [he, ← h.rsp z]
    exact contextSwitch_restores

theorem suspended_switch (hk : Kept boot sym s) (hw : Switched s.system.kernel k' z)
    (hroom : ∀ x, InRange (s.system.kernel.registers.rsp - 48) 56 x →
      x ∈ stackOf boot sym s.system.kernel s.system.kernel.runningThread)
    (ht : t ∈ sym.mainKernelThread :: s.system.created) (hl : Live s.system.kernel t)
    (hr : s.system.kernel.runningThread ∈ sym.mainKernelThread :: s.system.created)
    (hrl : Live s.system.kernel s.system.kernel.runningThread)
    (hne : t ≠ s.system.kernel.runningThread) :
    Suspended boot sym k' t (s.contexts t) := by
  refine (hk.suspended t ht hl hne).congr (hw.rsp t hne) (hw.stackBottom t) ?_
  intro x hx
  refine hw.keeps x (fun hin => ?_)
  have hold := hroom x (inRange_mono _ x (by omega) hin)
  exact hk.apart t ht hl _ hr hrl hne x hx hold

theorem suspended_left (hw : Switched k k' z)
    (hroom : ∀ x, InRange (k.registers.rsp - 48) 56 x → x ∈ stackOf boot sym k k.runningThread) :
    Suspended boot sym k' k.runningThread (ret k) := by
  refine ⟨?_, ?_, ?_⟩
  · rw [stackOf_congr (hw.stackBottom _), hw.left]
    exact hroom
  · rw [hw.left]
    exact hw.saves
  · rw [hw.left]
    show k.registers.rsp + 8 = k.registers.rsp - 48 + 56
    ring

theorem running_live {s : System} {r : Rota (BitVec 64)} (hf : Follows sym s r) :
    s.kernel.runningThread ∈ sym.mainKernelThread :: s.created ∧
      Live s.kernel s.kernel.runningThread := by
  have hin := hf.sound.current
  refine ⟨?_, fun he => hf.sound.live ?_⟩
  · rw [← hf.current, ← hf.queue]
    exact hin
  · rw [← hf.current, hf.states _ hin] at he
    exact stateIn_dead.mp he

-- The operations that call schedule.
def Calls : Op → Prop
  | .schedule => True
  | .kthreadExit => True
  | _ => False

theorem recorded_calls {op : Op} {s1 : System} (h : Calls op) : recorded s s1 op = fun t =>
    if t = s.system.kernel.runningThread ∧
        s1.kernel.runningThread ≠ s.system.kernel.runningThread then ret s.system.kernel
    else s.contexts t := by
  cases op with
  | schedule => rfl
  | kthreadExit => rfl
  | compute registers mem => cases h
  | kthreadCreate thread stackRaw entryPoint => cases h

theorem overwrites_calls {op : Op} {s1 : System} (h : Calls op)
    (hno : ¬overwrites s s1 op t) : ¬s.overwritten t ∧ (t = s.system.kernel.runningThread →
      Agree s.system.kernel.mem s1.kernel.mem (returnSlot s.system.kernel t) 8) := by
  have hno' : ¬(s.overwritten t ∨ t = s.system.kernel.runningThread ∧
      ¬Agree s.system.kernel.mem s1.kernel.mem (returnSlot s.system.kernel t) 8) := by
    cases op with
    | schedule => exact hno
    | kthreadExit => exact hno
    | compute registers mem => cases h
    | kthreadCreate thread stackRaw entryPoint => cases h
  refine ⟨fun hold => hno' (Or.inl hold), fun ht => ?_⟩
  by_contra hchanged
  exact hno' (Or.inr ⟨ht, hchanged⟩)

theorem kept_switch {op : Op} (hk : Kept boot sym s) (hcalls : Calls op)
    (hw : Switched s.system.kernel k' z) (hz : z ≠ s.system.kernel.runningThread)
    (hroom : ∀ x, InRange (s.system.kernel.registers.rsp - 48) 56 x →
      x ∈ stackOf boot sym s.system.kernel s.system.kernel.runningThread)
    (hfollows : ∃ r, Follows sym { s.system with kernel := k' } r)
    (hlive : ∀ t ∈ sym.mainKernelThread :: s.system.created, Live k' t → Live s.system.kernel t) :
    Kept boot sym ⟨{ s.system with kernel := k' }, recorded s { s.system with kernel := k' } op,
      overwrites s { s.system with kernel := k' } op⟩ := by
  obtain ⟨hr, hrl⟩ : _ ∧ _ := hk.threads.elim fun _ hf => running_live hf
  have hmoved : k'.runningThread ≠ s.system.kernel.runningThread := hw.running ▸ hz
  refine ⟨hfollows, ?_, ?_, ?_⟩
  · intro t ht hl u hu hlu htu x hx
    rw [stackOf_congr (hw.stackBottom t)] at hx
    show x ∉ stackOf boot sym k' u
    rw [stackOf_congr (hw.stackBottom u)]
    exact hk.apart t ht (hlive t ht hl) u hu (hlive u hu hlu) htu x hx
  · intro t ht hl _
    rw [recorded_calls hcalls]
    by_cases hold : t = s.system.kernel.runningThread
    · simp only [if_pos (And.intro hold hmoved)]
      rw [hold]
      exact suspended_left hw hroom
    · simp only [hold, false_and, if_false]
      exact suspended_switch hk hw hroom ht (hlive t ht hl) hr hrl hold
  · intro t ht hl hno
    have hin : t ∈ sym.mainKernelThread :: s.system.created := List.mem_cons_of_mem _ ht
    have hmain : t ≠ sym.mainKernelThread := by
      obtain ⟨r, hf⟩ := hk.threads
      exact hf.created_ne ht
    have hslot : returnSlot k' t = returnSlot s.system.kernel t := by
      simp only [returnSlot, hw.stackBottom]
    obtain ⟨hno, hown⟩ := overwrites_calls hcalls hno
    have hsame : Agree s.system.kernel.mem k'.mem (returnSlot s.system.kernel t) 8 := by
      by_cases hold : t = s.system.kernel.runningThread
      · exact hown hold
      · intro x hx
        refine hw.keeps x (fun hpush => ?_)
        have hused := hroom x (inRange_mono _ x (by omega) hpush)
        exact hk.apart t hin (hlive t hin hl) _ hr hrl hold x
          (slot_inside boot s.system.kernel hmain hx) hused
    show k'.mem.load64 (returnSlot k' t) = sym.kthreadExit
    rw [hslot]
    exact (load_congr hsame).trans (hk.slots t ht (hlive t hin hl) hno)

-- The stack of a new thread, and nothing else that is written.
theorem initialStack_pushes (sym : Symbols) (stackRaw entryPoint : BitVec 64) (m : Memory 64) :
    (initialStack sym stackRaw entryPoint m).2 = stackRaw + 16320 ∧
      Pushed m (initialStack sym stackRaw entryPoint m).1 (stackRaw + 16320)
        [0, 0, 0, 0, 0, 0, entryPoint, sym.kthreadExit] 64 := by
  have hsp : stackRaw + stackSize - 8 - 8 - 8 - 8 - 8 - 8 - 8 - 8 = stackRaw + 16320 := by
    simp only [stackSize, BitVec.sub_sub, add_sub_assoc]
    rfl
  have hstart : Holds m (stackRaw + stackSize) [] := trivial
  have hexit := (pushed_none hstart).push sym.kthreadExit (by simp)
  have hentry := hexit.push entryPoint (by simp)
  have h15 := hentry.push 0 (by simp)
  have h14 := h15.push 0 (by simp)
  have h13 := h14.push 0 (by simp)
  have h12 := h13.push 0 (by simp)
  have hbx := h12.push 0 (by simp)
  have hbp := hbx.push 0 (by simp)
  rw [← hsp]
  exact ⟨by simp only [initialStack, pushZeros], by simpa only [initialStack, pushZeros] using hbp⟩

-- What kthread_create does to the stacks.
theorem kthreadCreate_machine {thread stackRaw entryPoint p : BitVec 64}
    (ht : thread ≠ 0) (hstack : stackRaw ≠ 0)
    (h : kthreadCreate sym thread stackRaw entryPoint k = some (p, k')) :
    p = thread ∧ k'.mem = (initialStack sym stackRaw entryPoint k.mem).1 ∧ k'.runningThread = k.runningThread ∧
      (k'.threads thread).rsp = (initialStack sym stackRaw entryPoint k.mem).2 ∧
      (k'.threads thread).stackBottom = stackRaw ∧
      ∀ t, t ≠ thread → (k'.threads t).rsp = (k.threads t).rsp ∧
        (k'.threads t).stackBottom = (k.threads t).stackBottom ∧
        (k'.threads t).state = (k.threads t).state := by
  simp only [kthreadCreate, if_neg ht, if_neg hstack] at h
  generalize initialStack sym stackRaw entryPoint k.mem = built at h ⊢
  split at h
  · cases h
  · rename_i curr _
    obtain ⟨rfl, rfl⟩ := Prod.mk.inj (Option.some.inj h)
    refine ⟨rfl, rfl, rfl, ?_, ?_, fun t htt => ?_⟩
    · rw [setNext_threads, setThread_same]
      split <;> rfl
    · rw [setNext_threads, setThread_same]
      split <;> rfl
    · rw [setNext_threads, setThread_ne _ htt]
      split <;> exact ⟨rfl, rfl, rfl⟩

theorem kept_compute {registers : Registers} {mem : Memory 64} {s1 : System} (hk : Kept boot sym s)
    (hs1 : s1 = { s.system with kernel := { s.system.kernel with registers, mem } })
    (hp : Confined boot sym s (.compute registers mem)) :
    Kept boot sym ⟨s1, recorded s s1 (.compute registers mem),
      overwrites s s1 (.compute registers mem)⟩ := by
  subst hs1
  obtain ⟨-, hothers⟩ := hp
  obtain ⟨r, hf⟩ := hk.threads
  refine ⟨⟨r, hf.queue, hf.links, hf.current, hf.states, hf.sound⟩, hk.apart, ?_, ?_⟩
  · intro t ht hl hne
    simp only [recorded, ne_eq, not_true_eq_false, and_false, if_false]
    exact (hk.suspended t ht hl hne).congr rfl rfl (hothers t ht hl hne)
  · intro t ht hl hno
    have hin : t ∈ sym.mainKernelThread :: s.system.created := List.mem_cons_of_mem _ ht
    simp only [overwrites, not_or, not_and, not_not] at hno
    have hsame : Agree s.system.kernel.mem mem (returnSlot s.system.kernel t) 8 := by
      by_cases hrun : t = s.system.kernel.runningThread
      · exact hno.2 hrun
      · exact fun x hx => hothers t hin hl hrun x (slot_inside boot _ (hf.created_ne ht) hx)
    exact (load_congr hsame).trans (hk.slots t ht hl hno.1)

-- A new thread has a stack of its own, laid out as context_switch leaves one.
theorem suspended_new {thread stackRaw entryPoint : BitVec 64}
    (hmain : thread ≠ sym.mainKernelThread)
    (hmem : k'.mem = (initialStack sym stackRaw entryPoint k.mem).1)
    (hrsp : (k'.threads thread).rsp = (initialStack sym stackRaw entryPoint k.mem).2)
    (hbottom : (k'.threads thread).stackBottom = stackRaw) :
    Suspended boot sym k' thread ⟨entryPoint, stackRaw + stackSize - 8, 0, 0, 0, 0, 0, 0⟩ := by
  obtain ⟨hsp, hpushed⟩ := initialStack_pushes sym stackRaw entryPoint k.mem
  rw [← hmem] at hpushed
  rw [hsp] at hrsp
  obtain ⟨h15, h14, h13, h12, hbx, hbp, hip, -⟩ := hpushed.holds
  have hd : (16320 : BitVec 64).toNat = 16320 := rfl
  refine ⟨?_, ?_, ?_⟩
  · intro x hx
    rw [hrsp] at hx
    rw [stackOf, if_neg hmain, hbottom]
    exact inRange_inner _ 16320 x (by omega) hx
  · rw [hrsp]
    exact ⟨h15, h14, h13, h12, hbx, hbp, hip, trivial⟩
  · rw [hrsp]
    show stackRaw + stackSize - 8 = stackRaw + 16320 + 56
    simp only [stackSize, BitVec.add_assoc, add_sub_assoc]
    rfl

theorem slot_new {thread stackRaw entryPoint : BitVec 64}
    (hmem : k'.mem = (initialStack sym stackRaw entryPoint k.mem).1)
    (hbottom : (k'.threads thread).stackBottom = stackRaw) :
    k'.mem.load64 (returnSlot k' thread) = sym.kthreadExit := by
  have hpushed := (initialStack_pushes sym stackRaw entryPoint k.mem).2
  rw [← hmem] at hpushed
  obtain ⟨-, -, -, -, -, -, -, hexit, -⟩ := hpushed.holds
  have hslot : returnSlot k' thread = stackRaw + 16320 + 8 + 8 + 8 + 8 + 8 + 8 + 8 := by
    simp only [returnSlot, hbottom, stackSize, BitVec.add_assoc, add_sub_assoc]
    rfl
  rw [hslot]
  exact hexit

theorem kept_create {thread stackRaw entryPoint : BitVec 64} {k' : State} (hk : Kept boot sym s)
    (hp : Confined boot sym s (.kthreadCreate thread stackRaw entryPoint))
    (ht0 : thread ≠ 0) (hstack : stackRaw ≠ 0)
    (he : kthreadCreate sym thread stackRaw entryPoint s.system.kernel = some (thread, k'))
    (hfollows : ∃ r, Follows sym ⟨k', s.system.created ++ [thread]⟩ r) :
    Kept boot sym ⟨⟨k', s.system.created ++ [thread]⟩,
      recorded s ⟨k', s.system.created ++ [thread]⟩ (.kthreadCreate thread stackRaw entryPoint),
      overwrites s ⟨k', s.system.created ++ [thread]⟩
        (.kthreadCreate thread stackRaw entryPoint)⟩ := by
  obtain ⟨hnew, hfree⟩ := hp
  obtain ⟨-, hmem, hrun, hrsp, hbottom, hold⟩ := kthreadCreate_machine ht0 hstack he
  have hmain : thread ≠ sym.mainKernelThread := fun hm => hnew (by simp [hm])
  have hstackof : stackOf boot sym k' thread = {x | InRange stackRaw 16384 x} := by
    rw [stackOf, if_neg hmain, hbottom]
  have hkeeps : ∀ x, ¬InRange stackRaw 16384 x → k'.mem x = s.system.kernel.mem x := by
    intro x hx
    have hpushed := (initialStack_pushes sym stackRaw entryPoint s.system.kernel.mem).2
    rw [hmem]
    exact hpushed.keeps x (fun hin => hx (inRange_inner stackRaw 16320 x (by decide) hin))
  have hcase : ∀ t ∈ sym.mainKernelThread :: (s.system.created ++ [thread]),
      Live k' t → t ≠ thread → t ∈ sym.mainKernelThread :: s.system.created ∧
        Live s.system.kernel t := by
    intro t ht hl hne
    have hlive : Live s.system.kernel t := by
      rw [Live, ← (hold t hne).2.2]
      exact hl
    exact ⟨by simpa [hne] using ht, hlive⟩
  have hsame : ∀ t, t ≠ thread → t ∈ sym.mainKernelThread :: s.system.created →
      Live s.system.kernel t → ∀ x ∈ stackOf boot sym s.system.kernel t,
        k'.mem x = s.system.kernel.mem x :=
    fun t _ ht hl x hx => hkeeps x (hfree hstack t ht hl x hx)
  refine ⟨hfollows, ?_, ?_, ?_⟩
  · intro t ht hl u hu hlu htu x hx
    by_cases htt : t = thread
    · have hut : u ≠ thread := fun he => htu (htt.trans he.symm)
      obtain ⟨hu, hlu⟩ := hcase u hu hlu hut
      have hx' : InRange stackRaw 16384 x := by
        have hx : x ∈ stackOf boot sym k' t := hx
        rw [htt, hstackof] at hx
        exact hx
      show x ∉ stackOf boot sym k' u
      rw [stackOf_congr (hold u hut).2.1]
      exact fun hin => hfree hstack u hu hlu x hin hx'
    · obtain ⟨ht, hl⟩ := hcase t ht hl htt
      have hx' : x ∈ stackOf boot sym s.system.kernel t := by
        rw [← stackOf_congr (hold t htt).2.1]
        exact hx
      show x ∉ stackOf boot sym k' u
      by_cases hut : u = thread
      · rw [hut, hstackof]
        exact hfree hstack t ht hl x hx'
      · obtain ⟨hu, hlu⟩ := hcase u hu hlu hut
        rw [stackOf_congr (hold u hut).2.1]
        exact hk.apart t ht hl u hu hlu htu x hx'
  · intro t ht hl hne
    simp only [recorded]
    by_cases htt : t = thread
    · simp only [htt, if_true]
      exact suspended_new hmain hmem hrsp hbottom
    · obtain ⟨ht, hl⟩ := hcase t ht hl htt
      simp only [htt, if_false]
      have hne' : t ≠ s.system.kernel.runningThread := hrun ▸ hne
      exact (hk.suspended t ht hl hne').congr (hold t htt).1 (hold t htt).2.1
        (hsame t htt ht hl)
  · intro t ht hl hno
    by_cases htt : t = thread
    · rw [htt]
      exact slot_new hmem hbottom
    · obtain ⟨hin, hl⟩ := hcase t (List.mem_cons_of_mem _ ht) hl htt
      have hcreated : t ∈ s.system.created := by simpa [htt] using ht
      obtain ⟨r, hf⟩ := hk.threads
      exact (slot_congr (hf.created_ne hcreated) (hold t htt).2.1 (hsame t htt hin hl)).trans
        (hk.slots t hcreated hl (fun hold => hno ⟨htt, hold⟩))

-- A call of schedule, from the timer or from kthread_exit.
theorem kept_schedule {k1 : State} {op : Op} (hk : Kept boot sym s) (hcalls : Calls op)
    (hcall : Called s.system.kernel k1) (he : schedule k1 = some k')
    (hroom : ∀ x, InRange (s.system.kernel.registers.rsp - 48) 56 x →
      x ∈ stackOf boot sym s.system.kernel s.system.kernel.runningThread)
    (hfollows : ∃ r, Follows sym { s.system with kernel := k' } r)
    (hlive : ∀ t ∈ sym.mainKernelThread :: s.system.created, Live k' t → Live s.system.kernel t) :
    Kept boot sym ⟨{ s.system with kernel := k' }, recorded s { s.system with kernel := k' } op,
        overwrites s { s.system with kernel := k' } op⟩ ∧
      (k'.runningThread ≠ s.system.kernel.runningThread →
        k'.registers = s.contexts k'.runningThread) := by
  rcases schedule_cases he with rfl | ⟨z, hz, rfl⟩
  · have hstay : ¬(k'.runningThread ≠ s.system.kernel.runningThread) := not_not.mpr hcall.running
    refine ⟨⟨hfollows, ?_, ?_, ?_⟩, fun hmoved => absurd hmoved hstay⟩
    · intro t ht hl u hu hlu htu x hx
      have hx : x ∈ stackOf boot sym k' t := hx
      show x ∉ stackOf boot sym k' u
      rw [stackOf_congr (hcall.stackBottom t)] at hx
      rw [stackOf_congr (hcall.stackBottom u)]
      exact hk.apart t ht (hlive t ht hl) u hu (hlive u hu hlu) htu x hx
    · intro t ht hl hne
      have hne : t ≠ k'.runningThread := hne
      rw [hcall.running] at hne
      simp only [recorded_calls hcalls, hstay, and_false, if_false]
      exact (hk.suspended t ht (hlive t ht hl) hne).congr (hcall.rsp t) (hcall.stackBottom t)
        (fun x _ => by rw [hcall.mem])
    · intro t ht hl hno
      have hin : t ∈ sym.mainKernelThread :: s.system.created := List.mem_cons_of_mem _ ht
      show k'.mem.load64 (returnSlot k' t) = sym.kthreadExit
      rw [hcall.mem, returnSlot, hcall.stackBottom]
      exact hk.slots t ht (hlive t hin hl) (overwrites_calls hcalls hno).1
  · have hw := switched_switchTo hcall hz
    have hz' : z ≠ s.system.kernel.runningThread := hcall.running ▸ hz
    refine ⟨kept_switch hk hcalls hw hz' hroom hfollows hlive, fun _ => ?_⟩
    obtain ⟨r, hf⟩ := hk.threads
    obtain ⟨r', hf'⟩ := hfollows
    obtain ⟨hr, hrl⟩ := running_live hf
    obtain ⟨hzin, hzl⟩ := running_live hf'
    have hrun : (switchTo z k1).runningThread = z := hw.running
    simp only [hrun] at hzin hzl ⊢
    have hsus := suspended_switch hk hw hroom hzin (hlive z hzin hzl) hr hrl hz'
    have hrsp := hw.rsp z hz'
    exact hw.restores _ (hrsp ▸ hsus.holds) (hrsp ▸ hsus.rsp)

theorem live_before {s s' : System} {r r' : Rota (BitVec 64)} {e : Event (BitVec 64)}
    (hf : Follows sym s r) (hf' : Follows sym s' r') (he : RoundRobin.step r e = some r')
    (ht : t ∈ sym.mainKernelThread :: s.created) (hl : Live s'.kernel t) : Live s.kernel t := by
  obtain ⟨hgone, hqueue⟩ := step_grows he
  rw [← hf.queue] at ht
  intro hdead
  rw [hf.states t ht] at hdead
  apply hl
  rw [hf'.states t (hqueue ht)]
  exact stateIn_dead.mpr (hgone (stateIn_dead.mp hdead))

theorem kept_step (hk : Kept boot sym s) (op : Op) (hp : Confined boot sym s op) :
    ∃ s', traceStep sym s op = some s' ∧ Kept boot sym s' ∧
      (s'.system.kernel.runningThread ≠ s.system.kernel.runningThread →
        s'.system.kernel.registers = s.contexts s'.system.kernel.runningThread) := by
  obtain ⟨r, hf⟩ := hk.threads
  obtain ⟨-, s1, r', hstep, hrota, hf', -⟩ := step_follows s.system r op hf hp.1
  refine ⟨⟨s1, recorded s s1 op, overwrites s s1 op⟩, by rw [traceStep, hstep]; rfl, ?_⟩
  cases op with
  | compute registers mem =>
      have hs1 := (Option.some.inj hstep).symm
      have hrun : s1.kernel.runningThread = s.system.kernel.runningThread := by rw [hs1]
      exact ⟨kept_compute hk hs1 hp, fun hmoved => absurd hrun hmoved⟩
  | kthreadCreate thread stackRaw entryPoint =>
      by_cases hfail : thread = 0 ∨ stackRaw = 0
      · rw [step, kthreadCreate_fails sym entryPoint hfail] at hstep
        cases hstep
        have hne : ∀ t ∈ sym.mainKernelThread :: s.system.created, t ≠ thread :=
          fun t ht he => hp.1 (he ▸ ht)
        refine ⟨⟨hk.threads, hk.apart, ?_, ?_⟩, fun hmoved => absurd rfl hmoved⟩
        · intro t ht hl hrun
          simp only [recorded, if_neg (hne t ht)]
          exact hk.suspended t ht hl hrun
        · intro t ht hl hno
          exact hk.slots t ht hl
            (fun hold => hno ⟨hne t (List.mem_cons_of_mem _ ht), hold⟩)
      · obtain ⟨ht0, hstack⟩ := not_or.mp hfail
        obtain ⟨⟨p, k'⟩, he, rfl⟩ := Option.map_eq_some_iff.mp hstep
        obtain ⟨rfl, -, hrun, -⟩ := kthreadCreate_machine ht0 hstack he
        have hp0 : ¬(p = 0) := ht0
        simp only [if_neg hp0] at hf' ⊢
        exact ⟨kept_create hk hp ht0 hstack he ⟨r', hf'⟩, fun hmoved => absurd hrun hmoved⟩
  | schedule =>
      obtain ⟨k', he, rfl⟩ := Option.map_eq_some_iff.mp hstep
      have hcall : Called s.system.kernel s.system.kernel :=
        ⟨rfl, rfl, rfl, fun _ => rfl, fun _ => rfl⟩
      exact kept_schedule hk trivial hcall he hp.2 ⟨r', hf'⟩
        (fun t ht hl => live_before hf hf' hrota ht hl)
  | kthreadExit =>
      obtain ⟨k', he, rfl⟩ := Option.map_eq_some_iff.mp hstep
      have hcall : Called s.system.kernel
          (setState s.system.kernel.runningThread .dead s.system.kernel) := by
        refine ⟨rfl, rfl, rfl, fun t => ?_, fun t => ?_⟩
        · rw [setState_threads]
          split <;> rfl
        · rw [setState_threads]
          split <;> rfl
      exact kept_schedule hk trivial hcall he hp.2 ⟨r', hf'⟩
        (fun t ht hl => live_before hf hf' hrota ht hl)

theorem kept_start (boot : Set (BitVec 64)) (sym : Symbols) (k : State) :
    Kept boot sym (traceStart sym k) := by
  refine ⟨⟨_, follows_start k⟩, ?_, ?_, ?_⟩
  · intro t ht _ u hu _ htu
    exact absurd ((List.mem_singleton.mp ht).trans (List.mem_singleton.mp hu).symm) htu
  · intro t ht _ hne
    exact absurd (List.mem_singleton.mp ht) hne
  · intro t ht
    cases ht

-- A thread that is switched in finds the registers of its record: those of its
-- last switch-out, or its entry point and six zeros. When the stack pointer is
-- back at the word that entry_point returns to, the ret goes to kthread_exit.
theorem context_switch_transparent (boot : Set (BitVec 64)) (sym : Symbols) (k : State)
    (ops : List Op) (hp : PermittedRun (traceStep sym) (Confined boot sym) (traceStart sym k) ops) :
    ∃ s, run (traceStep sym) (traceStart sym k) ops = some s ∧
      (∀ op, Confined boot sym s op → ∃ s', traceStep sym s op = some s' ∧
        (s'.system.kernel.runningThread ≠ s.system.kernel.runningThread →
          s'.system.kernel.registers = s.contexts s'.system.kernel.runningThread)) ∧
      (s.system.kernel.runningThread ∈ s.system.created →
        ¬s.overwritten s.system.kernel.runningThread →
        s.system.kernel.registers.rsp = returnSlot s.system.kernel s.system.kernel.runningThread →
        (ret s.system.kernel).rip = sym.kthreadExit) := by
  have hstep : ∀ s op, Kept boot sym s → Confined boot sym s op →
      ∃ s', traceStep sym s op = some s' ∧ Kept boot sym s' := by
    intro s op hk hc
    obtain ⟨s', he, hk', -⟩ := kept_step hk op hc
    exact ⟨s', he, hk'⟩
  obtain ⟨s, hrun, hk⟩ := run_of_progress (Kept boot sym) hstep (traceStart sym k) ops
    (kept_start boot sym k) hp
  refine ⟨s, hrun, ?_, ?_⟩
  · intro op hc
    obtain ⟨s', he, -, hregs⟩ := kept_step hk op hc
    exact ⟨s', he, hregs⟩
  · intro hin hno hrsp
    obtain ⟨r, hf⟩ := hk.threads
    show s.system.kernel.mem.load64 s.system.kernel.registers.rsp = sym.kthreadExit
    rw [hrsp]
    exact hk.slots _ hin (running_live hf).2 hno

-- The boot thread on a stack of 4096 bytes creates a thread.
def bootedState : State :=
  { zeroState with registers := { zeroState.registers with rsp := 0x80800 } }

-- The same thread in a call of schedule that returns to 0x20000.
def callingState : State :=
  { bootedState with
    registers := ⟨0x5000, 0x80800, 0x80900, 1, 2, 3, 4, 5⟩
    mem := zeroState.mem.store64 0x80800 0x20000 }

-- It creates a thread, is switched out for it, and finds its registers again
-- when that thread calls schedule.
theorem context_switch_transparent_resumed :
    ∃ s s', run (traceStep someSymbols) (traceStart someSymbols callingState)
        [.kthreadCreate 0x3000 0x10000 0x4000, .schedule] = some s ∧
      s.system.kernel.runningThread = 0x3000 ∧ (ret s.system.kernel).rip = someSymbols.kthreadExit ∧
      traceStep someSymbols s .schedule = some s' ∧
      s'.system.kernel.registers = ⟨0x20000, 0x80808, 0x80900, 1, 2, 3, 4, 5⟩ := by
  have hboot : ∀ k, stackOf {x | InRange 0x80000 4096 x} someSymbols k
      someSymbols.mainKernelThread = {x | InRange 0x80000 4096 x} := fun _ => if_pos rfl
  have hcreate : Confined {x | InRange 0x80000 4096 x} someSymbols
      (traceStart someSymbols callingState) (.kthreadCreate 0x3000 0x10000 0x4000) := by
    refine ⟨by decide, fun _ t ht _ x hx hin => ?_⟩
    obtain rfl := List.mem_singleton.mp ht
    rw [hboot] at hx
    exact apart_of_le 0x10000 0x80000 16384 4096 (by decide) (by decide) x hin hx
  have hroom : ∀ s, traceStep someSymbols (traceStart someSymbols callingState)
      (.kthreadCreate 0x3000 0x10000 0x4000) = some s →
      Confined {x | InRange 0x80000 4096 x} someSymbols s .schedule := by
    rintro s h
    cases h
    exact ⟨trivial, fun x hx => inRange_inner 0x80000 2000 x (by decide) hx⟩
  obtain ⟨s, hrun, hnext, hret⟩ := context_switch_transparent {x | InRange 0x80000 4096 x}
    someSymbols callingState [.kthreadCreate 0x3000 0x10000 0x4000, .schedule]
    ⟨hcreate, fun s h => ⟨hroom s h, fun _ _ => trivial⟩⟩
  have hat : (run (traceStep someSymbols) (traceStart someSymbols callingState)
      [.kthreadCreate 0x3000 0x10000 0x4000, .schedule]).map (fun s =>
        (s.system.created, s.system.kernel.registers.rsp, s.system.kernel.runningThread,
          (s.system.kernel.threads 0x3000).stackBottom, s.contexts 0x1000)) =
      some ([0x3000], 0x13FF8, 0x3000, 0x10000,
        ⟨0x20000, 0x80808, 0x80900, 1, 2, 3, 4, 5⟩) := by decide +kernel
  have hback : (run (traceStep someSymbols) (traceStart someSymbols callingState)
      ([.kthreadCreate 0x3000 0x10000 0x4000, .schedule] ++ [.schedule])).map (fun s =>
        s.system.kernel.runningThread) = some 0x1000 := by decide +kernel
  rw [run_append, hrun, Option.bind_some, run_single] at hback
  rw [hrun, Option.map_some, Option.some.injEq] at hat
  obtain ⟨hcreated, hrsp, hrunning, hbottom, hcontext⟩ :
      s.system.created = [0x3000] ∧ s.system.kernel.registers.rsp = 0x13FF8 ∧
        s.system.kernel.runningThread = 0x3000 ∧
        (s.system.kernel.threads 0x3000).stackBottom = 0x10000 ∧
        s.contexts 0x1000 = ⟨0x20000, 0x80808, 0x80900, 1, 2, 3, 4, 5⟩ := by
    simpa only [Prod.mk.injEq] using hat
  have hstack : stackOf {x | InRange 0x80000 4096 x} someSymbols s.system.kernel 0x3000 =
      {x | InRange 0x10000 16384 x} := by
    rw [stackOf, if_neg (by decide), hbottom]
  -- The boot thread is the one that calls schedule, and the new one has not run.
  have hkept : ¬s.overwritten 0x3000 := by
    have hrun' := hrun
    rw [← List.singleton_append, run_append] at hrun'
    obtain ⟨s1, hcreated, hcalled⟩ := Option.bind_eq_some_iff.mp hrun'
    rw [run_single] at hcreated hcalled
    cases hcreated
    obtain ⟨k, -, rfl⟩ := Option.map_eq_some_iff.mp hcalled
    rintro (⟨hother, -⟩ | ⟨hcaller, -⟩)
    · exact hother rfl
    · exact absurd hcaller (by decide)
  have hslot : s.system.kernel.registers.rsp =
      returnSlot s.system.kernel s.system.kernel.runningThread := by
    rw [hrunning, returnSlot, hbottom, hrsp]
    rfl
  obtain ⟨s', he, hregs⟩ := hnext .schedule ⟨trivial, fun x hx => by
    rw [hrsp] at hx
    rw [hrunning, hstack]
    exact inRange_inner 0x10000 16328 x (by decide) hx⟩
  rw [he, Option.map_some, Option.some.injEq] at hback
  refine ⟨s, s', hrun, hrunning, hret (by simp [hrunning, hcreated]) (hrunning ▸ hkept) hslot, he, ?_⟩
  rw [hregs (by rw [hback, hrunning]; decide), hback, hcontext]

end Miyabi.Arch.Thread
