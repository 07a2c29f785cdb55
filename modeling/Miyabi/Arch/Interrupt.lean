import Miyabi.Arch.Thread.Theorems

namespace Miyabi.Arch.Interrupt

open Miyabi.Base Miyabi.Arch.Thread

-- src/arch/x86_64/isr.asm, irq.c, switch.asm and include/arch/x86_64/spinlock.h,
-- as far as they touch the interrupt flag.

-- Where a thread goes on when context_switch returns to it: at entry_point, as
-- the stack that kthread_create builds says; in schedule as irq_handler called
-- it, then to the iretq of irq0 and the flag in its frame; or in schedule as
-- kthread_exit called it, then in its halt loop.
inductive Resume where
  | entryPoint
  | irqHandler (savedFlag : Bool)
  | kthreadExit

-- The threads, the interrupt flag, the thread between spin_lock and spin_unlock
-- (of fb_lock, the one spinlock) and where the suspended threads go on.
structure Machine where
  system : System
  interruptFlag : Bool
  holder : Option (BitVec 64)
  resume : BitVec 64 → Resume

-- The flag when the code that schedule returns to is left: context_switch does
-- not touch it, and iretq restores it.
def flagAfter (flag : Bool) : Resume → Bool
  | .entryPoint => flag
  | .irqHandler savedFlag => savedFlag
  | .kthreadExit => flag

-- schedule has made `system` of the threads, called as `how` says. It returns
-- to its caller, or context_switch has gone to the thread that now runs.
def afterSchedule (how : Resume) (m : Machine) (system : System) : Machine :=
  let oldThread := m.system.kernel.runningThread
  let newThread := system.kernel.runningThread
  if newThread = oldThread then
    { m with system, interruptFlag := flagAfter m.interruptFlag how }
  else
    { m with
      system
      interruptFlag := flagAfter m.interruptFlag (m.resume newThread)
      resume := fun t => if t = oldThread then how else m.resume t }

inductive Op where
  | compute (registers : Registers) (mem : Memory 64)
  | kthreadCreate (thread stackRaw entryPoint : BitVec 64)
  | kthreadExit
  | timer
  | spinLock
  | spinUnlock

def step (sym : Symbols) (m : Machine) : Op → Option Machine
  | .compute registers mem =>
      (Thread.step sym m.system (.compute registers mem)).map fun system => { m with system }
  | .kthreadCreate thread stackRaw entryPoint =>
      (Thread.step sym m.system (.kthreadCreate thread stackRaw entryPoint)).map fun system =>
        { m with
          system
          resume := fun t => if t = thread then .entryPoint else m.resume t }
  | .kthreadExit =>
      -- cli
      let m := { m with interruptFlag := false }
      (Thread.step sym m.system .kthreadExit).map (afterSchedule .kthreadExit m)
  | .timer =>
      -- A masked interrupt stays pending. The gate clears the flag that it saves.
      if m.interruptFlag then
        let savedFlag := m.interruptFlag
        let m := { m with interruptFlag := false }
        (Thread.step sym m.system .schedule).map (afterSchedule (.irqHandler savedFlag) m)
      else some m
  | .spinLock =>
      -- cli, then the loop, which does not end while another holds the lock.
      if m.holder = none then
        some { m with interruptFlag := false, holder := some m.system.kernel.runningThread }
      else none
  | .spinUnlock => some { m with interruptFlag := true, holder := none }

-- The boot thread behind the sti of _start.
def start (sym : Symbols) (k : State) (resume : BitVec 64 → Resume) : Machine :=
  ⟨Thread.start sym k, true, none, resume⟩

def Permitted (sym : Symbols) (m : Machine) : Op → Prop
  | .kthreadCreate thread stackRaw entryPoint =>
      Thread.Permitted sym m.system (.kthreadCreate thread stackRaw entryPoint)
  | .kthreadExit => Thread.Permitted sym m.system .kthreadExit
  | .spinUnlock => m.holder = some m.system.kernel.runningThread
  | _ => True

-- A live thread that executes its own code outside spin-locked sections can be
-- interrupted.
def Preemptible (m : Machine) : Prop :=
  (m.system.kernel.threads m.system.kernel.runningThread).state ≠ .dead →
    m.holder ≠ some m.system.kernel.runningThread → m.interruptFlag = true

-- No timer interrupt is taken once there is a thread besides the boot thread.
def Single (m : Machine) : Op → Prop
  | .timer => m.interruptFlag = true → m.system.created = []
  | _ => True

end Miyabi.Arch.Interrupt
