import Miyabi.Base.Memory

namespace Miyabi.Arch.Thread

open Miyabi.Base

-- src/arch/x86_64/thread.c and src/arch/x86_64/switch.asm

inductive ThreadState where
  | ready
  | running
  | dead
  deriving DecidableEq

-- thread_t
structure Tcb where
  rsp : BitVec 64
  id : BitVec 64
  state : ThreadState
  stackBottom : BitVec 64
  next : BitVec 64

-- Where execution goes on, the stack pointer and the registers that a called
-- function must keep.
structure Registers where
  rip : BitVec 64
  rsp : BitVec 64
  rbp : BitVec 64
  rbx : BitVec 64
  r12 : BitVec 64
  r13 : BitVec 64
  r14 : BitVec 64
  r15 : BitVec 64
  deriving DecidableEq

-- The addresses that the linker gives to the two symbols.
structure Symbols where
  mainKernelThread : BitVec 64
  kthreadExit : BitVec 64
  main_ne_null : mainKernelThread ≠ 0

-- The processor, the memory that holds the stacks, the thread_t records by
-- their addresses, and the statics of thread.c.
structure State where
  registers : Registers
  mem : Memory 64
  threads : BitVec 64 → Tcb
  runningThread : BitVec 64
  threadQueueHead : BitVec 64
  nextThreadId : BitVec 64

def stackSize : BitVec 64 := 16384

def setThread (p : BitVec 64) (t : Tcb) (s : State) : State :=
  { s with threads := fun q => if q = p then t else s.threads q }

def setState (p : BitVec 64) (state : ThreadState) (s : State) : State :=
  setThread p { s.threads p with state } s

def setNext (p next : BitVec 64) (s : State) : State :=
  setThread p { s.threads p with next } s

def push (v : BitVec 64) (s : State) : State :=
  let rsp := s.registers.rsp - 8
  { s with registers := { s.registers with rsp }, mem := s.mem.store64 rsp v }

def pop (s : State) : BitVec 64 × State :=
  let rsp := s.registers.rsp
  (s.mem.load64 rsp, { s with registers := { s.registers with rsp := rsp + 8 } })

-- context_switch(&old->rsp, newRsp), called with its return address at rsp.
def contextSwitch (old newRsp : BitVec 64) (s : State) : State :=
  let s := push s.registers.rbp s
  let s := push s.registers.rbx s
  let s := push s.registers.r12 s
  let s := push s.registers.r13 s
  let s := push s.registers.r14 s
  let s := push s.registers.r15 s
  let s := setThread old { s.threads old with rsp := s.registers.rsp } s
  let s := { s with registers := { s.registers with rsp := newRsp } }
  let (r15, s) := pop s
  let (r14, s) := pop s
  let (r13, s) := pop s
  let (r12, s) := pop s
  let (rbx, s) := pop s
  let (rbp, s) := pop s
  let (rip, s) := pop s
  { s with registers := { s.registers with rip, rbp, rbx, r12, r13, r14, r15 } }

def initScheduler (sym : Symbols) (s : State) : State :=
  let s := setThread sym.mainKernelThread ⟨0, 0, .running, 0, 0⟩ s
  { s with runningThread := sym.mainKernelThread, threadQueueHead := sym.mainKernelThread }

-- The search loop of schedule. It meets no thread twice before it stops, so
-- that 2^64 turns are enough.
def findRunnable (s : State) : Nat → BitVec 64 → Option (BitVec 64)
  | 0, _ => none
  | fuel + 1, newThread =>
      let newThread := if newThread = 0 then s.threadQueueHead else newThread
      match (s.threads newThread).state with
      | .ready => some newThread
      | .running => some newThread
      | .dead => findRunnable s fuel (s.threads newThread).next

-- The end of schedule, for a thread other than the running one.
def switchTo (newThread : BitVec 64) (s : State) : State :=
  let oldThread := s.runningThread
  let s := if (s.threads oldThread).state = .running then setState oldThread .ready s else s
  let s := setState newThread .running s
  let s := { s with runningThread := newThread }
  contextSwitch oldThread (s.threads newThread).rsp s

def schedule (s : State) : Option State :=
  if s.threadQueueHead = 0 then some s
  else
    let oldThread := s.runningThread
    match findRunnable s (2 ^ 64) (s.threads oldThread).next with
    | none => none
    | some newThread => some (if newThread = oldThread then s else switchTo newThread s)

-- The loop of kthread_create that looks for the end of the queue.
def lastThread (s : State) : Nat → BitVec 64 → Option (BitVec 64)
  | 0, _ => none
  | fuel + 1, curr =>
      if (s.threads curr).next ≠ 0 then lastThread s fuel (s.threads curr).next else some curr

-- The n-th turn of `stack_top--; *stack_top = 0;` and those before it.
def pushZeros (m : Memory 64) (stackTop : BitVec 64) : Nat → Memory 64 × BitVec 64
  | 0 => (m, stackTop)
  | n + 1 =>
      let (m, stackTop) := pushZeros m stackTop n
      let stackTop := stackTop - 8
      (m.store64 stackTop 0, stackTop)

-- The stack that kthread_create builds: kthread_exit to return to from
-- entry_point, entry_point for context_switch to return to, and six registers.
def initialStack (sym : Symbols) (stackRaw entryPoint : BitVec 64) (m : Memory 64) :
    Memory 64 × BitVec 64 :=
  let stackTop := stackRaw + stackSize
  let stackTop := stackTop - 8
  let m := m.store64 stackTop sym.kthreadExit
  let stackTop := stackTop - 8
  let m := m.store64 stackTop entryPoint
  pushZeros m stackTop 6

-- `thread` and `stackRaw` are what the two calls of kmalloc return. The thread
-- is given back by kfree when there is no stack for it.
def kthreadCreate (sym : Symbols) (thread stackRaw entryPoint : BitVec 64) (s : State) :
    Option (BitVec 64 × State) :=
  if thread = 0 then some (0, s)
  else if stackRaw = 0 then some (0, s)
  else
    let id := s.nextThreadId
    let (m, stackTop) := initialStack sym stackRaw entryPoint s.mem
    let s := { s with mem := m, nextThreadId := id + 1 }
    let s := setThread thread ⟨stackTop, id, .ready, stackRaw, 0⟩ s
    match lastThread s (2 ^ 64) s.threadQueueHead with
    | none => none
    | some curr => some (thread, setNext curr thread s)

-- Up to the halt loop behind schedule(), which a dead thread never reaches.
def kthreadExit (s : State) : Option State :=
  schedule (setState s.runningThread .dead s)

-- What happens on the processor: the running thread's own code leaves other
-- registers and another memory behind, or it calls one of the functions, or
-- the timer interrupts it and irq_handler calls schedule.
inductive Op where
  | compute (registers : Registers) (mem : Memory 64)
  | kthreadCreate (thread stackRaw entryPoint : BitVec 64)
  | schedule
  | kthreadExit

-- The scheduler, and the pointers that kthread_create has returned so far
-- other than NULL.
structure System where
  kernel : State
  created : List (BitVec 64)

def step (sym : Symbols) (s : System) : Op → Option System
  | .compute registers mem => some { s with kernel := { s.kernel with registers, mem } }
  | .kthreadCreate thread stackRaw entryPoint =>
      (kthreadCreate sym thread stackRaw entryPoint s.kernel).map fun (p, k) =>
        ⟨k, if p = 0 then s.created else s.created ++ [p]⟩
  | .schedule => (schedule s.kernel).map fun k => { s with kernel := k }
  | .kthreadExit => (kthreadExit s.kernel).map fun k => { s with kernel := k }

def start (sym : Symbols) (s : State) : System := ⟨initScheduler sym s, []⟩

end Miyabi.Arch.Thread
