import Miyabi.Arch.Thread.Stacks
import Miyabi.Arch.Trap

namespace Miyabi.Arch.Preempt

open Miyabi.Base Miyabi.Base.Memory Miyabi.Base.Stack Miyabi.Arch.Thread Miyabi.Arch.Trap

-- src/arch/x86_64/isr.asm around the threads of src/arch/x86_64/thread.c: an interrupt may
-- come at any time, also inside the handler of another.

-- The registers that a called function need not keep, and those of the segments.
structure Scratch where
  rax : BitVec 64
  rcx : BitVec 64
  rdx : BitVec 64
  rsi : BitVec 64
  rdi : BitVec 64
  r8 : BitVec 64
  r9 : BitVec 64
  r10 : BitVec 64
  r11 : BitVec 64
  cs : BitVec 16
  rflags : BitVec 64
  ss : BitVec 16
  deriving DecidableEq

def cpuOf (r : Registers) (s : Scratch) : Cpu :=
  ⟨s.rax, r.rbx, s.rcx, s.rdx, s.rsi, s.rdi, r.rbp, s.r8, s.r9, s.r10, s.r11, r.r12, r.r13, r.r14,
    r.r15, r.rip, s.cs, s.rflags, r.rsp, s.ss⟩

def registersOf (c : Cpu) : Registers :=
  ⟨c.rip, c.rsp, c.rbp, c.rbx, c.r12, c.r13, c.r14, c.r15⟩

def scratchOf (c : Cpu) : Scratch :=
  ⟨c.rax, c.rcx, c.rdx, c.rsi, c.rdi, c.r8, c.r9, c.r10, c.r11, c.cs, c.rflags, c.ss⟩

-- An interrupt that has not been returned from: its frame, and the processor and the
-- memory that it came upon.
structure Frame where
  addr : BitVec 64
  vector : BitVec 64
  cpu : Cpu
  mem : Memory 64

-- `frames` is a record, innermost interrupt first.
structure Machine where
  threads : Traced
  scratch : Scratch
  frames : BitVec 64 → List Frame

namespace Machine

variable (m : Machine)

abbrev kernel : State := m.threads.system.kernel

def cpu : Cpu := cpuOf m.kernel.registers m.scratch

-- Those of the running thread.
def pending : List Frame := m.frames m.kernel.runningThread

end Machine

-- `own` is code of the running thread or of a handler. The functions leave what they like
-- in the scratch registers.
inductive Op where
  | own (registers : Registers) (scratch : Scratch) (mem : Memory 64)
  | interrupt (vector : BitVec 64)
  | iret
  | kthreadCreate (thread stackRaw entryPoint : BitVec 64) (scratch : Scratch)
  | schedule (scratch : Scratch)
  | kthreadExit (scratch : Scratch)

-- The stub of an interrupt with no error code, up to its call of the handler, the instruction
-- at `callAt vector`.
def enter (callAt : BitVec 64 → BitVec 64) (vector : BitVec 64) (m : Machine) :
    Registers × Scratch × Memory 64 :=
  let (mem, rsp) := interruptEntry vector 0 m.kernel.registers.rsp m.cpu m.kernel.mem
  ({ m.kernel.registers with rip := callAt vector, rsp },
    { m.scratch with rdi := rsp, cs := 0x08, rflags := m.scratch.rflags &&& ~~~gateFlags }, mem)

-- Its end, where rsp is back at the frame.
def leave (m : Machine) : Cpu := interruptExit m.kernel.mem m.kernel.registers.rsp

variable (callAt : BitVec 64 → BitVec 64) (sym : Symbols)

def threadOp (m : Machine) : Op → Thread.Op
  | .own registers _ mem => .compute registers mem
  | .interrupt vector =>
      let (registers, _, mem) := enter callAt vector m
      .compute registers mem
  | .iret => .compute (registersOf (leave m)) m.kernel.mem
  | .kthreadCreate thread stackRaw entryPoint _ => .kthreadCreate thread stackRaw entryPoint
  | .schedule _ => .schedule
  | .kthreadExit _ => .kthreadExit

def scratchAfter (m : Machine) : Op → Scratch
  | .own _ scratch _ => scratch
  | .interrupt vector => (enter callAt vector m).2.1
  | .iret => scratchOf (leave m)
  | .kthreadCreate _ _ _ scratch => scratch
  | .schedule scratch => scratch
  | .kthreadExit scratch => scratch

def framesAfter (m : Machine) : Op → BitVec 64 → List Frame
  | .interrupt vector =>
      Function.update m.frames m.kernel.runningThread
        (⟨(enter callAt vector m).1.rsp, vector, m.cpu, m.kernel.mem⟩ :: m.pending)
  | .iret => Function.update m.frames m.kernel.runningThread m.pending.tail
  | .kthreadCreate thread _ _ _ => Function.update m.frames thread []
  | _ => m.frames

def step (m : Machine) (op : Op) : Option Machine :=
  (traceStep sym m.threads (threadOp callAt m op)).map fun threads =>
    ⟨threads, scratchAfter callAt m op, framesAfter callAt m op⟩

-- The boot thread, outside any interrupt.
def start (k : State) (scratch : Scratch) : Machine := ⟨traceStart sym k, scratch, fun _ => []⟩

section Stacks

variable (bootBase bootSize : BitVec 64) (k : State) (t : BitVec 64)

def bootStack : Set (BitVec 64) := {x | InRange bootBase bootSize.toNat x}

def stackBase : BitVec 64 :=
  if t = sym.mainKernelThread then bootBase else (k.threads t).stackBottom

def stackLength : ℕ := if t = sym.mainKernelThread then bootSize.toNat else 16384

-- Where an address lies in the stack of a thread.
def height (x : BitVec 64) : ℕ := (x - stackBase sym bootBase k t).toNat

end Stacks

section Permitted

variable (bootBase bootSize : BitVec 64)

-- The stack pointer of the running thread leaves `room` bytes below it, and lies below the
-- frames of its open interrupts.
structure OnStack (m : Machine) (room above : ℕ) : Prop where
  room : room ≤ height sym bootBase m.kernel m.kernel.runningThread m.kernel.registers.rsp
  inside : height sym bootBase m.kernel m.kernel.runningThread m.kernel.registers.rsp + above ≤
    stackLength sym bootSize m.kernel.runningThread
  below : ∀ f ∈ m.pending.head?,
    height sym bootBase m.kernel m.kernel.runningThread m.kernel.registers.rsp ≤
      height sym bootBase m.kernel m.kernel.runningThread f.addr

-- Own code leaves the stacks of the other live threads alone, and a handler what was on
-- its stack when it was called. The stack has room for a frame, and a handler returns with
-- the stack pointer that it was called with. Kernel code is interrupted on its own stack.
def Permitted (m : Machine) : Op → Prop
  | .own registers _ mem =>
      Confined (bootStack bootBase bootSize) sym m.threads (.compute registers mem) ∧
        ∀ f ∈ m.pending.head?,
          ∀ x ∈ stackOf (bootStack bootBase bootSize) sym m.kernel m.kernel.runningThread,
            height sym bootBase m.kernel m.kernel.runningThread f.addr ≤
              height sym bootBase m.kernel m.kernel.runningThread x → mem x = m.kernel.mem x
  | .interrupt _ => m.scratch.cs = 0x08 ∧ OnStack sym bootBase bootSize m 192 0
  | .iret => ∃ f ∈ m.pending.head?, m.kernel.registers.rsp = f.addr
  | .kthreadCreate thread stackRaw entryPoint _ =>
      Confined (bootStack bootBase bootSize) sym m.threads
        (.kthreadCreate thread stackRaw entryPoint)
  | .schedule _ => OnStack sym bootBase bootSize m 48 8
  | .kthreadExit _ =>
      Thread.Permitted sym m.threads.system .kthreadExit ∧ OnStack sym bootBase bootSize m 48 8

end Permitted

end Miyabi.Arch.Preempt
