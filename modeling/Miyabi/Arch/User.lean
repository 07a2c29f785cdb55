import Miyabi.Arch.Protection
import Miyabi.Drivers.Fb.Kept
import Miyabi.Drivers.Fb.Printf
import Miyabi.Syscalls

namespace Miyabi.Arch.User

open Miyabi.Base Miyabi.Base.Memory Miyabi.Arch.Trap Miyabi.Arch.Descriptors Miyabi.Arch.Protection
open Miyabi.Drivers.Fb Miyabi.Syscalls

-- src/arch/x86_64/keyboard.c

def scancodeToAscii : List (BitVec 8) :=
  [0x00, 0x1B, 0x31, 0x32, 0x33, 0x34, 0x35, 0x36, 0x37, 0x38, 0x39, 0x30, 0x2D, 0x3D,
    0x08, 0x09, 0x71, 0x77, 0x65, 0x72, 0x74, 0x79, 0x75, 0x69, 0x6F, 0x70, 0x5B, 0x5D,
    0x0A, 0x00, 0x61, 0x73, 0x64, 0x66, 0x67, 0x68, 0x6A, 0x6B, 0x6C, 0x3B, 0x27, 0x60,
    0x00, 0x5C, 0x7A, 0x78, 0x63, 0x76, 0x62, 0x6E, 0x6D, 0x2C, 0x2E, 0x2F, 0x00, 0x2A,
    0x00, 0x20, 0x00, 0x00, 0x00, 0x00, 0x00, 0x00, 0x00, 0x00, 0x00, 0x00, 0x00, 0x00,
    0x00, 0x37, 0x38, 0x39, 0x2D, 0x34, 0x35, 0x36, 0x2B, 0x31, 0x32, 0x33, 0x30, 0x2E]

-- "%c"
def charFormat : Fs.CString := [percent, ⟨0x63, by decide⟩]

def keyboardHandlerMain (font : ℕ → BitVec 8) (scancode : BitVec 8) (con : Console) :
    Except Fs.Fault Console :=
  if scancode &&& 0x80 ≠ 0 then .ok con
  else
    match scancodeToAscii[scancode.toNat]? with
    | none => .ok con
    | some c =>
        if c ≠ 0 then con.printf font charFormat 0xFFFFFF fun _ => ⟨[], c.setWidth 32⟩ else .ok con

-- A process in ring 3 over the kernel: the stubs of src/arch/x86_64/isr.asm with
-- src/syscalls/syscalls.c and src/arch/x86_64/irq.c.

structure Machine where
  cpu : Cpu
  kernel : Kernel

def withMemory (k : Kernel) (mem : Memory 64) : Kernel := { k with console := { k.console with mem } }

-- The members of the frame that syscall_handler uses.
def frameAt (mem : Memory 64) (sp : BitVec 64) : InterruptFrame :=
  ⟨mem.load64 sp, mem.load64 (sp + 24), mem.load64 (sp + 32), mem.load64 (sp + 40)⟩

-- frame->rax is stored back. A call that does not assign it leaves it as it was.
def syscallAt (font : ℕ → BitVec 8) (k : Kernel) (sp : BitVec 64) : Option Kernel :=
  match syscallHandler font k (frameAt k.console.mem sp) with
  | none => none
  | some (frame, run) => some (withMemory run.kernel (run.kernel.console.mem.store64 sp frame.rax))

-- Until schedule has come back, other threads make these calls of the console and change
-- the memory. No stub pushes another vector.
def irqHandler (font : ℕ → BitVec 8) (calls : List Call) (others : Memory 64 → Memory 64)
    (scancode : BitVec 8) (k : Kernel) (sp : BitVec 64) : Option Kernel :=
  let vector := k.console.mem.load64 (sp + 120)
  if vector = 32 then
    let console := k.console.run font calls
    some { k with console := { console with mem := others console.mem } }
  else if vector = 33 then
    match keyboardHandlerMain font scancode k.console with
    | .error _ => none
    | .ok console => some { k with console }
  else none

-- What the stub at an address pushes. exception_handler, which the other stubs call, halts.
def stubVector (sym : Symbols) (rip : BitVec 64) : Option (BitVec 64) :=
  if rip = sym.irq0 then some 32
  else if rip = sym.irq1 then some 33
  else if rip = sym.isr128 then some 128
  else none

-- What follows the call of a handler.
def returned (sys : SystemRegisters) (sp : BitVec 64) : Option Kernel → Option Machine
  | none => none
  | some k => (leaveStub sys k.console.mem sp).map fun cpu => ⟨cpu, k⟩

-- From the process to a handler and back.
def interrupted (font : ℕ → BitVec 8) (sym : Symbols) (sys : SystemRegisters) (software : Bool)
    (vector : BitVec 8) (irq : Kernel → BitVec 64 → Option Kernel) (c : Cpu) (k : Kernel) :
    Option Machine :=
  match deliver sys software vector c k.console.mem with
  | none => none
  | some (entry, mem) =>
      match stubVector sym entry.rip with
      | none => none
      | some number =>
          let (mem, sp) := enterStub number entry mem
          returned sys sp (if number = 128 then syscallAt font (withMemory k mem) sp
            else irq (withMemory k mem) sp)

-- `own` is code of the process, which has no page of the kernel half.
inductive Op where
  | own (cpu : Cpu) (mem : Memory 64)
  | int (vector : BitVec 8)
  | timer (calls : List Call) (others : Memory 64 → Memory 64)
  | key (scancode : BitVec 8)

-- An int instruction has two bytes.
def behindInt (c : Cpu) : Cpu := { c with rip := c.rip + 2 }

-- IF
def interruptible (c : Cpu) : Bool := c.rflags.getLsbD 9

def step (font : ℕ → BitVec 8) (sym : Symbols) (sys : SystemRegisters) (m : Machine) :
    Op → Option Machine
  | .own cpu mem =>
      some ⟨cpu, withMemory m.kernel fun x => if x < userEnd then mem x else m.kernel.console.mem x⟩
  | .int vector =>
      interrupted font sym sys true vector (fun _ _ => none) (behindInt m.cpu) m.kernel
  | .timer calls others =>
      if interruptible m.cpu then
        interrupted font sym sys false 32 (irqHandler font calls others 0) m.cpu m.kernel
      else none
  | .key scancode =>
      if interruptible m.cpu then
        interrupted font sym sys false 33 (irqHandler font [] id scancode) m.cpu m.kernel
      else none

section Session

-- What the process and the user see: a processor, the user half of the memory, which is all
-- that `mem` is read for, and a text screen.
structure Session where
  cpu : Cpu
  mem : Memory 64
  terminal : Terminal

namespace Session

def text (mem : Memory 64) (buf count : BitVec 64) : List (BitVec 8) :=
  (List.range count.toNat).map fun i => mem (buf + BitVec.ofNat 64 i)

-- The character of a key that goes down.
def typed (scancode : BitVec 8) : Option (BitVec 8) :=
  if scancode &&& 0x80 = 0 then (scancodeToAscii[scancode.toNat]?).filter (· ≠ 0) else none

-- A call of the kernel, by the number in rax. `opened` are the descriptors of the screen.
def syscall (opened : BitVec 32 → Bool) (s : Session) : Option Session :=
  let cpu := behindInt s.cpu
  if s.cpu.rax = 0 then none
  else if s.cpu.rax = 1 then some { s with cpu := { cpu with rax := 0 } }
  else if s.cpu.rax = 2 then
    if opened (s.cpu.rdi.setWidth 32) && validateUserPointer s.cpu.rsi s.cpu.rdx then
      some { s with
        cpu := { cpu with rax := s.cpu.rdx }
        terminal := s.terminal.step (.puts (text s.mem s.cpu.rsi s.cpu.rdx) 0xFFFFFFF) }
    else some { s with cpu := { cpu with rax := -1 } }
  else some { s with cpu }

def step (opened : BitVec 32 → Bool) (s : Session) : Op → Option Session
  | .own cpu mem => some { s with cpu, mem }
  | .int vector => if vector = 0x80 then s.syscall opened else none
  | .timer calls _ => some { s with terminal := s.terminal.run calls }
  | .key scancode =>
      match typed scancode with
      | none => some s
      | some c => some { s with terminal := s.terminal.putChar c 0xFFFFFF }

end Session

end Session

section Permitted

variable (sym : Symbols) (fb : Framebuffer)

-- Where the kernel keeps what this is about.
def tables : Set (BitVec 64) :=
  {x | InRange sym.gdt 56 x ∨ InRange sym.kernelTss tssSize x ∨ InRange sym.idt 4096 x}

def interruptStack : Set (BitVec 64) :=
  {x | InRange (sym.initialKernelStack + kernelStackSize - 176) frameSize x}

def screen : Set (BitVec 64) := {x | InRange fb.address (screenSize fb) x}

structure Layout : Prop where
  aligned : sym.initialKernelStack &&& 15 = 0
  stackTables : ∀ x ∈ interruptStack sym, x ∉ tables sym
  screenTables : ∀ x ∈ screen fb, x ∉ tables sym
  screenStack : ∀ x ∈ screen fb, x ∉ interruptStack sym
  high : ∀ x ∈ tables sym ∪ interruptStack sym ∪ screen fb, userEnd ≤ x
  -- The stubs that come back are not one another.
  stubs : [sym.irq0, sym.irq1, sym.isr128].Nodup

-- Code of ring 3 with an IOPL of 0 can change neither its segments nor IF. A buffer that the
-- kernel takes ends below the kernel half. The other threads have their own memory.
def Permitted (opened : BitVec 32 → Bool) (s : Session) : Op → Prop
  | .own cpu _ => cpu.cs = 0x23 ∧ cpu.ss = 0x1B ∧ interruptible cpu
  | .int _ =>
      s.cpu.rax = 2 → opened (s.cpu.rdi.setWidth 32) → validateUserPointer s.cpu.rsi s.cpu.rdx →
        s.cpu.rsi.toNat + s.cpu.rdx.toNat ≤ userEnd.toNat
  | .timer _ others => ∀ mem x,
      x < userEnd ∨ x ∈ tables sym ∪ interruptStack sym ∪ screen fb → others mem x = mem x
  | .key _ => True

end Permitted

end Miyabi.Arch.User
