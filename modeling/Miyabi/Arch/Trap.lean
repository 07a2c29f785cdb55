import Miyabi.Base.Stack

namespace Miyabi.Arch.Trap

open Miyabi.Base Miyabi.Base.Memory Miyabi.Base.Stack

-- src/arch/x86_64/isr.asm, with what the processor does before and behind a stub

-- All that an interrupt has to give back.
structure Cpu where
  rax : BitVec 64
  rbx : BitVec 64
  rcx : BitVec 64
  rdx : BitVec 64
  rsi : BitVec 64
  rdi : BitVec 64
  rbp : BitVec 64
  r8 : BitVec 64
  r9 : BitVec 64
  r10 : BitVec 64
  r11 : BitVec 64
  r12 : BitVec 64
  r13 : BitVec 64
  r14 : BitVec 64
  r15 : BitVec 64
  rip : BitVec 64
  cs : BitVec 16
  rflags : BitVec 64
  rsp : BitVec 64
  ss : BitVec 16
  deriving DecidableEq

-- The processor starts its frame at a multiple of 16.
def alignedTop (sp : BitVec 64) : BitVec 64 := sp &&& ~~~15

-- What the processor pushes, and what PUSH_REGS does, the first push first.
def gatePushes (c : Cpu) : List (BitVec 64) :=
  [c.ss.setWidth 64, c.rsp, c.rflags, c.cs.setWidth 64, c.rip]

def pushRegs (c : Cpu) : List (BitVec 64) :=
  [c.r15, c.r14, c.r13, c.r12, c.r11, c.r10, c.r9, c.r8, c.rbp, c.rdi, c.rsi, c.rdx, c.rcx, c.rbx,
    c.rax]

-- IF, TF, NT and RF, which an interrupt gate clears.
def gateFlags : BitVec 64 := 0x14300

-- Up to `mov rdi, rsp`: the interrupt takes the stack at `top`. The error code is that
-- of the processor, or the 0 of ISR_NOERR and of the stubs of irqs and system calls.
def interruptEntry (vector errorCode top : BitVec 64) (c : Cpu) (m : Memory 64) :
    Memory 64 × BitVec 64 :=
  pushes m (alignedTop top) (gatePushes c ++ [errorCode, vector] ++ pushRegs c)

def pop (m : Memory 64) (sp : BitVec 64) : BitVec 64 × BitVec 64 := (m.load64 sp, sp + 8)

-- From POP_REGS on.
def interruptExit (m : Memory 64) (sp : BitVec 64) : Cpu :=
  let (rax, sp) := pop m sp
  let (rbx, sp) := pop m sp
  let (rcx, sp) := pop m sp
  let (rdx, sp) := pop m sp
  let (rsi, sp) := pop m sp
  let (rdi, sp) := pop m sp
  let (rbp, sp) := pop m sp
  let (r8, sp) := pop m sp
  let (r9, sp) := pop m sp
  let (r10, sp) := pop m sp
  let (r11, sp) := pop m sp
  let (r12, sp) := pop m sp
  let (r13, sp) := pop m sp
  let (r14, sp) := pop m sp
  let (r15, sp) := pop m sp
  -- add rsp, 16
  let sp := sp + 16
  -- iretq
  let (rip, sp) := pop m sp
  let (cs, sp) := pop m sp
  let (rflags, sp) := pop m sp
  let (rsp, sp) := pop m sp
  let (ss, _) := pop m sp
  { rax, rbx, rcx, rdx, rsi, rdi, rbp, r8, r9, r10, r11, r12, r13, r14, r15, rip,
    cs := cs.setWidth 16, rflags, rsp, ss := ss.setWidth 16 }

-- interrupt_frame_t, from its first field on.
def frameWords (vector errorCode : BitVec 64) (c : Cpu) : List (BitVec 64) :=
  [c.rax, c.rbx, c.rcx, c.rdx, c.rsi, c.rdi, c.rbp, c.r8, c.r9, c.r10, c.r11, c.r12, c.r13, c.r14,
    c.r15, vector, errorCode, c.rip, c.cs.setWidth 64, c.rflags, c.rsp, c.ss.setWidth 64]

def frameSize : ℕ := 176

variable {vector errorCode top sp : BitVec 64} {c : Cpu} {m m' : Memory 64}

-- A stub hands its handler an interrupt_frame_t.
theorem interruptEntry_pushes (vector errorCode top : BitVec 64) (c : Cpu) (m : Memory 64) :
    (interruptEntry vector errorCode top c m).2 = alignedTop top - 176 ∧
      Pushed m (interruptEntry vector errorCode top c m).1 (alignedTop top - 176)
        (frameWords vector errorCode c) frameSize := by
  have hstart : Holds m (alignedTop top) [] := trivial
  have hsp : (interruptEntry vector errorCode top c m).2 = alignedTop top - 176 := by
    rw [interruptEntry, pushes_sp]
    rfl
  have hpushed := (pushed_none hstart).pushes (gatePushes c ++ [errorCode, vector] ++ pushRegs c)
    (by simp [gatePushes, pushRegs])
  refine ⟨hsp, ?_⟩
  rw [← hsp]
  exact hpushed

-- POP_REGS and iretq take the words of a frame.
theorem interruptExit_frame (h : Holds m sp (frameWords vector errorCode c)) :
    interruptExit m sp = c := by
  obtain ⟨hrax, hrbx, hrcx, hrdx, hrsi, hrdi, hrbp, hr8, hr9, hr10, hr11, hr12, hr13, hr14, hr15,
    -, -, hrip, hcs, hrflags, hrsp, hss, -⟩ := h
  have hskip (a : BitVec 64) : a + 16 = a + 8 + 8 := by
    rw [add_assoc]
    rfl
  unfold interruptExit pop
  dsimp only
  rw [hskip, hrax, hrbx, hrcx, hrdx, hrsi, hrdi, hrbp, hr8, hr9, hr10, hr11, hr12, hr13, hr14, hr15,
    hrip, hcs, hrflags, hrsp, hss]
  simp only [BitVec.setWidth_setWidth_of_le _ (by decide : 16 ≤ 64), BitVec.setWidth_eq]

end Miyabi.Arch.Trap
