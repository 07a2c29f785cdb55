import Miyabi.Arch.Descriptors
import Miyabi.Arch.Trap

namespace Miyabi.Arch.Protection

open Miyabi.Base Miyabi.Base.Memory Miyabi.Base.Record Miyabi.Base.Stack
open Miyabi.Arch.Trap Miyabi.Arch.Descriptors

-- What the processor makes of the tables of gdt.c and idt.c in long mode, and
-- src/arch/x86_64/user.asm. none: a fault.

def rpl (selector : BitVec 16) : BitVec 2 := selector.setWidth 2

def cpl (c : Cpu) : BitVec 2 := rpl c.cs

-- The bytes of a descriptor that count for code and stack segments.
structure Segment where
  access : BitVec 8
  flags : BitVec 8
  deriving DecidableEq

namespace Segment

variable (s : Segment)

def present : Bool := s.access.getLsbD 7

def dpl : BitVec 2 := s.access.extractLsb' 5 2

-- A 64-bit code segment that is not conforming.
def isCode : Bool :=
  s.access.getLsbD 4 && s.access.getLsbD 3 && !s.access.getLsbD 2 && s.flags.getLsbD 5

-- A writable data segment.
def isStack : Bool := s.access.getLsbD 4 && !s.access.getLsbD 3 && s.access.getLsbD 1

end Segment

def segmentAt (gdtr : TableRegister) (m : Memory 64) (selector : BitVec 16) : Option Segment :=
  let offset := selector.toNat / 8 * 8
  if offset = 0 ∨ selector.getLsbD 2 ∨ gdtr.limit < offset + 7 then none
  else
    let entry := gdtr.base + BitVec.ofNat 64 offset
    some ⟨m (entry + 5), m (entry + 6)⟩

structure Gate where
  offset : BitVec 64
  selector : BitVec 16
  ist : BitVec 8
  attr : BitVec 8
  deriving DecidableEq

namespace Gate

variable (g : Gate)

def present : Bool := g.attr.getLsbD 7

def dpl : BitVec 2 := g.attr.extractLsb' 5 2

def isInterrupt : Bool := g.attr.setWidth 5 = (0xE : BitVec 5)

end Gate

def gateAt (idtr : TableRegister) (m : Memory 64) (vector : ℕ) : Gate :=
  let entry := idtr.base + BitVec.ofNat 64 (idtEntrySize * vector)
  { offset := (member m entry 8 4 : BitVec 32) ++
      ((member m entry 6 2 : BitVec 16) ++ (member m entry 0 2 : BitVec 16))
    selector := member m entry 2 2
    ist := member m entry 4 1
    attr := member m entry 5 1 }

-- rsp0 to rsp2 and ist1 to ist7.
def tssStack (tr : TableRegister) (m : Memory 64) (level : BitVec 2) : BitVec 64 :=
  m.load64 (tr.base + 4 + 8 * level.setWidth 64)

def tssInterruptStack (tr : TableRegister) (m : Memory 64) (ist : BitVec 8) : BitVec 64 :=
  m.load64 (tr.base + 28 + 8 * (ist &&& 7).setWidth 64)

-- An interrupt, or an int instruction if `software`, up to the first instruction of the
-- handler.
def deliver (sys : SystemRegisters) (software : Bool) (vector : BitVec 8) (c : Cpu)
    (m : Memory 64) : Option (Cpu × Memory 64) :=
  let gate := gateAt sys.idtr m vector.toNat
  if sys.idtr.limit < idtEntrySize * vector.toNat + 15 then none
  else if !(gate.isInterrupt && gate.present) ∨ software ∧ gate.dpl < cpl c then none
  else
    match segmentAt sys.gdtr m gate.selector with
    | none => none
    | some code =>
        if !(code.isCode && code.present) ∨ cpl c < code.dpl then none
        else
          let top :=
            if gate.ist &&& 7 ≠ 0 then tssInterruptStack sys.tr m gate.ist
            else if code.dpl < cpl c then tssStack sys.tr m code.dpl
            else c.rsp
          let (m, rsp) := pushes m (alignedTop top) (gatePushes c)
          some ({ c with
              rip := gate.offset
              cs := (gate.selector &&& ~~~3) ||| code.dpl.setWidth 16
              ss := if code.dpl < cpl c then code.dpl.setWidth 16 else c.ss
              rsp
              rflags := c.rflags &&& ~~~gateFlags }, m)

-- The stubs of ISR_NOERR, of irqs and of system calls, up to the call of the handler.
def enterStub (vector : BitVec 64) (c : Cpu) (m : Memory 64) : Memory 64 × BitVec 64 :=
  pushes m c.rsp ([0, vector] ++ pushRegs c)

-- An iretq of ring `level` to these segments.
def mayReturn (sys : SystemRegisters) (m : Memory 64) (level : BitVec 2) (cs ss : BitVec 16) :
    Bool :=
  match segmentAt sys.gdtr m cs with
  | none => false
  | some code =>
      code.isCode && code.present && code.dpl == rpl cs && level ≤ rpl cs &&
        match segmentAt sys.gdtr m ss with
        | none => ss.toNat / 8 == 0 && rpl cs != 3 && rpl ss == rpl cs
        | some stack => stack.isStack && stack.present && stack.dpl == rpl cs && rpl ss == rpl cs

-- The end of a stub, in ring 0 with its frame at sp.
def leaveStub (sys : SystemRegisters) (m : Memory 64) (sp : BitVec 64) : Option Cpu :=
  let c := interruptExit m sp
  if mayReturn sys m 0 c.cs c.ss then some c else none

-- The data segment registers other than ss can be loaded with it in ring `level`.
def mayLoad (sys : SystemRegisters) (m : Memory 64) (level : BitVec 2) (selector : BitVec 16) :
    Bool :=
  match segmentAt sys.gdtr m selector with
  | none => selector.toNat / 8 == 0
  | some data => data.present && data.access.getLsbD 4 && level ≤ data.dpl && rpl selector ≤ data.dpl

def switchToUserSpace (sys : SystemRegisters) (userStack userFunc : BitVec 64) (c : Cpu)
    (m : Memory 64) : Option (Cpu × Memory 64) :=
  -- cli
  let c := { c with rdi := userStack, rsi := userFunc, rflags := c.rflags &&& ~~~0x200 }
  if !mayLoad sys m (cpl c) 0x1B then none
  else
    let (m, sp) := pushes m c.rsp [0x1B, c.rdi]
    -- pushfq and pop rax
    let (m, top) := pushes m sp [c.rflags]
    let rax := m.load64 top ||| 0x200
    let (m, sp) := pushes m sp [rax, 0x23, c.rsi]
    -- iretq
    let (rip, sp) := pop m sp
    let (cs, sp) := pop m sp
    let (rflags, sp) := pop m sp
    let (rsp, sp) := pop m sp
    let (ss, _) := pop m sp
    if mayReturn sys m (cpl c) (cs.setWidth 16) (ss.setWidth 16) then
      some ({ c with rax, rip, cs := cs.setWidth 16, rflags, rsp, ss := ss.setWidth 16 }, m)
    else none

-- Whether a port can be used by code whose ring is above IOPL: the bits of the map in the
-- TSS for these ports are clear. The processor reads two bytes of it.
def ioAllowed (tr : TableRegister) (m : Memory 64) (port : BitVec 16) (count : ℕ) : Bool :=
  let mapBase := (m.load16 (tr.base + 102)).toNat
  let first := mapBase + port.toNat / 8
  first + 1 ≤ tr.limit &&
    (((m.load16 (tr.base + BitVec.ofNat 64 first)).toNat >>> (port.toNat % 8)) % 2 ^ count == 0)

end Miyabi.Arch.Protection
