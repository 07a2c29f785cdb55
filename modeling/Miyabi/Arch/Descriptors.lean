import Miyabi.Base.Copy
import Miyabi.Base.Record

namespace Miyabi.Arch.Descriptors

open Miyabi.Base Miyabi.Base.Memory Miyabi.Base.Record

-- src/arch/x86_64/gdt.c and idt.c

-- The addresses that the linker gives to the tables, to the TSS, to initial_kernel_stack
-- and to the stubs of isr.asm.
structure Symbols where
  gdt : BitVec 64
  kernelTss : BitVec 64
  initialKernelStack : BitVec 64
  idt : BitVec 64
  isr0 : BitVec 64
  isr8 : BitVec 64
  isr13 : BitVec 64
  isr14 : BitVec 64
  irq0 : BitVec 64
  irq1 : BitVec 64
  isr128 : BitVec 64

def gdtEntrySize : ℕ := 8
-- sizeof(kernel_tss)
def tssSize : ℕ := 110
def kernelStackSize : BitVec 64 := 4096

-- access and granularity of the entries of gdt, whose other members are 0.
def gdtData : List (BitVec 8 × BitVec 8) :=
  [(0x00, 0x00), (0x9A, 0x20), (0x92, 0x00), (0xF2, 0x00), (0xFA, 0x20), (0x00, 0x00), (0x00, 0x00)]

def gdtByte (i j : ℕ) : BitVec 8 :=
  match gdtData[i]? with
  | some (access, granularity) => if j = 5 then access else if j = 6 then granularity else 0
  | none => 0

-- What set_tss_descriptor assigns to gdt[index] and, from 8 on, to *high_entry.
def tssFields (base : BitVec 64) (limit : BitVec 32) : List Field :=
  [⟨0, 2, (limit &&& 0xFFFF).setWidth 16⟩,
    ⟨2, 2, (base &&& 0xFFFF).setWidth 16⟩,
    ⟨4, 1, ((base >>> 16) &&& 0xFF).setWidth 8⟩,
    ⟨5, 1, (0x89 : BitVec 8)⟩,
    ⟨6, 1, ((limit >>> 16) &&& 0x0F).setWidth 8⟩,
    ⟨7, 1, ((base >>> 24) &&& 0xFF).setWidth 8⟩,
    ⟨8, 4, (base >>> 32).setWidth 32⟩,
    ⟨12, 4, (0 : BitVec 32)⟩]

def setTssDescriptor (gdt : BitVec 64) (index : ℕ) (base : BitVec 64) (limit : BitVec 32)
    (m : Memory 64) : Memory 64 :=
  assign (gdt + BitVec.ofNat 64 (gdtEntrySize * index)) (tssFields base limit) m

-- What init_gdt has written before gdt_flush.
def initGdt (sym : Symbols) (m : Memory 64) : Memory 64 :=
  let m := fill m sym.kernelTss 0 tssSize
  let m := m.store64 (sym.kernelTss + 4) (sym.initialKernelStack + kernelStackSize)
  setTssDescriptor sym.gdt 5 sym.kernelTss (BitVec.ofNat 32 (tssSize - 1)) m

def idtInterruptGate : BitVec 8 := 0x8E
def idtUserInterruptGate : BitVec 8 := 0xEE
def idtEntrySize : ℕ := 16
def irqBase : ℕ := 32

-- What idt_set_gate assigns to idt[vector].
def gateFields (addr : BitVec 64) (flags : BitVec 8) : List Field :=
  [⟨0, 2, (addr &&& 0xFFFF).setWidth 16⟩,
    ⟨2, 2, (0x08 : BitVec 16)⟩,
    ⟨4, 1, (0 : BitVec 8)⟩,
    ⟨5, 1, flags⟩,
    ⟨6, 2, ((addr >>> 16) &&& 0xFFFF).setWidth 16⟩,
    ⟨8, 4, ((addr >>> 32) &&& 0xFFFFFFFF).setWidth 32⟩,
    ⟨12, 4, (0 : BitVec 32)⟩]

def idtSetGate (idt : BitVec 64) (vector : ℕ) (handler : BitVec 64) (flags : BitVec 8)
    (m : Memory 64) : Memory 64 :=
  assign (idt + BitVec.ofNat 64 (idtEntrySize * vector)) (gateFields handler flags) m

def initIdt (sym : Symbols) (m : Memory 64) : Memory 64 :=
  let m := idtSetGate sym.idt 0 sym.isr0 idtInterruptGate m
  let m := idtSetGate sym.idt 8 sym.isr8 idtInterruptGate m
  let m := idtSetGate sym.idt 13 sym.isr13 idtInterruptGate m
  let m := idtSetGate sym.idt 14 sym.isr14 idtInterruptGate m
  let m := idtSetGate sym.idt (irqBase + 0) sym.irq0 idtInterruptGate m
  let m := idtSetGate sym.idt (irqBase + 1) sym.irq1 idtInterruptGate m
  idtSetGate sym.idt 0x80 sym.isr128 idtUserInterruptGate m

-- lgdt, lidt and ltr.
structure TableRegister where
  base : BitVec 64
  limit : ℕ

structure SystemRegisters where
  gdtr : TableRegister
  idtr : TableRegister
  tr : TableRegister

-- The processor takes the TSS from the descriptor at the selector, and marks it busy.
def loadTss (gdtr : TableRegister) (selector : BitVec 16) (m : Memory 64) :
    TableRegister × Memory 64 :=
  let entry := gdtr.base + (selector &&& ~~~7).setWidth 64
  let base : BitVec 64 := (member m entry 8 4 : BitVec 32) ++ ((member m entry 7 1 : BitVec 8) ++
    ((member m entry 4 1 : BitVec 8) ++ (member m entry 2 2 : BitVec 16)))
  let limit : BitVec 20 := ((member m entry 6 1 : BitVec 8).setWidth 4 : BitVec 4) ++
    (member m entry 0 2 : BitVec 16)
  (⟨base, limit.toNat⟩, store m (entry + 5) (n := 1) ((member m entry 5 1 : BitVec 8) ||| 2))

-- init_gdt and init_idt, as _start calls them.
def initTables (sym : Symbols) (m : Memory 64) : SystemRegisters × Memory 64 :=
  let m := initGdt sym m
  let gdtr : TableRegister := ⟨sym.gdt, gdtEntrySize * gdtData.length - 1⟩
  let (tr, m) := loadTss gdtr 0x28 m
  let m := initIdt sym m
  (⟨gdtr, ⟨sym.idt, idtEntrySize * 256 - 1⟩, tr⟩, m)

end Miyabi.Arch.Descriptors
