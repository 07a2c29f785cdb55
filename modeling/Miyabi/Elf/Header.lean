import Miyabi.Base.Memory

namespace Miyabi.Elf

open Miyabi.Base

-- include/elf/elf.h: fields of the structures as they are read through a pointer.

def etRel : BitVec 16 := 1
def etExec : BitVec 16 := 2
def emX8664 : BitVec 16 := 62
def elfClass64 : BitVec 8 := 2

section Ehdr

variable (m : Memory 64) (ehdr : BitVec 64)

def eIdent (k : BitVec 64) : BitVec 8 := m (ehdr + k)
def eType : BitVec 16 := m.load16 (ehdr + 16)
def eMachine : BitVec 16 := m.load16 (ehdr + 18)
def eEntry : BitVec 64 := m.load64 (ehdr + 24)
def ePhoff : BitVec 64 := m.load64 (ehdr + 32)
def eShoff : BitVec 64 := m.load64 (ehdr + 40)
def ePhnum : BitVec 16 := m.load16 (ehdr + 56)
def eShentsize : BitVec 16 := m.load16 (ehdr + 58)
def eShnum : BitVec 16 := m.load16 (ehdr + 60)

-- The test of the four magic bytes that both loaders start with.
def magicOk : Bool :=
  eIdent m ehdr 0 == 0x7F && eIdent m ehdr 1 == 0x45 && eIdent m ehdr 2 == 0x4C &&
    eIdent m ehdr 3 == 0x46

end Ehdr

def ehdrSize : ℕ := 64

section Phdr

variable (m : Memory 64) (phdr : BitVec 64)

def ptLoad : BitVec 32 := 1
def pfW : BitVec 32 := 2

def pType : BitVec 32 := m.load32 (phdr + 0)
def pFlags : BitVec 32 := m.load32 (phdr + 4)
def pOffset : BitVec 64 := m.load64 (phdr + 8)
def pVaddr : BitVec 64 := m.load64 (phdr + 16)
def pFilesz : BitVec 64 := m.load64 (phdr + 32)
def pMemsz : BitVec 64 := m.load64 (phdr + 40)

end Phdr

def phdrSize : ℕ := 56

section Shdr

variable (m : Memory 64) (shdr : BitVec 64)

def shtSymtab : BitVec 32 := 2
def shtStrtab : BitVec 32 := 3
def shtRela : BitVec 32 := 4
def shtNobits : BitVec 32 := 8
def shfAlloc : BitVec 64 := 2

def shType : BitVec 32 := m.load32 (shdr + 4)
def shFlags : BitVec 64 := m.load64 (shdr + 8)
def shAddr : BitVec 64 := m.load64 (shdr + 16)
def shOffset : BitVec 64 := m.load64 (shdr + 24)
def shSize : BitVec 64 := m.load64 (shdr + 32)
def shLink : BitVec 32 := m.load32 (shdr + 40)
def shInfo : BitVec 32 := m.load32 (shdr + 44)
def shAddralign : BitVec 64 := m.load64 (shdr + 48)

def IsAlloc : Prop := shFlags m shdr &&& shfAlloc ≠ 0

instance : Decidable (IsAlloc m shdr) := inferInstanceAs (Decidable (_ ≠ _))

end Shdr

def shdrSize : ℕ := 64

section Sym

variable (m : Memory 64) (sym : BitVec 64)

def shnUndef : BitVec 16 := 0
def shnAbs : BitVec 16 := 0xFFF1

def stName : BitVec 32 := m.load32 (sym + 0)
def stShndx : BitVec 16 := m.load16 (sym + 6)
def stValue : BitVec 64 := m.load64 (sym + 8)

end Sym

section Rela

variable (m : Memory 64) (rela : BitVec 64)

def rX8664None : BitVec 32 := 0
def rX866464 : BitVec 32 := 1
def rX8664Pc32 : BitVec 32 := 2
def rX8664Plt32 : BitVec 32 := 4
def rX866432 : BitVec 32 := 10
def rX866432s : BitVec 32 := 11

def rOffset : BitVec 64 := m.load64 (rela + 0)
def rInfo : BitVec 64 := m.load64 (rela + 8)
def rAddend : BitVec 64 := m.load64 (rela + 16)

end Rela

end Miyabi.Elf
