import Miyabi.Base.Copy
import Miyabi.Elf.Header
import Miyabi.Mm.Vmm

namespace Miyabi.Elf.Loader

open Miyabi.Base Miyabi.Mm Miyabi.Mm.Vmm

-- src/elf/loader.c

-- The locals of elf_load for one PT_LOAD header.
structure Segment where
  vaddr : BitVec 64
  memsz : BitVec 64
  filesz : BitVec 64
  offset : BitVec 64
  deriving DecidableEq

def readSegment (m : Memory 64) (phdr : BitVec 64) : Segment :=
  ⟨pVaddr m phdr, pMemsz m phdr, pFilesz m phdr, pOffset m phdr⟩

def Segment.pageVaddr (seg : Segment) : BitVec 64 := seg.vaddr &&& ~~~0xFFF

def Segment.numPages (seg : Segment) : BitVec 64 :=
  let pageOffset := seg.vaddr &&& 0xFFF
  let totalSize := seg.memsz + pageOffset
  (totalSize + 0xFFF) / 0x1000

-- Zeroes a page and copies into it what the file has of the segment there.
def writePage (m : Memory 64) (elfBinary virtPage currPageVaddr : BitVec 64) (seg : Segment) :
    Memory 64 :=
  let m := m.fill virtPage 0 4096
  let segStart := seg.vaddr
  let segEnd := seg.vaddr + seg.filesz
  let copyStart := if currPageVaddr < segStart then segStart else currPageVaddr
  let copyEnd := if currPageVaddr + 0x1000 > segEnd then segEnd else currPageVaddr + 0x1000
  if copyStart < copyEnd then
    let amount := copyEnd - copyStart
    let fileSrcOffset := seg.offset + (copyStart - segStart)
    let pageDestOffset := copyStart - currPageVaddr
    m.copy (virtPage + pageDestOffset) (elfBinary + fileSrcOffset) amount.toNat
  else m

section Allocating

variable {σ : Type} (alloc : Memory 64 → σ → BitVec 64 × Memory 64 × σ)
variable (elfBinary phdr : BitVec 64)

-- One turn of the loop over the pages of a segment. The result of pmm_alloc is
-- not checked. none: vmm_map_page halts.
def loadPage (seg : Segment) (p : BitVec 64) (s : State σ) : Option (State σ) :=
  let (physFrame, s) := s.pmmAlloc alloc
  let flags := ptePresent ||| pteUser
  let flags := if pFlags s.mem phdr &&& pfW ≠ 0 then flags ||| pteWrite else flags
  let currPageVaddr := seg.pageVaddr + p * 0x1000
  match vmmMapPage alloc currPageVaddr physFrame flags s with
  | none => none
  | some s =>
      some { s with mem := writePage s.mem elfBinary (s.physToVirt physFrame) currPageVaddr seg }

-- Its first n turns.
def loadPages (seg : Segment) : Nat → State σ → Option (State σ)
  | 0, s => some s
  | n + 1, s =>
      match loadPages seg n s with
      | none => none
      | some s => loadPage alloc elfBinary phdr seg (BitVec.ofNat 64 n) s

-- The loop over the program headers from number i on.
def loadSegments : Nat → Nat → State σ → Option (State σ)
  | 0, _, _ => none
  | fuel + 1, i, s =>
      if i < (ePhnum s.mem elfBinary).toNat then
        let header := phdr + BitVec.ofNat 64 (i * phdrSize)
        if pType s.mem header = ptLoad then
          let seg := readSegment s.mem header
          match loadPages alloc elfBinary header seg seg.numPages.toNat s with
          | none => none
          | some s => loadSegments fuel (i + 1) s
        else loadSegments fuel (i + 1) s
      else some s

-- e_phnum is below 2^16, so that 2^16 turns reach the end of the loop. The second
-- parameter is not used.
def elfLoad (elfBinary _userPml4 : BitVec 64) (s : State σ) : Option (BitVec 64 × State σ) :=
  if !magicOk s.mem elfBinary then some (0, s)
  else if eMachine s.mem elfBinary ≠ emX8664 ∨ eType s.mem elfBinary ≠ etExec then some (0, s)
  else
    let phdr := elfBinary + ePhoff s.mem elfBinary
    match loadSegments alloc elfBinary phdr (2 ^ 16) 0 s with
    | none => none
    | some s => some (eEntry s.mem elfBinary, s)

end Allocating

end Miyabi.Elf.Loader
