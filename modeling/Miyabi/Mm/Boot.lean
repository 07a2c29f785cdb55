import Miyabi.Mm.Pmm
import Miyabi.Mm.Vmm

namespace Miyabi.Mm.Boot

open Miyabi.Base Miyabi.Mm.Pmm Miyabi.Mm.Vmm

-- A call of pmm_alloc: what it returned, and the memory at that moment.
structure Returned where
  page : BitVec 64
  mem : Memory 64

-- pmm_alloc as vmm.c calls it: its bitmap lies in the memory it is given. The
-- calls are recorded, nothing in the code reads them.
def bitmapAlloc (p : Statics) (m : Memory 64) (calls : List Returned) :
    BitVec 64 × Memory 64 × List Returned :=
  ((pmmAlloc p m).1, (pmmAlloc p m).2, calls ++ [⟨(pmmAlloc p m).1, (pmmAlloc p m).2⟩])

-- src/drivers/fb.c: init_fb keeps the pointer to the boot loader's first framebuffer
-- descriptor; none: there is no response or no framebuffer, and it halts.
def initFb (response : Option (List (BitVec 64))) : Option (BitVec 64) :=
  match response with
  | none => none
  | some framebuffers => framebuffers.head?

structure System where
  pmm : Statics
  vmm : Vmm.State (List Returned)
  fb : BitVec 64

-- The part of _start that sets up the console, the frames and the page tables.
def start (boot : BootInfo) (framebuffers : Option (List (BitVec 64))) (cr3 : BitVec 64)
    (m : Memory 64) : Option System :=
  match initFb framebuffers with
  | none => none
  | some fb =>
      match initPmm boot m with
      | none => none
      | some (p, m) =>
          match initVmm cr3 ⟨m, p.hhdmOffset, 0, [], []⟩ with
          | none => none
          | some vmm => some ⟨p, vmm, fb⟩

inductive Call where
  | pmmAlloc
  | vmmMapPage (virt phys flags : BitVec 64)

def System.step (s : System) : Call → Option System
  | .pmmAlloc => some { s with vmm := (s.vmm.pmmAlloc (bitmapAlloc s.pmm)).2 }
  | .vmmMapPage virt phys flags =>
      match Vmm.vmmMapPage (bitmapAlloc s.pmm) virt phys flags s.vmm with
      | none => none
      | some vmm => some { s with vmm }

end Miyabi.Mm.Boot
