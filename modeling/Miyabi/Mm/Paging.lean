import Mathlib.Data.BitVec

namespace Miyabi.Mm

-- include/mm/vmm.h

def pageSize : BitVec 64 := 4096

def ptePresent : BitVec 64 := 1 <<< 0
def pteWrite : BitVec 64 := 1 <<< 1
def pteUser : BitVec 64 := 1 <<< 2
def pteHuge : BitVec 64 := 1 <<< 7

-- What successive pmm_alloc calls return to a caller that does not look
-- inside the frame allocator; 0 is NULL.
structure FrameSupply where
  result : Nat → BitVec 64
  calls : Nat

def FrameSupply.pmmAlloc (frames : FrameSupply) : BitVec 64 × FrameSupply :=
  (frames.result frames.calls, { frames with calls := frames.calls + 1 })

end Miyabi.Mm
