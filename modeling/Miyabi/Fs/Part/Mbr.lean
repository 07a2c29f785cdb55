import Miyabi.Fs.Part.Gpt.Theorems

namespace Miyabi.Fs.Part

open Miyabi.Base Miyabi.Base.Memory Miyabi.Drivers.Storage

-- include/fs/part/mbr.h. The entries lie in one sector, so their addresses have 9 bits.
section Fields

variable (sector : Sector)

def mbrPartition (i : Nat) : BitVec 9 := 446 + BitVec.ofNat 9 (16 * i)

def mbrSignature : BitVec 16 := sector.load16 510

variable (entry : BitVec 9)

def partitionType : BitVec 8 := sector (entry + 4)
def lbaStart : BitVec 32 := sector.load32 (entry + 8)
def sectorCount : BitVec 32 := sector.load32 (entry + 12)

end Fields

def mbrMagic : BitVec 16 := 0xAA55
def gptProtective : BitVec 8 := 0xEE

-- The block devices and the drive.
structure Storage where
  devices : BlockDevices
  machine : Machine

section Parse

variable (sector : Sector) (stack : BitVec 64)

-- The device for the i-th entry.
def partDev (i : Nat) : BlockDev where
  name := String.ofList ['s', 'd', 'a', Char.ofNat ('1'.toNat + i)]
  sectorSize := 512
  totalSectors := (sectorCount sector (mbrPartition i)).setWidth 64
  startLba := (lbaStart sector (mbrPartition i)).setWidth 64
  read := some .ataBlockRead

-- The loop from the i-th entry on, `turns` entries before the end. gpt_parse
-- has its sector buffer at `stack`, and its result is not looked at.
def mbrEntries : Nat → Nat → Storage → Storage
  | 0, _, st => st
  | turns + 1, i, st =>
      let kind := partitionType sector (mbrPartition i)
      if kind = 0 then mbrEntries turns (i + 1) st
      else if kind = gptProtective then
        match gptParse stack st.machine with
        | none => st
        | some run => { st with machine := run.machine }
      else
        mbrEntries turns (i + 1)
          { st with devices := (registerBlockDevice (partDev sector i) st.devices).2 }

def mbrParse (st : Storage) : Storage :=
  if mbrSignature sector ≠ mbrMagic then st else mbrEntries sector stack 4 0 st

end Parse

end Miyabi.Fs.Part
