import Miyabi.Drivers.Storage.Block
import Miyabi.Mm.Heap.Fresh

namespace Miyabi.Fs

open Miyabi.Base Miyabi.Base.Memory Miyabi.Mm Miyabi.Drivers.Storage

-- The fields of ext2_superblock_t that ext2_mount reads, of the superblock at `sb`.
section Superblock

variable (m : Memory 64) (sb : BitVec 64)

def inodesCount : BitVec 32 := m.load32 sb
def blocksCount : BitVec 32 := m.load32 (sb + 4)
def logBlockSize : BitVec 32 := m.load32 (sb + 24)
def blocksPerGroup : BitVec 32 := m.load32 (sb + 32)
def inodesPerGroup : BitVec 32 := m.load32 (sb + 40)
def superMagic : BitVec 16 := m.load16 (sb + 56)
def inodeSize : BitVec 16 := m.load16 (sb + 88)

end Superblock

def ext2Magic : BitVec 16 := 0xEF53

structure Ext2Fs where
  dev : BitVec 64
  blockSize : BitVec 32
  inodeSize : BitVec 32
  blocksCount : BitVec 32
  inodesCount : BitVec 32
  blocksPerGroup : BitVec 32
  inodesPerGroup : BitVec 32
  groupCount : BitVec 32

-- sizeof(ext2_fs_t)
def ext2FsSize : BitVec 64 := 40

-- The processor takes the count of a shift modulo 32.
def ext2FsOf (m : Memory 64) (sb dev : BitVec 64) : Ext2Fs where
  dev := dev
  blockSize := 1024 <<< ((logBlockSize m sb).toNat % 32)
  inodeSize := (inodeSize m sb).setWidth 32
  blocksCount := blocksCount m sb
  inodesCount := inodesCount m sb
  blocksPerGroup := blocksPerGroup m sb
  inodesPerGroup := inodesPerGroup m sb
  groupCount := (blocksCount m sb + blocksPerGroup m sb - 1) / blocksPerGroup m sb

def Ext2Fs.store (fs : Ext2Fs) (ptr : BitVec 64) (m : Memory 64) : Memory 64 :=
  let m := m.store64 ptr fs.dev
  let m := m.store32 (ptr + 8) fs.blockSize
  let m := m.store32 (ptr + 12) fs.inodeSize
  let m := m.store32 (ptr + 16) fs.blocksCount
  let m := m.store32 (ptr + 20) fs.inodesCount
  let m := m.store32 (ptr + 24) fs.blocksPerGroup
  let m := m.store32 (ptr + 28) fs.inodesPerGroup
  m.store32 (ptr + 32) fs.groupCount

-- What a mount operation works on: the heap and the drive.
structure Host where
  heap : Heap.System
  drive : Drive

def Host.machine (h : Host) : Machine := ⟨h.heap.mem, h.drive⟩

def Host.setMachine (h : Host) (s : Machine) : Host := ⟨h.heap.setMem s.mem, s.drive⟩

-- ext2_mount with its buffer at `buf`. A device is a pointer and what it points to, none for
-- NULL. none: the call does not return, since kmalloc does not or the division is by zero.
def ext2Mount (buf : BitVec 64) (dev : Option (BitVec 64 × BlockDev)) (h : Host) :
    Option (BitVec 64 × Host) :=
  match dev with
  | none => some (0, h)
  | some (ptr, dev) =>
      match blockRead (some dev) 2 2 buf h.machine with
      | (false, s) => some (0, h.setMachine s)
      | (true, s) =>
          let h := h.setMachine s
          if superMagic h.heap.mem buf ≠ ext2Magic then some (0, h)
          else
            match h.heap.kmalloc ext2FsSize with
            | none => none
            | some (fs, heap) =>
                if fs = 0 then some (0, { h with heap })
                else if blocksPerGroup heap.mem buf = 0 then none
                else
                  let mem := (ext2FsOf heap.mem buf ptr).store fs heap.mem
                  some (0, { h with heap := heap.setMem mem })

end Miyabi.Fs
