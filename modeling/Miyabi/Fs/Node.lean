import Miyabi.Fs.Vfs

namespace Miyabi.Fs

-- The finddir operations. One that belongs to neither file system below is
-- given by what it answers.
inductive FindDir
  | ramfs
  | devfs
  | other (answer : CString → BitVec 64)

inductive Read
  | ramfs
  | other

-- The fields of vfs_node_t that the file systems here use. `name` is the
-- string up to its terminator.
structure VfsNode where
  name : CString
  flags : BitVec 32
  length : BitVec 32
  read : Option Read
  finddir : Option FindDir
  ptr : BitVec 64

namespace VfsNode

-- char name[128]
def nameSize : Nat := 128

def zero : VfsNode where
  name := []
  flags := 0
  length := 0
  read := none
  finddir := none
  ptr := 0

end VfsNode

-- The node objects by address and the static variables of vfs.c, initramfs.c
-- and devfs.c. `kmallocs` counts the calls of kmalloc.
structure State where
  nodes : BitVec 64 → VfsNode
  kmallocs : Nat
  fsRoot : BitVec 64
  ramfsNodes : List (BitVec 64)
  ramfsRoot : BitVec 64
  devfsRoot : BitVec 64
  devices : List (BitVec 64)

namespace State

def setNode (s : State) (p : BitVec 64) (node : VfsNode) : State :=
  { s with nodes := Function.update s.nodes p node }

-- `blocks n` is what the n-th call of kmalloc returns, zero for NULL.
variable (blocks : Nat → BitVec 64)

def kmalloc (s : State) : BitVec 64 × State :=
  (blocks s.kmallocs, { s with kmallocs := s.kmallocs + 1 })

-- No block is given out twice.
def Fresh : Prop := ∀ i j, blocks i ≠ 0 → blocks i = blocks j → i = j

def vfsMount (s : State) (mountpoint target : BitVec 64) : State :=
  if mountpoint = 0 then s
  else
    s.setNode mountpoint
      { s.nodes mountpoint with
        flags := (s.nodes mountpoint).flags ||| FS_MOUNTPOINT
        ptr := target }

end State

end Miyabi.Fs
