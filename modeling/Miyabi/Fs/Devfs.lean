import Miyabi.Fs.Initramfs

namespace Miyabi.Fs

open Miyabi.Base

def MAX_DEVFS_DEVICES : Nat := 32

def devfsStrcmp : CString → CString → Int
  | [], [] => 0
  | [], b :: _ => -b.val.toNat
  | a :: _, [] => a.val.toNat
  | a :: s1, b :: s2 => if a = b then devfsStrcmp s1 s2 else a.val.toNat - b.val.toNat

theorem devfsStrcmp_eq_zero_iff (a b : CString) : devfsStrcmp a b = 0 ↔ a = b := by
  induction a generalizing b with
  | nil =>
    cases b with
    | nil => simp [devfsStrcmp]
    | cons d b =>
      have hd : d.val.toNat ≠ 0 := fun h => d.ne_zero (BitVec.eq_of_toNat_eq h)
      simp only [devfsStrcmp, reduceCtorEq, iff_false]
      omega
  | cons c a ih =>
    cases b with
    | nil =>
      have hc : c.val.toNat ≠ 0 := fun h => c.ne_zero (BitVec.eq_of_toNat_eq h)
      simp only [devfsStrcmp, reduceCtorEq, iff_false]
      omega
    | cons d b =>
      by_cases hcd : c = d
      · subst hcd
        simp [devfsStrcmp, ih]
      · have hval : c.val.toNat ≠ d.val.toNat := by
          intro h
          apply hcd
          cases c
          cases d
          congr 1
          exact BitVec.eq_of_toNat_eq h
        rw [devfsStrcmp, if_neg hcd]
        simp only [List.cons.injEq, hcd, false_and, iff_false]
        omega

namespace State

def devfsFinddir (s : State) (name : CString) : BitVec 64 :=
  (s.devices.find? fun device => devfsStrcmp (s.nodes device).name name = 0).getD 0

-- "dev"
def devName : CString := [⟨0x64, by decide⟩, ⟨0x65, by decide⟩, ⟨0x76, by decide⟩]

def devfsNode : VfsNode :=
  { VfsNode.zero with name := devName, flags := FS_DIRECTORY, finddir := some .devfs }

variable (blocks : Nat → BitVec 64)

-- device_count keeps its value while the slots are cleared.
def initDevfs (s : State) : Except Fault State :=
  let (root, s) := s.kmalloc blocks
  if root = 0 then .error .nullPointer
  else
    .ok { s.setNode root devfsNode with
          devfsRoot := root
          devices := s.devices.map fun _ => 0 }

def devfsRegister (device : BitVec 64) (s : State) : State :=
  if MAX_DEVFS_DEVICES ≤ s.devices.length then s
  else { s with devices := s.devices ++ [device] }

-- The call of a node's finddir.
def callFinddir (s : State) (node : BitVec 64) : FindDir → CString → BitVec 64
  | .ramfs => s.ramfsFinddir node
  | .devfs => s.devfsFinddir
  | .other answer => answer

-- The state as path lookup sees it.
def vfs (s : State) : Vfs where
  fsRoot := s.fsRoot
  flags node := (s.nodes node).flags
  ptr node := (s.nodes node).ptr
  finddir node := (s.nodes node).finddir.map (s.callFinddir node)

section Vfs

variable (s : State) (node : BitVec 64)

@[simp] theorem vfs_fsRoot : s.vfs.fsRoot = s.fsRoot := rfl

@[simp] theorem vfs_flags : s.vfs.flags node = (s.nodes node).flags := rfl

@[simp] theorem vfs_ptr : s.vfs.ptr node = (s.nodes node).ptr := rfl

@[simp] theorem vfs_finddir :
    s.vfs.finddir node = (s.nodes node).finddir.map (s.callFinddir node) := rfl

end Vfs

def vfsGetNodeByPath (s : State) (path : CString) : Except Fault (BitVec 64) :=
  s.vfs.vfsGetNodeByPath path

end State

end Miyabi.Fs
