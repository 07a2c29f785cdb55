import Mathlib.Data.BitVec
import Miyabi.Base.Words

namespace Miyabi.Fs

open Miyabi.Base

-- A character of a C string: any byte but the terminator.
structure Char8 where
  val : BitVec 8
  ne_zero : val ≠ 0
  deriving DecidableEq

abbrev CString := List Char8

def slash : Char8 := ⟨0x2F, by decide⟩
def dot : Char8 := ⟨0x2E, by decide⟩

-- A string literal.
def chars (bytes : List (BitVec 8)) : CString :=
  bytes.filterMap fun b => if h : b = 0 then none else some ⟨b, h⟩

-- Ways in which a call does not come to a defined result.
inductive Fault
  | overrun
  | nullPointer
  | endless
  deriving DecidableEq

def FS_FILE : BitVec 32 := 0x01
def FS_DIRECTORY : BitVec 32 := 0x02
def FS_CHARDEVICE : BitVec 32 := 0x04
def FS_MOUNTPOINT : BitVec 32 := 0x40

-- char token[128]
def tokenSize : Nat := 128

-- The path from `offset` on, and the token with what follows it.
def getNextToken (path : CString) : Option (CString × CString) :=
  match path.dropWhile (· = slash) with
  | [] => none
  | c :: rest => some ((c :: rest).takeWhile (· ≠ slash), (c :: rest).dropWhile (· ≠ slash))

theorem getNextToken_eq (path : CString) : getNextToken path = nextWord slash path := by
  rw [getNextToken, nextWord]
  cases path.dropWhile (· = slash) with
  | nil => rfl
  | cons c rest => rfl

-- The vfs_node_t objects by address, as path lookup sees them: the flags, ptr,
-- and for each node with a finddir what that finddir answers to a name.
structure Vfs where
  fsRoot : BitVec 64
  flags : BitVec 64 → BitVec 32
  ptr : BitVec 64 → BitVec 64
  finddir : BitVec 64 → Option (CString → BitVec 64)

namespace Vfs

variable (v : Vfs)

def IsMountpoint (node : BitVec 64) : Prop := v.flags node &&& FS_MOUNTPOINT ≠ 0

def IsDirectory (node : BitVec 64) : Prop := v.flags node &&& FS_DIRECTORY ≠ 0

instance (node : BitVec 64) : Decidable (v.IsMountpoint node) :=
  inferInstanceAs (Decidable (_ ≠ _))

instance (node : BitVec 64) : Decidable (v.IsDirectory node) :=
  inferInstanceAs (Decidable (_ ≠ _))

def vfsMount (mountpoint target : BitVec 64) : Vfs :=
  if mountpoint = 0 then v
  else
    { v with
      flags := Function.update v.flags mountpoint (v.flags mountpoint ||| FS_MOUNTPOINT)
      ptr := Function.update v.ptr mountpoint target }

-- One mount link.
def follow (node : BitVec 64) : BitVec 64 := if v.IsMountpoint node then v.ptr node else node

-- The loop body of vfs_get_node_by_path after the token is read. Zero stands
-- for `return NULL`.
def descend (current : BitVec 64) (token : CString) : BitVec 64 :=
  if current = 0 then 0
  else if v.follow current = 0 then 0
  else if ¬v.IsDirectory (v.follow current) then 0
  else
    match v.finddir (v.follow current) with
    | none => 0
    | some find => find token

def walk (current : BitVec 64) (path : CString) : Except Fault (BitVec 64) :=
  match _h : getNextToken path with
  | none => .ok current
  | some (token, rest) =>
      if tokenSize ≤ token.length then .error .overrun
      else if v.descend current token = 0 then .ok 0
      else walk (v.descend current token) rest
termination_by path.length
decreasing_by exact (nextWord_spec (getNextToken_eq path ▸ _h)).2.2.2

def vfsGetNodeByPath (path : CString) : Except Fault (BitVec 64) :=
  if path.head? ≠ some slash then .ok 0
  else
    match v.walk v.fsRoot path with
    | .error fault => .error fault
    | .ok current => .ok (if current = 0 then 0 else v.follow current)

end Vfs

end Miyabi.Fs
