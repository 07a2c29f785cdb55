import Miyabi.Base.Memory
import Miyabi.Fs.Node

namespace Miyabi.Fs

open Miyabi.Base

def MAX_RAMFS_NODES : Nat := 128

-- char dir_path[256] and char expected_path[256]
def pathSize : Nat := 256

-- `while (size > 0 && ...)` over the characters of the field.
def oct2bin (str : List (BitVec 8)) : BitVec 64 :=
  ((str.dropWhile fun c => c = 0x20 ∨ c = 0).takeWhile fun c => 0x30 ≤ c ∧ c ≤ 0x37).foldl
    (fun n c => (n <<< 3) + (c - 0x30).setWidth 64) 0

def sanitizePath (path : CString) : CString := path.dropWhile fun c => c = dot ∨ c = slash

-- The comparison after the two paths are sanitized.
def matchClean : CString → CString → Bool
  | a :: tar, b :: search => a = b && matchClean tar search
  | [], [] => true
  | [a], [] => a = slash
  | [], [b] => b = slash
  | _, _ => false

def tarMatchName (tarName searchName : CString) : Bool :=
  matchClean (sanitizePath tarName) (sanitizePath searchName)

namespace State

-- The loop over ramfs_nodes.
def ramfsFind (s : State) (path : CString) : Option (BitVec 64) :=
  s.ramfsNodes.find? fun node => node ≠ 0 && tarMatchName (s.nodes node).name path

-- expected_path before the name is appended.
def ramfsPrefix (s : State) (node : BitVec 64) : CString :=
  if node = s.ramfsRoot then []
  else
    let path := (s.nodes node).name.take (pathSize - 1)
    if path ≠ [] ∧ path.getLast? ≠ some slash then path ++ [slash] else path

def ramfsFinddir (s : State) (node : BitVec 64) (name : CString) : BitVec 64 :=
  let path := s.ramfsPrefix node
  (s.ramfsFind (path ++ name.take (pathSize - 1 - path.length))).getD 0

variable (blocks : Nat → BitVec 64)

-- The check for a free slot, the kmalloc and the entry in ramfs_nodes, with
-- whether a node was made.
def addNode (node : VfsNode) (s : State) : Bool × State :=
  if MAX_RAMFS_NODES ≤ s.ramfsNodes.length then (false, s)
  else
    let (p, s) := s.kmalloc blocks
    if p = 0 then (false, s)
    else (true, { s.setNode p node with ramfsNodes := s.ramfsNodes ++ [p] })

def dirNode (name : CString) : VfsNode :=
  { VfsNode.zero with name := name, flags := FS_DIRECTORY, finddir := some .ramfs }

-- The loop of ensure_parent_dirs_exist over the rest of the path.
def ensureDirs (s : State) (dirPath : CString) : CString → Except Fault State
  | [] => .ok s
  | c :: rest =>
      if pathSize ≤ dirPath.length then .error .overrun
      else if c = slash ∧ s.ramfsFind dirPath = none ∧ dirPath ≠ [] then
        match s.addNode blocks (dirNode dirPath) with
        | (false, s) => .ok s
        | (true, s) =>
            if VfsNode.nameSize ≤ dirPath.length then .error .overrun
            else s.ensureDirs (dirPath ++ [c]) rest
      else s.ensureDirs (dirPath ++ [c]) rest

def ensureParentDirsExist (rawPath : CString) (s : State) : Except Fault State :=
  s.ensureDirs blocks [] (sanitizePath rawPath)

end State

-- struct tar_header
section Header

variable (m : Memory 64)

-- The string from `a` on.
def cString : Nat → BitVec 64 → Except Fault CString
  | 0, _ => .error .endless
  | fuel + 1, a => if h : m a = 0 then .ok [] else (cString fuel (a + 1)).map (⟨m a, h⟩ :: ·)

variable (header : BitVec 64)

def sizeField : List (BitVec 8) :=
  (List.range 11).map fun i => m (header + 124 + BitVec.ofNat 64 i)

def typeflag : BitVec 8 := m (header + 156)

def entrySize : BitVec 64 := oct2bin (sizeField m header)

def nextHeader : BitVec 64 :=
  let size := entrySize m header
  header + 512 + (size / 512 + (if size % 512 = 0 then 0 else 1)) * 512

-- 'x', 'g', 'K' and 'L'
def IsExtension : Prop := typeflag m header ∈ [0x78, 0x67, 0x4B, 0x4C]

instance : Decidable (IsExtension m header) := inferInstanceAs (Decidable (_ ∈ _))

-- '5'
def IsDirEntry : Prop := typeflag m header = 0x35

instance : Decidable (IsDirEntry m header) := inferInstanceAs (Decidable (_ = _))

-- The node for the entry at `header`.
def entryNode (cleanFilename : CString) : VfsNode :=
  if IsDirEntry m header then State.dirNode (cleanFilename.take 99)
  else
    { VfsNode.zero with
      name := cleanFilename.take 99
      flags := FS_FILE
      length := (entrySize m header).setWidth 32
      read := some .ramfs
      ptr := header + 512 }

end Header

namespace State

variable (blocks : Nat → BitVec 64) (m : Memory 64)

-- The loop over the headers. `fuel` bounds it and the length of a filename.
def entriesFrom (fuel : Nat) : Nat → BitVec 64 → State → Except Fault State
  | 0, _, _ => .error .endless
  | turns + 1, header, s =>
      if m header = 0 then .ok s
      else if IsExtension m header then entriesFrom fuel turns (nextHeader m header) s
      else
        match cString m fuel header with
        | .error fault => .error fault
        | .ok filename =>
            match s.ensureParentDirsExist blocks (sanitizePath filename) with
            | .error fault => .error fault
            | .ok s =>
                match s.addNode blocks (entryNode m header (sanitizePath filename)) with
                | (false, s) => .ok s
                | (true, s) => entriesFrom fuel turns (nextHeader m header) s

def plantRoot (root : BitVec 64) (s : State) : State :=
  { s.setNode root (dirNode [slash]) with ramfsRoot := root }

-- With the assignment to fs_root in main.c.
def initInitramfs (fuel : Nat) (ramfsAddr : BitVec 64) (s : State) : Except Fault State :=
  let (root, s) := s.kmalloc blocks
  if root = 0 then .ok { s with ramfsRoot := 0, fsRoot := 0 }
  else
    match entriesFrom blocks m fuel fuel ramfsAddr (s.plantRoot root) with
    | .error fault => .error fault
    | .ok s => .ok { s with fsRoot := root }

end State

end Miyabi.Fs
