import Miyabi.Fs.Vfs

namespace Miyabi.Cmdline

open Miyabi.Base Miyabi.Fs

def space : Char8 := ⟨0x20, by decide⟩

-- s[i], which is the terminator behind the last character.
def charAt (s : CString) (i : ℕ) : Except Fault (BitVec 8) :=
  match s[i]? with
  | some c => .ok c.val
  | none => if i = s.length then .ok 0 else .error .overrun

-- The loop that compares p from character i on with what is left of a string.
def matchFrom (p : CString) (i : ℕ) : CString → Except Fault Bool
  | [] => .ok true
  | c :: rest =>
      match charAt p i with
      | .error fault => .error fault
      | .ok b => if b ≠ c.val then .ok false else matchFrom p (i + 1) rest

-- The loop body of check_flag.
def flagAt (p flag : CString) : Except Fault Bool :=
  if p.head? ≠ flag.head? then .ok false
  else
    match matchFrom p 0 flag with
    | .error fault => .error fault
    | .ok false => .ok false
    | .ok true =>
        match charAt p flag.length with
        | .error fault => .error fault
        | .ok b => .ok (b = 0 ∨ b = space.val)

def checkFrom (flag : CString) : CString → Except Fault Bool
  | [] => .ok false
  | c :: rest =>
      match flagAt (c :: rest) flag with
      | .error fault => .error fault
      | .ok true => .ok true
      | .ok false => checkFrom flag rest

-- none: NULL
def checkFlag (cmdline flag : Option CString) : Except Fault Bool :=
  match cmdline, flag with
  | some cmdline, some flag => checkFrom flag cmdline
  | _, _ => .ok false

def MAX_BOOT_MODULES : ℕ := 16
def MAX_BOOT_MODULE_PATH : ℕ := 128

-- "--MOD="
def modPrefix : CString := chars [0x2D, 0x2D, 0x4D, 0x4F, 0x44, 0x3D]

-- boot_modules by row and column, and boot_modules_count.
structure BootModules where
  paths : ℕ → ℕ → BitVec 8
  count : ℕ

namespace BootModules

def setChar (m : BootModules) (row col : ℕ) (v : BitVec 8) : Except Fault BootModules :=
  if row < MAX_BOOT_MODULES ∧ col < MAX_BOOT_MODULE_PATH then
    .ok { m with paths := Function.update m.paths row (Function.update (m.paths row) col v) }
  else .error .overrun

-- The loop that copies what is left of a path to column i on.
def copyFrom (m : BootModules) (i : ℕ) : CString → Except Fault BootModules
  | [] => .ok m
  | c :: rest =>
      match m.setChar m.count i c.val with
      | .error fault => .error fault
      | .ok m => copyFrom m (i + 1) rest

def addPath (m : BootModules) (path : CString) : Except Fault BootModules :=
  if path.length < MAX_BOOT_MODULE_PATH then
    match m.copyFrom 0 path with
    | .error fault => .error fault
    | .ok m =>
        match m.setChar m.count path.length 0 with
        | .error fault => .error fault
        | .ok m => .ok { m with count := m.count + 1 }
  else .ok m

end BootModules

def isModuleArgument (arg : CString) (length : ℕ) : Except Fault Bool :=
  if length ≤ modPrefix.length then .ok false else matchFrom arg 0 modPrefix

-- The loop body of collect_boot_modules behind the search for the end of the argument.
def takeArgument (arg : CString) (length : ℕ) (m : BootModules) : Except Fault BootModules :=
  match isModuleArgument arg length with
  | .error fault => .error fault
  | .ok isModule =>
      if isModule ∧ m.count < MAX_BOOT_MODULES then m.addPath ((arg.drop 6).take (length - 6))
      else .ok m

-- The loop that skips the spaces and the one that looks for the end of the argument.
def nextArgument (arg : CString) : Option (CString × CString) :=
  match arg.dropWhile (· = space) with
  | [] => none
  | c :: rest => some (c :: rest, (c :: rest).dropWhile (· ≠ space))

theorem nextArgument_none {arg : CString} (h : nextArgument arg = none) :
    nextWord space arg = none := by
  rw [nextArgument] at h
  rw [nextWord]
  cases hdrop : arg.dropWhile (· = space) with
  | nil => rfl
  | cons c rest =>
    rw [hdrop] at h
    cases h

theorem nextArgument_some {arg start stop : CString} (h : nextArgument arg = some (start, stop)) :
    ∃ word, nextWord space arg = some (word, stop) ∧ start = word ++ stop := by
  rw [nextArgument] at h
  rw [nextWord]
  cases hdrop : arg.dropWhile (· = space) with
  | nil =>
    rw [hdrop] at h
    cases h
  | cons c rest =>
    rw [hdrop] at h
    cases h
    exact ⟨_, rfl, List.takeWhile_append_dropWhile.symm⟩

def collectBootModules (arg : CString) (m : BootModules) : Except Fault BootModules :=
  match _h : nextArgument arg with
  | none => .ok m
  | some (start, stop) =>
      match takeArgument start (start.length - stop.length) m with
      | .error fault => .error fault
      | .ok m => collectBootModules stop m
termination_by arg.length
decreasing_by
  obtain ⟨word, hword, -⟩ := nextArgument_some _h
  exact (nextWord_spec hword).2.2.2

def bootModuleCount (m : BootModules) : ℕ := m.count

-- none: NULL
def bootModulePath (m : BootModules) (index : ℕ) : Option (ℕ → BitVec 8) :=
  if m.count ≤ index then none else some (m.paths index)

end Miyabi.Cmdline
