import Miyabi.Drivers.Fb

namespace Miyabi.Syscalls

open Miyabi.Base Miyabi.Base.Memory Miyabi.Drivers.Fb

-- src/fs/fd.c
def MAX_OPEN_FILES : ℕ := 16

structure FileDescriptor where
  node : BitVec 64
  offset : BitVec 64
  flags : BitVec 32

abbrev FdTable := Fin MAX_OPEN_FILES → FileDescriptor

def fdGetNode (table : FdTable) (fd : BitVec 32) : BitVec 64 :=
  if fd.toInt < 0 then 0
  else if h : fd.toNat < MAX_OPEN_FILES then (table ⟨fd.toNat, h⟩).node
  else 0

-- The write operations of the nodes. One that is not the console's is given by what it
-- returns and leaves for a buffer and a size.
inductive WriteOp where
  | fb
  | other (act : BitVec 64 → BitVec 64 → BitVec 64 → Console → BitVec 64 × Console)

-- The console, the open files, and the write pointers of the nodes.
structure Kernel where
  console : Console
  fdTable : FdTable
  write : BitVec 64 → Option WriteOp

structure WriteCall where
  node : BitVec 64
  buffer : BitVec 64
  size : BitVec 64

-- What sys_write returns and leaves, its calls of a write operation, and the addresses of
-- the characters that fb_vfs_write put on the screen.
structure WriteRun where
  value : BitVec 64
  kernel : Kernel
  calls : List WriteCall
  shown : List (BitVec 64)

def userEnd : BitVec 64 := 0x0000800000000000

def validateUserPointer (ptr size : BitVec 64) : Bool := !(ptr + size < ptr || userEnd ≤ ptr)

variable (font : ℕ → BitVec 8)

-- The call of a node's write operation.
def callWrite (node buffer count : BitVec 64) (k : Kernel) : WriteOp → WriteRun
  | .fb =>
      let (n, shown, console) := k.console.fbVfsWrite font buffer count
      ⟨n, { k with console }, [⟨node, buffer, count⟩], shown⟩
  | .other act =>
      let (n, console) := act node buffer count k.console
      ⟨n, { k with console }, [⟨node, buffer, count⟩], []⟩

def sysWrite (k : Kernel) (fd : BitVec 32) (buf count : BitVec 64) : WriteRun :=
  let node := fdGetNode k.fdTable fd
  if node = 0 then ⟨-1, k, [], []⟩
  else
    match k.write node with
    | none => ⟨-1, k, [], []⟩
    | some op =>
        if validateUserPointer buf count then
          let k := { k with console := { k.console with defaultFg := 0xFFFFFFF } }
          callWrite font node buf count k op
        else ⟨-1, k, [], []⟩

-- The fields of struct interrupt_frame that syscall_handler uses.
structure InterruptFrame where
  rax : BitVec 64
  rdx : BitVec 64
  rsi : BitVec 64
  rdi : BitVec 64

def sysRead (_fd : BitVec 32) (_buf _count : BitVec 64) : BitVec 64 := 0

-- none: sys_exit halts. The run is of sys_write, and empty for another call.
def syscallHandler (k : Kernel) (frame : InterruptFrame) : Option (InterruptFrame × WriteRun) :=
  let fd := frame.rdi.setWidth 32
  if frame.rax = 0 then none
  else if frame.rax = 1 then
    let value := sysRead fd frame.rsi frame.rdx
    some ({ frame with rax := value }, ⟨value, k, [], []⟩)
  else if frame.rax = 2 then
    let run := sysWrite font k fd frame.rsi frame.rdx
    some ({ frame with rax := run.value }, run)
  else some (frame, ⟨0, k, [], []⟩)

-- What is passed on and what is shown lies below the kernel half, and does not wrap.
structure Confined (r : WriteRun) : Prop where
  passed : ∀ call ∈ r.calls, call.buffer.toNat + call.size.toNat < 2 ^ 64 ∧
    ∀ i < call.size.toNat, call.buffer + BitVec.ofNat 64 i < userEnd
  shown : ∀ a ∈ r.shown, a < userEnd

-- The descriptor has no node with a write operation, or the check refuses the buffer, or the
-- buffer ends below the kernel half.
def UserBuffer (k : Kernel) (fd : BitVec 32) (buf count : BitVec 64) : Prop :=
  fdGetNode k.fdTable fd = 0 ∨ k.write (fdGetNode k.fdTable fd) = none ∨
    userEnd.toNat ≤ buf.toNat ∨ 2 ^ 64 ≤ buf.toNat + count.toNat ∨
    buf.toNat + count.toNat ≤ userEnd.toNat

theorem validateUserPointer_iff (ptr size : BitVec 64) :
    validateUserPointer ptr size = true ↔
      ptr.toNat + size.toNat < 2 ^ 64 ∧ ptr.toNat < userEnd.toNat := by
  rw [validateUserPointer, Bool.not_eq_true', Bool.or_eq_false_iff, decide_eq_false_iff_not,
    decide_eq_false_iff_not, BitVec.lt_def, BitVec.le_def, BitVec.toNat_add]
  omega

-- Every byte of a range is below the kernel half.
theorem range_below_iff {buf count : BitVec 64} (hwrap : buf.toNat + count.toNat < 2 ^ 64)
    (hstart : buf.toNat < userEnd.toNat) :
    (∀ i < count.toNat, buf + BitVec.ofNat 64 i < userEnd) ↔
      buf.toNat + count.toNat ≤ userEnd.toNat := by
  have hbyte : ∀ i < count.toNat, (buf + BitVec.ofNat 64 i).toNat = buf.toNat + i := by
    intro i hi
    rw [BitVec.toNat_add, BitVec.toNat_ofNat]
    omega
  constructor
  · intro h
    by_contra hover
    have hi : userEnd.toNat - buf.toNat < count.toNat := by omega
    have hlast := h _ hi
    rw [BitVec.lt_def, hbyte _ hi] at hlast
    omega
  · intro hend i hi
    rw [BitVec.lt_def, hbyte i hi]
    omega

theorem callWrite_calls (node buffer count : BitVec 64) (k : Kernel) (op : WriteOp) :
    (callWrite font node buffer count k op).calls = [⟨node, buffer, count⟩] := by
  cases op <;> rfl

theorem callWrite_shown {node buffer count : BitVec 64} {k : Kernel} {op : WriteOp} :
    ∀ a ∈ (callWrite font node buffer count k op).shown,
      ∃ i < count.toNat, a = buffer + BitVec.ofNat 64 i := by
  intro a ha
  cases op with
  | fb =>
    have hshown : a ∈ (k.console.showFrom font buffer count.toNat).1 := ha
    rw [Console.showFrom_shown] at hshown
    obtain ⟨i, hi, rfl⟩ := List.mem_map.mp hshown
    exact ⟨i, List.mem_range.mp hi, rfl⟩
  | other act => cases ha

-- A buffer that passes the check is confined if and only if it ends below the kernel half.
theorem callWrite_confined_iff {node buffer count : BitVec 64} {k : Kernel} {op : WriteOp}
    (hvalid : validateUserPointer buffer count = true) :
    Confined (callWrite font node buffer count k op) ↔
      buffer.toNat + count.toNat ≤ userEnd.toNat := by
  obtain ⟨hwrap, hstart⟩ := (validateUserPointer_iff _ _).mp hvalid
  rw [← range_below_iff hwrap hstart]
  constructor
  · rintro ⟨hpassed, -⟩
    rw [callWrite_calls] at hpassed
    exact (hpassed _ (List.mem_singleton_self _)).2
  · intro hbelow
    constructor
    case passed =>
      intro call hcall
      rw [callWrite_calls, List.mem_singleton] at hcall
      subst hcall
      exact ⟨hwrap, hbelow⟩
    case shown =>
      intro a ha
      obtain ⟨i, hi, rfl⟩ := callWrite_shown font a ha
      exact hbelow i hi

theorem confined_nothing (value : BitVec 64) (k : Kernel) : Confined ⟨value, k, [], []⟩ where
  passed _ h := absurd h List.not_mem_nil
  shown _ h := absurd h List.not_mem_nil

theorem sysWrite_confined_iff (k : Kernel) (fd : BitVec 32) (buf count : BitVec 64) :
    Confined (sysWrite font k fd buf count) ↔ UserBuffer k fd buf count := by
  rw [sysWrite, UserBuffer]
  by_cases hnode : fdGetNode k.fdTable fd = 0
  · rw [if_pos hnode]
    exact ⟨fun _ => Or.inl hnode, fun _ => confined_nothing _ _⟩
  rw [if_neg hnode]
  cases hop : k.write (fdGetNode k.fdTable fd) with
  | none => exact ⟨fun _ => Or.inr (Or.inl rfl), fun _ => confined_nothing _ _⟩
  | some op =>
    simp only [hnode, reduceCtorEq, false_or]
    by_cases hvalid : validateUserPointer buf count = true
    · rw [if_pos hvalid, callWrite_confined_iff font hvalid]
      obtain ⟨hwrap, hstart⟩ := (validateUserPointer_iff _ _).mp hvalid
      omega
    · rw [if_neg hvalid]
      rw [validateUserPointer_iff] at hvalid
      refine ⟨fun _ => ?_, fun _ => confined_nothing _ _⟩
      omega

theorem syscallHandler_write {k : Kernel} {frame : InterruptFrame} (h : frame.rax = 2) :
    syscallHandler font k frame =
      let run := sysWrite font k (frame.rdi.setWidth 32) frame.rsi frame.rdx
      some ({ frame with rax := run.value }, run) := by
  have h0 : frame.rax ≠ 0 := by
    rw [h]
    decide
  have h1 : frame.rax ≠ 1 := by
    rw [h]
    decide
  rw [syscallHandler]
  dsimp only
  rw [if_neg h0, if_neg h1, if_pos h]

-- The other calls pass nothing on.
theorem syscallHandler_other {k : Kernel} {frame frame' : InterruptFrame} {run : WriteRun}
    (h : frame.rax ≠ 2) (hrun : syscallHandler font k frame = some (frame', run)) :
    ∃ value, run = ⟨value, k, [], []⟩ := by
  rw [syscallHandler] at hrun
  dsimp only at hrun
  by_cases h0 : frame.rax = 0
  · rw [if_pos h0] at hrun
    cases hrun
  rw [if_neg h0] at hrun
  by_cases h1 : frame.rax = 1
  · rw [if_pos h1] at hrun
    cases hrun
    exact ⟨_, rfl⟩
  · rw [if_neg h1, if_neg h] at hrun
    cases hrun
    exact ⟨_, rfl⟩

-- For every system call.
theorem syscall_confined_iff (k : Kernel) :
    (∀ fd buf count, Confined (sysWrite font k fd buf count) ↔ UserBuffer k fd buf count) ∧
    ∀ frame, (∀ frame' run, syscallHandler font k frame = some (frame', run) → Confined run) ↔
      (frame.rax = 2 → UserBuffer k (frame.rdi.setWidth 32) frame.rsi frame.rdx) := by
  refine ⟨sysWrite_confined_iff font k, fun frame => ?_⟩
  rw [← sysWrite_confined_iff font]
  by_cases hwrite : frame.rax = 2
  · rw [syscallHandler_write font hwrite, forall_prop_of_true hwrite]
    constructor
    · intro h
      exact h _ _ rfl
    · intro hconfined frame' run hrun
      cases hrun
      exact hconfined
  · refine ⟨fun _ h => absurd h hwrite, fun _ frame' run hrun => ?_⟩
    obtain ⟨value, rfl⟩ := syscallHandler_other font hwrite hrun
    exact confined_nothing value k

-- Every descriptor is open on the console.
def consoleKernel : Kernel where
  console := ⟨⟨0xFD000000, 640, 480, 2560, 32⟩, 0, 0, 80, 30, 0, 0xFFFFFF, fun _ => 0, []⟩
  fdTable _ := ⟨0x1000, 0, 0⟩
  write _ := some .fb

def emptyFont (_ : ℕ) : BitVec 8 := 0

-- Two bytes from the last of the user half on.
theorem write_kernel_byte :
    ¬Confined (sysWrite emptyFont consoleKernel 1 0x00007FFFFFFFFFFF 2) := by
  rw [sysWrite_confined_iff]
  rintro (h | h | h | h | h)
  · exact absurd h (by decide)
  · cases h
  · exact absurd h (by decide)
  · exact absurd h (by decide)
  · exact absurd h (by decide)

end Miyabi.Syscalls
