import Miyabi.Base.Loop
import Miyabi.Fs.Initramfs.Nodes

namespace Miyabi.Fs.State

open Miyabi.Base

variable {blocks : Nat → BitVec 64} {m : Memory 64} {fuel : Nat}

section Turn

variable (blocks : Nat → BitVec 64) (m : Memory 64) (fuel : Nat)

-- One turn of the loop over the headers.
def turn : BitVec 64 × State → Except Fault State ⊕ BitVec 64 × State
  | (header, s) =>
      if m header = 0 then .inl (.ok s)
      else if IsExtension m header then .inr (nextHeader m header, s)
      else
        match cString m fuel header with
        | .error fault => .inl (.error fault)
        | .ok filename =>
            match s.ensureParentDirsExist blocks (sanitizePath filename) with
            | .error fault => .inl (.error fault)
            | .ok s =>
                match s.addNode blocks (entryNode m header (sanitizePath filename)) with
                | (false, s) => .inl (.ok s)
                | (true, s) => .inr (nextHeader m header, s)

end Turn

theorem turn_zero {header : BitVec 64} (h : m header = 0) (s : State) :
    turn blocks m fuel (header, s) = .inl (.ok s) := if_pos h

theorem turn_extension {header : BitVec 64} (hne : m header ≠ 0) (h : IsExtension m header)
    (s : State) : turn blocks m fuel (header, s) = .inr (nextHeader m header, s) := by
  simp only [turn, if_neg hne, if_pos h]

section Entry

variable {header : BitVec 64} (hne : m header ≠ 0) (hentry : ¬IsExtension m header)

include hne hentry

theorem turn_endless {fault : Fault} (h : cString m fuel header = .error fault) (s : State) :
    turn blocks m fuel (header, s) = .inl (.error fault) := by
  simp only [turn, if_neg hne, if_neg hentry, h]

variable {filename : CString} (hname : cString m fuel header = .ok filename)

include hname

theorem turn_fault {s : State} {fault : Fault}
    (h : s.ensureParentDirsExist blocks (sanitizePath filename) = .error fault) :
    turn blocks m fuel (header, s) = .inl (.error fault) := by
  simp only [turn, if_neg hne, if_neg hentry, hname, h]

variable {s s₁ s₂ : State}
  (hensure : s.ensureParentDirsExist blocks (sanitizePath filename) = .ok s₁)

include hensure

theorem turn_break
    (h : s₁.addNode blocks (entryNode m header (sanitizePath filename)) = (false, s₂)) :
    turn blocks m fuel (header, s) = .inl (.ok s₂) := by
  simp only [turn, if_neg hne, if_neg hentry, hname, hensure, h]

theorem turn_entry
    (h : s₁.addNode blocks (entryNode m header (sanitizePath filename)) = (true, s₂)) :
    turn blocks m fuel (header, s) = .inr (nextHeader m header, s₂) := by
  simp only [turn, if_neg hne, if_neg hentry, hname, hensure, h]

end Entry

-- A turn that makes a node from the entry at `header`.
structure Entry (blocks : Nat → BitVec 64) (m : Memory 64) (fuel : Nat) (header : BitVec 64)
    (filename : CString) (s s₁ s₂ : State) : Prop where
  ne_zero : m header ≠ 0
  entry : ¬IsExtension m header
  name : cString m fuel header = .ok filename
  ensure : s.ensureParentDirsExist blocks (sanitizePath filename) = .ok s₁
  add : s₁.addNode blocks (entryNode m header (sanitizePath filename)) = (true, s₂)

-- The ways a turn can go, with what comes of each.
inductive TurnCase (blocks : Nat → BitVec 64) (m : Memory 64) (fuel : Nat) (header : BitVec 64)
    (s : State) : Except Fault State ⊕ BitVec 64 × State → Prop
  | zero : m header = 0 → TurnCase blocks m fuel header s (.inl (.ok s))
  | extension : m header ≠ 0 → IsExtension m header →
      TurnCase blocks m fuel header s (.inr (nextHeader m header, s))
  | runsOn (fault : Fault) : m header ≠ 0 → ¬IsExtension m header →
      cString m fuel header = .error fault → TurnCase blocks m fuel header s (.inl (.error fault))
  | fault (filename : CString) (fault : Fault) : m header ≠ 0 → ¬IsExtension m header →
      cString m fuel header = .ok filename →
      s.ensureParentDirsExist blocks (sanitizePath filename) = .error fault →
      TurnCase blocks m fuel header s (.inl (.error fault))
  | full (filename : CString) (s₁ s₂ : State) : m header ≠ 0 → ¬IsExtension m header →
      cString m fuel header = .ok filename →
      s.ensureParentDirsExist blocks (sanitizePath filename) = .ok s₁ →
      s₁.addNode blocks (entryNode m header (sanitizePath filename)) = (false, s₂) →
      TurnCase blocks m fuel header s (.inl (.ok s₂))
  | made (filename : CString) (s₁ s₂ : State) : Entry blocks m fuel header filename s s₁ s₂ →
      TurnCase blocks m fuel header s (.inr (nextHeader m header, s₂))

theorem turn_case (blocks : Nat → BitVec 64) (m : Memory 64) (fuel : Nat) (header : BitVec 64)
    (s : State) : TurnCase blocks m fuel header s (turn blocks m fuel (header, s)) := by
  by_cases hne : m header = 0
  · rw [turn_zero hne]
    exact .zero hne
  by_cases hentry : IsExtension m header
  · rw [turn_extension hne hentry]
    exact .extension hne hentry
  cases hname : cString m fuel header with
  | error fault =>
    rw [turn_endless hne hentry hname]
    exact .runsOn fault hne hentry hname
  | ok filename =>
    cases hensure : s.ensureParentDirsExist blocks (sanitizePath filename) with
    | error fault =>
      rw [turn_fault hne hentry hname hensure]
      exact .fault filename fault hne hentry hname hensure
    | ok s₁ =>
      rcases hadd : s₁.addNode blocks (entryNode m header (sanitizePath filename)) with ⟨made, s₂⟩
      cases made with
      | false =>
        rw [turn_break hne hentry hname hensure hadd]
        exact .full filename s₁ s₂ hne hentry hname hensure hadd
      | true =>
        rw [turn_entry hne hentry hname hensure hadd]
        exact .made filename s₁ s₂ ⟨hne, hentry, hname, hensure, hadd⟩

-- The loop goes on after an extension header and after an entry with a node.
theorem turn_next {header next : BitVec 64} {s s' : State}
    (h : turn blocks m fuel (header, s) = .inr (next, s')) :
    next = nextHeader m header ∧
      (m header ≠ 0 ∧ IsExtension m header ∧ s' = s ∨
        ∃ filename s₁, Entry blocks m fuel header filename s s₁ s') := by
  have hcase := turn_case blocks m fuel header s
  rw [h] at hcase
  cases hcase with
  | extension hne hentry => exact ⟨rfl, Or.inl ⟨hne, hentry, rfl⟩⟩
  | made filename s₁ s₂ hentry => exact ⟨rfl, Or.inr ⟨filename, s₁, hentry⟩⟩

-- The zero block and an entry that gets no node end it.
theorem turn_done {header : BitVec 64} {s s' : State}
    (h : turn blocks m fuel (header, s) = .inl (.ok s')) :
    m header = 0 ∧ s' = s ∨
      m header ≠ 0 ∧ ¬IsExtension m header ∧ ∃ filename s₁, cString m fuel header = .ok filename ∧
        s.ensureParentDirsExist blocks (sanitizePath filename) = .ok s₁ ∧
        s₁.addNode blocks (entryNode m header (sanitizePath filename)) = (false, s') := by
  have hcase := turn_case blocks m fuel header s
  rw [h] at hcase
  cases hcase with
  | zero hzero => exact Or.inl ⟨hzero, rfl⟩
  | full filename s₁ s₂ hne hentry hname hensure hadd =>
    exact Or.inr ⟨hne, hentry, filename, s₁, hname, hensure, hadd⟩

-- A fault is that of a filename or of the directories it goes through.
theorem turn_failed {header : BitVec 64} {s : State} {fault : Fault}
    (h : turn blocks m fuel (header, s) = .inl (.error fault)) :
    m header ≠ 0 ∧ ¬IsExtension m header ∧ (cString m fuel header = .error fault ∨
      ∃ filename, cString m fuel header = .ok filename ∧
        s.ensureParentDirsExist blocks (sanitizePath filename) = .error fault) := by
  have hcase := turn_case blocks m fuel header s
  rw [h] at hcase
  cases hcase with
  | runsOn _ hne hentry hname => exact ⟨hne, hentry, Or.inl hname⟩
  | fault filename _ hne hentry hname hensure =>
    exact ⟨hne, hentry, Or.inr ⟨filename, hname, hensure⟩⟩

theorem entriesFrom_eq_loop (turns : Nat) : ∀ (header : BitVec 64) (s : State),
    s.entriesFrom blocks m fuel turns header =
      loop (turn blocks m fuel) (.error .endless) turns (header, s) := by
  induction turns with
  | zero => exact fun _ _ => rfl
  | succ turns ih =>
    intro header s
    rw [entriesFrom, loop, turn]
    by_cases hne : m header = 0
    · simp only [if_pos hne]
    by_cases hentry : IsExtension m header
    · simp only [if_neg hne, if_pos hentry, ih]
    simp only [if_neg hne, if_neg hentry]
    cases cString m fuel header with
    | error fault => rfl
    | ok filename =>
      dsimp only
      cases s.ensureParentDirsExist blocks (sanitizePath filename) with
      | error fault => rfl
      | ok s₁ =>
        dsimp only
        obtain ⟨made, s₂⟩ := s₁.addNode blocks (entryNode m header (sanitizePath filename))
        cases made with
        | false => rfl
        | true => exact ih _ s₂

-- A fault other than the end of the fuel is that of a turn.
theorem entriesFrom_overrun {turns : Nat} {header : BitVec 64} {s : State}
    (h : s.entriesFrom blocks m fuel turns header = .error .overrun) :
    ∃ c, Reaches (turn blocks m fuel) (header, s) c ∧
      turn blocks m fuel c = .inl (.error .overrun) := by
  rw [entriesFrom_eq_loop] at h
  have hne : loop (turn blocks m fuel) (.error .endless) turns (header, s) ≠ .error .endless := by
    rw [h]
    exact fun heq => by cases heq
  obtain ⟨c, hreach, hend⟩ := loop_reaches hne
  exact ⟨c, hreach, h ▸ hend⟩

namespace Kept

variable {P : State → Prop} (hP : Kept blocks P)

include hP

theorem turn {header next : BitVec 64} {s s' : State} (h : P s)
    (hturn : State.turn blocks m fuel (header, s) = .inr (next, s')) : P s' := by
  rcases (turn_next hturn).2 with ⟨-, -, rfl⟩ | ⟨filename, s₁, hentry⟩
  · exact h
  · have hnode := entryNode_isRamfs m header (sanitizePath_clean filename)
    exact hP.addNode (hP.ensureParentDirsExist h hentry.ensure) (fun _ => hnode) hentry.add

theorem done {header : BitVec 64} {s s' : State} (h : P s)
    (hturn : State.turn blocks m fuel (header, s) = .inl (.ok s')) : P s' := by
  rcases turn_done hturn with ⟨-, rfl⟩ | ⟨-, -, filename, s₁, -, hensure, hadd⟩
  · exact h
  · have hnode := entryNode_isRamfs m header (sanitizePath_clean filename)
    exact hP.addNode (hP.ensureParentDirsExist h hensure) (fun _ => hnode) hadd

theorem reaches {header next : BitVec 64} {s s' : State} (h : P s)
    (hreach : Reaches (State.turn blocks m fuel) (header, s) (next, s')) : P s' :=
  hreach.invariant (fun c => P c.2) (fun _ _ hc hturn => hP.turn hc hturn) h

end Kept

-- The state in which init_initramfs starts its loop.
def loopStart (blocks : Nat → BitVec 64) (s : State) : State :=
  plantRoot (blocks s.kmallocs) { s with kmallocs := s.kmallocs + 1 }

-- The loop of init_initramfs comes to the header in the state `c.2`.
structure AtTurn (blocks : Nat → BitVec 64) (m : Memory 64) (fuel : Nat) (s : State)
    (ramfsAddr : BitVec 64) (c : BitVec 64 × State) : Prop where
  root : blocks s.kmallocs ≠ 0
  reached : Reaches (turn blocks m fuel) (ramfsAddr, loopStart blocks s) c

theorem initInitramfs_null {s : State} (hroot : blocks s.kmallocs = 0) (ramfsAddr : BitVec 64) :
    s.initInitramfs blocks m fuel ramfsAddr =
      .ok { s with kmallocs := s.kmallocs + 1, ramfsRoot := 0, fsRoot := 0 } := by
  rw [initInitramfs, kmalloc_eq]
  exact if_pos hroot

theorem initInitramfs_eq {s : State} (hroot : blocks s.kmallocs ≠ 0) (ramfsAddr : BitVec 64) :
    s.initInitramfs blocks m fuel ramfsAddr =
      ((loopStart blocks s).entriesFrom blocks m fuel fuel ramfsAddr).map fun s' =>
        { s' with fsRoot := blocks s.kmallocs } := by
  rw [initInitramfs, kmalloc_eq]
  simp only [if_neg hroot]
  show (match (loopStart blocks s).entriesFrom blocks m fuel fuel ramfsAddr with
    | .error fault => _
    | .ok s' => _) = _
  cases (loopStart blocks s).entriesFrom blocks m fuel fuel ramfsAddr with
  | error fault => rfl
  | ok s' => rfl

section Run

variable {s : State} (hroot : blocks s.kmallocs ≠ 0) {ramfsAddr : BitVec 64}

include hroot

theorem initInitramfs_run {s' : State} (hrun : s.initInitramfs blocks m fuel ramfsAddr = .ok s') :
    ∃ s₁, (loopStart blocks s).entriesFrom blocks m fuel fuel ramfsAddr = .ok s₁ ∧
      s' = { s₁ with fsRoot := blocks s.kmallocs } := by
  rw [initInitramfs_eq hroot] at hrun
  cases hentries : (loopStart blocks s).entriesFrom blocks m fuel fuel ramfsAddr with
  | error fault =>
    rw [hentries] at hrun
    cases hrun
  | ok s₁ =>
    rw [hentries] at hrun
    cases hrun
    exact ⟨s₁, rfl, rfl⟩

theorem initInitramfs_fault {fault : Fault}
    (hrun : s.initInitramfs blocks m fuel ramfsAddr = .error fault) :
    (loopStart blocks s).entriesFrom blocks m fuel fuel ramfsAddr = .error fault := by
  rw [initInitramfs_eq hroot] at hrun
  cases hentries : (loopStart blocks s).entriesFrom blocks m fuel fuel ramfsAddr with
  | error fault' =>
    rw [hentries] at hrun
    cases hrun
    rfl
  | ok s₁ =>
    rw [hentries] at hrun
    cases hrun

end Run

end Miyabi.Fs.State
