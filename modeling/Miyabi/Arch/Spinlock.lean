import Mathlib.Logic.Function.Basic
import Miyabi.Base.Transition

namespace Miyabi.Arch.Spinlock

open Miyabi.Base.Transition

variable {Lock : Type}

-- The interrupt flag of the CPU, and the byte of each spinlock_t.
structure Cpu (Lock : Type) where
  interruptFlag : Bool
  locked : Lock → Bool

section Code

variable [DecidableEq Lock]

-- On the one CPU, with interrupts off, the loop ends at its first turn or never.
def spinLock (lock : Lock) (cpu : Cpu Lock) : Option (Cpu Lock) :=
  if cpu.locked lock then none else some ⟨false, Function.update cpu.locked lock true⟩

def spinUnlock (lock : Lock) (cpu : Cpu Lock) : Cpu Lock :=
  ⟨true, Function.update cpu.locked lock false⟩

-- What printf and fb_vfs_write do to the flag, with fb_lock as the lock.
def printf (fbLock : Lock) (cpu : Cpu Lock) : Option (Cpu Lock) :=
  (spinLock fbLock cpu).map (spinUnlock fbLock)

end Code

-- What the code is in: a section, with the flag right before its spin_lock, or a handler, with the
-- flag that its gate has saved.
inductive Frame (Lock : Type) where
  | critical (lock : Lock) (flagBefore : Bool)
  | handler (savedFlag : Bool)

def Frame.flag : Frame Lock → Bool
  | .critical _ flagBefore => flagBefore
  | .handler savedFlag => savedFlag

-- The innermost frame is the first.
structure Machine (Lock : Type) where
  cpu : Cpu Lock
  frames : List (Frame Lock)

def Machine.withFlag (flag : Bool) (m : Machine Lock) : Machine Lock :=
  ⟨⟨flag, m.cpu.locked⟩, m.frames⟩

inductive Op (Lock : Type) where
  | spinLock (lock : Lock)
  | spinUnlock (lock : Lock)
  | cli
  | sti
  | interrupt
  | exception
  | iretq

def enter (m : Machine Lock) : Machine Lock :=
  ⟨⟨false, m.cpu.locked⟩, .handler m.cpu.interruptFlag :: m.frames⟩

def step [DecidableEq Lock] (m : Machine Lock) : Op Lock → Option (Machine Lock)
  | .spinLock lock =>
      (spinLock lock m.cpu).map fun cpu => ⟨cpu, .critical lock m.cpu.interruptFlag :: m.frames⟩
  | .spinUnlock lock => some ⟨spinUnlock lock m.cpu, m.frames.tail⟩
  | .cli => some (m.withFlag false)
  | .sti => some (m.withFlag true)
  -- A masked interrupt stays pending.
  | .interrupt => some (if m.cpu.interruptFlag then enter m else m)
  | .exception => some (enter m)
  | .iretq =>
      match m.frames with
      | .handler savedFlag :: frames => some ⟨⟨savedFlag, m.cpu.locked⟩, frames⟩
      | _ => none

-- The sections are well nested, among themselves and in the handlers. The sti of _start is outside
-- of both.
def Nested (m : Machine Lock) : Op Lock → Prop
  | .spinUnlock lock => ∃ flagBefore frames, m.frames = .critical lock flagBefore :: frames
  | .sti => m.frames = []
  | .iretq => ∃ savedFlag frames, m.frames = .handler savedFlag :: frames
  | _ => True

def Enabled (m : Machine Lock) : Op Lock → Prop
  | .spinLock _ => m.cpu.interruptFlag = true
  | _ => True

-- While a lock is held the interrupts are off.
def Masked (m : Machine Lock) : Prop :=
  ∀ lock flagBefore, Frame.critical lock flagBefore ∈ m.frames → m.cpu.interruptFlag = false

-- A spin_unlock puts back the flag of its spin_lock.
def Restores (m : Machine Lock) (op : Op Lock) (m' : Machine Lock) : Prop :=
  ∀ lock flagBefore frames, op = .spinUnlock lock → m.frames = .critical lock flagBefore :: frames →
    m'.cpu.interruptFlag = flagBefore

def Restored [DecidableEq Lock] (m : Machine Lock) (ops : List (Op Lock)) : Prop :=
  ∀ front op back m1 m2, ops = front ++ op :: back → run step m front = some m1 →
    step m1 op = some m2 → Restores m1 op m2 ∧ Masked m2

section Sound

-- Only the outermost frame has begun with the interrupts on, and each section has.
def Sound : Bool → List (Frame Lock) → Prop
  | _, [] => True
  | flag, .critical _ flagBefore :: frames => flag = false ∧ flagBefore = true ∧ Sound flagBefore frames
  | flag, .handler savedFlag :: frames => flag = false ∧ Sound savedFlag frames

variable {flag : Bool} {frames : List (Frame Lock)} {m m' : Machine Lock} {op : Op Lock}

theorem sound_masked (h : Sound flag frames) (hne : frames ≠ []) : flag = false := by
  cases frames with
  | nil => exact absurd rfl hne
  | cons frame frames =>
    cases frame with
    | critical lock flagBefore => exact h.1
    | handler savedFlag => exact h.1

theorem sound_clear (h : Sound flag frames) : Sound false frames := by
  cases frames with
  | nil => trivial
  | cons frame frames =>
    cases frame with
    | critical lock flagBefore => exact ⟨rfl, h.2⟩
    | handler savedFlag => exact ⟨rfl, h.2⟩

theorem sound_enter (h : Sound m.cpu.interruptFlag m.frames) :
    Sound (enter m).cpu.interruptFlag (enter m).frames := ⟨rfl, h⟩

theorem sound_holds (h : Sound m.cpu.interruptFlag m.frames) : Masked m := by
  intro lock flagBefore hmem
  exact sound_masked h (List.ne_nil_of_mem hmem)

variable [DecidableEq Lock]

theorem sound_step (h : Sound m.cpu.interruptFlag m.frames) (hp : Nested m op) (henabled : Enabled m op)
    (hs : step m op = some m') : Sound m'.cpu.interruptFlag m'.frames := by
  cases op with
  | spinLock lock =>
    obtain ⟨cpu, hcpu, rfl⟩ := Option.map_eq_some_iff.mp hs
    rw [spinLock] at hcpu
    split at hcpu
    · cases hcpu
    · cases hcpu
      exact ⟨rfl, henabled, h⟩
  | spinUnlock lock =>
    obtain ⟨flagBefore, frames, hframes⟩ := hp
    cases hs
    rw [hframes] at h
    obtain ⟨-, hbefore, hrest⟩ := h
    rw [hbefore] at hrest
    rw [hframes]
    exact hrest
  | cli =>
    cases hs
    exact sound_clear h
  | sti =>
    have hframes : m.frames = [] := hp
    cases hs
    rw [Machine.withFlag, hframes]
    trivial
  | interrupt =>
    cases hs
    split
    · exact sound_enter h
    · exact h
  | exception =>
    cases hs
    exact sound_enter h
  | iretq =>
    obtain ⟨savedFlag, frames, hframes⟩ := hp
    rw [step, hframes] at hs
    cases hs
    rw [hframes] at h
    exact h.2

theorem sound_restores (h : Sound m.cpu.interruptFlag m.frames) (hs : step m op = some m') :
    Restores m op m' := by
  rintro lock flagBefore frames rfl hframes
  cases hs
  rw [hframes] at h
  exact h.2.1.symm

-- Sections that begin with the interrupts on keep the flag.
theorem restored_of_enabled {ops : List (Op Lock)} (h : Sound m.cpu.interruptFlag m.frames)
    (hp : PermittedRun step Nested m ops) (henabled : PermittedRun step Enabled m ops) :
    Restored m ops := by
  intro front op back m1 m2 hops hrun hs
  subst hops
  rw [permittedRun_append] at hp henabled
  have hboth := permittedRun_and hp.1 henabled.1
  have hsound : Sound m1.cpu.interruptFlag m1.frames :=
    run_of_preservation (fun m : Machine Lock => Sound m.cpu.interruptFlag m.frames)
      (fun m op m' h hp hs => sound_step h hp.1 hp.2 hs) m m1 front h hboth hrun
  have hnext := sound_step hsound (hp.2 m1 hrun).1 (henabled.2 m1 hrun).1 hs
  exact ⟨sound_restores hsound hs, sound_holds hnext⟩

end Sound

section Closed

variable [DecidableEq Lock] {m m' : Machine Lock} {op : Op Lock}

-- A frame stays until its section or its handler ends.
theorem critical_step {lock : Lock} {flagBefore : Bool} (hp : Nested m op) (hs : step m op = some m')
    (hmem : Frame.critical lock flagBefore ∈ m.frames) :
    Frame.critical lock flagBefore ∈ m'.frames ∨
      ∃ frames, op = .spinUnlock lock ∧ m.frames = .critical lock flagBefore :: frames := by
  cases op with
  | spinLock entered =>
    obtain ⟨cpu, -, rfl⟩ := Option.map_eq_some_iff.mp hs
    exact Or.inl (List.mem_cons_of_mem _ hmem)
  | spinUnlock left =>
    obtain ⟨before, frames, hframes⟩ := hp
    cases hs
    rw [hframes] at hmem ⊢
    rcases List.mem_cons.mp hmem with heq | hrest
    · cases heq
      exact Or.inr ⟨frames, rfl, rfl⟩
    · exact Or.inl hrest
  | cli =>
    cases hs
    exact Or.inl hmem
  | sti =>
    cases hs
    exact Or.inl hmem
  | interrupt =>
    cases hs
    split
    · exact Or.inl (List.mem_cons_of_mem _ hmem)
    · exact Or.inl hmem
  | exception =>
    cases hs
    exact Or.inl (List.mem_cons_of_mem _ hmem)
  | iretq =>
    obtain ⟨savedFlag, frames, hframes⟩ := hp
    rw [step, hframes] at hs
    cases hs
    rw [hframes] at hmem
    rcases List.mem_cons.mp hmem with heq | hrest
    · cases heq
    · exact Or.inl hrest

theorem enabled_of_restored {ops : List (Op Lock)} {m' : Machine Lock}
    (hp : PermittedRun step Nested m ops) (hrun : run step m ops = some m') (hclosed : m'.frames = [])
    (h : Restored m ops) :
    (∀ lock flagBefore, Frame.critical lock flagBefore ∈ m.frames → flagBefore = true) ∧
      PermittedRun step Enabled m ops := by
  induction ops generalizing m with
  | nil =>
    cases hrun
    rw [hclosed]
    exact ⟨fun _ _ hmem => absurd hmem List.not_mem_nil, trivial⟩
  | cons op ops ih =>
    cases hs : step m op with
    | none => simp [run, hs] at hrun
    | some m1 =>
      simp only [run, hs] at hrun
      have hrest : Restored m1 ops := by
        intro front op' back m2 m3 hops hfront hs'
        refine h (op :: front) op' back m2 m3 (by rw [hops, List.cons_append]) ?_ hs'
        simp only [run, hs]
        exact hfront
      obtain ⟨hbefore, henabled⟩ := ih (hp.2 m1 hs) hrun hrest
      refine ⟨fun lock flagBefore hmem => ?_, ?_, fun m2 hs2 => ?_⟩
      · rcases critical_step hp.1 hs hmem with hkept | ⟨frames, rfl, hframes⟩
        · exact hbefore lock flagBefore hkept
        · have hflag := (h [] (.spinUnlock lock) ops m m1 rfl rfl hs).1 lock flagBefore frames rfl hframes
          cases hs
          exact hflag.symm
      · cases op with
        | spinLock lock =>
          obtain ⟨cpu, -, rfl⟩ := Option.map_eq_some_iff.mp hs
          exact hbefore lock _ List.mem_cons_self
        | _ => trivial
      · cases hs.symm.trans hs2
        exact henabled

end Closed

theorem printf_flag [DecidableEq Lock] {fbLock : Lock} {cpu cpu' : Cpu Lock}
    (h : printf fbLock cpu = some cpu') : cpu'.interruptFlag = true := by
  obtain ⟨locked, -, rfl⟩ := Option.map_eq_some_iff.mp h
  rfl

-- spin_unlock sets the flag, whatever it was: sections restore it when each begins with the flag set,
-- and a run that has closed all its sections restores it in no other case.
theorem sections_restored [DecidableEq Lock] (cpu : Cpu Lock) (ops : List (Op Lock))
    (hp : PermittedRun step Nested ⟨cpu, []⟩ ops) :
    (PermittedRun step Enabled ⟨cpu, []⟩ ops → Restored ⟨cpu, []⟩ ops) ∧
    (∀ m, run step ⟨cpu, []⟩ ops = some m → m.frames = [] → Restored ⟨cpu, []⟩ ops →
      PermittedRun step Enabled ⟨cpu, []⟩ ops) ∧
    ∀ fbLock cpu', printf fbLock cpu = some cpu' →
      (cpu'.interruptFlag = cpu.interruptFlag ↔ cpu.interruptFlag = true) := by
  refine ⟨restored_of_enabled (m := ⟨cpu, []⟩) trivial hp, fun m hrun hclosed h => ?_,
    fun fbLock cpu' h => ?_⟩
  · exact (enabled_of_restored hp hrun hclosed h).2
  · rw [printf_flag h, eq_comm]

-- A printf with the interrupts on, with fb_lock as the only lock.
theorem sections_restored_printf :
    Restored ⟨⟨true, fun _ : Unit => false⟩, []⟩ [.spinLock (), .spinUnlock ()] := by
  refine (sections_restored ⟨true, fun _ => false⟩ _ ?_).1 ?_
  · refine ⟨trivial, fun m hs => ?_⟩
    cases hs
    exact ⟨⟨true, [], rfl⟩, fun _ _ => trivial⟩
  · exact ⟨rfl, fun _ _ => ⟨trivial, fun _ _ => trivial⟩⟩

-- The printf of the keyboard handler sets the flag that the gate has cleared, and a section inside
-- another leaves the interrupts on in the outer one.
theorem handler_printf_enables :
    (PermittedRun step Nested ⟨⟨true, fun _ : Bool => false⟩, []⟩
        [.interrupt, .spinLock true, .spinUnlock true] ∧
      ¬Restored ⟨⟨true, fun _ : Bool => false⟩, []⟩ [.interrupt, .spinLock true, .spinUnlock true]) ∧
    (PermittedRun step Nested ⟨⟨true, fun _ : Bool => false⟩, []⟩
        [.spinLock false, .spinLock true, .spinUnlock true] ∧
      ¬Restored ⟨⟨true, fun _ : Bool => false⟩, []⟩
        [.spinLock false, .spinLock true, .spinUnlock true]) := by
  refine ⟨⟨⟨trivial, fun m hm => ⟨trivial, fun n hn => ?_⟩⟩, fun h => ?_⟩,
    ⟨⟨trivial, fun m hm => ⟨trivial, fun n hn => ?_⟩⟩, fun h => ?_⟩⟩
  · cases hm
    cases hn
    exact ⟨⟨_, _, rfl⟩, fun _ _ => trivial⟩
  · have hflag := (h [.interrupt, .spinLock true] (.spinUnlock true) [] _ _ rfl rfl rfl).1 true false _
      rfl rfl
    cases hflag
  · cases hm
    cases hn
    exact ⟨⟨_, _, rfl⟩, fun _ _ => trivial⟩
  · have hflag := (h [.spinLock false, .spinLock true] (.spinUnlock true) [] _ _ rfl rfl rfl).2 false
      true List.mem_cons_self
    cases hflag

end Miyabi.Arch.Spinlock
