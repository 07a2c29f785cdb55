import Miyabi.Arch.Protection.Delivery
import Miyabi.Arch.User
import Miyabi.Base.Transition

namespace Miyabi.Arch.User

open Miyabi.Base Miyabi.Base.Memory Miyabi.Base.Stack Miyabi.Base.Transition
open Miyabi.Arch.Trap Miyabi.Arch.Descriptors Miyabi.Arch.Protection
open Miyabi.Drivers.Fb Miyabi.Syscalls

variable {sym : Symbols} {fb : Framebuffer} {font : ℕ → BitVec 8} {opened : BitVec 32 → Bool}
variable {k k' : Kernel} {mem mem' : Memory 64} {t : Terminal} {c c' : Cpu} {number : BitVec 64}

section Entry

-- Where the frame of an interrupt of the process begins.
def frameBase (sym : Symbols) : BitVec 64 := sym.initialKernelStack + kernelStackSize - 176

def entryMemory (sym : Symbols) (number : BitVec 64) (c : Cpu) (mem : Memory 64) : Memory 64 :=
  (interruptEntry number 0 (sym.initialKernelStack + kernelStackSize) c mem).1

theorem alignedTop_stack (h : sym.initialKernelStack &&& 15 = 0) :
    alignedTop (sym.initialKernelStack + kernelStackSize) = sym.initialKernelStack + kernelStackSize := by
  have hbase : sym.initialKernelStack.toNat % 16 = 0 := by
    have hmask := Word.toNat_and_mask sym.initialKernelStack 15 4 (by decide)
    rw [h] at hmask
    exact hmask.symm
  have htop : ((sym.initialKernelStack + kernelStackSize) &&& 15).toNat = 0 := by
    have hsize : kernelStackSize.toNat = 4096 := rfl
    rw [Word.toNat_and_mask _ 15 4 (by decide), BitVec.toNat_add]
    omega
  have hsum := Word.toNat_and_not_add (sym.initialKernelStack + kernelStackSize) 15
  apply BitVec.eq_of_toNat_eq
  rw [alignedTop]
  omega

theorem entry_pushed (hl : Layout sym fb) (number : BitVec 64) (c : Cpu) (mem : Memory 64) :
    (interruptEntry number 0 (sym.initialKernelStack + kernelStackSize) c mem).2 = frameBase sym ∧
      Pushed mem (entryMemory sym number c mem) (frameBase sym) (frameWords number 0 c) frameSize := by
  have hentry := interruptEntry_pushes number 0 (sym.initialKernelStack + kernelStackSize) c mem
  rw [alignedTop_stack hl.aligned] at hentry
  exact hentry

theorem entry_keeps (hl : Layout sym fb) (number : BitVec 64) (c : Cpu) (mem : Memory 64)
    {x : BitVec 64} (hx : x ∉ interruptStack sym) : entryMemory sym number c mem x = mem x :=
  (entry_pushed hl number c mem).2.keeps x hx

theorem ready_keep (h : Ready sym mem) (hkept : ∀ x ∈ tables sym, mem' x = mem x) : Ready sym mem' :=
  Ready.congr h (fun x hx => hkept x (Or.inl hx)) (fun x hx => hkept x (Or.inr (Or.inl hx)))
    fun x hx => hkept x (Or.inr (Or.inr hx))

-- The stub that a vector leads to runs on the stack of rsp0.
theorem interrupted_eq (hl : Layout sym fb) (h : Ready sym k.console.mem) (hcs : c.cs = 0x23)
    {software : Bool} {vector : BitVec 8} {handler : BitVec 64} {flags : BitVec 8}
    (hset : handlers sym vector.toNat = some (handler, flags))
    (hopen : software = true → flags = idtUserInterruptGate)
    (hnumber : stubVector sym handler = some number)
    (irq : Kernel → BitVec 64 → Option Kernel) :
    interrupted font sym (registers sym) software vector irq c k =
      returned (registers sym) (frameBase sym) (if number = 128 then
          syscallAt font (withMemory k (entryMemory sym number c k.console.mem)) (frameBase sym)
        else irq (withMemory k (entryMemory sym number c k.console.mem)) (frameBase sym)) := by
  have hring : 0 < cpl c := by
    rw [cpl, hcs]
    decide
  have hdeliver := @deliver_gate sym k.console.mem c vector software handler flags h hset
    fun hs => Or.inl (hopen hs)
  rw [if_pos hring, if_pos hring] at hdeliver
  obtain ⟨hsp, -⟩ := entry_pushed hl number c k.console.mem
  have hstub := enterStub_entered number handler (sym.initialKernelStack + kernelStackSize) 0 c
    k.console.mem
  have hentry : interruptEntry number 0 (sym.initialKernelStack + kernelStackSize) c k.console.mem =
      (entryMemory sym number c k.console.mem, frameBase sym) := Prod.ext rfl hsp
  rw [hentry] at hstub
  unfold interrupted
  rw [hdeliver]
  dsimp only
  rw [show (entered handler (sym.initialKernelStack + kernelStackSize) 0 c k.console.mem).1.rip =
    handler from rfl, hnumber]
  dsimp only
  rw [hstub]

-- An irq's handler that leaves the tables and the frame alone returns to the process.
theorem irq_returns (font : ℕ → BitVec 8) (hl : Layout sym fb) (h : Ready sym k.console.mem)
    (hcs : c.cs = 0x23) (hss : c.ss = 0x1B) {vector : BitVec 8} {handler : BitVec 64}
    (hset : handlers sym vector.toNat = some (handler, idtInterruptGate))
    (hnumber : stubVector sym handler = some number) (hirq : number ≠ 128)
    {irq : Kernel → BitVec 64 → Option Kernel}
    (hhandler : irq (withMemory k (entryMemory sym number c k.console.mem)) (frameBase sym) = some k')
    (hkept : ∀ x ∈ tables sym ∪ interruptStack sym,
      k'.console.mem x = entryMemory sym number c k.console.mem x) :
    interrupted font sym (registers sym) false vector irq c k = some ⟨c, k'⟩ := by
  have hframe : Holds k'.console.mem (frameBase sym) (frameWords number 0 c) :=
    holds_congr (entry_pushed hl number c k.console.mem).2.holds (by simp [frameWords])
      fun x hx => hkept x (Or.inr hx)
  have hready : Ready sym k'.console.mem := ready_keep h fun x hx => by
    rw [hkept x (Or.inl hx)]
    exact entry_keeps hl number c _ fun hin => hl.stackTables x hin hx
  rw [interrupted_eq hl h hcs hset (by decide) hnumber, if_neg hirq, hhandler, returned,
    leaveStub_user hready hframe hcs hss]
  rfl

end Entry

section Related

-- The kernel and what the process and the user see of it.
structure Serves (sym : Symbols) (fb : Framebuffer) (font : ℕ → BitVec 8) (opened : BitVec 32 → Bool)
    (k : Kernel) (mem : Memory 64) (t : Terminal) : Prop where
  user : ∀ x < userEnd, k.console.mem x = mem x
  ready : Ready sym k.console.mem
  displays : Displays fb font k.console t
  files : ∀ fd, opened fd ↔ fdGetNode k.fdTable fd ≠ 0 ∧ k.write (fdGetNode k.fdTable fd) ≠ none
  onlyFb : ∀ node op, k.write node = some op → op = .fb

-- The process is in ring 3 and can be interrupted.
structure Runs (sym : Symbols) (fb : Framebuffer) (font : ℕ → BitVec 8) (opened : BitVec 32 → Bool)
    (m : Machine) (s : Session) : Prop where
  cpu : m.cpu = s.cpu
  code : s.cpu.cs = 0x23
  data : s.cpu.ss = 0x1B
  enabled : interruptible s.cpu = true
  serves : Serves sym fb font opened m.kernel s.mem s.terminal

-- A console that has drawn, with a change of the memory elsewhere.
theorem Serves.next (h : Serves sym fb font opened k mem t) {con : Console} {t' : Terminal}
    (hdisplays : Displays fb font con t') (huser : ∀ x < userEnd, con.mem x = k.console.mem x)
    (htables : ∀ x ∈ tables sym, con.mem x = k.console.mem x) :
    Serves sym fb font opened { k with console := con } mem t' where
  user x hx := (huser x hx).trans (h.user x hx)
  ready := ready_keep h.ready htables
  displays := hdisplays
  files := h.files
  onlyFb := h.onlyFb

theorem Layout.notScreen (hl : Layout sym fb) {x : BitVec 64}
    (hx : x < userEnd ∨ x ∈ tables sym ∪ interruptStack sym) :
    ¬InRange fb.address (screenSize fb) x := by
  intro hin
  rcases hx with hx | hx | hx
  · exact BitVec.not_lt.mpr (hl.high x (Or.inr hin)) hx
  · exact hl.screenTables x hin hx
  · exact hl.screenStack x hin hx

-- The kernel when a handler is called.
theorem Serves.entered (hl : Layout sym fb) (hs : Screen fb)
    (h : Serves sym fb font opened k mem t) (number : BitVec 64) (c : Cpu) :
    Serves sym fb font opened (withMemory k (entryMemory sym number c k.console.mem)) mem t := by
  refine h.next (h.displays.congr hs fun x hx => ?_) (fun x hx => ?_) fun x hx => ?_
  · exact entry_keeps hl number c _ (hl.screenStack x hx)
  · refine entry_keeps hl number c _ fun hin => ?_
    exact BitVec.not_lt.mpr (hl.high x (Or.inl (Or.inr hin))) hx
  · exact entry_keeps hl number c _ fun hin => hl.stackTables x hin hx

end Related

section Steps

variable {m : Machine} {s : Session}

theorem own_runs (hl : Layout sym fb) (hs : Screen fb) (h : Runs sym fb font opened m s)
    (cpu : Cpu) (mem : Memory 64) (hcs : cpu.cs = 0x23) (hss : cpu.ss = 0x1B)
    (hif : interruptible cpu = true) :
    Option.Rel (Runs sym fb font opened) (step font sym (registers sym) m (.own cpu mem))
      (s.step opened (.own cpu mem)) := by
  have hhigh : ∀ x, x ∈ tables sym ∪ interruptStack sym ∪ screen fb →
      (if x < userEnd then mem x else m.kernel.console.mem x) = m.kernel.console.mem x :=
    fun x hx => if_neg (BitVec.not_lt.mpr (hl.high x hx))
  refine .some ⟨rfl, hcs, hss, hif, ?_⟩
  have hserves := h.serves
  constructor
  case user => exact fun x hx => if_pos hx
  case ready => exact ready_keep hserves.ready fun x hx => hhigh x (Or.inl (Or.inl hx))
  case displays => exact hserves.displays.congr hs fun x hx => hhigh x (Or.inr hx)
  case files => exact hserves.files
  case onlyFb => exact hserves.onlyFb

-- No other vector is open to the process.
theorem int_refused (h : Runs sym fb font opened m s) {vector : BitVec 8} (hv : vector ≠ 0x80) :
    step font sym (registers sym) m (.int vector) = none := by
  have hring : cpl (behindInt m.cpu) = 3 := by
    show rpl m.cpu.cs = 3
    rw [h.cpu, h.code]
    decide
  rw [step, interrupted, deliver_refused h.serves.ready hring hv]

theorem stub_irq0 (sym : Symbols) : stubVector sym sym.irq0 = some 32 := if_pos rfl

theorem stub_irq1 (hl : Layout sym fb) : stubVector sym sym.irq1 = some 33 := by
  obtain ⟨h0, h1⟩ := List.nodup_cons.mp hl.stubs
  rw [stubVector, if_neg, if_pos rfl]
  rintro heq
  exact h0 (heq ▸ List.mem_cons_self)

theorem stub_isr128 (hl : Layout sym fb) : stubVector sym sym.isr128 = some 128 := by
  obtain ⟨h0, h1⟩ := List.nodup_cons.mp hl.stubs
  obtain ⟨h2, -⟩ := List.nodup_cons.mp h1
  rw [stubVector, if_neg, if_neg, if_pos rfl]
  · rintro heq
    exact h2 (heq ▸ List.mem_cons_self)
  · rintro heq
    exact h0 (heq ▸ List.mem_cons_of_mem _ List.mem_cons_self)

theorem handlers_irq0 (sym : Symbols) :
    handlers sym (32 : BitVec 8).toNat = some (sym.irq0, idtInterruptGate) := by
  rw [show (32 : BitVec 8).toNat = 32 from rfl]
  rfl

theorem handlers_irq1 (sym : Symbols) :
    handlers sym (33 : BitVec 8).toNat = some (sym.irq1, idtInterruptGate) := by
  rw [show (33 : BitVec 8).toNat = 33 from rfl]
  rfl

theorem handlers_isr128 (sym : Symbols) :
    handlers sym (0x80 : BitVec 8).toNat = some (sym.isr128, idtUserInterruptGate) := by
  rw [show (0x80 : BitVec 8).toNat = 128 from rfl]
  rfl

theorem frame_vector (hl : Layout sym fb) (number : BitVec 64) (c : Cpu) (k : Kernel) :
    (withMemory k (entryMemory sym number c k.console.mem)).console.mem.load64 (frameBase sym + 120) =
      number := by
  obtain ⟨-, -, -, -, -, -, -, -, -, -, -, -, -, -, -, hvector, -⟩ :=
    (entry_pushed hl number c k.console.mem).2.holds
  have hsum : frameBase sym + 120 =
      frameBase sym + 8 + 8 + 8 + 8 + 8 + 8 + 8 + 8 + 8 + 8 + 8 + 8 + 8 + 8 + 8 := by ring
  rw [hsum]
  exact hvector

theorem irqHandler_timer {calls : List Call} {others : Memory 64 → Memory 64} {scancode : BitVec 8}
    {sp : BitVec 64} (h : k.console.mem.load64 (sp + 120) = 32) :
    irqHandler font calls others scancode k sp =
      some { k with console := { k.console.run font calls with
        mem := others (k.console.run font calls).mem } } :=
  if_pos h

theorem irqHandler_key {calls : List Call} {others : Memory 64 → Memory 64} {scancode : BitVec 8}
    {sp : BitVec 64} {con : Console} (h : k.console.mem.load64 (sp + 120) = 33)
    (hcon : keyboardHandlerMain font scancode k.console = .ok con) :
    irqHandler font calls others scancode k sp = some { k with console := con } := by
  unfold irqHandler
  dsimp only
  rw [h, if_neg (by decide), if_pos rfl, hcon]

theorem timer_runs (hl : Layout sym fb) (hs : Screen fb) (h : Runs sym fb font opened m s)
    (calls : List Call) (others : Memory 64 → Memory 64)
    (hothers : ∀ mem x, x < userEnd ∨ x ∈ tables sym ∪ interruptStack sym ∪ screen fb →
      others mem x = mem x) :
    Option.Rel (Runs sym fb font opened) (step font sym (registers sym) m (.timer calls others))
      (s.step opened (.timer calls others)) := by
  have hentered := h.serves.entered hl hs 32 m.cpu
  have hkept := Console.run_keptOn font hs.fits hentered.displays.placed calls
  have hdisplays := hentered.displays.run hs calls
  generalize hcon : (withMemory m.kernel (entryMemory sym 32 m.cpu m.kernel.console.mem)).console.run
    font calls = con at hkept hdisplays
  have hhandler : irqHandler font calls others 0
      (withMemory m.kernel (entryMemory sym 32 m.cpu m.kernel.console.mem)) (frameBase sym) =
        some { m.kernel with console := { con with mem := others con.mem } } := by
    rw [irqHandler_timer (frame_vector hl 32 m.cpu m.kernel), hcon]
    rfl
  have hreturn := irq_returns font hl h.serves.ready (h.cpu ▸ h.code) (h.cpu ▸ h.data)
    (handlers_irq0 sym) (stub_irq0 sym) (by decide) hhandler fun x hx => by
      show others con.mem x = _
      rw [hothers con.mem x (Or.inr (Or.inl hx)), hkept.outside x (hl.notScreen (Or.inr hx))]
      rfl
  have hstep : step font sym (registers sym) m (.timer calls others) =
      some ⟨m.cpu, { m.kernel with console := { con with mem := others con.mem } }⟩ := by
    rw [step, if_pos (h.cpu ▸ h.enabled), hreturn]
  rw [hstep]
  refine .some ⟨h.cpu, h.code, h.data, h.enabled, ?_⟩
  refine hentered.next (hdisplays.congr hs fun x hx => hothers _ x (Or.inr (Or.inr hx)))
    (fun x hx => ?_) fun x hx => ?_
  · show others con.mem x = _
    rw [hothers con.mem x (Or.inl hx), hkept.outside x (hl.notScreen (Or.inl hx))]
  · show others con.mem x = _
    rw [hothers con.mem x (Or.inr (Or.inl (Or.inl hx))),
      hkept.outside x (hl.notScreen (Or.inr (Or.inl hx)))]

theorem printf_char (font : ℕ → BitVec 8) (c : BitVec 8) (color : BitVec 32) (con : Console) :
    con.printf font charFormat color (fun _ => ⟨[], c.setWidth 32⟩) =
      .ok ({ con with defaultFg := color }.putChar font c color) := by
  have hchar : (c.setWidth 32).setWidth 8 = c := by
    rw [BitVec.setWidth_setWidth_of_le _ (by decide), BitVec.setWidth_eq]
  have hchars : printfChars charFormat (fun _ => ⟨[], c.setWidth 32⟩) =
      .ok [(c.setWidth 32).setWidth 8] := rfl
  rw [hchar] at hchars
  unfold Console.printf
  rw [hchars]
  rfl

theorem keyboardHandlerMain_eq (font : ℕ → BitVec 8) (scancode : BitVec 8) (con : Console) :
    keyboardHandlerMain font scancode con = .ok ((Session.typed scancode).elim con fun c =>
      { con with defaultFg := 0xFFFFFF }.putChar font c 0xFFFFFF) := by
  unfold keyboardHandlerMain Session.typed
  by_cases hup : scancode &&& 0x80 = 0
  · rw [if_neg (not_not.mpr hup), if_pos hup]
    cases scancodeToAscii[scancode.toNat]? with
    | none => rfl
    | some c =>
        by_cases hc : c = 0
        · rw [hc]
          rfl
        · have hfilter : (some c).filter (· ≠ 0) = some c :=
            Option.filter_some_pos (decide_eq_true hc)
          dsimp only
          rw [if_pos hc, printf_char, hfilter, Option.elim_some]
  · rw [if_pos hup, if_neg hup, Option.elim_none]

theorem key_runs (hl : Layout sym fb) (hs : Screen fb) (h : Runs sym fb font opened m s)
    (scancode : BitVec 8) :
    Option.Rel (Runs sym fb font opened) (step font sym (registers sym) m (.key scancode))
      (s.step opened (.key scancode)) := by
  have hentered := h.serves.entered hl hs 33 m.cpu
  obtain ⟨con, hcon, hkept, hdisplays⟩ : ∃ con, keyboardHandlerMain font scancode
      (withMemory m.kernel (entryMemory sym 33 m.cpu m.kernel.console.mem)).console = .ok con ∧
      Console.KeptOn fb (withMemory m.kernel (entryMemory sym 33 m.cpu m.kernel.console.mem)).console
        con ∧
      Displays fb font con
        ((Session.typed scancode).elim s.terminal fun c => s.terminal.putChar c 0xFFFFFF) := by
    refine ⟨_, keyboardHandlerMain_eq font scancode _, ?_⟩
    have hplaced := hentered.displays
    cases Session.typed scancode with
    | none => exact ⟨Console.KeptOn.refl hplaced.placed, hplaced⟩
    | some c =>
        have hcolored := hplaced.colored 0xFFFFFF
        have hput := Console.putChar_keptOn font hs.fits hcolored.placed c 0xFFFFFF
        exact ⟨⟨hput.placed, hput.outside⟩, hcolored.putChar hs c 0xFFFFFF⟩
  have hhandler : irqHandler font [] id scancode
      (withMemory m.kernel (entryMemory sym 33 m.cpu m.kernel.console.mem)) (frameBase sym) =
        some { m.kernel with console := con } := by
    rw [irqHandler_key (frame_vector hl 33 m.cpu m.kernel) hcon]
    rfl
  have hreturn := irq_returns font hl h.serves.ready (h.cpu ▸ h.code) (h.cpu ▸ h.data)
    (handlers_irq1 sym) (stub_irq1 hl) (by decide) hhandler fun x hx => by
      show con.mem x = _
      rw [hkept.outside x (hl.notScreen (Or.inr hx))]
      rfl
  have hstep : step font sym (registers sym) m (.key scancode) =
      some ⟨m.cpu, { m.kernel with console := con }⟩ := by
    rw [step, if_pos (h.cpu ▸ h.enabled), hreturn]
  have hserves : Serves sym fb font opened { m.kernel with console := con } s.mem _ :=
    hentered.next hdisplays (fun x hx => hkept.outside x (hl.notScreen (Or.inl hx)))
      fun x hx => hkept.outside x (hl.notScreen (Or.inr (Or.inl hx)))
  rw [hstep, Session.step]
  cases htyped : Session.typed scancode with
  | none =>
      rw [htyped] at hserves
      exact .some ⟨h.cpu, h.code, h.data, h.enabled, hserves⟩
  | some c =>
      rw [htyped] at hserves
      exact .some ⟨h.cpu, h.code, h.data, h.enabled, hserves⟩

end Steps

section Syscalls

variable {m : Machine} {s : Session}

theorem frameAt_entry (hl : Layout sym fb) (number : BitVec 64) (c : Cpu) (mem : Memory 64) :
    frameAt (entryMemory sym number c mem) (frameBase sym) = ⟨c.rax, c.rdx, c.rsi, c.rdi⟩ := by
  obtain ⟨hrax, -, -, hrdx, hrsi, hrdi, -⟩ := (entry_pushed hl number c mem).2.holds
  have hsum3 : frameBase sym + 24 = frameBase sym + 8 + 8 + 8 := by ring
  have hsum4 : frameBase sym + 32 = frameBase sym + 8 + 8 + 8 + 8 := by ring
  have hsum5 : frameBase sym + 40 = frameBase sym + 8 + 8 + 8 + 8 + 8 := by ring
  rw [frameAt, hsum3, hsum4, hsum5, hrax, hrdx, hrsi, hrdi]

theorem stack_kept (mem : Memory 64) (v : BitVec 64) {x : BitVec 64}
    (hx : x ∉ interruptStack sym) : mem.store64 (frameBase sym) v x = mem x :=
  store_of_not_inRange (n := 8) _ _ _ _ fun hin => hx (inRange_mono _ x (by decide) hin)

-- The process goes on behind its int instruction with the value that the call has left.
theorem syscall_returns (font : ℕ → BitVec 8) (hl : Layout sym fb) (h : Ready sym k.console.mem)
    (hcs : c.cs = 0x23) (hss : c.ss = 0x1B) (irq : Kernel → BitVec 64 → Option Kernel) {frame : InterruptFrame}
    {run : WriteRun}
    (hcall : syscallHandler font (withMemory k (entryMemory sym 128 c k.console.mem))
      ⟨c.rax, c.rdx, c.rsi, c.rdi⟩ = some (frame, run))
    (hkept : ∀ x ∈ tables sym ∪ interruptStack sym,
      run.kernel.console.mem x = entryMemory sym 128 c k.console.mem x) :
    interrupted font sym (registers sym) true 0x80 irq c k = some ⟨{ c with rax := frame.rax },
      withMemory run.kernel (run.kernel.console.mem.store64 (frameBase sym) frame.rax)⟩ := by
  have hframe : Holds run.kernel.console.mem (frameBase sym) (frameWords 128 0 c) :=
    holds_congr (entry_pushed hl 128 c k.console.mem).2.holds (by simp [frameWords])
      fun x hx => hkept x (Or.inr hx)
  have hstored : Holds (run.kernel.console.mem.store64 (frameBase sym) frame.rax) (frameBase sym)
      (frameWords 128 0 { c with rax := frame.rax }) := holds_replace hframe (by simp)
  have hready : Ready sym (run.kernel.console.mem.store64 (frameBase sym) frame.rax) :=
    ready_keep h fun x hx => by
      have hout : x ∉ interruptStack sym := fun hin => hl.stackTables x hin hx
      rw [stack_kept _ _ hout, hkept x (Or.inl hx), entry_keeps hl 128 c _ hout]
  have hat : syscallAt font (withMemory k (entryMemory sym 128 c k.console.mem)) (frameBase sym) =
      some (withMemory run.kernel (run.kernel.console.mem.store64 (frameBase sym) frame.rax)) := by
    unfold syscallAt
    rw [show (withMemory k (entryMemory sym 128 c k.console.mem)).console.mem =
      entryMemory sym 128 c k.console.mem from rfl, frameAt_entry hl, hcall]
  rw [interrupted_eq hl h hcs (handlers_isr128 sym) (fun _ => rfl) (stub_isr128 hl), if_pos rfl, hat,
    returned, show (withMemory run.kernel (run.kernel.console.mem.store64 (frameBase sym)
    frame.rax)).console.mem = run.kernel.console.mem.store64 (frameBase sym) frame.rax from rfl,
    leaveStub_user hready hstored hcs hss]
  rfl

theorem syscall_halts (hl : Layout sym fb) (h : Ready sym k.console.mem) (hcs : c.cs = 0x23)
    (irq : Kernel → BitVec 64 → Option Kernel)
    (hcall : syscallHandler font (withMemory k (entryMemory sym 128 c k.console.mem))
      ⟨c.rax, c.rdx, c.rsi, c.rdi⟩ = none) :
    interrupted font sym (registers sym) true 0x80 irq c k = none := by
  have hat : syscallAt font (withMemory k (entryMemory sym 128 c k.console.mem)) (frameBase sym) =
      none := by
    unfold syscallAt
    rw [show (withMemory k (entryMemory sym 128 c k.console.mem)).console.mem =
      entryMemory sym 128 c k.console.mem from rfl, frameAt_entry hl, hcall]
  rw [interrupted_eq hl h hcs (handlers_isr128 sym) (fun _ => rfl) (stub_isr128 hl), if_pos rfl, hat,
    returned]

theorem Serves.stored (hl : Layout sym fb) (hs : Screen fb)
    (h : Serves sym fb font opened k mem t) (v : BitVec 64) :
    Serves sym fb font opened (withMemory k (k.console.mem.store64 (frameBase sym) v)) mem t := by
  refine h.next (h.displays.congr hs fun x hx => ?_) (fun x hx => ?_) fun x hx => ?_
  · exact stack_kept _ _ (hl.screenStack x hx)
  · refine stack_kept _ _ fun hin => ?_
    exact BitVec.not_lt.mpr (hl.high x (Or.inl (Or.inr hin))) hx
  · exact stack_kept _ _ fun hin => hl.stackTables x hin hx

-- What sys_write returns and leaves.
theorem sysWrite_serves (hl : Layout sym fb) (hs : Screen fb)
    (h : Serves sym fb font opened k mem t) (fd : BitVec 32) (buf count : BitVec 64)
    (hbuf : opened fd → validateUserPointer buf count → buf.toNat + count.toNat ≤ userEnd.toNat) :
    let run := sysWrite font k fd buf count
    let passes := opened fd && validateUserPointer buf count
    run.value = (if passes then count else -1) ∧
      Console.KeptOn fb k.console run.kernel.console ∧
      Serves sym fb font opened run.kernel mem
        (if passes then t.step (.puts (Session.text mem buf count) 0xFFFFFFF) else t) := by
  have hsame := Console.KeptOn.refl h.displays.placed
  have hfile := h.files fd
  unfold sysWrite
  dsimp only
  by_cases hnode : fdGetNode k.fdTable fd = 0
  · have hclosed : opened fd = false := by
      rw [← Bool.not_eq_true, hfile]
      exact fun hopen => hopen.1 hnode
    rw [if_pos hnode, hclosed]
    exact ⟨rfl, hsame, h⟩
  rw [if_neg hnode]
  cases hop : k.write (fdGetNode k.fdTable fd) with
  | none =>
      have hclosed : opened fd = false := by
        rw [← Bool.not_eq_true, hfile]
        exact fun hopen => hopen.2 hop
      rw [hclosed]
      exact ⟨rfl, hsame, h⟩
  | some op =>
      have hopen : opened fd = true := hfile.mpr ⟨hnode, by rw [hop]; exact Option.some_ne_none op⟩
      rw [hopen, Bool.true_and]
      dsimp only
      by_cases hvalid : validateUserPointer buf count = true
      · obtain ⟨hwrap, hstart⟩ := (validateUserPointer_iff _ _).mp hvalid
        have hbelow := (range_below_iff hwrap hstart).mpr (hbuf hopen hvalid)
        obtain ⟨hdisplays, hkept, -⟩ := showFrom_displays hs (h.displays.colored 0xFFFFFFF) buf
          count.toNat fun i hi => hl.notScreen (Or.inl (hbelow i hi))
        have htext : Session.text mem buf count =
            (List.range count.toNat).map fun i => k.console.mem (buf + BitVec.ofNat 64 i) := by
          refine List.map_congr_left fun i hi => ?_
          exact (h.user _ (hbelow i (List.mem_range.mp hi))).symm
        have hfb := h.onlyFb _ _ hop
        subst hfb
        rw [if_pos hvalid, if_pos hvalid, if_pos hvalid, htext]
        refine ⟨rfl, ⟨hkept.placed, hkept.outside⟩, ?_⟩
        exact h.next hdisplays (fun x hx => hkept.outside x (hl.notScreen (Or.inl hx)))
          fun x hx => hkept.outside x (hl.notScreen (Or.inr (Or.inl hx)))
      · rw [if_neg hvalid, if_neg hvalid, if_neg hvalid]
        exact ⟨rfl, hsame, h⟩

theorem syscall_runs (hl : Layout sym fb) (hs : Screen fb) (h : Runs sym fb font opened m s)
    (hbuf : s.cpu.rax = 2 → opened (s.cpu.rdi.setWidth 32) →
      validateUserPointer s.cpu.rsi s.cpu.rdx →
        s.cpu.rsi.toNat + s.cpu.rdx.toNat ≤ userEnd.toNat) :
    Option.Rel (Runs sym fb font opened) (step font sym (registers sym) m (.int 0x80))
      (s.step opened (.int 0x80)) := by
  obtain ⟨cpu, kernel⟩ := m
  obtain rfl : cpu = s.cpu := h.cpu
  have hserves := h.serves
  have hentered := hserves.entered hl hs 128 (behindInt s.cpu)
  -- what the call returns, and what it leaves
  have hreturn : ∀ frame run mem' t', syscallHandler font
      (withMemory kernel (entryMemory sym 128 (behindInt s.cpu) kernel.console.mem))
      ⟨s.cpu.rax, s.cpu.rdx, s.cpu.rsi, s.cpu.rdi⟩ = some (frame, run) →
      Console.KeptOn fb (withMemory kernel
        (entryMemory sym 128 (behindInt s.cpu) kernel.console.mem)).console
        run.kernel.console →
      Serves sym fb font opened run.kernel mem' t' →
      Option.Rel (Runs sym fb font opened) (step font sym (registers sym) ⟨s.cpu, kernel⟩ (.int 0x80))
        (some ⟨{ behindInt s.cpu with rax := frame.rax }, mem', t'⟩) := by
    intro frame run mem' t' hcall hkept hnext
    have hstep := syscall_returns font hl hserves.ready
      (c := behindInt s.cpu) h.code h.data (fun _ _ => none) hcall
      fun x hx => by
        rw [hkept.outside x (hl.notScreen (Or.inr hx))]
        rfl
    rw [step, hstep]
    exact .some ⟨rfl, h.code, h.data, h.enabled, hnext.stored hl hs frame.rax⟩
  have hsame := Console.KeptOn.refl hentered.displays.placed
  rw [Session.step, if_pos rfl, Session.syscall]
  by_cases h0 : s.cpu.rax = 0
  · rw [if_pos h0, step, syscall_halts (c := behindInt s.cpu) hl hserves.ready h.code _ (if_pos h0)]
    exact .none
  by_cases h1 : s.cpu.rax = 1
  · rw [if_neg h0, if_pos h1]
    refine hreturn ⟨0, s.cpu.rdx, s.cpu.rsi, s.cpu.rdi⟩ ⟨0, _, [], []⟩ _ _ ?_ hsame hentered
    rw [syscallHandler]
    dsimp only
    rw [if_neg h0, if_pos h1]
    rfl
  by_cases h2 : s.cpu.rax = 2
  · obtain ⟨hvalue, hkept, hwritten⟩ := sysWrite_serves hl hs hentered (s.cpu.rdi.setWidth 32)
      s.cpu.rsi s.cpu.rdx (hbuf h2)
    have hturn := hreturn _ _ s.mem _ (syscallHandler_write font h2) hkept hwritten
    dsimp only at hturn hvalue
    rw [hvalue] at hturn
    rw [if_neg h0, if_neg h1, if_pos h2]
    by_cases hpass : (opened (s.cpu.rdi.setWidth 32) &&
        validateUserPointer s.cpu.rsi s.cpu.rdx) = true
    · rw [if_pos hpass, if_pos hpass] at hturn
      rw [if_pos hpass]
      exact hturn
    · rw [if_neg hpass, if_neg hpass] at hturn
      rw [if_neg hpass]
      exact hturn
  · rw [if_neg h0, if_neg h1, if_neg h2]
    refine hreturn ⟨s.cpu.rax, s.cpu.rdx, s.cpu.rsi, s.cpu.rdi⟩ ⟨0, _, [], []⟩ _ _ ?_ hsame hentered
    rw [syscallHandler]
    dsimp only
    rw [if_neg h0, if_neg h1, if_neg h2]
    rfl

theorem step_runs (hl : Layout sym fb) (hs : Screen fb) (h : Runs sym fb font opened m s) (op : Op)
    (hp : Permitted sym fb opened s op) :
    Option.Rel (Runs sym fb font opened) (step font sym (registers sym) m op) (s.step opened op) := by
  cases op with
  | own cpu mem => exact own_runs hl hs h cpu mem hp.1 hp.2.1 hp.2.2
  | int vector =>
      by_cases hv : vector = 0x80
      · rw [hv]
        exact syscall_runs hl hs h hp
      · rw [int_refused h hv, Session.step, if_neg hv]
        exact .none
  | timer calls others => exact timer_runs hl hs h calls others hp
  | key scancode => exact key_runs hl hs h scancode

end Syscalls

section Start

-- From switch_to_user_space on the process and the user see the session: its own code goes on
-- as if there were no interrupts, the screen shows what it writes and what is typed, and it
-- faults or halts when the session ends.
theorem session_refined (hp : Placed sym) (hl : Layout sym fb) (hs : Screen fb) {mem0 : Memory 64}
    (hboot : Loaded sym mem0) (htables : ∀ x ∈ tables sym, k.console.mem x = (initTables sym mem0).2 x)
    (hdisplays : Displays fb font k.console t)
    (hfiles : ∀ fd, opened fd ↔
      fdGetNode k.fdTable fd ≠ 0 ∧ k.write (fdGetNode k.fdTable fd) ≠ none)
    (hfb : ∀ node op, k.write node = some op → op = .fb) (hring : cpl c = 0)
    (hstack : ∀ x, InRange (c.rsp - 40) 40 x → userEnd ≤ x ∧ x ∉ tables sym ∪ screen fb)
    (userStack userFunc : BitVec 64) (ops : List Op)
    (hops : PermittedRun (Session.step opened) (Permitted sym fb opened)
      ⟨started userStack userFunc c, k.console.mem, t⟩ ops) :
    ∃ mem, switchToUserSpace (initTables sym mem0).1 userStack userFunc c k.console.mem =
        some (started userStack userFunc c, mem) ∧
      Option.Rel (Runs sym fb font opened)
        (run (step font sym (initTables sym mem0).1) ⟨started userStack userFunc c, withMemory k mem⟩ ops)
        (run (Session.step opened) ⟨started userStack userFunc c, k.console.mem, t⟩ ops) := by
  obtain ⟨hregs, hinit⟩ := ready_init hp hboot
  have hready : Ready sym k.console.mem := ready_keep hinit htables
  obtain ⟨mem, hswitch, hkeeps⟩ := switchToUserSpace_enters userStack userFunc hready.segments hring
    fun x hx hin => (hstack x hx).2 (Or.inl (Or.inl hin))
  rw [hregs]
  refine ⟨mem, hswitch, run_lockstep _ (fun m s op h hop => step_runs hl hs h op hop) _ _ ops ?_ hops⟩
  have hserves : Serves sym fb font opened k k.console.mem t :=
    ⟨fun _ _ => rfl, hready, hdisplays, hfiles, hfb⟩
  have henabled : interruptible (started userStack userFunc c) = true := by
    show ((c.rflags &&& ~~~0x200) ||| 0x200).getLsbD 9 = true
    rw [BitVec.getLsbD_or, show (0x200 : BitVec 64).getLsbD 9 = true by decide, Bool.or_true]
  refine ⟨rfl, rfl, rfl, henabled, hserves.next (hdisplays.congr hs fun x hx => ?_) (fun x hx => ?_)
    fun x hx => ?_⟩
  · exact hkeeps x fun hin => (hstack x hin).2 (Or.inr hx)
  · exact hkeeps x fun hin => BitVec.not_lt.mpr (hstack x hin).1 hx
  · exact hkeeps x fun hin => (hstack x hin).2 (Or.inl hx)

def sampleScreen : Framebuffer := ⟨0xFFFF8000FD000000, 640, 480, 2560, 32⟩

theorem sampleScreen_ok : Screen sampleScreen :=
  ⟨by decide, by decide, by decide, by decide, by decide, by decide⟩

theorem sample_layout : Layout sampleSymbols sampleScreen where
  aligned := by decide
  stackTables := by
    have hgdt : Apart (sampleSymbols.initialKernelStack + kernelStackSize - 176) frameSize
        sampleSymbols.gdt 56 := (apart_of_le _ _ _ _ (by decide) (by decide)).symm
    have htss : Apart (sampleSymbols.initialKernelStack + kernelStackSize - 176) frameSize
        sampleSymbols.kernelTss tssSize := (apart_of_le _ _ _ _ (by decide) (by decide)).symm
    have hidt : Apart (sampleSymbols.initialKernelStack + kernelStackSize - 176) frameSize
        sampleSymbols.idt 4096 := apart_of_le _ _ _ _ (by decide) (by decide)
    rintro x hx (hin | hin | hin)
    · exact hgdt x hx hin
    · exact htss x hx hin
    · exact hidt x hx hin
  screenTables := by
    have hgdt : Apart sampleScreen.address (screenSize sampleScreen) sampleSymbols.gdt 56 :=
      apart_of_le _ _ _ _ (by decide) (by decide)
    have htss : Apart sampleScreen.address (screenSize sampleScreen) sampleSymbols.kernelTss tssSize :=
      apart_of_le _ _ _ _ (by decide) (by decide)
    have hidt : Apart sampleScreen.address (screenSize sampleScreen) sampleSymbols.idt 4096 :=
      apart_of_le _ _ _ _ (by decide) (by decide)
    rintro x hx (hin | hin | hin)
    · exact hgdt x hx hin
    · exact htss x hx hin
    · exact hidt x hx hin
  screenStack := by
    have hstack : Apart sampleScreen.address (screenSize sampleScreen)
        (sampleSymbols.initialKernelStack + kernelStackSize - 176) frameSize :=
      apart_of_le _ _ _ _ (by decide) (by decide)
    exact hstack
  high := by
    have hhigh (a : BitVec 64) (n : ℕ) (ha : userEnd.toNat ≤ a.toNat) (hn : a.toNat + n ≤ 2 ^ 64) :
        ∀ x, InRange a n x → userEnd ≤ x := by
      intro x hx
      rw [inRange_iff a x n hn] at hx
      exact BitVec.le_def.mpr (ha.trans hx.1)
    rintro x (((hx | hx | hx) | hx) | hx)
    · exact hhigh _ 56 (by decide) (by decide) x hx
    · exact hhigh _ tssSize (by decide) (by decide) x hx
    · exact hhigh _ 4096 (by decide) (by decide) x hx
    · exact hhigh _ frameSize (by decide) (by decide) x hx
    · exact hhigh _ (screenSize sampleScreen) (by decide) (by decide) x hx
  stubs := by decide

def sampleBoot : Console := Console.initFb sampleScreen (initTables sampleSymbols sampleMemory).2

-- After clear, with every descriptor open on the console.
def sampleKernel : Kernel := { consoleKernel with console := sampleBoot.clear 0 }

def sampleCpu : Cpu :=
  ⟨0, 0, 0, 0, 0, 0, 0, 0, 0, 0, 0, 0, 0, 0, 0, 0xFFFFFFFF80000200, 0x08, 0x202, 0xFFFFFFFF80020000,
    0x10⟩

-- The process writes three bytes to descriptor 1, and a key goes down.
def sampleOps : List Op :=
  [.own { started 0x7FFFFFFF0000 0x400000 sampleCpu with rax := 2, rdi := 1, rsi := 0x401000, rdx := 3 }
      fun _ => 0x41,
    .int 0x80, .key 0x1E]

theorem sample_displays :
    Displays sampleScreen emptyFont sampleKernel.console ((Terminal.ofScreen sampleScreen).clear 0) where
  placed := by
    have hsized : Sized sampleScreen := ⟨by decide, by decide, by decide, by decide⟩
    exact Console.clear_placed (Console.initFb_placed hsized _) 0
  shows := shows_clear sampleScreen_ok ⟨rfl, rfl, rfl⟩ 0 rfl rfl
  cell := ⟨by decide, by decide⟩

theorem session_refined_sample :
    ∃ mem, switchToUserSpace (initTables sampleSymbols sampleMemory).1 0x7FFFFFFF0000 0x400000 sampleCpu
        sampleKernel.console.mem = some (started 0x7FFFFFFF0000 0x400000 sampleCpu, mem) ∧
      Option.Rel (Runs sampleSymbols sampleScreen emptyFont fun fd => fdGetNode consoleKernel.fdTable fd ≠ 0)
        (run (step emptyFont sampleSymbols (initTables sampleSymbols sampleMemory).1)
          ⟨started 0x7FFFFFFF0000 0x400000 sampleCpu, withMemory sampleKernel mem⟩ sampleOps)
        (run (Session.step fun fd => fdGetNode consoleKernel.fdTable fd ≠ 0)
          ⟨started 0x7FFFFFFF0000 0x400000 sampleCpu, sampleKernel.console.mem,
            (Terminal.ofScreen sampleScreen).clear 0⟩ sampleOps) := by
  have hplaced : Console.Placed sampleScreen sampleBoot :=
    Console.initFb_placed ⟨by decide, by decide, by decide, by decide⟩ _
  have hdrawn : Console.KeptOn sampleScreen sampleBoot (sampleBoot.clear 0) :=
    Console.step_keptOn emptyFont sampleScreen_ok.fits hplaced (.clear 0)
  refine session_refined sample_placed sample_layout sampleScreen_ok sample_loaded (fun x hx => ?_)
    sample_displays (fun fd => ?_) (fun node op hop => ?_) (by decide) (fun x hx => ?_) _ _ _ ?_
  · have hout := hdrawn.outside x fun hin => sample_layout.screenTables x hin hx
    exact hout
  · rw [decide_eq_true_iff]
    exact ⟨fun h => ⟨h, Option.some_ne_none _⟩, fun h => h.1⟩
  · exact (Option.some.inj hop).symm
  · have hapart (a : BitVec 64) (n : ℕ) (ha : a.toNat + n ≤ (sampleCpu.rsp - 40).toNat) :
        ¬InRange a n x :=
      fun hin => apart_of_le a (sampleCpu.rsp - 40) n 40 ha (by decide) x hin hx
    refine ⟨?_, ?_⟩
    · rw [inRange_iff _ x 40 (by decide)] at hx
      exact BitVec.le_def.mpr (le_trans (by decide) hx.1)
    · rintro ((hin | hin | hin) | hin)
      · exact hapart _ 56 (by decide) hin
      · exact hapart _ tssSize (by decide) hin
      · exact hapart _ 4096 (by decide) hin
      · exact hapart _ (screenSize sampleScreen) (by decide) hin
  · refine ⟨⟨rfl, rfl, by decide⟩, fun s hs => ?_⟩
    cases hs
    refine ⟨fun _ _ _ => by decide, fun s hs => ⟨trivial, fun _ _ => trivial⟩⟩

end Start

end Miyabi.Arch.User
