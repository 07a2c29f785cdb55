import Miyabi.Base.Word
import Miyabi.Arch.Preempt

namespace Miyabi.Arch.Preempt

open Miyabi.Base Miyabi.Base.Memory Miyabi.Base.Stack Miyabi.Base.Transition
open Miyabi.Arch.Thread Miyabi.Arch.Trap

variable {callAt : BitVec 64 → BitVec 64} {sym : Symbols} {bootBase bootSize : BitVec 64}
variable {k k' : State} {m m' : Machine} {t x a d : BitVec 64} {op : Op} {f : Frame}

section Heights

theorem mem_stack_iff : x ∈ stackOf (bootStack bootBase bootSize) sym k t ↔
    height sym bootBase k t x < stackLength sym bootSize t := by
  unfold stackOf height stackBase stackLength bootStack
  split <;> rfl

theorem stackLength_lt (sym : Symbols) (bootSize t : BitVec 64) :
    stackLength sym bootSize t < 2 ^ 64 := by
  unfold stackLength
  split
  · exact bootSize.isLt
  · decide

theorem height_sub (h : d.toNat ≤ height sym bootBase k t a) :
    height sym bootBase k t (a - d) = height sym bootBase k t a - d.toNat := by
  unfold height at *
  rw [sub_right_comm, BitVec.toNat_sub_of_le (BitVec.le_def.mpr h)]

-- The bytes from an address on lie one above the other in a stack that holds them all.
theorem height_inRange {n : ℕ} (h : height sym bootBase k t a + n ≤ stackLength sym bootSize t)
    (hx : InRange a n x) :
    height sym bootBase k t x = height sym bootBase k t a + (x - a).toNat ∧ (x - a).toNat < n := by
  have hlt := stackLength_lt sym bootSize t
  have hin : (x - a).toNat < n := hx
  have hsum : x - stackBase sym bootBase k t = (a - stackBase sym bootBase k t) + (x - a) := by ring
  refine ⟨?_, hin⟩
  unfold height at *
  rw [hsum, BitVec.toNat_add_of_lt (by omega)]

-- What is pushed lies below the stack pointer.
theorem height_pushed {n : ℕ} {sp : BitVec 64} (hn : n < 2 ^ 64)
    (hroom : n ≤ height sym bootBase k t sp)
    (hinside : height sym bootBase k t sp ≤ stackLength sym bootSize t)
    (hx : InRange (sp - BitVec.ofNat 64 n) n x) :
    height sym bootBase k t x < height sym bootBase k t sp := by
  have hcount : (BitVec.ofNat 64 n).toNat = n := by
    rw [BitVec.toNat_ofNat, Nat.mod_eq_of_lt hn]
  have hbottom : height sym bootBase k t (sp - BitVec.ofNat 64 n) =
      height sym bootBase k t sp - (BitVec.ofNat 64 n).toNat := height_sub (hcount.le.trans hroom)
  rw [hcount] at hbottom
  have hfits : height sym bootBase k t (sp - BitVec.ofNat 64 n) + n ≤ stackLength sym bootSize t := by
    omega
  obtain ⟨hheight, hin⟩ := height_inRange hfits hx
  omega

theorem height_congr (h : (k'.threads t).stackBottom = (k.threads t).stackBottom) (x : BitVec 64) :
    height sym bootBase k' t x = height sym bootBase k t x := by
  unfold height stackBase
  rw [h]

theorem alignedTop_height (h : 15 ≤ height sym bootBase k t a) :
    height sym bootBase k t (alignedTop a) ≤ height sym bootBase k t a ∧
      height sym bootBase k t a ≤ height sym bootBase k t (alignedTop a) + 15 := by
  have hle := Word.toNat_and_le a 15
  have hd : (15 : BitVec 64).toNat = 15 := rfl
  have hmask := Word.toNat_and_not_add a 15
  have halign : alignedTop a = a - (a &&& 15) := by
    apply BitVec.eq_of_toNat_eq
    rw [alignedTop, BitVec.toNat_sub_of_le (BitVec.le_def.mpr (by omega))]
    omega
  rw [halign, height_sub (by omega)]
  omega

end Heights

section Opened

-- The frame of an open interrupt, and the stack above the stack pointer that it found, are
-- as they were left.
structure Opened (sym : Symbols) (bootBase bootSize : BitVec 64) (k : State) (t : BitVec 64)
    (f : Frame) : Prop where
  inside : height sym bootBase k t f.addr + frameSize ≤ stackLength sym bootSize t
  above : height sym bootBase k t f.addr ≤ height sym bootBase k t f.cpu.rsp
  holds : Holds k.mem f.addr (frameWords f.vector 0 f.cpu)
  kept : ∀ x ∈ stackOf (bootStack bootBase bootSize) sym k t,
    height sym bootBase k t f.cpu.rsp ≤ height sym bootBase k t x → k.mem x = f.mem x

theorem Opened.congr (h : Opened sym bootBase bootSize k t f)
    (hbottom : (k'.threads t).stackBottom = (k.threads t).stackBottom)
    (hmem : ∀ x ∈ stackOf (bootStack bootBase bootSize) sym k t,
      height sym bootBase k t f.addr ≤ height sym bootBase k t x → k'.mem x = k.mem x) :
    Opened sym bootBase bootSize k' t f where
  inside := by
    rw [height_congr hbottom]
    exact h.inside
  above := by
    rw [height_congr hbottom, height_congr hbottom]
    exact h.above
  holds := by
    refine holds_congr h.holds (by simp [frameWords]) fun x hx => ?_
    have hframe : InRange f.addr frameSize x := hx
    obtain ⟨hheight, hin⟩ := height_inRange h.inside hframe
    have hinside := h.inside
    exact hmem x (mem_stack_iff.mpr (by omega)) (by omega)
  kept x hx hx' := by
    rw [stackOf_congr hbottom] at hx
    rw [height_congr hbottom, height_congr hbottom] at hx'
    rw [hmem x hx (h.above.trans hx')]
    exact h.kept x hx hx'

-- All open interrupts of all live threads, in the order in which they came.
structure Kept (sym : Symbols) (bootBase bootSize : BitVec 64) (m : Machine) : Prop where
  threads : Thread.Kept (bootStack bootBase bootSize) sym m.threads
  opened : ∀ t ∈ sym.mainKernelThread :: m.threads.system.created, Live m.kernel t →
    ∀ f ∈ m.frames t, Opened sym bootBase bootSize m.kernel t f
  nested : ∀ t ∈ sym.mainKernelThread :: m.threads.system.created, Live m.kernel t →
    (m.frames t).Pairwise fun f g =>
      height sym bootBase m.kernel t f.addr ≤ height sym bootBase m.kernel t g.addr

theorem kept_start (k : State) (scratch : Scratch) :
    Kept sym bootBase bootSize (start sym k scratch) where
  threads := Thread.kept_start _ sym k
  opened _ _ _ f hf := by cases hf
  nested _ _ _ := List.Pairwise.nil

-- What is above the innermost frame is above them all.
theorem innermost_le {fs : List Frame} {n : ℕ}
    (hnested : fs.Pairwise fun f g =>
      height sym bootBase k t f.addr ≤ height sym bootBase k t g.addr)
    (hfirst : ∀ f ∈ fs.head?, n ≤ height sym bootBase k t f.addr) (hf : f ∈ fs) :
    n ≤ height sym bootBase k t f.addr := by
  cases fs with
  | nil => cases hf
  | cons g gs =>
      have hg := hfirst g rfl
      rcases List.mem_cons.mp hf with rfl | hf
      · exact hg
      · exact hg.trans (List.rel_of_pairwise_cons hnested hf)

end Opened

section Entry

variable {vector : BitVec 64}

-- The frame of an interrupt and the stack above it.
theorem enter_frame (callAt : BitVec 64 → BitVec 64) (vector : BitVec 64)
    (hs : OnStack sym bootBase bootSize m 192 0) :
    height sym bootBase m.kernel m.kernel.runningThread (enter callAt vector m).1.rsp + frameSize ≤
        height sym bootBase m.kernel m.kernel.runningThread m.kernel.registers.rsp ∧
      Holds (enter callAt vector m).2.2 (enter callAt vector m).1.rsp (frameWords vector 0 m.cpu) ∧
      ∀ x, height sym bootBase m.kernel m.kernel.runningThread m.kernel.registers.rsp ≤
          height sym bootBase m.kernel m.kernel.runningThread x ∨
        x ∉ stackOf (bootStack bootBase bootSize) sym m.kernel m.kernel.runningThread →
          (enter callAt vector m).2.2 x = m.kernel.mem x := by
  obtain ⟨hsp, hpushed⟩ := interruptEntry_pushes vector 0 m.kernel.registers.rsp m.cpu m.kernel.mem
  have hroom := hs.room
  have hinside := hs.inside
  obtain ⟨hle, hnear⟩ := alignedTop_height (show 15 ≤ height sym bootBase m.kernel
    m.kernel.runningThread m.kernel.registers.rsp by omega)
  have hd : (176 : BitVec 64).toNat = 176 := rfl
  have hbottom : height sym bootBase m.kernel m.kernel.runningThread
      (alignedTop m.kernel.registers.rsp - 176) = height sym bootBase m.kernel
        m.kernel.runningThread (alignedTop m.kernel.registers.rsp) - (176 : BitVec 64).toNat :=
    height_sub (by omega)
  have haddr : (enter callAt vector m).1.rsp = alignedTop m.kernel.registers.rsp - 176 := hsp
  have hsize : frameSize = 176 := rfl
  rw [haddr]
  refine ⟨by omega, hpushed.holds, fun x hx => hpushed.keeps x fun hin => ?_⟩
  have hfits : height sym bootBase m.kernel m.kernel.runningThread
      (alignedTop m.kernel.registers.rsp - 176) + frameSize ≤
        stackLength sym bootSize m.kernel.runningThread := by omega
  obtain ⟨hheight, hlt⟩ := height_inRange hfits hin
  rcases hx with habove | houtside
  · omega
  · exact houtside (mem_stack_iff.mpr (by omega))

theorem opened_new (callAt : BitVec 64 → BitVec 64) (vector : BitVec 64)
    (hs : OnStack sym bootBase bootSize m 192 0) (hthreads : k'.threads = m.kernel.threads)
    (hmem : k'.mem = (enter callAt vector m).2.2) :
    Opened sym bootBase bootSize k' m.kernel.runningThread
      ⟨(enter callAt vector m).1.rsp, vector, m.cpu, m.kernel.mem⟩ := by
  obtain ⟨haddr, hholds, hkept⟩ := enter_frame callAt vector hs
  have hinside := hs.inside
  have hheight : ∀ x, height sym bootBase k' m.kernel.runningThread x =
      height sym bootBase m.kernel m.kernel.runningThread x := height_congr (by rw [hthreads])
  have hcpu : m.cpu.rsp = m.kernel.registers.rsp := rfl
  constructor
  case inside =>
    rw [hheight]
    dsimp only
    omega
  case above =>
    rw [hheight, hheight]
    dsimp only
    rw [hcpu]
    omega
  case holds =>
    rw [hmem]
    exact hholds
  case kept =>
    intro x hx habove
    rw [hheight, hheight] at habove
    rw [hmem]
    exact hkept x (Or.inl habove)

end Entry

section Steps

-- A thread pushes on its own stack.
theorem onStack_room (hs : OnStack sym bootBase bootSize m 48 8) :
    ∀ x, InRange (m.kernel.registers.rsp - 48) 56 x →
      x ∈ stackOf (bootStack bootBase bootSize) sym m.kernel m.kernel.runningThread := by
  intro x hx
  have hroom := hs.room
  have hinside := hs.inside
  have hd : (48 : BitVec 64).toNat = 48 := rfl
  have hbottom : height sym bootBase m.kernel m.kernel.runningThread
      (m.kernel.registers.rsp - 48) = height sym bootBase m.kernel m.kernel.runningThread
        m.kernel.registers.rsp - (48 : BitVec 64).toNat := height_sub (by omega)
  have hfits : height sym bootBase m.kernel m.kernel.runningThread (m.kernel.registers.rsp - 48) +
      56 ≤ stackLength sym bootSize m.kernel.runningThread := by omega
  obtain ⟨hheight, hlt⟩ := height_inRange hfits hx
  exact mem_stack_iff.mpr (by omega)

theorem confined_of_permitted (hk : Kept sym bootBase bootSize m)
    (hp : Permitted sym bootBase bootSize m op) :
    Confined (bootStack bootBase bootSize) sym m.threads (threadOp callAt m op) := by
  cases op with
  | own registers scratch mem => exact hp.1
  | interrupt vector =>
      obtain ⟨r, hf⟩ := hk.threads.threads
      obtain ⟨hrun, hrunlive⟩ := running_live hf
      refine ⟨trivial, fun t ht hl hne x hx => ?_⟩
      refine (enter_frame callAt vector hp.2).2.2 x (Or.inr fun hin => ?_)
      exact hk.threads.apart t ht hl _ hrun hrunlive hne x hx hin
  | iret => exact ⟨trivial, fun _ _ _ _ _ _ => rfl⟩
  | kthreadCreate thread stackRaw entryPoint scratch => exact hp
  | schedule scratch => exact ⟨trivial, onStack_room hp⟩
  | kthreadExit scratch => exact ⟨hp.1, onStack_room hp.2⟩

-- No operation touches what lies above an open frame.
theorem spared_above (hk : Kept sym bootBase bootSize m)
    (hp : Permitted sym bootBase bootSize m op) (hf : f ∈ m.pending)
    (hx : x ∈ stackOf (bootStack bootBase bootSize) sym m.kernel m.kernel.runningThread)
    (habove : height sym bootBase m.kernel m.kernel.runningThread f.addr ≤
      height sym bootBase m.kernel m.kernel.runningThread x) :
    Spared m.kernel x (threadOp callAt m op) := by
  obtain ⟨r, hfollows⟩ := hk.threads.threads
  obtain ⟨hrun, hlive⟩ := running_live hfollows
  have hnested := hk.nested _ hrun hlive
  have hpushed {room above n : ℕ} (hs : OnStack sym bootBase bootSize m room above)
      (hn : n < 2 ^ 64) (hroom : n ≤ room) :
      ¬InRange (m.kernel.registers.rsp - BitVec.ofNat 64 n) n x := by
    intro hin
    have hinside := hs.inside
    have hbelow : height sym bootBase m.kernel m.kernel.runningThread m.kernel.registers.rsp ≤
      height sym bootBase m.kernel m.kernel.runningThread f.addr :=
        innermost_le hnested hs.below hf
    have hroom' := hroom.trans hs.room
    have hfits : height sym bootBase m.kernel m.kernel.runningThread m.kernel.registers.rsp ≤
      stackLength sym bootSize m.kernel.runningThread := by omega
    have hlow := height_pushed hn hroom' hfits hin
    omega
  cases op with
  | own registers scratch mem =>
      cases hfs : m.pending with
      | nil =>
          rw [hfs] at hf
          cases hf
      | cons g gs =>
          refine hp.2 g (by rw [hfs]; rfl) x hx (le_trans ?_ habove)
          refine innermost_le hnested (fun f hfirst => ?_) hf
          have hhead : m.pending.head? = some f := hfirst
          rw [hfs] at hhead
          obtain rfl := Option.some.inj hhead
          exact le_rfl
  | interrupt vector =>
      refine (enter_frame callAt vector hp.2).2.2 x (Or.inl ?_)
      exact (innermost_le hnested hp.2.below hf).trans habove
  | iret => rfl
  | kthreadCreate thread stackRaw entryPoint scratch => trivial
  | schedule scratch => exact hpushed hp (by decide) le_rfl
  | kthreadExit scratch => exact hpushed hp.2 (by decide) le_rfl

variable {threads : Traced}

-- The open interrupts from before a step.
theorem opened_step (hk : Kept sym bootBase bootSize m)
    (hp : Permitted sym bootBase bootSize m op)
    (he : traceStep sym m.threads (threadOp callAt m op) = some threads)
    (ht : t ∈ sym.mainKernelThread :: m.threads.system.created)
    (hl : Live threads.system.kernel t) :
    (∀ f ∈ m.frames t, Opened sym bootBase bootSize threads.system.kernel t f) ∧
      (m.frames t).Pairwise fun f g => height sym bootBase threads.system.kernel t f.addr ≤
        height sym bootBase threads.system.kernel t g.addr := by
  obtain ⟨hlive, hbottom, hmem⟩ :=
    stack_kept hk.threads (confined_of_permitted hk hp) he ht hl
  constructor
  · intro f hf
    refine (hk.opened t ht hlive f hf).congr hbottom fun x hx habove => ?_
    refine hmem x hx fun hrunning => ?_
    subst hrunning
    exact spared_above hk hp hf hx habove
  · simp only [height_congr hbottom]
    exact hk.nested t ht hlive

theorem compute_kernel {registers : Registers} {mem : Memory 64}
    (he : traceStep sym m.threads (.compute registers mem) = some threads) :
    threads.system = { m.threads.system with kernel := { m.kernel with registers, mem } } := by
  cases he
  rfl

-- After a step: the record has changed for one thread at most.
theorem kept_frames (hk : Kept sym bootBase bootSize m)
    (hp : Permitted sym bootBase bootSize m op)
    (he : traceStep sym m.threads (threadOp callAt m op) = some threads)
    (hthreads : Thread.Kept (bootStack bootBase bootSize) sym threads)
    (hnew : ∀ t, framesAfter callAt m op t = m.frames t ∧
        (∀ stackRaw entryPoint, threadOp callAt m op ≠ .kthreadCreate t stackRaw entryPoint) ∨
      (Live threads.system.kernel t → t ∈ sym.mainKernelThread :: threads.system.created →
        (∀ f ∈ framesAfter callAt m op t,
            Opened sym bootBase bootSize threads.system.kernel t f) ∧
          (framesAfter callAt m op t).Pairwise fun f g =>
            height sym bootBase threads.system.kernel t f.addr ≤
              height sym bootBase threads.system.kernel t g.addr)) :
    Kept sym bootBase bootSize ⟨threads, scratchAfter callAt m op, framesAfter callAt m op⟩ := by
  have hall : ∀ t ∈ sym.mainKernelThread :: threads.system.created, Live threads.system.kernel t →
      (∀ f ∈ framesAfter callAt m op t, Opened sym bootBase bootSize threads.system.kernel t f) ∧
        (framesAfter callAt m op t).Pairwise fun f g =>
          height sym bootBase threads.system.kernel t f.addr ≤
            height sym bootBase threads.system.kernel t g.addr := by
    intro t ht hl
    rcases hnew t with ⟨hsame, hold⟩ | hnew
    · rw [hsame]
      rcases created_cases he ht with ht | ⟨stackRaw, entryPoint, hcreate⟩
      · exact opened_step hk hp he ht hl
      · exact absurd hcreate (hold stackRaw entryPoint)
    · exact hnew hl ht
  exact ⟨hthreads, fun t ht hl => (hall t ht hl).1, fun t ht hl => (hall t ht hl).2⟩

theorem kept_step (hk : Kept sym bootBase bootSize m)
    (hp : Permitted sym bootBase bootSize m op) :
    ∃ m', step callAt sym m op = some m' ∧ Kept sym bootBase bootSize m' := by
  obtain ⟨threads, he, hthreads, -⟩ :=
    Thread.kept_step hk.threads (threadOp callAt m op) (confined_of_permitted hk hp)
  refine ⟨_, by rw [step, he]; rfl, kept_frames hk hp he hthreads fun t => ?_⟩
  obtain ⟨r, hf⟩ := hk.threads.threads
  obtain ⟨hrun, hrunlive⟩ := running_live hf
  cases op with
  | own registers scratch mem => exact Or.inl ⟨rfl, fun _ _ h => by cases h⟩
  | schedule scratch => exact Or.inl ⟨rfl, fun _ _ h => by cases h⟩
  | kthreadExit scratch => exact Or.inl ⟨rfl, fun _ _ h => by cases h⟩
  | kthreadCreate thread stackRaw entryPoint scratch =>
      by_cases ht : t = thread
      · refine Or.inr fun _ _ => ?_
        rw [framesAfter, ht, Function.update_self]
        exact ⟨fun f hf => absurd hf List.not_mem_nil, List.Pairwise.nil⟩
      · refine Or.inl ⟨by rw [framesAfter, Function.update_of_ne ht], fun _ _ h => ?_⟩
        injection h with hthread
        exact ht hthread.symm
  | iret =>
      by_cases ht : t = m.kernel.runningThread
      · refine Or.inr fun hl _ => ?_
        subst ht
        obtain ⟨hopened, hnested⟩ := opened_step hk hp he hrun hl
        rw [framesAfter, Function.update_self]
        exact ⟨fun f hf => hopened f (List.mem_of_mem_tail hf), hnested.tail⟩
      · exact Or.inl ⟨by rw [framesAfter, Function.update_of_ne ht], fun _ _ h => by cases h⟩
  | interrupt vector =>
      by_cases ht : t = m.kernel.runningThread
      · refine Or.inr fun hl _ => ?_
        subst ht
        obtain ⟨hopened, hnested⟩ := opened_step hk hp he hrun hl
        have hkernel : threads.system.kernel = { m.kernel with
            registers := (enter callAt vector m).1, mem := (enter callAt vector m).2.2 } :=
          congrArg System.kernel (@compute_kernel sym m threads (enter callAt vector m).1
            (enter callAt vector m).2.2 he)
        have hthreads : threads.system.kernel.threads = m.kernel.threads := by rw [hkernel]
        have hnewframe := opened_new callAt vector hp.2 hthreads (by rw [hkernel])
        have hbottom (u : BitVec 64) : (threads.system.kernel.threads u).stackBottom =
          (m.kernel.threads u).stackBottom := by rw [hthreads]
        rw [framesAfter, Function.update_self]
        refine ⟨List.forall_mem_cons.mpr ⟨hnewframe, hopened⟩,
          List.pairwise_cons.mpr ⟨fun f hf => ?_, hnested⟩⟩
        rw [height_congr (hbottom _), height_congr (hbottom _)]
        have haddr := (enter_frame callAt vector hp.2).1
        refine le_trans (by dsimp only; omega) (innermost_le (hk.nested _ hrun hrunlive) hp.2.below hf)
      · exact Or.inl ⟨by rw [framesAfter, Function.update_of_ne ht], fun _ _ h => by cases h⟩

end Steps

-- A handler finds its vector. When it returns, the interrupted code goes on with the
-- registers and the stack that it had, whatever handlers and threads have run since.
theorem interrupt_transparent (callAt : BitVec 64 → BitVec 64) (sym : Symbols)
    (bootBase bootSize : BitVec 64) (k : State) (scratch : Scratch) (ops : List Op)
    (hp : PermittedRun (step callAt sym) (Permitted sym bootBase bootSize) (start sym k scratch) ops) :
    ∃ m, run (step callAt sym) (start sym k scratch) ops = some m ∧
      ∀ f ∈ m.pending.head?, m.kernel.mem.load64 (f.addr + 120) = f.vector ∧
        (m.kernel.registers.rsp = f.addr →
          ∃ m', step callAt sym m .iret = some m' ∧ m'.cpu = f.cpu ∧ m'.pending = m.pending.tail ∧
            ∀ x ∈ stackOf (bootStack bootBase bootSize) sym m'.kernel m'.kernel.runningThread,
              height sym bootBase m'.kernel m'.kernel.runningThread f.cpu.rsp ≤
                height sym bootBase m'.kernel m'.kernel.runningThread x →
              m'.kernel.mem x = f.mem x) := by
  obtain ⟨m, hrun, hk⟩ := run_of_progress (Kept sym bootBase bootSize)
    (fun m op hk hc => kept_step hk hc) (start sym k scratch) ops (kept_start k scratch) hp
  refine ⟨m, hrun, fun f hf => ?_⟩
  obtain ⟨r, hfollows⟩ := hk.threads.threads
  obtain ⟨hrunning, hlive⟩ := running_live hfollows
  have hopened := hk.opened _ hrunning hlive f (List.mem_of_mem_head? hf)
  refine ⟨?_, fun hrsp => ?_⟩
  · obtain ⟨-, -, -, -, -, -, -, -, -, -, -, -, -, -, -, hvector, -⟩ := hopened.holds
    have hoffset : f.addr + 120 = f.addr + 8 + 8 + 8 + 8 + 8 + 8 + 8 + 8 + 8 + 8 + 8 + 8 + 8 + 8 + 8 := by
      simp only [BitVec.add_assoc]
      rfl
    rw [hoffset]
    exact hvector
  · have hleave : leave m = f.cpu := by
      rw [leave, hrsp]
      exact interruptExit_frame hopened.holds
    refine ⟨_, rfl, ?_, ?_, hopened.kept⟩
    · show cpuOf (registersOf (leave m)) (scratchOf (leave m)) = f.cpu
      rw [hleave]
      rfl
    · exact Function.update_self _ _ _

-- The boot thread on a stack of 4096 bytes, in kernel code.
def bootScratch : Scratch := ⟨1, 2, 3, 4, 5, 6, 7, 8, 9, 0x08, 0x202, 0x10⟩

-- The timer inside the handler of the keyboard.
theorem interrupt_transparent_nested :
    ∃ m m', run (step (fun v => v) someSymbols) (start someSymbols bootedState bootScratch)
        [.interrupt 33, .interrupt 32] = some m ∧
      step (fun v => v) someSymbols m .iret = some m' ∧ m'.cpu.rip = 33 ∧ m'.cpu.rsp = 0x80750 ∧
        m'.cpu.rflags = 2 := by
  have hbooted : Permitted someSymbols 0x80000 4096 (start someSymbols bootedState bootScratch)
      (.interrupt 33) := ⟨rfl, by decide +kernel, by decide +kernel, fun f hf => by cases hf⟩
  have hhandler : ∀ m, step (fun v => v) someSymbols (start someSymbols bootedState bootScratch)
      (.interrupt 33) = some m → Permitted someSymbols 0x80000 4096 m (.interrupt 32) := by
    rintro m h
    cases h
    refine ⟨rfl, by decide +kernel, by decide +kernel, fun f hf => ?_⟩
    cases hf
    exact le_rfl
  obtain ⟨m, hrun, hreturn⟩ := interrupt_transparent (fun v => v) someSymbols 0x80000 4096
    bootedState bootScratch [.interrupt 33, .interrupt 32]
    ⟨hbooted, fun m1 h1 => ⟨hhandler m1 h1, fun _ _ => trivial⟩⟩
  have hat : (run (step (fun v => v) someSymbols) (start someSymbols bootedState bootScratch)
      [.interrupt 33, .interrupt 32]).map (fun m =>
        (m.kernel.registers.rsp, m.pending.head?.map fun f => (f.addr, f.cpu.rip, f.cpu.rsp,
          f.cpu.rflags))) = some (0x806A0, some (0x806A0, 33, 0x80750, 2)) := by decide +kernel
  rw [hrun, Option.map_some, Option.some.injEq, Prod.mk.injEq] at hat
  obtain ⟨hrsp, hframe⟩ := hat
  obtain ⟨f, hf, hfields⟩ := Option.map_eq_some_iff.mp hframe
  obtain ⟨haddr, hrip, hsp, hflags⟩ :
      f.addr = _ ∧ f.cpu.rip = _ ∧ f.cpu.rsp = _ ∧ f.cpu.rflags = _ := by
    simpa only [Prod.mk.injEq] using hfields
  obtain ⟨m', hstep, hcpu, -, -⟩ := (hreturn f hf).2 (hrsp.trans haddr.symm)
  exact ⟨m, m', hrun, hstep, by rw [hcpu, hrip], by rw [hcpu, hsp], by rw [hcpu, hflags]⟩

end Miyabi.Arch.Preempt
