import Miyabi.Arch.Protection.Tables

namespace Miyabi.Arch.Protection

open Miyabi.Base Miyabi.Base.Memory Miyabi.Base.Record Miyabi.Base.Stack
open Miyabi.Arch.Trap Miyabi.Arch.Descriptors

variable {sym : Symbols} {m m' : Memory 64} {c : Cpu}

section Segments

theorem segmentAt_gdt (h : Segments sym m) {selector : BitVec 16} {i : ℕ}
    (hsel : selector.toNat / 8 = i) (hi : 0 < i) (hlt : i < 5) (hti : selector.getLsbD 2 = false) :
    segmentAt (registers sym).gdtr m selector = some ⟨gdtByte i 5, gdtByte i 6⟩ := by
  have hbyte (j : ℕ) (hj : j < 8) :
      m (sym.gdt + BitVec.ofNat 64 (i * 8) + BitVec.ofNat 64 j) = gdtByte i j := by
    rw [add_assoc, ← BitVec.ofNat_add, Nat.mul_comm]
    exact h i hlt j hj
  unfold segmentAt registers
  dsimp only
  rw [hsel, hti, if_neg (by simp only [Bool.false_eq_true, false_or]; omega)]
  exact congrArg some (congrArg₂ Segment.mk (hbyte 5 (by decide)) (hbyte 6 (by decide)))

theorem kernelCode (h : Segments sym m) :
    segmentAt (registers sym).gdtr m 0x08 = some ⟨0x9A, 0x20⟩ :=
  segmentAt_gdt h (i := 1) rfl (by decide) (by decide) rfl

theorem userData (h : Segments sym m) :
    segmentAt (registers sym).gdtr m 0x1B = some ⟨0xF2, 0x00⟩ :=
  segmentAt_gdt h (i := 3) rfl (by decide) (by decide) rfl

theorem userCode (h : Segments sym m) :
    segmentAt (registers sym).gdtr m 0x23 = some ⟨0xFA, 0x20⟩ :=
  segmentAt_gdt h (i := 4) rfl (by decide) (by decide) rfl

theorem Segments.congr (h : Segments sym m) (hgdt : Agree m m' sym.gdt 56) : Segments sym m' := by
  intro i hi j hj
  rw [hgdt _ (inRange_add sym.gdt 56 (8 * i + j) (by omega))]
  exact h i hi j hj

theorem TaskState.congr (h : TaskState sym m) (htss : Agree m m' sym.kernelTss tssSize) :
    TaskState sym m' where
  stack := by
    rw [← h.stack]
    exact load_congr (htss.inner (d := 4) (k := 8) (by decide))
  zeros i hi hout := by
    rw [htss _ (inRange_add sym.kernelTss tssSize i hi)]
    exact h.zeros i hi hout

-- The tables are all that Ready is about.
theorem Ready.congr (h : Ready sym m) (hgdt : Agree m m' sym.gdt 56)
    (htss : Agree m m' sym.kernelTss tssSize) (hidt : Agree m m' sym.idt 4096) : Ready sym m' where
  gates v hv := by
    rw [← h.gates v hv]
    refine gateAt_congr fun x hx => hidt x (inRange_inner sym.idt _ x ?_ hx)
    rw [BitVec.toNat_ofNat, idtEntrySize, Nat.mod_eq_of_lt (by omega)]
    omega
  segments := h.segments.congr hgdt
  task := h.task.congr htss

end Segments

section Gates

variable {vector : BitVec 8} {software : Bool} {handler : BitVec 64} {flags : BitVec 8}

-- Every vector has no gate, one for the kernel alone, or that of system calls.
theorem gateFor_cases (sym : Symbols) (v : ℕ) :
    gateFor sym v = ⟨0, 0, 0, 0⟩ ∨
      (∃ handler, handlers sym v = some (handler, idtInterruptGate) ∧
        gateFor sym v = ⟨handler, 0x08, 0, idtInterruptGate⟩) ∨
      v = 128 ∧ gateFor sym v = ⟨sym.isr128, 0x08, 0, idtUserInterruptGate⟩ := by
  unfold gateFor
  cases hv : handlers sym v with
  | none => exact Or.inl rfl
  | some entry =>
      unfold handlers at hv
      split at hv
      case h_7 =>
        cases hv
        exact Or.inr (Or.inr ⟨rfl, rfl⟩)
      all_goals cases hv
      all_goals exact Or.inr (Or.inl ⟨_, rfl, rfl⟩)

theorem handlers_flags {v : ℕ} (h : handlers sym v = some (handler, flags)) :
    flags = idtInterruptGate ∨ flags = idtUserInterruptGate := by
  have hfor : gateFor sym v = ⟨handler, 0x08, 0, flags⟩ := by rw [gateFor, h]
  rcases gateFor_cases sym v with hnone | ⟨_, -, hkernel⟩ | ⟨-, huser⟩
  · rw [hfor] at hnone
    cases hnone
  · rw [hfor] at hkernel
    cases hkernel
    exact Or.inl rfl
  · rw [hfor] at huser
    cases huser
    exact Or.inr rfl

theorem gate_usable (hflags : flags = idtInterruptGate ∨ flags = idtUserInterruptGate) :
    (Gate.isInterrupt ⟨handler, 0x08, 0, flags⟩ && Gate.present ⟨handler, 0x08, 0, flags⟩) = true := by
  rcases hflags with rfl | rfl
  · show (decide (idtInterruptGate.setWidth 5 = 0xE) && idtInterruptGate.getLsbD 7) = true
    decide
  · show (decide (idtUserInterruptGate.setWidth 5 = 0xE) && idtUserInterruptGate.getLsbD 7) = true
    decide

theorem kernelGate_dpl : Gate.dpl ⟨handler, 0x08, 0, idtInterruptGate⟩ = 0 := by
  show idtInterruptGate.extractLsb' 5 2 = 0
  decide

theorem userGate_dpl : Gate.dpl ⟨handler, 0x08, 0, idtUserInterruptGate⟩ = 3 := by
  show idtUserInterruptGate.extractLsb' 5 2 = 3
  decide

-- An int instruction of ring 3 goes through no gate but that of system calls.
theorem deliver_refused (h : Ready sym m) (hring : cpl c = 3) (hv : vector ≠ 0x80) :
    deliver (registers sym) true vector c m = none := by
  have hgate := h.gates vector.toNat vector.isLt
  have hne : vector.toNat ≠ 128 := fun heq => hv (BitVec.eq_of_toNat_eq heq)
  unfold deliver
  dsimp only
  rw [hgate, hring]
  rcases gateFor_cases sym vector.toNat with hnone | ⟨handler, -, hkernel⟩ | ⟨heq, -⟩
  · rw [hnone]
    split
    · rfl
    · rw [if_pos (Or.inl (by decide))]
  · rw [hkernel, kernelGate_dpl]
    split
    · rfl
    · rw [if_pos (Or.inr ⟨rfl, by decide⟩)]
  · exact absurd heq hne

-- The state in which a handler is entered, on the stack from `top` down.
def entered (handler top : BitVec 64) (ss : BitVec 16) (c : Cpu) (m : Memory 64) : Cpu × Memory 64 :=
  let (m, rsp) := pushes m (alignedTop top) (gatePushes c)
  ({ c with rip := handler, cs := 0x08, ss, rsp, rflags := c.rflags &&& ~~~gateFlags }, m)

theorem deliver_gate (h : Ready sym m) (hset : handlers sym vector.toNat = some (handler, flags))
    (hopen : software = true → flags = idtUserInterruptGate ∨ cpl c = 0) :
    deliver (registers sym) software vector c m =
      some (entered handler (if 0 < cpl c then sym.initialKernelStack + kernelStackSize else c.rsp)
        (if 0 < cpl c then 0 else c.ss) c m) := by
  have hgate := h.gates vector.toNat vector.isLt
  have hlt := vector.isLt
  have hfor : gateFor sym vector.toNat = ⟨handler, 0x08, 0, flags⟩ := by rw [gateFor, hset]
  have hflags := handlers_flags hset
  have hstack : tssStack (registers sym).tr m 0 = sym.initialKernelStack + kernelStackSize := by
    rw [← h.task.stack]
    exact congrArg m.load64 (by simp [registers])
  have hlimit : ¬(registers sym).idtr.limit < idtEntrySize * vector.toNat + 15 := by
    show ¬4095 < 16 * vector.toNat + 15
    omega
  have hpass : ¬((!((⟨handler, 0x08, 0, flags⟩ : Gate).isInterrupt &&
      (⟨handler, 0x08, 0, flags⟩ : Gate).present)) = true ∨ software = true ∧
        (⟨handler, 0x08, 0, flags⟩ : Gate).dpl < cpl c) := by
    rintro (hbad | ⟨hsoft, hlow⟩)
    · rw [gate_usable hflags] at hbad
      cases hbad
    · have hring := (cpl c).isLt
      rcases hopen hsoft with rfl | hzero
      · rw [userGate_dpl] at hlow
        bv_omega
      · rw [hzero] at hlow
        bv_omega
  unfold deliver
  dsimp only
  rw [if_neg hlimit, hgate, hfor, if_neg hpass, kernelCode h.segments]
  dsimp only
  have hring : Segment.dpl ⟨0x9A, 0x20⟩ = 0 := by decide
  have henter : ¬((!(Segment.isCode ⟨0x9A, 0x20⟩ && Segment.present ⟨0x9A, 0x20⟩)) = true ∨
      cpl c < Segment.dpl ⟨0x9A, 0x20⟩) := by
    rw [hring]
    rintro (hbad | hlow)
    · exact absurd hbad (by decide)
    · exact BitVec.not_lt_zero hlow
  rw [if_neg henter, if_neg (by decide), hring, hstack]
  rfl

theorem enterStub_entered (vector : BitVec 64) (handler top : BitVec 64) (ss : BitVec 16) (c : Cpu)
    (m : Memory 64) :
    enterStub vector (entered handler top ss c m).1 (entered handler top ss c m).2 =
      interruptEntry vector 0 top c m := by
  rw [interruptEntry, List.append_assoc, pushes_append]
  rfl

end Gates

section Returns

theorem mayReturn_user (h : Segments sym m) : mayReturn (registers sym) m 0 0x23 0x1B = true := by
  rw [mayReturn, userCode h, userData h]
  decide

-- A stub goes back to the code of ring 3 that it has interrupted.
theorem leaveStub_user {sp vector errorCode : BitVec 64} (h : Ready sym m)
    (hframe : Holds m sp (frameWords vector errorCode c)) (hcs : c.cs = 0x23) (hss : c.ss = 0x1B) :
    leaveStub (registers sym) m sp = some c := by
  unfold leaveStub
  rw [interruptExit_frame hframe]
  dsimp only
  rw [hcs, hss, if_pos (mayReturn_user h.segments)]

-- The process starts at its entry point, in ring 3 and with interrupts.
def started (userStack userFunc : BitVec 64) (c : Cpu) : Cpu :=
  let rflags := (c.rflags &&& ~~~0x200) ||| 0x200
  { c with
    rax := rflags, rdi := userStack, rsi := userFunc
    rip := userFunc, cs := 0x23, rflags, rsp := userStack, ss := 0x1B }

theorem switchToUserSpace_enters (userStack userFunc : BitVec 64) (h : Segments sym m)
    (hring : cpl c = 0) (hstack : Apart (c.rsp - 40) 40 sym.gdt 56) :
    ∃ m', switchToUserSpace (registers sym) userStack userFunc c m =
        some (started userStack userFunc c, m') ∧ KeepsOutside m m' (c.rsp - 40) 40 := by
  obtain ⟨flags, hflags⟩ : ∃ flags, flags = c.rflags &&& ~~~0x200 := ⟨_, rfl⟩
  -- the first two pushes, pushfq, and those before iretq
  have hfirst := (pushed_none (show Holds m c.rsp [] from trivial)).pushes [0x1B, userStack] (by simp)
  have hsp1 : (pushes m c.rsp [0x1B, userStack]).2 = c.rsp - 16 := pushes_sp _ _ _
  rw [hsp1] at hfirst
  generalize hm1 : (pushes m c.rsp [0x1B, userStack]).1 = m1 at hfirst
  have hsecond := hfirst.push flags (by simp)
  have hflagsAt : (m1.store64 (c.rsp - 16 - 8) flags).load64 (c.rsp - 16 - 8) = flags :=
    load_store_same (n := 8) _ _ _ (by decide)
  have hwords : Holds (m1.store64 (c.rsp - 16 - 8) flags) (c.rsp - 16) [userStack, 0x1B] := by
    have hrest := hsecond.holds.2
    rwa [sub_add_cancel] at hrest
  generalize hm2 : m1.store64 (c.rsp - 16 - 8) flags = m2 at hsecond hflagsAt hwords
  have hthird := (pushed_none hwords).pushes [flags ||| 0x200, 0x23, userFunc] (by simp)
  have hsp3 : (pushes m2 (c.rsp - 16) [flags ||| 0x200, 0x23, userFunc]).2 = c.rsp - 40 := by
    rw [pushes_sp, sub_sub]
    rfl
  rw [hsp3] at hthird
  generalize hm3 : (pushes m2 (c.rsp - 16) [flags ||| 0x200, 0x23, userFunc]).1 = m3 at hthird
  have hkeeps : KeepsOutside m m3 (c.rsp - 40) 40 := by
    have h23 : KeepsOutside m2 m3 (c.rsp - 40) 40 :=
      hthird.keeps.mono fun x hx => inRange_mono _ x (by simp) hx
    refine KeepsOutside.trans (hsecond.keeps.mono fun x hx => ?_) h23
    have hsum : c.rsp - 16 - 8 = c.rsp - 40 + 16 := by ring
    rw [hsum] at hx
    exact inRange_inner (c.rsp - 40) 16 x (by simp) hx
  have hload : mayLoad (registers sym) m (cpl c) 0x1B = true := by
    rw [mayLoad, userData h, hring]
    decide
  have hreturn : mayReturn (registers sym) m3 0 0x23 0x1B = true :=
    mayReturn_user (h.congr (hkeeps.agree hstack.symm))
  obtain ⟨hrip, hcs, hfl, hrsp, hss, -⟩ := hthird.holds
  refine ⟨m3, ?_, hkeeps⟩
  unfold switchToUserSpace pop
  unfold cpl at *
  dsimp only
  rw [hload, ← hflags]
  have hrest : pushes m2 (c.rsp - 16) [flags ||| 0x200, 0x23, userFunc] = (m3, c.rsp - 40) :=
    Prod.ext hm3 hsp3
  have hpushes : pushes m c.rsp [0x1B, userStack] = (m1, c.rsp - 16) := Prod.ext hm1 hsp1
  have hpushf : pushes m1 (c.rsp - 16) [flags] = (m2, c.rsp - 16 - 8) := Prod.ext hm2 rfl
  rw [hpushes]
  dsimp only
  rw [hpushf]
  dsimp only
  rw [hflagsAt, hrest]
  dsimp only
  rw [hrip, hcs, hfl, hrsp, hss, hring]
  have hcode : (0x23 : BitVec 64).setWidth 16 = (0x23 : BitVec 16) := by decide
  have hdata : (0x1B : BitVec 64).setWidth 16 = (0x1B : BitVec 16) := by decide
  rw [hcode, hdata, if_neg (by decide), if_pos hreturn, hflags]
  rfl

end Returns

end Miyabi.Arch.Protection
