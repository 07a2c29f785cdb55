import Miyabi.Arch.Protection

namespace Miyabi.Arch.Protection

open Miyabi.Base Miyabi.Base.Memory Miyabi.Base.Record Miyabi.Base.Stack
open Miyabi.Arch.Trap Miyabi.Arch.Descriptors

section Parts

variable (a : BitVec 64)

theorem extract_shift (mask : BitVec 64) (k n : ℕ) (h : mask.setWidth n = BitVec.allOnes n) :
    ((a >>> k) &&& mask).setWidth n = a.extractLsb' k n := by
  rw [BitVec.setWidth_and, h, BitVec.and_allOnes]
  apply BitVec.eq_of_toNat_eq
  simp

theorem extract_append (n l : ℕ) :
    a.extractLsb' n l ++ a.extractLsb' 0 n = a.extractLsb' 0 (l + n) :=
  BitVec.extractLsb'_append_extractLsb'_eq_extractLsb' (Nat.zero_add n).symm

theorem extract_low : (a &&& 0xFFFF).setWidth 16 = a.extractLsb' 0 16 :=
  extract_shift a 0xFFFF 0 16 (by decide)

theorem extract_whole : a.extractLsb' 0 64 = a := by
  apply BitVec.eq_of_toNat_eq
  simp

-- The parts of a handler's address in a gate.
theorem gate_offset :
    (((a >>> 32) &&& 0xFFFFFFFF).setWidth 32 : BitVec 32) ++
      ((((a >>> 16) &&& 0xFFFF).setWidth 16 : BitVec 16) ++
        ((a &&& 0xFFFF).setWidth 16 : BitVec 16)) = a := by
  rw [extract_shift a _ 32 32 (by decide), extract_shift a _ 16 16 (by decide), extract_low,
    extract_append a 16 16, extract_append a 32 32]
  exact extract_whole a

-- Those of a base address in the descriptor of a TSS.
theorem tss_base :
    ((a >>> 32).setWidth 32 : BitVec 32) ++ ((((a >>> 24) &&& 0xFF).setWidth 8 : BitVec 8) ++
      ((((a >>> 16) &&& 0xFF).setWidth 8 : BitVec 8) ++
        ((a &&& 0xFFFF).setWidth 16 : BitVec 16))) = a := by
  have hhigh : (a >>> 32).setWidth 32 = a.extractLsb' 32 32 := by
    have h := extract_shift a (BitVec.allOnes 64) 32 32 (by decide)
    rwa [BitVec.and_allOnes] at h
  rw [hhigh, extract_shift a _ 24 8 (by decide), extract_shift a _ 16 8 (by decide), extract_low,
    extract_append a 16 8, extract_append a 24 8, extract_append a 32 32]
  exact extract_whole a

end Parts

section Gates

variable {idt handler : BitVec 64} {vector : ℕ} {flags : BitVec 8} {m m' : Memory 64}
variable {limit : ℕ}

theorem idtSetGate_keeps (idt : BitVec 64) (vector : ℕ) (handler : BitVec 64) (flags : BitVec 8)
    (m : Memory 64) :
    KeepsOutside m (idtSetGate idt vector handler flags m)
      (idt + BitVec.ofNat 64 (idtEntrySize * vector)) 16 := by
  refine assign_keeps (by decide) ?_
  simp [gateFields]

-- A gate leads to the handler that it has been set to.
theorem gateAt_set : gateAt ⟨idt, limit⟩ (idtSetGate idt vector handler flags m) vector =
    ⟨handler, 0x08, 0, flags⟩ := by
  have hfield (i : ℕ) (hi : i < 7) :
      member (idtSetGate idt vector handler flags m)
        (idt + BitVec.ofNat 64 (idtEntrySize * vector)) (gateFields handler flags)[i].offset
          (gateFields handler flags)[i].width = (gateFields handler flags)[i].value := by
    refine member_assign (n := 16) (by decide) (by simp [gateFields]) ?_ (List.getElem_mem hi)
    simp [gateFields, Field.Beside, Field.Before]
  have hoffset := gate_offset handler
  unfold gateAt
  dsimp only
  rw [show member _ _ 8 4 = _ from hfield 5 (by decide),
    show member _ _ 6 2 = _ from hfield 4 (by decide),
    show member _ _ 0 2 = _ from hfield 0 (by decide),
    show member _ _ 2 2 = _ from hfield 1 (by decide),
    show member _ _ 4 1 = _ from hfield 2 (by decide),
    show member _ _ 5 1 = _ from hfield 3 (by decide)]
  exact congrArg (fun a => (⟨a, 0x08, 0, flags⟩ : Gate)) hoffset

theorem gateAt_congr {v : ℕ} (h : Agree m m' (idt + BitVec.ofNat 64 (idtEntrySize * v)) 16) :
    gateAt ⟨idt, limit⟩ m' v = gateAt ⟨idt, limit⟩ m v := by
  have hfield (o k : ℕ) (hok : o + k ≤ 16) :
      member m' (idt + BitVec.ofNat 64 (idtEntrySize * v)) o k =
        member m (idt + BitVec.ofNat 64 (idtEntrySize * v)) o k := member_congr hok h
  unfold gateAt
  dsimp only
  rw [hfield 8 4 (by decide), hfield 6 2 (by decide), hfield 0 2 (by decide), hfield 2 2 (by decide),
    hfield 4 1 (by decide), hfield 5 1 (by decide)]

-- The other gates are as they were.
theorem gateAt_other {v : ℕ} (hne : v ≠ vector) (hv : v < 256) (hvector : vector < 256) :
    gateAt ⟨idt, limit⟩ (idtSetGate idt vector handler flags m) v = gateAt ⟨idt, limit⟩ m v := by
  refine gateAt_congr ((idtSetGate_keeps idt vector handler flags m).agree ?_)
  unfold idtEntrySize
  rcases Nat.lt_or_gt_of_ne hne with hlt | hlt
  · exact apart_offsets idt (by omega) (by omega)
  · exact (apart_offsets idt (by omega) (by omega)).symm

theorem gateAt_idtSetGate {v : ℕ} (hv : v < 256) (hvector : vector < 256) :
    gateAt ⟨idt, limit⟩ (idtSetGate idt vector handler flags m) v =
      if v = vector then ⟨handler, 0x08, 0, flags⟩ else gateAt ⟨idt, limit⟩ m v := by
  split
  · rename_i heq
    rw [heq]
    exact gateAt_set
  · rename_i hne
    exact gateAt_other hne hv hvector

end Gates

-- The stubs and the flags of the vectors that init_idt sets.
def handlers (sym : Symbols) : ℕ → Option (BitVec 64 × BitVec 8)
  | 0 => some (sym.isr0, idtInterruptGate)
  | 8 => some (sym.isr8, idtInterruptGate)
  | 13 => some (sym.isr13, idtInterruptGate)
  | 14 => some (sym.isr14, idtInterruptGate)
  | 32 => some (sym.irq0, idtInterruptGate)
  | 33 => some (sym.irq1, idtInterruptGate)
  | 128 => some (sym.isr128, idtUserInterruptGate)
  | _ => none

def gateFor (sym : Symbols) (vector : ℕ) : Gate :=
  match handlers sym vector with
  | some (handler, flags) => ⟨handler, 0x08, 0, flags⟩
  | none => ⟨0, 0, 0, 0⟩

-- The linker has put the tables apart.
structure Placed (sym : Symbols) : Prop where
  gdtTss : Apart sym.gdt 56 sym.kernelTss tssSize
  gdtIdt : Apart sym.gdt 56 sym.idt 4096
  tssIdt : Apart sym.kernelTss tssSize sym.idt 4096

-- .data and .bss before init_gdt.
structure Loaded (sym : Symbols) (m : Memory 64) : Prop where
  gdt : ∀ i < 7, ∀ j < 8, m (sym.gdt + BitVec.ofNat 64 (8 * i + j)) = gdtByte i j
  idt : ∀ x, InRange sym.idt 4096 x → m x = 0

def registers (sym : Symbols) : SystemRegisters :=
  ⟨⟨sym.gdt, 55⟩, ⟨sym.idt, 4095⟩, ⟨sym.kernelTss, 109⟩⟩

-- gdt[5] and gdt[6] are not read again.
def Segments (sym : Symbols) (m : Memory 64) : Prop :=
  ∀ i < 5, ∀ j < 8, m (sym.gdt + BitVec.ofNat 64 (8 * i + j)) = gdtByte i j

structure TaskState (sym : Symbols) (m : Memory 64) : Prop where
  stack : m.load64 (sym.kernelTss + 4) = sym.initialKernelStack + kernelStackSize
  zeros : ∀ i < 110, i < 4 ∨ 12 ≤ i → m (sym.kernelTss + BitVec.ofNat 64 i) = 0

-- The tables as init_gdt and init_idt leave them.
structure Ready (sym : Symbols) (m : Memory 64) : Prop where
  gates : ∀ v < 256, gateAt (registers sym).idtr m v = gateFor sym v
  segments : Segments sym m
  task : TaskState sym m

section Init

variable {sym : Symbols} {m m' : Memory 64}

theorem initIdt_keeps (sym : Symbols) (m : Memory 64) :
    KeepsOutside m (initIdt sym m) sym.idt 4096 := by
  have hgate (v : ℕ) (hv : v < 256) (handler : BitVec 64) (flags : BitVec 8) (m : Memory 64) :
      KeepsOutside m (idtSetGate sym.idt v handler flags m) sym.idt 4096 := by
    refine (idtSetGate_keeps sym.idt v handler flags m).mono fun x hx => ?_
    refine inRange_inner sym.idt _ x ?_ hx
    rw [BitVec.toNat_ofNat, idtEntrySize, Nat.mod_eq_of_lt (by omega)]
    omega
  unfold initIdt irqBase
  refine KeepsOutside.trans ?_ (hgate 0x80 (by decide) _ _ _)
  refine KeepsOutside.trans ?_ (hgate 33 (by decide) _ _ _)
  refine KeepsOutside.trans ?_ (hgate 32 (by decide) _ _ _)
  refine KeepsOutside.trans ?_ (hgate 14 (by decide) _ _ _)
  refine KeepsOutside.trans ?_ (hgate 13 (by decide) _ _ _)
  refine KeepsOutside.trans ?_ (hgate 8 (by decide) _ _ _)
  exact hgate 0 (by decide) _ _ _

theorem gateAt_zero (h : ∀ x, InRange sym.idt 4096 x → m x = 0) {v : ℕ} (hv : v < 256) :
    gateAt (registers sym).idtr m v = ⟨0, 0, 0, 0⟩ := by
  have hentry : Agree (fun _ => 0) m (sym.idt + BitVec.ofNat 64 (idtEntrySize * v)) 16 := by
    refine fun x hx => h x (inRange_inner sym.idt _ x ?_ hx)
    rw [BitVec.toNat_ofNat, idtEntrySize, Nat.mod_eq_of_lt (by omega)]
    omega
  rw [registers, gateAt_congr hentry]
  have hzero (o k : ℕ) : member (fun _ => (0 : BitVec 8))
      (sym.idt + BitVec.ofNat 64 (idtEntrySize * v)) o k = 0 := by
    unfold member load
    rw [littleEndian_zero]
    rfl
  unfold gateAt
  dsimp only
  rw [hzero, hzero, hzero, hzero, hzero, hzero]
  rfl

theorem initIdt_gates (h : ∀ x, InRange sym.idt 4096 x → m x = 0) {v : ℕ} (hv : v < 256) :
    gateAt (registers sym).idtr (initIdt sym m) v = gateFor sym v := by
  have hzero := gateAt_zero h hv
  unfold registers initIdt irqBase at *
  rw [gateAt_idtSetGate hv (by decide), gateAt_idtSetGate hv (by decide),
    gateAt_idtSetGate hv (by decide), gateAt_idtSetGate hv (by decide),
    gateAt_idtSetGate hv (by decide), gateAt_idtSetGate hv (by decide),
    gateAt_idtSetGate hv (by decide), hzero]
  iterate 7
    split
    · rename_i heq
      rw [heq]
      rfl
  have hnone : handlers sym v = none := by
    unfold handlers
    split <;> first | rfl | omega
  rw [gateFor, hnone]

-- What set_tss_descriptor has written, as ltr reads it.
theorem loadTss_descriptor (gdt base : BitVec 64) (limit : ℕ) (m : Memory 64) :
    (loadTss ⟨gdt, limit⟩ 0x28 (setTssDescriptor gdt 5 base (BitVec.ofNat 32 (tssSize - 1)) m)).1 =
      ⟨base, 109⟩ := by
  have hfield (i : ℕ) (hi : i < 8) :
      member (setTssDescriptor gdt 5 base (BitVec.ofNat 32 (tssSize - 1)) m)
        (gdt + BitVec.ofNat 64 (gdtEntrySize * 5))
        (tssFields base (BitVec.ofNat 32 (tssSize - 1)))[i].offset
        (tssFields base (BitVec.ofNat 32 (tssSize - 1)))[i].width =
          (tssFields base (BitVec.ofNat 32 (tssSize - 1)))[i].value := by
    refine member_assign (n := 16) (by decide) (by simp [tssFields]) ?_ (List.getElem_mem hi)
    simp [tssFields, Field.Beside, Field.Before]
  have hentry : gdt + ((0x28 : BitVec 16) &&& ~~~7).setWidth 64 =
    gdt + BitVec.ofNat 64 (gdtEntrySize * 5) := rfl
  have hbase := tss_base base
  unfold loadTss
  dsimp only
  rw [hentry, show member _ _ 8 4 = _ from hfield 6 (by decide),
    show member _ _ 7 1 = _ from hfield 5 (by decide),
    show member _ _ 4 1 = _ from hfield 2 (by decide),
    show member _ _ 2 2 = _ from hfield 1 (by decide),
    show member _ _ 6 1 = _ from hfield 4 (by decide),
    show member _ _ 0 2 = _ from hfield 0 (by decide)]
  have hlimit : ((((BitVec.ofNat 32 (tssSize - 1) >>> 16) &&& 0x0F).setWidth 8).setWidth 4 ++
      (BitVec.ofNat 32 (tssSize - 1) &&& 0xFFFF).setWidth 16 : BitVec 20).toNat = 109 := by decide
  rw [TableRegister.mk.injEq]
  exact ⟨hbase, hlimit⟩

-- It writes no other entry.
theorem loadTss_keeps (gdt base : BitVec 64) (limit : ℕ) (m : Memory 64) :
    KeepsOutside m (loadTss ⟨gdt, limit⟩ 0x28
      (setTssDescriptor gdt 5 base (BitVec.ofNat 32 (tssSize - 1)) m)).2 (gdt + 40) 16 := by
  have hset : KeepsOutside m (setTssDescriptor gdt 5 base (BitVec.ofNat 32 (tssSize - 1)) m)
      (gdt + 40) 16 := assign_keeps (by decide) (by simp [tssFields])
  refine hset.trans fun x hx => store_of_not_inRange (n := 1) _ _ x _ fun hin => hx ?_
  exact inRange_inner (gdt + 40) 5 x (by decide) hin

theorem ready_init (hp : Placed sym) (hl : Loaded sym m) :
    (initTables sym m).1 = registers sym ∧ Ready sym (initTables sym m).2 := by
  obtain ⟨m1, hm1⟩ : ∃ m1, m1 = (fill m sym.kernelTss 0 tssSize).store64 (sym.kernelTss + 4)
    (sym.initialKernelStack + kernelStackSize) := ⟨_, rfl⟩
  have hrun : initTables sym m = (⟨⟨sym.gdt, 55⟩, ⟨sym.idt, 4095⟩, (loadTss ⟨sym.gdt, 55⟩ 0x28
      (setTssDescriptor sym.gdt 5 sym.kernelTss (BitVec.ofNat 32 (tssSize - 1)) m1)).1⟩,
      initIdt sym (loadTss ⟨sym.gdt, 55⟩ 0x28 (setTssDescriptor sym.gdt 5 sym.kernelTss
        (BitVec.ofNat 32 (tssSize - 1)) m1)).2) := by
    rw [hm1]
    rfl
  have hkeeps := loadTss_keeps sym.gdt sym.kernelTss 55 m1
  rw [hrun, loadTss_descriptor]
  dsimp only
  generalize (loadTss ⟨sym.gdt, 55⟩ 0x28 (setTssDescriptor sym.gdt 5 sym.kernelTss
    (BitVec.ofNat 32 (tssSize - 1)) m1)).2 = m2 at hkeeps
  refine ⟨rfl, ?_⟩
  have hidt := initIdt_keeps sym m2
  have hgdt : ∀ x, InRange (sym.gdt + 40) 16 x → InRange sym.gdt 56 x :=
    fun x hx => inRange_inner sym.gdt 40 x (by decide) hx
  have hfill : KeepsOutside m m1 sym.kernelTss tssSize := by
    rw [hm1]
    refine KeepsOutside.trans (fill_keeps m sym.kernelTss 0 tssSize (by decide)) fun x hx => ?_
    refine store_of_not_inRange (n := 8) _ _ x _ fun hin => hx ?_
    exact inRange_inner sym.kernelTss 4 x (by decide) hin
  have htss : ∀ x, InRange sym.kernelTss tssSize x → initIdt sym m2 x = m1 x := by
    intro x hx
    rw [hidt x (hp.tssIdt x hx), hkeeps x fun hin => hp.gdtTss x (hgdt x hin) hx]
  constructor
  case gates =>
    intro v hv
    refine initIdt_gates (fun x hx => ?_) hv
    rw [hkeeps x fun hin => hp.gdtIdt x (hgdt x hin) hx, hfill x fun hin => hp.tssIdt x hin hx]
    exact hl.idt x hx
  case segments =>
    intro i hi j hj
    have hin := inRange_add sym.gdt 56 (8 * i + j) (by omega)
    have hrest : ¬InRange (sym.gdt + 40) 16 (sym.gdt + BitVec.ofNat 64 (8 * i + j)) := by
      have hapart := apart_offsets (i := 8 * i + j) (n := 1) (j := 40) (k := 16) sym.gdt
        (by omega) (by decide)
      exact hapart _ (inRange_self _ 1 (by decide))
    rw [hidt _ (hp.gdtIdt _ hin), hkeeps _ hrest, hfill _ (hp.gdtTss _ hin)]
    exact hl.gdt i (by omega) j hj
  case task =>
    have hagree : Agree m1 (initIdt sym m2) sym.kernelTss tssSize := htss
    constructor
    case stack =>
      rw [show (initIdt sym m2).load64 (sym.kernelTss + 4) = m1.load64 (sym.kernelTss + 4) from
        load_congr (hagree.inner (d := 4) (k := 8) (by decide)), hm1]
      exact load_store_same (n := 8) _ _ _ (by decide)
    case zeros =>
      intro i hi hout
      have hin := inRange_add sym.kernelTss tssSize i hi
      have hstack : ¬InRange (sym.kernelTss + 4) 8 (sym.kernelTss + BitVec.ofNat 64 i) := by
        have hself := inRange_self (sym.kernelTss + BitVec.ofNat 64 i) 1 (by decide)
        rcases hout with hout | hout
        · exact apart_offsets (i := i) (n := 1) (j := 4) (k := 8) sym.kernelTss hout (by decide) _ hself
        · exact (apart_offsets (i := 4) (n := 8) (j := i) (k := 1) sym.kernelTss hout
            (by omega)).symm _ hself
      rw [htss _ hin, hm1]
      refine (store_of_not_inRange (n := 8) _ _ _ _ hstack).trans ?_
      rw [fill_eq m sym.kernelTss 0 tssSize (by decide), if_pos hin]

end Init

section Sample

def sampleSymbols : Symbols where
  gdt := 0xFFFFFFFF80010000
  kernelTss := 0xFFFFFFFF80011000
  initialKernelStack := 0xFFFFFFFF80012000
  idt := 0xFFFFFFFF80013000
  isr0 := 0xFFFFFFFF80000000
  isr8 := 0xFFFFFFFF80000040
  isr13 := 0xFFFFFFFF80000080
  isr14 := 0xFFFFFFFF800000C0
  irq0 := 0xFFFFFFFF80000100
  irq1 := 0xFFFFFFFF80000140
  isr128 := 0xFFFFFFFF80000180

def sampleMemory (x : BitVec 64) : BitVec 8 :=
  let i := (x - sampleSymbols.gdt).toNat
  if i < 56 then gdtByte (i / 8) (i % 8) else 0

theorem sample_placed : Placed sampleSymbols where
  gdtTss := apart_of_le _ _ _ _ (by decide) (by decide)
  gdtIdt := apart_of_le _ _ _ _ (by decide) (by decide)
  tssIdt := apart_of_le _ _ _ _ (by decide) (by decide)

theorem sample_loaded : Loaded sampleSymbols sampleMemory where
  gdt i hi j hj := by
    have hoffset : (sampleSymbols.gdt + BitVec.ofNat 64 (8 * i + j) - sampleSymbols.gdt).toNat =
        8 * i + j := by
      rw [add_sub_cancel_left, BitVec.toNat_ofNat, Nat.mod_eq_of_lt (by omega)]
    unfold sampleMemory
    dsimp only
    rw [hoffset, if_pos (by omega), show (8 * i + j) / 8 = i by omega,
      show (8 * i + j) % 8 = j by omega]
  idt x hx := by
    have hapart : Apart sampleSymbols.gdt 56 sampleSymbols.idt 4096 := sample_placed.gdtIdt
    exact if_neg fun hin => hapart x hin hx

end Sample

end Miyabi.Arch.Protection
