import Miyabi.Arch.Protection.Delivery

namespace Miyabi.Arch.Protection

open Miyabi.Base Miyabi.Base.Memory Miyabi.Arch.Descriptors

variable {sym : Symbols} {m m' : Memory 64}

-- The bit of a port in a map at `base`.
def mapBit (m : Memory 64) (base : BitVec 64) (port : ℕ) : Bool :=
  (m (base + BitVec.ofNat 64 (port / 8))).getLsbD (port % 8)

-- The kernel leaves iomap_base at 0, and the processor reads it elsewhere.
theorem mapBase_zero (h : TaskState sym m) : m.load16 (sym.kernelTss + 102) = 0 := by
  have hzero : ∀ i < 2, m (sym.kernelTss + 102 + BitVec.ofNat 64 i) = 0 := by
    intro i hi
    rw [add_assoc]
    have hat := h.zeros (102 + i) (by omega) (by omega)
    rwa [BitVec.ofNat_add] at hat
  rw [load16, load, littleEndian_congr _ (fun _ => 0) 2 hzero, littleEndian_zero]
  rfl

theorem shifted_zero_iff (v k n : ℕ) : (v >>> k) % 2 ^ n = 0 ↔ ∀ i < n, v.testBit (k + i) = false := by
  constructor
  · intro h i hi
    have hbit : ((v >>> k) % 2 ^ n).testBit i = false := by
      rw [h]
      exact Nat.zero_testBit i
    rwa [Nat.testBit_mod_two_pow, decide_eq_true hi, Bool.true_and, Nat.testBit_shiftRight] at hbit
  · intro h
    apply Nat.eq_of_testBit_eq
    intro i
    rw [Nat.testBit_mod_two_pow, Nat.testBit_shiftRight, Nat.zero_testBit]
    by_cases hi : i < n
    · rw [h i hi, Bool.and_false]
    · rw [decide_eq_false hi, Bool.false_and]

theorem mapBit_word (m : Memory 64) (base : BitVec 64) {port i : ℕ} (hi : i ≤ 8) :
    (m.load16 (base + BitVec.ofNat 64 (port / 8))).toNat.testBit (port % 8 + i) =
      mapBit m base (port + i) := by
  have hbyte : (port + i) / 8 = port / 8 + (port % 8 + i) / 8 := by omega
  have hbit : (port + i) % 8 = (port % 8 + i) % 8 := by omega
  rw [BitVec.testBit_toNat, load_bit (n := 2) _ _ (by omega), mapBit, hbyte, hbit, BitVec.ofNat_add,
    add_assoc]

theorem ioAllowed_iff (h : TaskState sym m) (port : BitVec 16) {count : ℕ} (hcount : count ≤ 8) :
    ioAllowed (registers sym).tr m port count = true ↔
      port.toNat < 872 ∧ ∀ i < count, mapBit m sym.kernelTss (port.toNat + i) = false := by
  have hbase := mapBase_zero h
  unfold ioAllowed registers
  dsimp only
  rw [hbase, Bool.and_eq_true, decide_eq_true_iff, beq_iff_eq, shifted_zero_iff]
  refine and_congr ?_ (forall₂_congr fun i hi => ?_)
  · show 0 + port.toNat / 8 + 1 ≤ 109 ↔ _
    omega
  · show (m.load16 (sym.kernelTss + BitVec.ofNat 64 (0 + port.toNat / 8))).toNat.testBit _ = _ ↔ _
    rw [zero_add, mapBit_word _ _ (by omega)]

-- rsp0 is all that the map holds.
theorem mapBit_eq (h : TaskState sym m) {port : ℕ} (hport : port < 880) :
    mapBit m sym.kernelTss port = (decide (32 ≤ port ∧ port < 96) &&
      (sym.initialKernelStack + kernelStackSize).getLsbD (port - 32)) := by
  unfold mapBit
  by_cases hin : 32 ≤ port ∧ port < 96
  · have hbit := load_bit (n := 8) m (sym.kernelTss + 4) (j := port - 32) (by omega)
    have hbyte : (4 : BitVec 64) + BitVec.ofNat 64 ((port - 32) / 8) = BitVec.ofNat 64 (port / 8) := by
      rw [show port / 8 = 4 + (port - 32) / 8 by omega, BitVec.ofNat_add]
      rfl
    rw [decide_eq_true hin, Bool.true_and, ← h.stack, load64, hbit, add_assoc, hbyte,
      show (port - 32) % 8 = port % 8 by omega]
  · rw [decide_eq_false hin, Bool.false_and, h.zeros (port / 8) (by omega) (by omega)]
    exact BitVec.getLsbD_zero

-- The ports that code of ring 3 can use.
theorem user_ports (hp : Placed sym) (hl : Loaded sym m)
    (hkept : Agree (initTables sym m).2 m' sym.kernelTss tssSize) (port : BitVec 16) {count : ℕ}
    (hcount : count ≤ 8) :
    ioAllowed (initTables sym m).1.tr m' port count = true ↔
      port.toNat < 872 ∧ ∀ i < count, 32 ≤ port.toNat + i → port.toNat + i < 96 →
        (sym.initialKernelStack + kernelStackSize).getLsbD (port.toNat + i - 32) = false := by
  obtain ⟨hregs, hready⟩ := ready_init hp hl
  have htask := hready.task.congr hkept
  rw [hregs, ioAllowed_iff htask port hcount]
  refine and_congr_right fun hport => forall₂_congr fun i hi => ?_
  rw [mapBit_eq htask (by omega)]
  simp only [Bool.and_eq_false_iff, decide_eq_false_iff_not]
  constructor
  · rintro (hout | hbit) hlow hhigh
    · exact absurd ⟨hlow, hhigh⟩ hout
    · exact hbit
  · intro h
    by_cases hin : 32 ≤ port.toNat + i ∧ port.toNat + i < 96
    · exact Or.inr (h hin.1 hin.2)
    · exact Or.inl hin

-- The data port of the disk is one of them.
theorem user_ports_disk : ioAllowed (initTables sampleSymbols sampleMemory).1.tr
    (initTables sampleSymbols sampleMemory).2 0x1F0 2 = true := by
  rw [user_ports sample_placed sample_loaded (Agree.refl _ _ _) 0x1F0 (by decide)]
  refine ⟨by decide, fun i hi hlow hhigh => ?_⟩
  have hport : (0x1F0 : BitVec 16).toNat = 496 := rfl
  omega

end Miyabi.Arch.Protection
