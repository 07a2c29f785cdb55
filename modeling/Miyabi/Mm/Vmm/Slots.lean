import Mathlib.Tactic.Ring
import Miyabi.Base.Word
import Miyabi.Mm.Vmm

namespace Miyabi.Mm.Vmm

open Miyabi.Base Miyabi.Base.Memory

def Aligned (f : BitVec 64) : Prop := f.toNat % 4096 = 0

-- The entry number i of the table in frame f.
def slot (hhdm : BitVec 64) (m : Memory 64) (f : BitVec 64) (i : BitVec 9) : BitVec 64 :=
  readEntry m (f + hhdm) (i.setWidth 64)

section Addresses

variable {hhdm f g : BitVec 64}

theorem toNat_index (i : BitVec 9) : (i.setWidth 64).toNat = i.toNat ∧ i.toNat < 512 := by
  have h := i.isLt
  constructor
  · rw [BitVec.toNat_setWidth, Nat.mod_eq_of_lt (by omega)]
  · omega

-- Seen from the direct map's offset, a byte of an entry tells its frame and index.
theorem entry_offset (hf : Aligned f) (i : BitVec 9) (x : BitVec 64) :
    InRange (f + hhdm + 8 * i.setWidth 64) 8 x ↔
      (x - hhdm).toNat / 8 = f.toNat / 8 + i.toNat := by
  obtain ⟨hi, hlt⟩ := toNat_index i
  generalize i.setWidth 64 = idx at *
  have hbase : x - (f + hhdm + 8 * idx) = (x - hhdm) - (f + 8 * idx) := by ring
  simp only [InRange, hbase, Aligned] at *
  generalize x - hhdm = y
  have hoff : (f + 8 * idx).toNat = f.toNat + 8 * idx.toNat := by
    bv_omega
  have hlast : f.toNat + 8 * idx.toNat + 8 ≤ 2 ^ 64 := by
    have := f.isLt
    omega
  rw [← hi]
  have hr := inRange_iff (f + 8 * idx) y 8 (by omega)
  simp only [InRange] at hr
  rw [hr, hoff]
  omega

theorem page_offset (hf : Aligned f) (x : BitVec 64) :
    InRange (f + hhdm) 4096 x ↔ (x - hhdm).toNat / 4096 = f.toNat / 4096 := by
  have hbase : x - (f + hhdm) = (x - hhdm) - f := by ring
  simp only [InRange, hbase, Aligned] at *
  generalize x - hhdm = y
  have hlast : f.toNat + 4096 ≤ 2 ^ 64 := by
    have := f.isLt
    omega
  have hr := inRange_iff f y 4096 hlast
  simp only [InRange] at hr
  rw [hr]
  omega

theorem entry_in_page (hf : Aligned f) (i : BitVec 9) (x : BitVec 64)
    (hx : InRange (f + hhdm + 8 * i.setWidth 64) 8 x) : InRange (f + hhdm) 4096 x := by
  rw [entry_offset hf] at hx
  rw [page_offset hf]
  have hlt := (toNat_index i).2
  simp only [Aligned] at hf
  omega

theorem pages_apart (hf : Aligned f) (hg : Aligned g) (hne : f ≠ g) :
    Apart (f + hhdm) 4096 (g + hhdm) 4096 := by
  intro x hx hy
  rw [page_offset hf] at hx
  rw [page_offset hg] at hy
  apply hne
  apply BitVec.eq_of_toNat_eq
  simp only [Aligned] at hf hg
  omega

theorem entries_apart (hf : Aligned f) (hg : Aligned g) {i j : BitVec 9} (hne : ¬(f = g ∧ i = j)) :
    Apart (f + hhdm + 8 * i.setWidth 64) 8 (g + hhdm + 8 * j.setWidth 64) 8 := by
  intro x hx hy
  rw [entry_offset hf] at hx
  rw [entry_offset hg] at hy
  have hi := (toNat_index i).2
  have hj := (toNat_index j).2
  simp only [Aligned] at hf hg
  apply hne
  constructor
  · apply BitVec.eq_of_toNat_eq
    omega
  · apply BitVec.eq_of_toNat_eq
    omega

end Addresses

section Entries

variable {hhdm f g : BitVec 64} {m m' : Memory 64}

theorem slot_congr (hf : Aligned f) (h : Agree m m' (f + hhdm) 4096) (i : BitVec 9) :
    slot hhdm m' f i = slot hhdm m f i :=
  load_congr (fun x hx => h x (entry_in_page hf i x hx))

theorem slot_writeEntry_same (i : BitVec 9) (e : BitVec 64) :
    slot hhdm (writeEntry m (f + hhdm) (i.setWidth 64) e) f i = e :=
  load_store_same (n := 8) m _ e (by decide)

theorem writeEntry_slot (hhdm : BitVec 64) (m : Memory 64) (f : BitVec 64) (i : BitVec 9) :
    writeEntry m (f + hhdm) (i.setWidth 64) (slot hhdm m f i) = m :=
  store_load m _ 8

theorem slot_writeEntry_ne (hf : Aligned f) (hg : Aligned g) {i j : BitVec 9}
    (hne : ¬(f = g ∧ i = j)) (e : BitVec 64) :
    slot hhdm (writeEntry m (g + hhdm) (j.setWidth 64) e) f i = slot hhdm m f i :=
  load_store_apart (k := 8) m _ _ e (entries_apart hf hg hne)

theorem writeEntry_keeps (hf : Aligned f) (i : BitVec 9) (e : BitVec 64) :
    KeepsOutside m (writeEntry m (f + hhdm) (i.setWidth 64) e) (f + hhdm) 4096 :=
  fun x hx => store_of_not_inRange (n := 8) m _ x e (fun h => hx (entry_in_page hf i x h))

theorem ofNat_index (n : ℕ) (hn : n < 512) :
    BitVec.ofNat 64 n = (BitVec.ofNat 9 n).setWidth 64 := by
  apply BitVec.eq_of_toNat_eq
  rw [BitVec.toNat_ofNat, BitVec.toNat_setWidth, BitVec.toNat_ofNat, Nat.mod_eq_of_lt (by omega),
    Nat.mod_eq_of_lt (by omega), Nat.mod_eq_of_lt (by omega)]

theorem zeroTable_spec (hhdm : BitVec 64) (m : Memory 64) (hf : Aligned f) (n : ℕ) (hn : n ≤ 512) :
    (∀ i : BitVec 9, i.toNat < n → slot hhdm (zeroTable m (f + hhdm) n) f i = 0) ∧
      KeepsOutside m (zeroTable m (f + hhdm) n) (f + hhdm) 4096 := by
  induction n with
  | zero => exact ⟨fun i hi => absurd hi (Nat.not_lt_zero _), fun _ _ => rfl⟩
  | succ n ih =>
      obtain ⟨hzero, hkeep⟩ := ih (by omega)
      rw [zeroTable, ofNat_index n (by omega)]
      refine ⟨fun i hi => ?_, hkeep.trans (writeEntry_keeps hf _ _)⟩
      by_cases he : i = BitVec.ofNat 9 n
      · rw [he, slot_writeEntry_same]
      · rw [slot_writeEntry_ne hf hf (fun h => he h.2)]
        apply hzero
        have hne : i.toNat ≠ n := by
          intro hnat
          apply he
          apply BitVec.eq_of_toNat_eq
          rw [BitVec.toNat_ofNat, Nat.mod_eq_of_lt (by omega), hnat]
        omega

end Entries

end Miyabi.Mm.Vmm
