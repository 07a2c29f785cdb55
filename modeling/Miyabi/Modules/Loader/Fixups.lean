import Miyabi.Modules.Loader.Patches
import Miyabi.Modules.Loader.Placed

namespace Miyabi.Modules

open Miyabi.Base Miyabi.Base.Memory Miyabi.Elf

-- What an entry of a relocation table does: it stores all of a value at P, or its low half.
structure Fixup where
  place : BitVec 64
  wide : Bool
  value : BitVec 64
  deriving DecidableEq

namespace Fixup

variable (f : Fixup)

def size : ℕ := if f.wide then 8 else 4

def apply (m : Memory 64) : Memory 64 :=
  if f.wide then m.store64 f.place f.value else m.store32 f.place (f.value.setWidth 32)

-- Byte i of what it stores.
def byte (i : ℕ) : BitVec 8 := BitVec.ofNat 8 (f.value.toNat / 256 ^ i)

theorem apply_keeps (m : Memory 64) : KeepsOutside m (f.apply m) f.place f.size := by
  intro x hx
  unfold apply size at *
  split at hx
  · rename_i hw
    rw [if_pos hw]
    exact store_of_not_inRange (n := 8) m f.place x _ hx
  · rename_i hw
    rw [if_neg hw]
    exact store_of_not_inRange (n := 4) m f.place x _ hx

theorem apply_byte (m : Memory 64) {x : BitVec 64} (hx : InRange f.place f.size x) :
    f.apply m x = f.byte (x - f.place).toNat := by
  unfold apply size byte at *
  split at hx
  · rename_i hw
    rw [if_pos hw, store64, store, if_pos hx]
  · rename_i hw
    rw [if_neg hw, store32, store, if_pos hx, BitVec.toNat_setWidth]
    -- The low half has the same low bytes.
    apply BitVec.eq_of_toNat_eq
    rw [BitVec.toNat_ofNat, BitVec.toNat_ofNat]
    have hi : (x - f.place).toNat < 4 := hx
    generalize (x - f.place).toNat = i at hi
    obtain rfl | rfl | rfl | rfl : i = 0 ∨ i = 1 ∨ i = 2 ∨ i = 3 := by omega
    all_goals omega

end Fixup

section Entry

variable (ksymtab : KernelSymbols) (t : Tables)

-- The value and the width that the switch gives, for the types it knows.
def fixupFor (relType : BitVec 32) (symVal addend place : BitVec 64) : Option (Option Fixup) :=
  if relType = rX8664None then some none
  else if relType = rX866464 then some (some ⟨place, true, symVal + addend⟩)
  else if relType = rX8664Pc32 ∨ relType = rX8664Plt32 then
    some (some ⟨place, false, symVal + addend - place⟩)
  else if relType = rX866432 ∨ relType = rX866432s then some (some ⟨place, false, symVal + addend⟩)
  else none

-- What the entry at `rela` asks for, as load_module reads it. none: it gives up.
def fixupAt (m : Memory 64) (target rela : BitVec 64) : Option (Option Fixup) :=
  let symIdx : BitVec 32 := (rInfo m rela >>> 32).setWidth 32
  let relType : BitVec 32 := (rInfo m rela).setWidth 32
  let sym := t.syms + 24 * symIdx.signExtend 64
  if (entries (shSize m t.symtab)).sle symIdx then none
  else if shSize m t.strtab ≤ (stName m sym).setWidth 64 then none
  else
    match symbolValue ksymtab t m sym with
    | none => none
    | some symVal =>
        if relType ≠ rX8664None ∧ (rOffset m rela > shSize m target ∨
            patchSize relType > shSize m target - rOffset m rela) then none
        else fixupFor relType symVal (rAddend m rela) (shAddr m target + rOffset m rela)

-- The stores of an entry.
def Turn.stores (u : Turn) : List (BitVec 64 × ℕ) :=
  (resultOf (relocate ksymtab t u.target u.rela ⟨u.mem, [], [], []⟩)).stores

end Entry

-- The work goes on with the memory of a fixup.
structure Fixed (w w' : Work) (f : Fixup) : Prop where
  mem : w'.mem = f.apply w.mem
  stores : w'.stores = (f.place, f.size) :: w.stores
  placed : w'.placed = w.placed

def Follows (w : Work) (r : Except Work Work) : Option (Option Fixup) → Prop
  | none => r = .error w
  | some none => r = .ok w
  | some (some f) => ∃ w', r = .ok w' ∧ Fixed w w' f

theorem Follows.result {w : Work} {r : Except Work Work} {fix : Option (Option Fixup)}
    (h : Follows w r fix) :
    resultOf r = w ∨ ∃ f, fix = some (some f) ∧ Fixed w (resultOf r) f := by
  cases fix with
  | none =>
      rw [show r = .error w from h]
      exact Or.inl rfl
  | some fix =>
      cases fix with
      | none =>
          rw [show r = .ok w from h]
          exact Or.inl rfl
      | some f =>
          obtain ⟨w', rfl, hfixed⟩ := h
          exact Or.inr ⟨f, rfl, hfixed⟩

section Relocate

variable {ksymtab : KernelSymbols} {t : Tables}

theorem patch_fixup (relType : BitVec 32) (symVal addend place : BitVec 64) (w : Work) :
    Follows w (patch relType symVal addend place w) (fixupFor relType symVal addend place) := by
  unfold fixupFor patch
  dsimp only
  by_cases hnone : relType = rX8664None
  · rw [if_pos hnone, if_pos hnone]
    rfl
  rw [if_neg hnone, if_neg hnone]
  by_cases hwide : relType = rX866464
  · rw [if_pos hwide, if_pos hwide]
    exact ⟨_, rfl, rfl, rfl, rfl⟩
  rw [if_neg hwide, if_neg hwide]
  by_cases hpc : relType = rX8664Pc32 ∨ relType = rX8664Plt32
  · rw [if_pos hpc, if_pos hpc]
    exact ⟨_, rfl, rfl, rfl, rfl⟩
  rw [if_neg hpc, if_neg hpc]
  by_cases hlow : relType = rX866432 ∨ relType = rX866432s
  · rw [if_pos hlow, if_pos hlow]
    exact ⟨_, rfl, rfl, rfl, rfl⟩
  rw [if_neg hlow, if_neg hlow]
  rfl

theorem relocate_fixup (ksymtab : KernelSymbols) (t : Tables) (target rela : BitVec 64) (w : Work) :
    Follows w (relocate ksymtab t target rela w) (fixupAt ksymtab t w.mem target rela) := by
  unfold fixupAt relocate
  dsimp only
  generalize (rInfo w.mem rela >>> 32).setWidth 32 = symIdx
  generalize t.syms + 24 * symIdx.signExtend 64 = sym
  by_cases hindex : (entries (shSize w.mem t.symtab)).sle symIdx = true
  · rw [if_pos hindex, if_pos hindex]
    rfl
  rw [if_neg hindex, if_neg hindex]
  by_cases hname : shSize w.mem t.strtab ≤ (stName w.mem sym).setWidth 64
  · rw [if_pos hname, if_pos hname]
    rfl
  rw [if_neg hname, if_neg hname]
  cases symbolValue ksymtab t w.mem sym with
  | none => rfl
  | some symVal =>
      dsimp only
      split
      · rfl
      · exact patch_fixup _ _ _ _ w

-- It lies in its target section, as the header then is.
theorem fixupAt_spans {m : Memory 64} {target rela : BitVec 64} {f : Fixup}
    (h : fixupAt ksymtab t m target rela = some (some f)) :
    Spans (shAddr m target) (shSize m target) f.place f.size := by
  unfold fixupAt at h
  dsimp only at h
  split at h
  · cases h
  split at h
  · cases h
  split at h
  · cases h
  rename_i symVal _
  split at h
  · cases h
  rename_i hinside
  unfold fixupFor at h
  split at h
  · cases h
  rename_i hnone
  obtain ⟨hoff, hsize⟩ := not_or.mp fun hor => hinside ⟨hnone, hor⟩
  have hle : (rOffset m rela).toNat ≤ (shSize m target).toNat := BitVec.not_lt.mp hoff
  have hpatch := BitVec.le_def.mp (BitVec.not_lt.mp hsize)
  rw [BitVec.toNat_sub_of_le (BitVec.le_def.mpr hle)] at hpatch
  have hspans {n : ℕ} (hn : (patchSize ((rInfo m rela).setWidth 32)).toNat = n) :
      Spans (shAddr m target) (shSize m target) (shAddr m target + rOffset m rela) n := by
    rw [Spans, add_sub_cancel_left]
    omega
  split at h
  · rename_i hwide
    cases h
    exact hspans (by rw [patchSize, if_pos hwide]; rfl)
  · rename_i hwide
    have hfour : (patchSize ((rInfo m rela).setWidth 32)).toNat = 4 := by
      rw [patchSize, if_neg hwide]
      rfl
    split at h
    · cases h
      exact hspans hfour
    · split at h
      · cases h
        exact hspans hfour
      · cases h

theorem Turn.stores_spans (u : Turn) : ∀ s ∈ u.stores ksymtab t,
    Spans (shAddr u.mem u.target) (shSize u.mem u.target) s.1 s.2 := by
  intro s hs
  rw [Turn.stores] at hs
  rcases (relocate_fixup ksymtab t u.target u.rela ⟨u.mem, [], [], []⟩).result with
    hsame | ⟨f, hfix, hfixed⟩
  · rw [hsame] at hs
    cases hs
  · rw [hfixed.stores] at hs
    obtain rfl := List.mem_singleton.mp hs
    exact fixupAt_spans hfix

end Relocate

end Miyabi.Modules
