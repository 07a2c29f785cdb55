import Miyabi.Modules.Loader.Layout

namespace Miyabi.Modules

open Miyabi.Base Miyabi.Base.Memory Miyabi.Elf Miyabi.Fs Miyabi.Mm Miyabi.Mm.Heap

section Symbols

variable (t : Tables)

-- Symbol i of the table.
def symbolAt (i : ℕ) : BitVec 64 := t.syms + 24 * BitVec.ofNat 64 i

-- It is defined in a section and its name is `str`.
def Names (str : CString) (m : Memory 64) (i : ℕ) : Prop :=
  ¬(stShndx m (symbolAt t i) = shnUndef ∨ stShndx m (symbolAt t i) = shnAbs ∨
    (eShnum m t.ehdr).toNat ≤ (stShndx m (symbolAt t i)).toNat) ∧
    matchesAt m str (t.strings + (stName m (symbolAt t i)).setWidth 64) = true

instance (str : CString) (m : Memory 64) (i : ℕ) : Decidable (Names t str m i) :=
  inferInstanceAs (Decidable (_ ∧ _))

-- sh_addr of its section.
def sectionAddr (m : Memory 64) (i : ℕ) : BitVec 64 :=
  shAddr m (shdr t.shdrs (stShndx m (symbolAt t i)).toNat)

def entryAddr (m : Memory 64) (i : ℕ) : BitVec 64 := sectionAddr t m i + stValue m (symbolAt t i)

-- The last of the first n symbols with a name, each as it is in its turn.
def lastNamed (mod : BitVec 64) (str : CString) (w : Work) : ℕ → Option ℕ
  | 0 => none
  | n + 1 =>
      if Names t str (scanSymbols t mod n w).mem n then some n else lastNamed mod str w n

end Symbols

section Scan

variable {t : Tables} {mod : BitVec 64}

theorem scanSymbol_eq (i : ℕ) (w : Work) :
    scanSymbol t mod i w =
      if Names t moduleInit w.mem i then w.store64 (mod + 80) (entryAddr t w.mem i)
      else if Names t moduleCleanup w.mem i then w.store64 (mod + 88) (entryAddr t w.mem i)
      else w := by
  by_cases hs : stShndx w.mem (symbolAt t i) = shnUndef ∨ stShndx w.mem (symbolAt t i) = shnAbs ∨
      (eShnum w.mem t.ehdr).toNat ≤ (stShndx w.mem (symbolAt t i)).toNat
  · have hno : ∀ str, ¬Names t str w.mem i := fun _ h => h.1 hs
    rw [if_neg (hno _), if_neg (hno _)]
    exact if_pos hs
  · have hiff : ∀ str, Names t str w.mem i ↔
        matchesAt w.mem str (t.strings + (stName w.mem (symbolAt t i)).setWidth 64) = true :=
      fun _ => and_iff_right hs
    simp only [hiff]
    exact if_neg hs

theorem fields_apart : Apart (mod + 80) 8 (mod + 88) 8 := by
  have h := apart_next (mod + 80) 8 8 8 rfl (by decide)
  rw [add_assoc] at h
  exact h

theorem scanSymbol_init (i : ℕ) (w : Work) :
    (scanSymbol t mod i w).mem.load64 (mod + 80) =
      if Names t moduleInit w.mem i then entryAddr t w.mem i else w.mem.load64 (mod + 80) := by
  rw [scanSymbol_eq]
  split
  · exact load_store_same (n := 8) w.mem (mod + 80) _ (by decide)
  · split
    · exact load_store_apart (k := 8) w.mem (mod + 80) (mod + 88) _ fields_apart
    · rfl

theorem scanSymbol_cleanup (i : ℕ) (w : Work) :
    (scanSymbol t mod i w).mem.load64 (mod + 88) =
      if Names t moduleCleanup w.mem i then entryAddr t w.mem i
      else w.mem.load64 (mod + 88) := by
  rw [scanSymbol_eq]
  split
  · rename_i hinit
    -- A symbol has one name, so that this one is not module_cleanup.
    have hne : ¬Names t moduleCleanup w.mem i := by
      intro hcleanup
      have heq := matchesAt_unique hinit.2 hcleanup.2
      exact absurd heq (by decide)
    rw [if_neg hne]
    exact load_store_apart (k := 8) w.mem (mod + 88) (mod + 80) _ fields_apart.symm
  · split
    · exact load_store_same (n := 8) w.mem (mod + 88) _ (by decide)
    · rfl

-- The search leaves in a field what the last symbol with the name gives.
theorem scanSymbols_field {str : CString} {field : BitVec 64}
    (hstep : ∀ i w, (scanSymbol t mod i w).mem.load64 field =
      if Names t str w.mem i then entryAddr t w.mem i else w.mem.load64 field) (n : ℕ) (w : Work) :
    (scanSymbols t mod n w).mem.load64 field =
      match lastNamed t mod str w n with
      | none => w.mem.load64 field
      | some i => entryAddr t (scanSymbols t mod i w).mem i := by
  induction n with
  | zero => rfl
  | succ n ih =>
      rw [scanSymbols, hstep, lastNamed]
      split
      · rfl
      · exact ih

theorem recordModule_init (name moduleMemory total : BitVec 64) (w : Work) :
    (recordModule name mod moduleMemory total w).mem.load64 (mod + 80) = 0 :=
  (load_store_apart (k := 8) _ (mod + 80) (mod + 88) 0 fields_apart).trans
    (load_store_same (n := 8) _ (mod + 80) 0 (by decide))

theorem recordModule_cleanup (name moduleMemory total : BitVec 64) (w : Work) :
    (recordModule name mod moduleMemory total w).mem.load64 (mod + 88) = 0 :=
  load_store_same (n := 8) _ (mod + 88) 0 (by decide)

end Scan

-- An address in a section that has been placed, and in the image.
def Inside (w : Work) (moduleMemory total a : BitVec 64) : Prop :=
  (∃ p ∈ w.placed, InRange p.addr p.size.toNat a) ∧ InRange moduleMemory total.toNat a

section Field

variable {t : Tables} {mod : BitVec 64} (moduleMemory total : BitVec 64)

theorem field_inside_iff {str : CString} {field : BitVec 64} (n : ℕ) (w0 : Work)
    (hstep : ∀ i w, (scanSymbol t mod i w).mem.load64 field =
      if Names t str w.mem i then entryAddr t w.mem i else w.mem.load64 field)
    (hzero : w0.mem.load64 field = 0) :
    ((scanSymbols t mod n w0).mem.load64 field ≠ 0 →
        Inside (scanSymbols t mod n w0) moduleMemory total
          ((scanSymbols t mod n w0).mem.load64 field)) ↔
      ∀ i, lastNamed t mod str w0 n = some i → entryAddr t (scanSymbols t mod i w0).mem i ≠ 0 →
        Inside w0 moduleMemory total (entryAddr t (scanSymbols t mod i w0).mem i) := by
  have hplaced := keeps_placed.scanSymbols t mod n w0
  have hfield := scanSymbols_field hstep n w0
  unfold Inside
  rw [hplaced]
  cases hlast : lastNamed t mod str w0 n with
  | none =>
      rw [hlast] at hfield
      rw [show (scanSymbols t mod n w0).mem.load64 field = 0 from hfield.trans hzero]
      constructor
      · intro _ i hi
        cases hi
      · exact fun _ hne => absurd rfl hne
  | some i =>
      rw [hlast] at hfield
      rw [show (scanSymbols t mod n w0).mem.load64 field = _ from hfield]
      constructor
      · intro hall j hj
        cases hj
        exact hall
      · exact fun hall => hall i rfl

end Field

end Miyabi.Modules
