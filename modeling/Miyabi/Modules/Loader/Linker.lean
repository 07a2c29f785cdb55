import Miyabi.Modules.Loader.Confined

namespace Miyabi.Modules

open Miyabi.Base Miyabi.Base.Memory Miyabi.Elf Miyabi.Fs

-- What a linker makes of the file: the bytes of the sections at the addresses that the
-- layout gives them, and over them the relocations one after the other.
section Linker

variable (ksymtab : KernelSymbols) (m : Memory 64) (fileBuffer base : BitVec 64) (t : Tables)

-- Byte k of a section.
def sectionByte (sh : BitVec 64) (k : ℕ) : BitVec 8 :=
  if shType m sh = shtNobits then 0 else m (fileBuffer + shOffset m sh + BitVec.ofNat 64 k)

-- S. none: an unknown name, or a section that is not in the image.
def linkedSymbol (sym : BitVec 64) : Option (BitVec 64) :=
  let shndx := stShndx m sym
  if shndx = shnUndef then
    let value := ksymLookup m ksymtab (t.strings + (stName m sym).setWidth 64)
    if value = 0 then none else some value
  else if shndx = shnAbs then some (stValue m sym)
  else if (eShnum m t.ehdr).toNat ≤ shndx.toNat ∨ ¬IsAlloc m (shdr t.shdrs shndx.toNat) then none
  else some (base + startOf m t.shdrs shndx.toNat + stValue m sym)

def relaSymbol (rela : BitVec 64) : BitVec 64 :=
  let symIdx : BitVec 32 := (rInfo m rela >>> 32).setWidth 32
  t.syms + 24 * symIdx.signExtend 64

-- An entry for section number j.
def linkedEntry (j : ℕ) (rela : BitVec 64) : Option (Option Fixup) :=
  match linkedSymbol ksymtab m base t (relaSymbol m t rela) with
  | none => none
  | some symVal => fixupFor ((rInfo m rela).setWidth 32) symVal (rAddend m rela)
      (base + startOf m t.shdrs j + rOffset m rela)

-- The first n entries of a table for section j, the last first.
def tableFixups (j : ℕ) (relas : BitVec 64) : ℕ → List Fixup
  | 0 => []
  | n + 1 => (linkedEntry ksymtab m base t j (relas + 24 * BitVec.ofNat 64 n)).join.toList ++
      tableFixups j relas n

def sectionFixups (sh : BitVec 64) : List Fixup :=
  if shType m sh = shtRela ∧ IsAlloc m (shdr t.shdrs (shInfo m sh).toNat) then
    tableFixups ksymtab m base t (shInfo m sh).toNat (fileBuffer + shOffset m sh)
      ((shSize m sh).toNat / 24)
  else []

-- Those of the first n sections.
def fixups : ℕ → List Fixup
  | 0 => []
  | n + 1 => sectionFixups ksymtab m fileBuffer base t (shdr t.shdrs n) ++ fixups n

end Linker

-- One fixup after the other, the last of the list first.
def patched : List Fixup → Memory 64 → Memory 64
  | [], m => m
  | f :: fs, m => f.apply (patched fs m)

def Fixup.Covers (x : BitVec 64) (f : Fixup) : Prop := InRange f.place f.size x

instance (x : BitVec 64) (f : Fixup) : Decidable (f.Covers x) :=
  inferInstanceAs (Decidable (InRange _ _ _))

-- A byte is that of the last fixup on it.
def patchedByte (fs : List Fixup) (x : BitVec 64) (before : BitVec 8) : BitVec 8 :=
  match fs.find? fun f => f.Covers x with
  | some f => f.byte (x - f.place).toNat
  | none => before

theorem patched_append (fs gs : List Fixup) (m : Memory 64) :
    patched (fs ++ gs) m = patched fs (patched gs m) := by
  induction fs with
  | nil => rfl
  | cons f fs ih => rw [List.cons_append, patched, patched, ih]

theorem patched_eq (fs : List Fixup) (m : Memory 64) (x : BitVec 64) :
    patched fs m x = patchedByte fs x (m x) := by
  induction fs with
  | nil => rfl
  | cons f fs ih =>
      rw [patched, patchedByte]
      by_cases hx : f.Covers x
      · rw [List.find?_cons_of_pos (by simpa using hx)]
        exact f.apply_byte _ hx
      · rw [List.find?_cons_of_neg (by simpa using hx), f.apply_keeps _ x hx, ih]
        rfl

section WellFormed

variable (ksymtab : KernelSymbols) (m : Memory 64) (fileBuffer fileSize shdrs base : BitVec 64)
variable (t : Tables)

-- The data of a section lie in the file and not on the section headers.
structure Clear (sh : BitVec 64) : Prop where
  inFile : (shOffset m sh).toNat + (shSize m sh).toNat ≤ fileSize.toNat
  apart : (shOffset m sh).toNat + (shSize m sh).toNat ≤ (eShoff m fileBuffer).toNat ∨
    (eShoff m fileBuffer).toNat + (eShnum m fileBuffer).toNat * 64 ≤ (shOffset m sh).toNat

-- An entry for section j names a symbol of the table, whose name ends in the string
-- table, and asks for a relocation that there is, inside the section.
structure Linkable (j : ℕ) (rela : BitVec 64) : Prop where
  index : ((rInfo m rela >>> 32).setWidth 32 : BitVec 32).toNat < (shSize m t.symtab).toNat / 24
  name : ∃ k, (stName m (relaSymbol m t rela)).toNat + k < (shSize m t.strtab).toNat ∧
    m (t.strings + BitVec.ofNat 64 ((stName m (relaSymbol m t rela)).toNat + k)) = 0
  fixed : linkedEntry ksymtab m base t j rela ≠ none
  room : ((rInfo m rela).setWidth 32 : BitVec 32) ≠ rX8664None →
    (rOffset m rela).toNat + (patchSize ((rInfo m rela).setWidth 32)).toNat ≤
      (shSize m (shdr shdrs j)).toNat

-- A relocatable file whose parts do not overlap the section headers, and whose relocations
-- can all be made.
structure WellFormed : Prop where
  headers : 64 ≤ (eShoff m fileBuffer).toNat
  size : fileSize.toNat < 2 ^ 32
  sums : NoWrap m shdrs (eShnum m fileBuffer).toNat
  data : ∀ j < (eShnum m fileBuffer).toNat, IsAlloc m (shdr shdrs j) →
    shType m (shdr shdrs j) ≠ shtNobits → Clear m fileBuffer fileSize (shdr shdrs j)
  tables : findTables fileBuffer fileSize m fileBuffer shdrs = some t
  symbols : Clear m fileBuffer fileSize t.symtab
  strings : Clear m fileBuffer fileSize t.strtab
  relas : ∀ i < (eShnum m fileBuffer).toNat, shType m (shdr shdrs i) = shtRela →
    (shInfo m (shdr shdrs i)).toNat < (eShnum m fileBuffer).toNat ∧
      Clear m fileBuffer fileSize (shdr shdrs i) ∧ shSize m (shdr shdrs i) % 24 = 0 ∧
      (IsAlloc m (shdr shdrs (shInfo m (shdr shdrs i)).toNat) →
        ∀ e < (shSize m (shdr shdrs i)).toNat / 24,
          Linkable ksymtab m shdrs base t (shInfo m (shdr shdrs i)).toNat
            (fileBuffer + shOffset m (shdr shdrs i) + 24 * BitVec.ofNat 64 e))

end WellFormed

section Strings

variable {m m' : Memory 64}

-- The comparison reads no further than the terminator.
theorem matchesAt_congr {k : ℕ} (s : CString) {name : BitVec 64}
    (hsame : ∀ i ≤ k, m' (name + BitVec.ofNat 64 i) = m (name + BitVec.ofNat 64 i))
    (hend : m (name + BitVec.ofNat 64 k) = 0) : matchesAt m' s name = matchesAt m s name := by
  have hfirst : m' name = m name := by simpa using hsame 0 (Nat.zero_le k)
  induction s generalizing name k with
  | nil => rw [matchesAt, matchesAt, hfirst]
  | cons c s ih =>
      rw [matchesAt, matchesAt, hfirst]
      split
      · rename_i hc
        cases k with
        | zero =>
            have hzero : m name = 0 := by simpa using hend
            exact absurd (hc.symm.trans hzero) c.ne_zero
        | succ k =>
            have hnext (i : ℕ) : name + 1 + BitVec.ofNat 64 i = name + BitVec.ofNat 64 (i + 1) := by
              rw [Nat.add_comm i 1, BitVec.ofNat_add, ← add_assoc]
              rfl
            have hsame' (i : ℕ) (hi : i ≤ k) :
                m' (name + 1 + BitVec.ofNat 64 i) = m (name + 1 + BitVec.ofNat 64 i) := by
              rw [hnext]
              exact hsame (i + 1) (Nat.succ_le_succ hi)
            refine ih hsame' ?_ ?_
            · rw [hnext]
              exact hend
            · simpa using hsame' 0 (Nat.zero_le k)
      · rfl

theorem ksymLookup_congr {k : ℕ} (ksymtab : KernelSymbols) {name : BitVec 64}
    (hsame : ∀ i ≤ k, m' (name + BitVec.ofNat 64 i) = m (name + BitVec.ofNat 64 i))
    (hend : m (name + BitVec.ofNat 64 k) = 0) :
    ksymLookup m' ksymtab name = ksymLookup m ksymtab name := by
  induction ksymtab with
  | nil => rfl
  | cons entry rest ih => rw [ksymLookup, ksymLookup, matchesAt_congr entry.1 hsame hend, ih]

end Strings

end Miyabi.Modules
