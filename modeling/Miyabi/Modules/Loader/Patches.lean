import Miyabi.Modules.Loader.Booted

namespace Miyabi.Modules

open Miyabi.Base Miyabi.Base.Memory Miyabi.Elf Miyabi.Mm Miyabi.Mm.Heap

-- The types that patch 32 bits.
def Narrow (relType : BitVec 32) : Prop :=
  relType = rX8664Pc32 ∨ relType = rX8664Plt32 ∨ relType = rX866432 ∨ relType = rX866432s

-- S + A - P or S + A.
def relocated (relType : BitVec 32) (symVal addend place : BitVec 64) : BitVec 64 :=
  if relType = rX8664Pc32 ∨ relType = rX8664Plt32 then symVal + addend - place
  else symVal + addend

-- What the field stands for: elf.h has "zero extended" for R_X86_64_32, "sign extended"
-- and "signed" for the others.
def extended (relType field : BitVec 32) : BitVec 64 :=
  if relType = rX866432 then field.setWidth 64 else field.signExtend 64

-- The numbers that a field of this type can stand for.
def Representable (relType : BitVec 32) (v : BitVec 64) : Prop :=
  if relType = rX866432 then v.toNat < 2 ^ 32 else -2 ^ 31 ≤ v.toInt ∧ v.toInt < 2 ^ 31

instance (relType : BitVec 32) (v : BitVec 64) : Decidable (Representable relType v) :=
  inferInstanceAs (Decidable (ite _ _ _))

section Truncation

theorem setWidth_setWidth_iff (v : BitVec 64) :
    (v.setWidth 32).setWidth 64 = v ↔ v.toNat < 2 ^ 32 := by
  rw [← BitVec.toNat_inj, BitVec.toNat_setWidth, BitVec.toNat_setWidth]
  have hv := v.isLt
  omega

theorem signExtend_setWidth_iff (v : BitVec 64) :
    (v.setWidth 32).signExtend 64 = v ↔ -2 ^ 31 ≤ v.toInt ∧ v.toInt < 2 ^ 31 := by
  have hlow := (v.setWidth 32).le_toInt
  have hhigh := (v.setWidth 32).toInt_lt
  rw [← BitVec.toInt_inj, BitVec.toInt_signExtend_of_le (by omega)]
  constructor
  · intro h
    omega
  · rintro ⟨hl, hh⟩
    rw [BitVec.toInt_setWidth]
    rw [BitVec.toInt_eq_toNat_cond] at hl hh ⊢
    have hv := v.isLt
    rw [Int.bmod_def]
    split at hl <;> split <;> omega

-- A value comes back from its low half exactly if it is in the type's range.
theorem extended_setWidth_iff (relType : BitVec 32) (v : BitVec 64) :
    extended relType (v.setWidth 32) = v ↔ Representable relType v := by
  unfold extended Representable
  split
  · exact setWidth_setWidth_iff v
  · exact signExtend_setWidth_iff v

end Truncation

-- The field stands for the value of the relocation.
def Patch.Exact (p : Patch) : Prop :=
  extended p.relType p.field = relocated p.relType p.symVal p.addend p.place

instance (p : Patch) : Decidable p.Exact := inferInstanceAs (Decidable (_ = _))

-- The loop over the entries comes to an entry, with the memory as it is then.
structure Turn where
  mem : Memory 64
  target : BitVec 64
  rela : BitVec 64

namespace Turn

variable (ksymtab : KernelSymbols) (t : Tables) (u : Turn)

def relType : BitVec 32 := (rInfo u.mem u.rela).setWidth 32

def symIdx : BitVec 32 := (rInfo u.mem u.rela >>> 32).setWidth 32

def sym : BitVec 64 := t.syms + 24 * u.symIdx.signExtend 64

def place : BitVec 64 := shAddr u.mem u.target + rOffset u.mem u.rela

-- The value of the entry is in the range of its type, as far as it has one.
def Fits : Prop :=
  Narrow u.relType → ∀ symVal, symbolValue ksymtab t u.mem (u.sym t) = some symVal →
    Representable u.relType (relocated u.relType symVal (rAddend u.mem u.rela) u.place)

end Turn

section Turns

variable (ksymtab : KernelSymbols) (t : Tables)

-- The turns of relocateTable that come to an entry, the last first.
def tableTurns (target relas : BitVec 64) : ℕ → Work → List Turn
  | 0, _ => []
  | n + 1, w =>
      match relocateTable ksymtab t target relas n w with
      | .error _ => tableTurns target relas n w
      | .ok w1 => ⟨w1.mem, target, relas + 24 * BitVec.ofNat 64 n⟩ :: tableTurns target relas n w

def sectionTurns (fileBuffer fileSize sh : BitVec 64) (w : Work) : List Turn :=
  let m := w.mem
  if shType m sh ≠ shtRela then []
  else if (eShnum m t.ehdr).toNat ≤ (shInfo m sh).toNat ∨ !inFile fileSize m sh ∨
      shSize m sh % 24 ≠ 0 then []
  else
    let target := shdr t.shdrs (shInfo m sh).toNat
    if ¬IsAlloc m target then []
    else tableTurns ksymtab t target (fileBuffer + shOffset m sh)
      (entries (shSize m sh)).toInt.toNat w

def sectionsTurns (fileBuffer fileSize : BitVec 64) : ℕ → ℕ → Work → List Turn
  | 0, _, _ => []
  | fuel + 1, i, w =>
      if i < (eShnum w.mem t.ehdr).toNat then
        sectionTurns ksymtab t fileBuffer fileSize (shdr t.shdrs i) w ++
          match relocateSection ksymtab t fileBuffer fileSize (shdr t.shdrs i) w with
          | .error _ => []
          | .ok w => sectionsTurns fileBuffer fileSize fuel (i + 1) w
      else []

-- The turns of the whole of load_module, with the tables that it finds.
def loadTurns (fileBuffer fileSize : BitVec 64) (system : Heap.System) :
    Option (Tables × List Turn) :=
  let m := system.mem
  let shdrs := fileBuffer + eShoff m fileBuffer
  match totalMemorySize fileBuffer shdrs fileSize m (2 ^ 16) 0 0 with
  | none => none
  | some total =>
      match system.kmalloc total with
      | none => none
      | some (moduleMemory, system) =>
          let w := placedWork fileBuffer shdrs moduleMemory system
          match findTables fileBuffer fileSize w.mem fileBuffer shdrs with
          | none => none
          | some t => some (t, sectionsTurns ksymtab t fileBuffer fileSize (2 ^ 16) 0 w)

-- Every entry that load_module comes to has a value in the range of its type.
def RelocationsFit (fileBuffer fileSize : BitVec 64) (system : Heap.System) : Prop :=
  ∀ t turns, loadTurns ksymtab fileBuffer fileSize system = some (t, turns) →
    ∀ u ∈ turns, u.Fits ksymtab t

end Turns

section Step

variable {ksymtab : KernelSymbols} {t : Tables} {target rela : BitVec 64} {w w' : Work}

def AllExact (w : Work) : Prop := ∀ p ∈ w.applied, p.Exact

theorem store32_field (w : Work) (place : BitVec 64) (v : BitVec 32) :
    (w.store32 place v).mem.load32 place = v :=
  load_store_same (n := 4) w.mem place v (by decide)

-- The switch either patches 32 bits and records them or records nothing.
theorem patch_cases {relType : BitVec 32} {symVal addend place : BitVec 64}
    (h : patch relType symVal addend place w = .ok w') :
    (¬Narrow relType ∧ w'.applied = w.applied) ∨
      (Narrow relType ∧ w'.applied = ⟨relType, symVal, addend, place,
        (relocated relType symVal addend place).setWidth 32⟩ :: w.applied) := by
  unfold patch at h
  dsimp only at h
  split at h
  · rename_i hr
    refine Or.inl ⟨?_, by rw [← Except.ok.inj h]⟩
    rw [hr]
    unfold Narrow
    decide
  · split at h
    · rename_i hr
      refine Or.inl ⟨?_, by rw [← Except.ok.inj h]; rfl⟩
      rw [hr]
      unfold Narrow
      decide
    · split at h
      · rename_i hr
        refine Or.inr ⟨?_, ?_⟩
        · unfold Narrow
          tauto
        · rw [← Except.ok.inj h, relocated, if_pos hr, store32_field]
          rfl
      · rename_i hpc
        split at h
        · rename_i hr
          refine Or.inr ⟨?_, ?_⟩
          · unfold Narrow
            tauto
          · rw [← Except.ok.inj h, relocated, if_neg hpc, store32_field]
            rfl
        · cases h

-- An entry keeps the patches exact exactly if it fits.
theorem relocate_exact (h : relocate ksymtab t target rela w = .ok w') :
    AllExact w' ↔ AllExact w ∧ (⟨w.mem, target, rela⟩ : Turn).Fits ksymtab t := by
  unfold relocate at h
  dsimp only at h
  split at h
  · cases h
  · split at h
    · cases h
    · split at h
      · cases h
      · rename_i symVal hs
        split at h
        · cases h
        · rcases patch_cases h with ⟨hn, ha⟩ | ⟨hn, ha⟩
          · unfold AllExact
            rw [ha]
            exact ⟨fun hall => ⟨hall, fun hnarrow => absurd hnarrow hn⟩, fun hall => hall.1⟩
          · unfold AllExact
            rw [ha, List.forall_mem_cons, and_comm]
            refine and_congr_right fun _ => (extended_setWidth_iff _ _).trans ?_
            constructor
            · intro hr _ s hsym
              have heq := hs.symm.trans hsym
              rw [← Option.some.inj heq]
              exact hr
            · exact fun hf => hf hn symVal hs

theorem relocateTable_exact {relas : BitVec 64} {n : ℕ}
    (h : relocateTable ksymtab t target relas n w = .ok w') :
    AllExact w' ↔ AllExact w ∧ ∀ u ∈ tableTurns ksymtab t target relas n w, u.Fits ksymtab t := by
  induction n generalizing w' with
  | zero =>
      cases h
      simp [tableTurns]
  | succ n ih =>
      rw [relocateTable] at h
      split at h
      · cases h
      · rename_i w1 hw1
        have hturns : tableTurns ksymtab t target relas (n + 1) w =
            ⟨w1.mem, target, relas + 24 * BitVec.ofNat 64 n⟩ ::
              tableTurns ksymtab t target relas n w := by
          rw [tableTurns, hw1]
        rw [relocate_exact h, ih hw1, hturns, List.forall_mem_cons, and_assoc]
        exact and_congr_right fun _ => and_comm

theorem relocateSection_exact {fileBuffer fileSize sh : BitVec 64}
    (h : relocateSection ksymtab t fileBuffer fileSize sh w = .ok w') :
    AllExact w' ↔ AllExact w ∧
      ∀ u ∈ sectionTurns ksymtab t fileBuffer fileSize sh w, u.Fits ksymtab t := by
  unfold relocateSection at h
  unfold sectionTurns
  dsimp only at h ⊢
  split at h
  · rename_i hr
    cases h
    simp [hr]
  · rename_i hr
    rw [if_neg hr]
    split at h
    · cases h
    · rename_i hf
      rw [if_neg hf]
      split at h
      · rename_i ha
        cases h
        simp [ha]
      · rename_i ha
        rw [if_neg ha]
        exact relocateTable_exact h

theorem relocateSections_exact {fileBuffer fileSize : BitVec 64} {fuel i : ℕ}
    (h : relocateSections ksymtab t fileBuffer fileSize fuel i w = .ok w') :
    AllExact w' ↔ AllExact w ∧
      ∀ u ∈ sectionsTurns ksymtab t fileBuffer fileSize fuel i w, u.Fits ksymtab t := by
  induction fuel generalizing i w with
  | zero =>
      cases h
      simp [sectionsTurns]
  | succ fuel ih =>
      rw [relocateSections] at h
      by_cases hi : i < (eShnum w.mem t.ehdr).toNat
      · rw [if_pos hi] at h
        cases hn : relocateSection ksymtab t fileBuffer fileSize (shdr t.shdrs i) w with
        | error w1 =>
            rw [hn] at h
            cases h
        | ok w1 =>
            rw [hn] at h
            have hturns : sectionsTurns ksymtab t fileBuffer fileSize (fuel + 1) i w =
                sectionTurns ksymtab t fileBuffer fileSize (shdr t.shdrs i) w ++
                  sectionsTurns ksymtab t fileBuffer fileSize fuel (i + 1) w1 := by
              rw [sectionsTurns, if_pos hi, hn]
            rw [hturns, ih h, relocateSection_exact hn, List.forall_mem_append, and_assoc]
      · rw [if_neg hi] at h
        cases h
        simp [sectionsTurns, hi]

end Step

-- Neither the second pass nor what follows the relocations records a patch.
theorem keeps_applied : Storewise fun w w' => w'.applied = w.applied where
  refl _ := rfl
  trans _ _ _ h h' := h'.trans h
  store8 _ _ _ := rfl
  store64 _ _ _ := rfl

theorem placedWork_applied (fileBuffer shdrs moduleMemory : BitVec 64) (system : Heap.System) :
    (placedWork fileBuffer shdrs moduleMemory system).applied = [] :=
  keeps_applied.placeSections (fun _ _ _ => rfl) fileBuffer shdrs fileBuffer moduleMemory _ 0 0 _

section Accepted

variable (ksymtab : KernelSymbols) (name fileBuffer fileSize : BitVec 64)
variable (call : BitVec 64 → Heap.System → Option Heap.System) (system : Heap.System) (l : Loaded)

-- An accepted module has each 32-bit field exact exactly if the value of every entry
-- fits. load_module itself never looks at the values.
theorem relocations_exact_iff
    (h : loadModule ksymtab name fileBuffer fileSize call system = some l) (hmod : l.mod ≠ 0) :
    ∃ moduleMemory total system' w, prepareModule ksymtab name fileBuffer fileSize system =
      some (.ready l.mod moduleMemory total system' w) ∧
      ((∀ p ∈ w.applied, p.Exact) ↔ RelocationsFit ksymtab fileBuffer fileSize system) := by
  obtain ⟨moduleMemory, total, system', w, hp⟩ := loadModule_accepted h hmod
  refine ⟨moduleMemory, total, system', w, hp, ?_⟩
  obtain ⟨shdrs, system1, t, w1, system2, himage, hlinked, rfl, -⟩ := prepareModule_ready hp
  have hturns : loadTurns ksymtab fileBuffer fileSize system = some (t, sectionsTurns ksymtab t
      fileBuffer fileSize (2 ^ 16) 0 (placedWork fileBuffer shdrs moduleMemory system1)) := by
    have htables := hlinked.tables
    unfold loadTurns
    dsimp only
    rw [← himage.shdrs_eq, himage.total_eq]
    dsimp only
    rw [himage.image]
    dsimp only
    rw [htables]
  have hfill := keeps_applied.fillModule t name l.mod moduleMemory total { w1 with mem := system2.mem }
  have hstart : AllExact (placedWork fileBuffer shdrs moduleMemory system1) := by
    unfold AllExact
    rw [placedWork_applied]
    simp
  rw [hfill]
  refine (relocateSections_exact hlinked.relocated).trans ?_
  constructor
  · rintro ⟨-, hall⟩ t' turns heq
    obtain ⟨rfl, rfl⟩ := Prod.mk.inj (Option.some.inj (hturns.symm.trans heq))
    exact hall
  · exact fun hall => ⟨hstart, hall t _ hturns⟩

end Accepted

theorem relocations_exact_sample :
    ∃ s0 total system' w, boot sampleMemory sampleFrames = some s0 ∧
      prepareModule [] sampleName sampleFile 404 s0 =
        some (.ready sampleMod sampleImage total system' w) ∧
      ((∀ p ∈ w.applied, p.Exact) ↔ RelocationsFit [] sampleFile 404 s0) := by
  obtain ⟨s0, hb, -⟩ := boot_invariant sampleMemory sampleFrames sampleFrames_ne
  obtain ⟨moduleMemory, total, system', w, hp, hiff⟩ := relocations_exact_iff [] sampleName sampleFile
    404 (fun _ s => some s) s0 _ (sample_loaded hb) sampleMod_ne
  have heq := (sample_prepared hb).symm.trans hp
  injection heq with heq
  injection heq with _ hmm _ _ _
  exact ⟨s0, total, system', w, hb, hmm ▸ hp, hiff⟩

-- The value 2^32 is stored as 0, and load_module returns the module.
theorem relocation_truncated :
    ∃ s0 l moduleMemory total system' w, boot sampleMemory sampleFrames = some s0 ∧
      loadModule [] sampleName sampleFile 404 (fun _ s => some s) s0 = some l ∧ l.mod ≠ 0 ∧
      prepareModule [] sampleName sampleFile 404 s0 =
        some (.ready l.mod moduleMemory total system' w) ∧
      ∃ p ∈ w.applied, p.relType = rX866432 ∧ p.symVal + p.addend = 0x100000000 ∧ p.field = 0 ∧
        ¬p.Exact := by
  obtain ⟨s0, hb, -⟩ := boot_invariant sampleMemory sampleFrames sampleFrames_ne
  refine ⟨s0, _, _, _, _, _, hb, sample_loaded hb, sampleMod_ne, sample_prepared hb, ?_⟩
  rw [sample_applied]
  refine ⟨_, List.mem_cons_self, rfl, by decide, rfl, by decide⟩

end Miyabi.Modules
