import Miyabi.Modules.Loader

namespace Miyabi.Modules

open Miyabi.Base Miyabi.Elf Miyabi.Mm

-- What a loop over relocations leaves, whether it has given up or not.
def resultOf : Except Work Work → Work
  | .ok w => w
  | .error w => w

-- A relation between states of the work that composes and holds of each store.
structure Storewise (T : Work → Work → Prop) : Prop where
  refl : ∀ w, T w w
  trans : ∀ w w1 w2, T w w1 → T w1 w2 → T w w2
  store8 : ∀ w addr v, T w (w.store8 addr v)
  store64 : ∀ w addr v, T w (w.store64 addr v)

-- It also holds of each relocation.
structure Stepwise (T : Work → Work → Prop) : Prop extends Storewise T where
  patch : ∀ relType symVal addend place w, T w (resultOf (patch relType symVal addend place w))

variable {T : Work → Work → Prop}

namespace Storewise

section Layout

variable (h : Storewise T)

include h

theorem zeroSection (sh dst : BitVec 64) (fuel j : ℕ) (w : Work) :
    T w (Modules.zeroSection sh dst fuel j w) := by
  induction fuel generalizing j w with
  | zero => exact h.refl w
  | succ fuel ih =>
      rw [Modules.zeroSection]
      split
      · exact h.trans _ _ _ (h.store8 w _ _) (ih (j + 1) _)
      · exact h.refl w

theorem copySection (sh dst src : BitVec 64) (fuel j : ℕ) (w : Work) :
    T w (Modules.copySection sh dst src fuel j w) := by
  induction fuel generalizing j w with
  | zero => exact h.refl w
  | succ fuel ih =>
      rw [Modules.copySection]
      split
      · exact h.trans _ _ _ (h.store8 w _ _) (ih (j + 1) _)
      · exact h.refl w

-- The bytes of a section, after it has been given its address.
theorem placeSection (fileBuffer moduleMemory offset sh : BitVec 64) (w : Work) :
    T (w.place sh (moduleMemory + offset))
      (Modules.placeSection fileBuffer moduleMemory offset sh w) := by
  unfold Modules.placeSection
  dsimp only
  split
  · exact h.zeroSection sh _ _ 0 _
  · exact h.copySection sh _ _ _ 0 _

theorem placeSections (hplace : ∀ w sh addr, T w (w.place sh addr))
    (ehdr shdrs fileBuffer moduleMemory : BitVec 64) (fuel i : ℕ) (offset : BitVec 64) (w : Work) :
    T w (Modules.placeSections ehdr shdrs fileBuffer moduleMemory fuel i offset w).2 := by
  induction fuel generalizing i offset w with
  | zero => exact h.refl w
  | succ fuel ih =>
      rw [Modules.placeSections]
      split
      · dsimp only
        split
        · have hone := h.trans _ _ _ (hplace w _ _) (h.placeSection fileBuffer moduleMemory
            (alignOffset offset (shAddralign w.mem (shdr shdrs i))) (shdr shdrs i) w)
          exact h.trans _ _ _ hone (ih (i + 1) _ _)
        · exact ih (i + 1) offset w
      · exact h.refl w

end Layout

section Fill

variable (h : Storewise T) (t : Tables)

include h

theorem copyName (name mod : BitVec 64) (fuel i : ℕ) (w : Work) :
    T w (Modules.copyName name mod fuel i w) := by
  induction fuel generalizing i w with
  | zero => exact h.refl w
  | succ fuel ih =>
      rw [Modules.copyName]
      split
      · have hone := h.trans _ _ _ (h.store8 w (mod + BitVec.ofNat 64 i) (w.mem (name + BitVec.ofNat 64 i)))
          (h.store8 _ (mod + BitVec.ofNat 64 (i + 1)) 0)
        exact h.trans _ _ _ hone (ih (i + 1) _)
      · exact h.refl w

theorem scanSymbol (mod : BitVec 64) (i : ℕ) (w : Work) : T w (Modules.scanSymbol t mod i w) := by
  unfold Modules.scanSymbol
  dsimp only
  split
  · exact h.refl w
  · split
    · exact h.store64 w _ _
    · split
      · exact h.store64 w _ _
      · exact h.refl w

theorem scanSymbols (mod : BitVec 64) (n : ℕ) (w : Work) : T w (Modules.scanSymbols t mod n w) := by
  induction n with
  | zero => exact h.refl w
  | succ n ih => exact h.trans _ _ _ ih (h.scanSymbol t mod n _)

theorem fillModule (name mod moduleMemory total : BitVec 64) (w : Work) :
    T w (Modules.fillModule t name mod moduleMemory total w) := by
  unfold Modules.fillModule Modules.recordModule
  have h1 := h.copyName name mod 63 0 w
  have h2 := h.trans _ _ _ h1 (h.store64 _ (mod + 64) moduleMemory)
  have h3 := h.trans _ _ _ h2 (h.store64 _ (mod + 72) total)
  have h4 := h.trans _ _ _ h3 (h.store64 _ (mod + 80) 0)
  have h5 := h.trans _ _ _ h4 (h.store64 _ (mod + 88) 0)
  exact h.trans _ _ _ h5 (h.scanSymbols t mod _ _)

end Fill

end Storewise

namespace Stepwise

variable (h : Stepwise T) (ksymtab : KernelSymbols) (t : Tables)

include h

theorem relocate (target rela : BitVec 64) (w : Work) :
    T w (resultOf (Modules.relocate ksymtab t target rela w)) := by
  unfold Modules.relocate
  dsimp only
  split
  · exact h.refl w
  · split
    · exact h.refl w
    · split
      · exact h.refl w
      · split
        · exact h.refl w
        · exact h.patch _ _ _ _ w

theorem relocateTable (target relas : BitVec 64) (n : ℕ) (w : Work) :
    T w (resultOf (Modules.relocateTable ksymtab t target relas n w)) := by
  induction n with
  | zero => exact h.refl w
  | succ n ih =>
      rw [Modules.relocateTable]
      cases hn : Modules.relocateTable ksymtab t target relas n w with
      | error w1 =>
          rw [hn] at ih
          exact ih
      | ok w1 =>
          rw [hn] at ih
          exact h.trans _ _ _ ih (h.relocate ksymtab t target _ w1)

theorem relocateSection (fileBuffer fileSize sh : BitVec 64) (w : Work) :
    T w (resultOf (Modules.relocateSection ksymtab t fileBuffer fileSize sh w)) := by
  unfold Modules.relocateSection
  dsimp only
  split
  · exact h.refl w
  · split
    · exact h.refl w
    · split
      · exact h.refl w
      · exact h.relocateTable ksymtab t _ _ _ w

theorem relocateSections (fileBuffer fileSize : BitVec 64) (fuel i : ℕ) (w : Work) :
    T w (resultOf (Modules.relocateSections ksymtab t fileBuffer fileSize fuel i w)) := by
  induction fuel generalizing i w with
  | zero => exact h.refl w
  | succ fuel ih =>
      rw [Modules.relocateSections]
      split
      · have hone := h.relocateSection ksymtab t fileBuffer fileSize (shdr t.shdrs i) w
        cases hn : Modules.relocateSection ksymtab t fileBuffer fileSize (shdr t.shdrs i) w with
        | error w1 =>
            rw [hn] at hone
            exact hone
        | ok w1 =>
            rw [hn] at hone
            exact h.trans _ _ _ hone (ih (i + 1) w1)
      · exact h.refl w

end Stepwise

section Prepare

variable {ksymtab : KernelSymbols} {name fileBuffer fileSize : BitVec 64}
variable {system : Heap.System} {r : Prepared}

-- Where the image has been allocated: what each section is copied and given then.
structure Imaged (fileBuffer fileSize : BitVec 64) (system : Heap.System)
    (shdrs total moduleMemory : BitVec 64) (system1 : Heap.System) : Prop where
  valid : elfValidate system.mem fileBuffer fileSize = true
  shdrs_eq : shdrs = fileBuffer + eShoff system.mem fileBuffer
  total_eq : totalMemorySize fileBuffer shdrs fileSize system.mem (2 ^ 16) 0 0 = some total
  image : system.kmalloc total = some (moduleMemory, system1)
  image_ne : moduleMemory ≠ 0

-- The work after the second pass.
def placedWork (fileBuffer shdrs moduleMemory : BitVec 64) (system1 : Heap.System) : Work :=
  (placeSections fileBuffer shdrs fileBuffer moduleMemory (2 ^ 16) 0 0 ⟨system1.mem, [], [], []⟩).2

theorem prepareModule_cases (h : prepareModule ksymtab name fileBuffer fileSize system = some r) :
    r = .failed system ⟨system.mem, [], [], []⟩ ∨
      (∃ total system1, system.kmalloc total = some (0, system1) ∧
        r = .failed system1 ⟨system1.mem, [], [], []⟩) ∨
      ∃ shdrs total moduleMemory system1,
        Imaged fileBuffer fileSize system shdrs total moduleMemory system1 ∧
          linkModule ksymtab name fileBuffer fileSize shdrs moduleMemory total system1
            (placedWork fileBuffer shdrs moduleMemory system1) = some r := by
  unfold prepareModule at h
  dsimp only at h
  split at h
  · exact Or.inl (Option.some.inj h).symm
  · split at h
    · exact Or.inl (Option.some.inj h).symm
    · rename_i hvalid
      split at h
      · exact Or.inl (Option.some.inj h).symm
      · rename_i total htotal
        split at h
        · cases h
        · rename_i moduleMemory system1 hk
          split at h
          · rename_i hz
            subst hz
            exact Or.inr (Or.inl ⟨total, system1, hk, (Option.some.inj h).symm⟩)
          · rename_i hne
            exact Or.inr (Or.inr ⟨_, total, moduleMemory, system1,
              ⟨by simpa using hvalid, rfl, htotal, hk, hne⟩, h⟩)

variable {shdrs total moduleMemory : BitVec 64} {w : Work}

-- What load_module has when it succeeds.
structure Linked (ksymtab : KernelSymbols) (fileBuffer fileSize shdrs : BitVec 64) (system : Heap.System)
    (w : Work) (t : Tables) (w1 : Work) (mod : BitVec 64) (system2 : Heap.System) : Prop where
  tables : findTables fileBuffer fileSize w.mem fileBuffer shdrs = some t
  relocated : relocateSections ksymtab t fileBuffer fileSize (2 ^ 16) 0 w = .ok w1
  record : (system.setMem w1.mem).kmalloc moduleSize = some (mod, system2)
  record_ne : mod ≠ 0

theorem linkModule_cases (h : linkModule ksymtab name fileBuffer fileSize shdrs moduleMemory total
      system w = some r) :
    (∃ w', (w' = w ∨ ∃ t, findTables fileBuffer fileSize w.mem fileBuffer shdrs = some t ∧
        w' = resultOf (relocateSections ksymtab t fileBuffer fileSize (2 ^ 16) 0 w)) ∧
      giveUp moduleMemory system w' = some r) ∨
    (∃ t w1 system2, findTables fileBuffer fileSize w.mem fileBuffer shdrs = some t ∧
      relocateSections ksymtab t fileBuffer fileSize (2 ^ 16) 0 w = .ok w1 ∧
      (system.setMem w1.mem).kmalloc moduleSize = some (0, system2) ∧
      giveUp moduleMemory system2 { w1 with mem := system2.mem } = some r) ∨
    ∃ t w1 mod system2, Linked ksymtab fileBuffer fileSize shdrs system w t w1 mod system2 ∧
      r = .ready mod moduleMemory total
        (system2.setMem (fillModule t name mod moduleMemory total { w1 with mem := system2.mem }).mem)
        (fillModule t name mod moduleMemory total { w1 with mem := system2.mem }) := by
  unfold linkModule at h
  split at h
  · exact Or.inl ⟨w, Or.inl rfl, h⟩
  · rename_i t ht
    split at h
    · rename_i w1 hr
      exact Or.inl ⟨w1, Or.inr ⟨t, ht, by rw [hr]; rfl⟩, h⟩
    · rename_i w1 hr
      split at h
      · cases h
      · rename_i mod system2 hk
        split at h
        · rename_i hz
          subst hz
          exact Or.inr (Or.inl ⟨t, w1, system2, ht, hr, hk, h⟩)
        · rename_i hne
          exact Or.inr (Or.inr ⟨t, w1, mod, system2, ⟨ht, hr, hk, hne⟩, (Option.some.inj h).symm⟩)

theorem giveUp_failed (h : giveUp moduleMemory system w = some r) :
    ∃ system', (system.setMem w.mem).kfree moduleMemory = some system' ∧ r = .failed system' w := by
  unfold giveUp at h
  split at h
  · cases h
  · rename_i system' hk
    exact ⟨system', hk, (Option.some.inj h).symm⟩

-- A module that is accepted has been through all of load_module.
theorem prepareModule_ready {mod moduleMemory total : BitVec 64} {system' : Heap.System} {w : Work}
    (h : prepareModule ksymtab name fileBuffer fileSize system =
      some (.ready mod moduleMemory total system' w)) :
    ∃ shdrs system1 t w1 system2,
      Imaged fileBuffer fileSize system shdrs total moduleMemory system1 ∧
      Linked ksymtab fileBuffer fileSize shdrs system1
        (placedWork fileBuffer shdrs moduleMemory system1) t w1 mod system2 ∧
      w = fillModule t name mod moduleMemory total { w1 with mem := system2.mem } ∧
      system' = system2.setMem w.mem := by
  rcases prepareModule_cases h with he | ⟨_, _, _, he⟩ | ⟨shdrs, total', mm, system1, himage, hlink⟩
  · cases he
  · cases he
  · rcases linkModule_cases hlink with ⟨w', _, hg⟩ | ⟨t, w1, system2, _, _, _, hg⟩ |
      ⟨t, w1, mod', system2, hl, he⟩
    · obtain ⟨_, _, he⟩ := giveUp_failed hg
      cases he
    · obtain ⟨_, _, he⟩ := giveUp_failed hg
      cases he
    · injection he with h1 h2 h3 h4 h5
      subst h1 h2 h3 h5
      exact ⟨shdrs, system1, t, w1, system2, himage, hl, rfl, h4⟩

theorem prepareModule_linked {t : Tables} {w1 : Work} {mod : BitVec 64} {system1 system2 : Heap.System}
    (hname : name ≠ 0) (hfile : fileBuffer ≠ 0)
    (himage : Imaged fileBuffer fileSize system shdrs total moduleMemory system1)
    (hlinked : Linked ksymtab fileBuffer fileSize shdrs system1
      (placedWork fileBuffer shdrs moduleMemory system1) t w1 mod system2) :
    prepareModule ksymtab name fileBuffer fileSize system = some (.ready mod moduleMemory total
      (system2.setMem (fillModule t name mod moduleMemory total { w1 with mem := system2.mem }).mem)
      (fillModule t name mod moduleMemory total { w1 with mem := system2.mem })) := by
  have hargs : ¬(name = 0 ∨ fileBuffer = 0) := not_or.mpr ⟨hname, hfile⟩
  have hvalid := himage.valid
  unfold prepareModule
  dsimp only
  rw [if_neg hargs, hvalid, ← himage.shdrs_eq, himage.total_eq]
  dsimp only
  rw [himage.image]
  dsimp only
  rw [if_neg himage.image_ne]
  have hwork := hlinked.tables
  have hrel := hlinked.relocated
  unfold placedWork at hwork hrel
  unfold linkModule
  rw [hwork]
  dsimp only
  rw [hrel]
  dsimp only
  rw [hlinked.record]
  dsimp only
  rw [if_neg hlinked.record_ne]
  rfl

section Load

variable {call : BitVec 64 → Heap.System → Option Heap.System} {l : Loaded}

-- load_module gives up, or it calls module_init once if there is one.
theorem loadModule_cases (h : loadModule ksymtab name fileBuffer fileSize call system = some l) :
    (∃ system' w, prepareModule ksymtab name fileBuffer fileSize system = some (.failed system' w) ∧
      l = ⟨0, system', []⟩) ∨
    ∃ mod moduleMemory total system' w, prepareModule ksymtab name fileBuffer fileSize system =
        some (.ready mod moduleMemory total system' w) ∧
      ((system'.mem.load64 (mod + 80) = 0 ∧ l = ⟨mod, system', []⟩) ∨
        (system'.mem.load64 (mod + 80) ≠ 0 ∧
          ∃ after, call (system'.mem.load64 (mod + 80)) system' = some after ∧
            l = ⟨mod, after, [system'.mem.load64 (mod + 80)]⟩)) := by
  unfold loadModule at h
  split at h
  · cases h
  · rename_i system' w hp
    exact Or.inl ⟨system', w, hp, (Option.some.inj h).symm⟩
  · rename_i mod moduleMemory total system' w hp
    refine Or.inr ⟨mod, moduleMemory, total, system', w, hp, ?_⟩
    dsimp only at h
    split at h
    · rename_i hz
      exact Or.inl ⟨hz, (Option.some.inj h).symm⟩
    · rename_i hz
      split at h
      · cases h
      · rename_i after hcall
        exact Or.inr ⟨hz, after, hcall, (Option.some.inj h).symm⟩

-- It accepts a module if it comes to the end of its work.
theorem loadModule_accepted (h : loadModule ksymtab name fileBuffer fileSize call system = some l)
    (hmod : l.mod ≠ 0) :
    ∃ moduleMemory total system' w, prepareModule ksymtab name fileBuffer fileSize system =
      some (.ready l.mod moduleMemory total system' w) := by
  rcases loadModule_cases h with ⟨system', w, -, rfl⟩ |
    ⟨mod, moduleMemory, total, system', w, hp, ⟨-, rfl⟩ | ⟨-, after, -, rfl⟩⟩
  · exact absurd rfl hmod
  · exact ⟨moduleMemory, total, system', w, hp⟩
  · exact ⟨moduleMemory, total, system', w, hp⟩

theorem loadModule_called {mod moduleMemory total : BitVec 64} {system' : Heap.System} {w : Work}
    (h : loadModule ksymtab name fileBuffer fileSize call system = some l)
    (hp : prepareModule ksymtab name fileBuffer fileSize system =
      some (.ready mod moduleMemory total system' w)) :
    l.called = if system'.mem.load64 (mod + 80) = 0 then [] else [system'.mem.load64 (mod + 80)] := by
  rcases loadModule_cases h with ⟨_, _, hp', -⟩ | ⟨mod', mm', total', before, w', hp', hcall⟩
  · cases hp.symm.trans hp'
  · cases hp.symm.trans hp'
    rcases hcall with ⟨hz, rfl⟩ | ⟨hz, after, -, rfl⟩
    · rw [if_pos hz]
    · rw [if_neg hz]

end Load

end Prepare

end Miyabi.Modules
