import Miyabi.Modules.Loader.Booted

namespace Miyabi.Modules

open Miyabi.Base Miyabi.Base.Memory Miyabi.Elf Miyabi.Mm Miyabi.Mm.Heap

-- An address that both passes give a section for an image at `base`.
def Placement.From (base : BitVec 64) (p : Placement) : Prop :=
  ∃ offset, p.addr = base + alignOffset offset p.align

section Offsets

variable {align offset base : BitVec 64} {k : ℕ}

-- Rounding leaves a multiple of a power of two also where it wraps.
theorem alignOffset_dvd (h : align.toNat = 2 ^ k) : 2 ^ k ∣ (alignOffset offset align).toNat := by
  unfold alignOffset
  split
  · have hm : (align - 1).toNat = 2 ^ k - 1 := by
      rw [Word.toNat_sub_one align (by rw [h]; exact Nat.two_pow_pos k), h]
    rw [Word.toNat_and_not_mask _ _ k hm]
    exact Nat.dvd_mul_left _ _
  · rename_i hle
    have hone : align.toNat ≤ 1 := BitVec.not_lt.mp hle
    have hpow : 2 ^ k = 1 := le_antisymm (h ▸ hone) (Nat.one_le_two_pow)
    rw [hpow]
    exact one_dvd _

theorem dvd_add_alignOffset (h : align.toNat = 2 ^ k) :
    2 ^ k ∣ (base + alignOffset offset align).toNat ↔ 2 ^ k ∣ base.toNat := by
  have hk : k < 64 := by
    have hlt := align.isLt
    rw [h] at hlt
    exact (Nat.pow_lt_pow_iff_right (by decide)).mp hlt
  have hword : 2 ^ k ∣ 2 ^ 64 := pow_dvd_pow 2 hk.le
  rw [BitVec.toNat_add, Nat.dvd_mod_iff hword]
  exact (Nat.dvd_add_iff_left (alignOffset_dvd h)).symm

theorem Placement.From.dvd_iff {p : Placement} (hp : p.From base) (h : p.align.toNat = 2 ^ k) :
    2 ^ k ∣ p.addr.toNat ↔ 2 ^ k ∣ base.toNat := by
  obtain ⟨offset, haddr⟩ := hp
  rw [haddr]
  exact dvd_add_alignOffset h

end Offsets

-- Only the second pass places sections.
theorem keeps_placed : Stepwise fun w w' => w'.placed = w.placed where
  refl _ := rfl
  trans _ _ _ h h' := h'.trans h
  store8 _ _ _ := rfl
  store64 _ _ _ := rfl
  patch relType symVal addend place w := by
    unfold patch
    dsimp only
    split
    · rfl
    · split
      · rfl
      · split
        · rfl
        · split <;> rfl

section Sections

variable (ehdr shdrs fileBuffer moduleMemory : BitVec 64)

theorem placeSection_placed (offset sh : BitVec 64) (w : Work) :
    (placeSection fileBuffer moduleMemory offset sh w).placed =
      ⟨sh, shAddralign w.mem sh, shSize w.mem sh, moduleMemory + offset⟩ :: w.placed :=
  keeps_placed.placeSection fileBuffer moduleMemory offset sh w

theorem placeSections_from (fuel i : ℕ) (offset : BitVec 64) (w : Work)
    (hw : ∀ p ∈ w.placed, p.From moduleMemory) :
    ∀ p ∈ (placeSections ehdr shdrs fileBuffer moduleMemory fuel i offset w).2.placed,
      p.From moduleMemory := by
  induction fuel generalizing i offset w with
  | zero => exact hw
  | succ fuel ih =>
      rw [placeSections]
      split
      · dsimp only
        split
        · apply ih
          rw [placeSection_placed, List.forall_mem_cons]
          exact ⟨⟨offset, rfl⟩, hw⟩
        · exact ih (i + 1) offset w hw
      · exact hw

end Sections

section Accepted

variable {ksymtab : KernelSymbols} {name fileBuffer fileSize : BitVec 64} {system : Heap.System}

-- The sections of an accepted module lie at aligned offsets of its image.
theorem ready_placed {mod moduleMemory total : BitVec 64} {system' : Heap.System} {w : Work}
    (h : prepareModule ksymtab name fileBuffer fileSize system =
      some (.ready mod moduleMemory total system' w)) :
    ∀ p ∈ w.placed, p.From moduleMemory := by
  obtain ⟨shdrs, system1, t, w1, system2, himage, hlinked, rfl, -⟩ := prepareModule_ready h
  have hfill := keeps_placed.fillModule t name mod moduleMemory total { w1 with mem := system2.mem }
  have hrelocated := keeps_placed.relocateSections ksymtab t fileBuffer fileSize (2 ^ 16) 0
    (placedWork fileBuffer shdrs moduleMemory system1)
  rw [hlinked.relocated] at hrelocated
  rw [hfill]
  show ∀ p ∈ w1.placed, p.From moduleMemory
  rw [show w1.placed = _ from hrelocated]
  exact placeSections_from fileBuffer shdrs fileBuffer moduleMemory _ 0 0 _ (by simp)

end Accepted

section Alignment

variable (ksymtab : KernelSymbols) (name fileBuffer fileSize : BitVec 64)
variable (call : BitVec 64 → Heap.System → Option Heap.System) (system : Heap.System) (l : Loaded)

-- The sections that ask for a power of two are aligned exactly if the pointer of the
-- block that serves the image is a multiple of each of them: the passes align offsets.
theorem sections_aligned_iff
    (h : loadModule ksymtab name fileBuffer fileSize call system = some l) (hmod : l.mod ≠ 0) :
    ∃ moduleMemory total system' w, prepareModule ksymtab name fileBuffer fileSize system =
      some (.ready l.mod moduleMemory total system' w) ∧
      ((∀ p ∈ w.placed, ∀ k, p.align.toNat = 2 ^ k → 2 ^ k ∣ p.addr.toNat) ↔
        ∀ b, Serves system.heap total b →
          ∀ p ∈ w.placed, ∀ k, p.align.toNat = 2 ^ k → 2 ^ k ∣ (b + headerSize).toNat) := by
  obtain ⟨moduleMemory, total, system', w, hp⟩ := loadModule_accepted h hmod
  have hplaced := ready_placed hp
  obtain ⟨shdrs, system1, t, w1, system2, himage, -⟩ := prepareModule_ready hp
  obtain ⟨b, hserves, hptr⟩ := kmalloc_serves himage.image himage.image_ne
  refine ⟨moduleMemory, total, system', w, hp, ?_⟩
  constructor
  · intro hall c hc p hpw k hk
    rw [hc.unique hserves, ← hptr]
    exact ((hplaced p hpw).dvd_iff hk).mp (hall p hpw k hk)
  · intro hall p hpw k hk
    have hbase := hall b hserves p hpw k hk
    rw [← hptr] at hbase
    exact ((hplaced p hpw).dvd_iff hk).mpr hbase

end Alignment

theorem sections_aligned_sample :
    ∃ s0 total system' w, boot sampleMemory sampleFrames = some s0 ∧
      prepareModule [] sampleName sampleFile 404 s0 =
        some (.ready sampleMod sampleImage total system' w) ∧
      ((∀ p ∈ w.placed, ∀ k, p.align.toNat = 2 ^ k → 2 ^ k ∣ p.addr.toNat) ↔
        ∀ b, Serves s0.heap total b →
          ∀ p ∈ w.placed, ∀ k, p.align.toNat = 2 ^ k → 2 ^ k ∣ (b + headerSize).toNat) := by
  obtain ⟨s0, hb, -⟩ := boot_invariant sampleMemory sampleFrames sampleFrames_ne
  obtain ⟨moduleMemory, total, system', w, hp, hiff⟩ := sections_aligned_iff [] sampleName sampleFile
    404 (fun _ s => some s) s0 _ (sample_loaded hb) sampleMod_ne
  have heq := (sample_prepared hb).symm.trans hp
  injection heq with heq
  injection heq with _ hmm _ _ _
  exact ⟨s0, total, system', w, hb, hmm ▸ hp, hiff⟩

-- The .bss that asks for 16 is put at 0xFFFFFFFFC0000018.
theorem section_unaligned :
    ∃ s0 l moduleMemory total system' w, boot sampleMemory sampleFrames = some s0 ∧
      loadModule [] sampleName sampleFile 404 (fun _ s => some s) s0 = some l ∧ l.mod ≠ 0 ∧
      prepareModule [] sampleName sampleFile 404 s0 =
        some (.ready l.mod moduleMemory total system' w) ∧
      ∃ p ∈ w.placed, p.align = 16 ∧ p.addr = 0xFFFFFFFFC0000018 ∧
        ¬p.align.toNat ∣ p.addr.toNat := by
  obtain ⟨s0, hb, -⟩ := boot_invariant sampleMemory sampleFrames sampleFrames_ne
  refine ⟨s0, _, _, _, _, _, hb, sample_loaded hb, sampleMod_ne, sample_prepared hb, ?_⟩
  rw [sample_placed]
  exact ⟨_, List.mem_cons_self, rfl, by decide, by decide⟩

end Miyabi.Modules
