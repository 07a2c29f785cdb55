import Miyabi.Base.Transition
import Miyabi.Mm.Boot.Supply
import Miyabi.Mm.Vmm.Writes

namespace Miyabi.Mm.Vmm

open Miyabi.Base Miyabi.Base.Memory Miyabi.Base.TableTree

-- src/mm/vmm.c: address spaces

-- The first n turns of the loop that copies the entries from number 256 on.
def copyUpper (m : Memory 64) (newPml4 pml4 : BitVec 64) : ℕ → Memory 64
  | 0 => m
  | n + 1 =>
      let m := copyUpper m newPml4 pml4 n
      let i := BitVec.ofNat 64 (256 + n)
      writeEntry m newPml4 i (readEntry m pml4 i)

def vmmCreateUserPml4 {σ : Type} (alloc : Memory 64 → σ → BitVec 64 × Memory 64 × σ) (s : State σ) :
    BitVec 64 × State σ :=
  let (pml4Phys, s) := s.pmmAlloc alloc
  if pml4Phys = 0 then (0, s)
  else
    let newPml4 := s.physToVirt pml4Phys
    let mem := zeroTable s.mem newPml4 256
    (pml4Phys, { s with mem := copyUpper mem newPml4 s.pml4 256 })

-- The memory manager with the register cr3, the kernel's PML4 and the ones that
-- vmm_create_user_pml4 has returned so far.
structure Spaces (σ : Type) where
  vmm : State σ
  cr3 : BitVec 64
  kernel : BitVec 64
  created : List (BitVec 64)

namespace Spaces

section Steps

variable {σ : Type} (alloc : Memory 64 → σ → BitVec 64 × Memory 64 × σ)

abbrev mem (s : Spaces σ) : Memory 64 := s.vmm.mem
abbrev hhdm (s : Spaces σ) : BitVec 64 := s.vmm.hhdmOffset

def roots (s : Spaces σ) : List (BitVec 64) := s.kernel :: s.created

-- The PML4 that is in force.
def current (s : Spaces σ) : BitVec 64 := s.cr3 &&& ~~~0xFFF

def create (s : Spaces σ) : Spaces σ :=
  let (pml4Phys, vmm) := vmmCreateUserPml4 alloc s.vmm
  { s with vmm, created := if pml4Phys = 0 then s.created else s.created ++ [pml4Phys] }

def vmmSwitchPml4 (pml4Phys : BitVec 64) (s : Spaces σ) : Spaces σ :=
  { s with
    vmm := { s.vmm with pml4 := s.vmm.physToVirt (pml4Phys &&& ~~~0xFFF) }
    cr3 := pml4Phys }

inductive Op where
  | create
  | switch (pml4Phys : BitVec 64)
  | map (virt phys flags : BitVec 64)

def Op.Maps : Op → Prop
  | .map _ _ _ => True
  | _ => False

def step (s : Spaces σ) : Op → Option (Spaces σ)
  | .create => some (s.create alloc)
  | .switch pml4Phys => some (s.vmmSwitchPml4 pml4Phys)
  | .map virt phys flags =>
      match vmmMapPage alloc virt phys flags s.vmm with
      | none => none
      | some vmm => some { s with vmm }

-- vmm_switch_pml4 has set the static of vmm.c and cr3 to the same PML4.
structure Switched (s : Spaces σ) : Prop where
  pml4 : s.vmm.pml4 = s.current + s.hhdm
  current : s.current ∈ s.roots

-- The state that init_vmm leaves: only the kernel's PML4.
structure Booted (s : Spaces σ) : Prop where
  switched : s.Switched
  created : s.created = []

theorem Booted.roots_eq {s : Spaces σ} (h : Booted s) {root : BitVec 64} (hr : root ∈ s.roots) :
    root = s.current := by
  have hcur := h.switched.current
  rw [roots, h.created] at hr hcur
  rw [List.mem_singleton.mp hr, List.mem_singleton.mp hcur]

end Steps

end Spaces

section Create

variable {hhdm p cur : BitVec 64} {m : Memory 64}

theorem copyUpper_spec (hp : Aligned p) (hcur : Aligned cur) (hne : p ≠ cur) (n : ℕ) (hn : n ≤ 256) :
    KeepsOutside m (copyUpper m (p + hhdm) (cur + hhdm) n) (p + hhdm) 4096 ∧
      ∀ i : BitVec 9, slot hhdm (copyUpper m (p + hhdm) (cur + hhdm) n) p i =
        if 256 ≤ i.toNat ∧ i.toNat < 256 + n then slot hhdm m cur i else slot hhdm m p i := by
  induction n with
  | zero =>
      refine ⟨fun _ _ => rfl, fun i => ?_⟩
      rw [if_neg (by omega)]
      rfl
  | succ n ih =>
      obtain ⟨hkeep, hslot⟩ := ih (by omega)
      have hindex := ofNat_index (256 + n) (by omega)
      simp only [copyUpper]
      generalize copyUpper m (p + hhdm) (cur + hhdm) n = m1 at hkeep hslot ⊢
      rw [hindex]
      generalize hk : BitVec.ofNat 9 (256 + n) = k
      have hnat : k.toNat = 256 + n := by
        rw [← hk, BitVec.toNat_ofNat]
        omega
      have hread : readEntry m1 (cur + hhdm) (k.setWidth 64) = slot hhdm m cur k :=
        slot_congr hcur (hkeep.agree (pages_apart hcur hp (Ne.symm hne))) k
      refine ⟨hkeep.trans (writeEntry_keeps hp k _), fun i => ?_⟩
      rw [hread]
      by_cases hi : i = k
      · rw [hi, slot_writeEntry_same, if_pos (by omega)]
      · have hine : i.toNat ≠ k.toNat := fun he => hi (BitVec.eq_of_toNat_eq he)
        rw [slot_writeEntry_ne hp hp (fun h => hi h.2), hslot]
        congr 1
        simp only [eq_iff_iff]
        omega

-- The new PML4: an empty lower half, and the upper half of the current one.
structure Created (hhdm : BitVec 64) (m m' : Memory 64) (cur p : BitVec 64) : Prop where
  outside : KeepsOutside m m' (p + hhdm) 4096
  lower : ∀ i : BitVec 9, i.toNat < 256 → slot hhdm m' p i = 0
  upper : ∀ i : BitVec 9, 256 ≤ i.toNat → slot hhdm m' p i = slot hhdm m cur i

theorem created_spec (hp : Aligned p) (hcur : Aligned cur) (hne : p ≠ cur) :
    Created hhdm m (copyUpper (zeroTable m (p + hhdm) 256) (p + hhdm) (cur + hhdm) 256) cur p := by
  obtain ⟨hzero, hkeep⟩ := zeroTable_spec hhdm m hp 256 (by omega)
  obtain ⟨hkeep', hslot⟩ := copyUpper_spec (m := zeroTable m (p + hhdm) 256) hp hcur hne 256 le_rfl
  refine ⟨hkeep.trans hkeep', fun i hi => ?_, fun i hi => ?_⟩
  · rw [hslot, if_neg (by omega)]
    exact hzero i hi
  · have hlt := (toNat_index i).2
    rw [hslot, if_pos (by omega)]
    exact slot_congr hcur (hkeep.agree (pages_apart hcur hp (Ne.symm hne))) i

end Create

namespace Spaces

variable {σ : Type} {alloc : Memory 64 → σ → BitVec 64 × Memory 64 × σ} {s s' : Spaces σ}

theorem current_aligned (s : Spaces σ) : Aligned s.current := aligned_and_not_low s.cr3

-- What pmm_alloc returns next, and the memory that it leaves.
def next (alloc : Memory 64 → σ → BitVec 64 × Memory 64 × σ) (s : Spaces σ) : BitVec 64 :=
  (alloc s.mem s.vmm.frames).1

def afterNext (alloc : Memory 64 → σ → BitVec 64 × Memory 64 × σ) (s : Spaces σ) : Memory 64 :=
  (alloc s.mem s.vmm.frames).2.1

theorem afterNext_keeps {R : Set (BitVec 64)} (hfoot : Footprint alloc R) (s : Spaces σ) :
    ∀ x, x ∉ R → s.afterNext alloc x = s.mem x :=
  hfoot s.mem s.vmm.frames

-- The registers and the pointers are kept.
structure SameRoot (s s' : Spaces σ) : Prop where
  hhdm : s'.hhdm = s.hhdm
  kernel : s'.kernel = s.kernel
  cr3 : s'.cr3 = s.cr3
  pml4 : s'.vmm.pml4 = s.vmm.pml4

theorem SameRoot.current (h : SameRoot s s') : s'.current = s.current := by
  rw [Spaces.current, h.cr3, Spaces.current]

theorem create_none (h : s.next alloc = 0) :
    SameRoot s (s.create alloc) ∧ (s.create alloc).created = s.created ∧
      (s.create alloc).mem = s.afterNext alloc := by
  have hcall : (alloc s.vmm.mem s.vmm.frames).1 = 0 := h
  unfold create vmmCreateUserPml4 State.pmmAlloc
  simp only [hcall, if_true]
  exact ⟨⟨rfl, rfl, rfl, rfl⟩, trivial, rfl⟩

theorem create_some (alloc : Memory 64 → σ → BitVec 64 × Memory 64 × σ) (hs : s.Switched)
    (h : s.next alloc ≠ 0) (hal : Aligned (s.next alloc)) (hne : s.next alloc ≠ s.current) :
    SameRoot s (s.create alloc) ∧ (s.create alloc).created = s.created ++ [s.next alloc] ∧
      Created s.hhdm (s.afterNext alloc) (s.create alloc).mem s.current (s.next alloc) ∧
      (s.create alloc).vmm.frames = (alloc s.mem s.vmm.frames).2.2 := by
  have hcreated : Created s.hhdm (s.afterNext alloc) _ s.current (s.next alloc) :=
    created_spec hal s.current_aligned hne
  rw [← hs.pml4] at hcreated
  have hcall : ¬(alloc s.vmm.mem s.vmm.frames).1 = 0 := h
  unfold create vmmCreateUserPml4 State.pmmAlloc
  simp only [hcall, if_false]
  exact ⟨⟨rfl, rfl, rfl, rfl⟩, rfl, hcreated, trivial⟩

theorem map_cases {virt phys flags : BitVec 64} (h : step alloc s (.map virt phys flags) = some s') :
    ∃ vmm new, vmmMapPage alloc virt phys flags s.vmm = some vmm ∧ Logged s.vmm vmm new ∧
      s' = { s with vmm } := by
  unfold step at h
  cases hmap : vmmMapPage alloc virt phys flags s.vmm with
  | none => simp only [hmap] at h; cases h
  | some vmm =>
      simp only [hmap] at h
      obtain ⟨new, hlog⟩ := vmmMapPage_logged hmap
      exact ⟨vmm, new, rfl, hlog, (Option.some.inj h).symm⟩

theorem Switched.kept (hs : s.Switched) (h : SameRoot s s') (hroots : ∀ r ∈ s.roots, r ∈ s'.roots) :
    s'.Switched := by
  refine ⟨?_, ?_⟩
  · rw [h.pml4, hs.pml4, h.current, h.hhdm]
  · rw [h.current]
    exact hroots _ hs.current

theorem switch_switched {pml4Phys : BitVec 64} (h : pml4Phys &&& ~~~0xFFF ∈ s.roots) :
    (s.vmmSwitchPml4 pml4Phys).Switched :=
  ⟨rfl, h⟩

section Sample

open Miyabi.Mm.Boot

-- A kernel in frame 1 with nothing mapped, next to the bitmap of pmm_alloc in frame 0.
def quietKernel : Spaces (List Returned) :=
  ⟨⟨lowBitmap 0xFF03, 0xFFFF800000000000, 0xFFFF800000001000, [], []⟩, 0x1000, 0x1000, []⟩

-- With the PML4 that vmm_create_user_pml4 makes in frame 2.
abbrev quietSpaces : Spaces (List Returned) := quietKernel.create (bitmapAlloc lowPmm)

theorem quietKernel_booted : Booted quietKernel := ⟨⟨by decide, by decide⟩, rfl⟩

theorem quietKernel_next : quietKernel.next (bitmapAlloc lowPmm) = 0x2000 := by decide +kernel

theorem quietKernel_created : SameRoot quietKernel quietSpaces ∧ quietSpaces.created = [0x2000] ∧
    Created 0xFFFF800000000000 (quietKernel.afterNext (bitmapAlloc lowPmm)) quietSpaces.mem 0x1000
      0x2000 := by
  have hsome := create_some (bitmapAlloc lowPmm) quietKernel_booted.switched
  rw [quietKernel_next] at hsome
  obtain ⟨hroot, hcreated, hnew, -⟩ := hsome (by decide) (by simp [Aligned]) (by decide)
  exact ⟨hroot, hcreated, hnew⟩

theorem quietSpaces_roots : quietSpaces.roots = [0x1000, 0x2000] := by
  obtain ⟨hroot, hcreated, -⟩ := quietKernel_created
  rw [roots, hcreated, hroot.kernel]
  rfl

-- Frames 3 to 7 are still free.
theorem quietSpaces_bitmap : ∀ x ∈ bitmapRegion lowPmm, quietSpaces.mem x = lowBitmap 0xFF07 x := by
  intro x hx
  obtain ⟨-, -, hnew⟩ := quietKernel_created
  have hout : ¬InRange (0x2000 + 0xFFFF800000000000) 4096 x :=
    fun hin => lowPmm_spares (f := 0x2000) rfl (by decide) x hin hx
  rw [hnew.outside x hout]
  have hbytes : ∀ i < 2, quietKernel.afterNext (bitmapAlloc lowPmm)
      (0xFFFF800000000000 + BitVec.ofNat 64 i) = lowBitmap 0xFF07 (0xFFFF800000000000 + BitVec.ofNat 64 i) := by
    decide +kernel
  obtain ⟨i, hi, rfl⟩ := exists_offset 0xFFFF800000000000 x 2 hx
  exact hbytes i hi

theorem quietKernel_slot {f : BitVec 64} (hal : Aligned f) (hf : f ≠ 0) (i : BitVec 9) :
    slot quietKernel.hhdm quietKernel.mem f i = 0 :=
  lowBitmap_slot 0xFF03 hal hf i

-- Both PML4s are empty.
theorem quietSpaces_slot {f : BitVec 64} (hf : f ∈ quietSpaces.roots) (i : BitVec 9) :
    slot quietSpaces.hhdm quietSpaces.mem f i = 0 := by
  obtain ⟨hroot, -, hnew⟩ := quietKernel_created
  have hoffset : quietSpaces.hhdm = 0xFFFF800000000000 := hroot.hhdm
  have hkernel : Aligned (0x1000 : BitVec 64) := show (0x1000 : BitVec 64).toNat % 4096 = 0 by decide
  have huser : Aligned (0x2000 : BitVec 64) := show (0x2000 : BitVec 64).toNat % 4096 = 0 by decide
  have hempty : slot 0xFFFF800000000000 (quietKernel.afterNext (bitmapAlloc lowPmm)) 0x1000 i = 0 := by
    rw [slot_congr hkernel (fun x hx => afterNext_keeps lowPmm_footprint quietKernel x
      (lowPmm_spares hkernel (by decide) x hx))]
    exact quietKernel_slot hkernel (by decide) i
  rw [hoffset]
  rw [quietSpaces_roots] at hf
  rcases List.mem_pair.mp hf with rfl | rfl
  · rw [slot_congr hkernel (hnew.outside.agree (pages_apart hkernel huser (by decide)))]
    exact hempty
  · by_cases hi : i.toNat < 256
    · exact hnew.lower i hi
    · rw [hnew.upper i (Nat.le_of_not_lt hi)]
      exact hempty

theorem quietSpaces_table {root f : BitVec 64} (hroot : root ∈ quietSpaces.roots)
    (hf : f ∈ tables everywhere quietSpaces.hhdm quietSpaces.mem root) : f ∈ quietSpaces.roots := by
  rw [tables_empty (quietSpaces_slot hroot) hf]
  exact hroot

theorem quietSpaces_free {p : BitVec 64} (hp : p ∈ lowFrames 0xFF07) : p ∉ quietSpaces.roots := by
  rw [quietSpaces_roots]
  intro hin
  rcases List.mem_pair.mp hin with rfl | rfl <;> exact absurd hp (by decide +kernel)

-- A map under the kernel's PML4 takes its tables from the free frames.
theorem quietSpaces_maps (virt phys flags : BitVec 64) :
    ∃ vmm new rest, vmmMapPage (bitmapAlloc lowPmm) virt phys flags quietSpaces.vmm = some vmm ∧
      Logged quietSpaces.vmm vmm new ∧ lowFrames 0xFF07 = new ++ rest := by
  obtain ⟨hroot, -, -⟩ := quietKernel_created
  have hoffset : quietSpaces.hhdm = 0xFFFF800000000000 := hroot.hhdm
  have hkernel : (0x1000 : BitVec 64) ∈ quietSpaces.roots := by
    rw [quietSpaces_roots]
    exact List.mem_cons_self
  have hempty := quietSpaces_slot hkernel
  have honly := fun {f} => quietSpaces_table (f := f) hkernel
  rw [hoffset] at hempty honly
  have hal : Aligned (0x1000 : BitVec 64) := show (0x1000 : BitVec 64).toNat % 4096 = 0 by decide
  have hfresh : Fresh everywhere (bitmapRegion lowPmm) 0xFFFF800000000000 0x1000 quietSpaces.mem
      (lowFrames 0xFF07) :=
    lowFrames_fresh (fun p hp hin => quietSpaces_free hp (honly hin))
  have hpml4 : quietSpaces.vmm.pml4 = 0x1000 + 0xFFFF800000000000 := hroot.pml4.trans (by decide)
  have hplain : PlainWalk 0xFFFF800000000000 quietSpaces.mem 0x1000 (pageNumber virt) := by
    intro path i f _ hf hpres
    rw [(lookup_empty hempty hf).2, hempty] at hpres
    exact absurd (by decide) hpres
  have hlen : 3 ≤ (lowFrames 0xFF07).length := by decide +kernel
  obtain ⟨vmm, new, rest, he, hlog, -, hl, -⟩ := vmmMapPage_draws phys flags
    lowPmm_footprint hoffset hpml4 (tree_empty hal hempty)
    (fun f hf => tables_empty hempty hf ▸ lowPmm_spares hal (by decide)) trivial hplain
    (lowPmm_upcoming 0xFF07 quietSpaces_bitmap quietSpaces.vmm.frames) hlen
    (fun p hp => (lowFrames_cases hp).2.1) hfresh
  exact ⟨vmm, new, rest, he, hlog, hl⟩

end Sample

end Spaces

-- The upper half is the addresses with bit 47 set.
def UpperHalf (virt : BitVec 64) : Prop := virt.getLsbD 47 = true

instance (virt : BitVec 64) : Decidable (UpperHalf virt) := inferInstanceAs (Decidable (_ = _))

-- The root entries of the lower half.
abbrev lowerSlots : BitVec 9 → Prop := fun i => i.toNat < 256

theorem upperHalf_iff (virt : BitVec 64) :
    UpperHalf virt ↔ 256 ≤ ((pageNumber virt).extractLsb' 27 9).toNat := by
  rw [UpperHalf, BitVec.getLsbD, Nat.testBit_eq_decide_div_mod_eq, decide_eq_true_iff,
    BitVec.extractLsb'_toNat, pageNumber, BitVec.extractLsb'_toNat, Nat.shiftRight_eq_div_pow,
    Nat.shiftRight_eq_div_pow]
  omega

end Miyabi.Mm.Vmm
