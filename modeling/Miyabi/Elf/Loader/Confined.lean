import Miyabi.Elf.Loader.Theorems
import Miyabi.Elf.Loader.Turn

namespace Miyabi.Elf.Loader

open Miyabi.Base Miyabi.Base.Memory Miyabi.Base.TableTree Miyabi.Mm Miyabi.Mm.Vmm

-- src/main.c: the address space of a program, created and switched to.
def userSpace {σ : Type} (alloc : Memory 64 → σ → BitVec 64 × Memory 64 × σ) (s : Spaces σ) :
    Spaces σ :=
  (s.create alloc).vmmSwitchPml4 (s.next alloc)

-- The frames that are tables under a PML4: those of its tree, and those that the
-- processor reads an entry in. They differ where a root entry has PTE_HUGE only.
def tablesOf (hhdm : BitVec 64) (m : Memory 64) (root : BitVec 64) : Set (BitVec 64) :=
  {f | f ∈ tables everywhere hhdm m root ∨ ∃ virt, f ∈ walkTables hhdm m root virt}

-- The upper half, under both PML4s, maps and allows what it did.
def KernelHalfKept (hhdm : BitVec 64) (m m' : Memory 64) (user kernel : BitVec 64) : Prop :=
  ∀ virt, UpperHalf virt →
    pageAccess hhdm m' user virt = pageAccess hhdm m user virt ∧
      pageAccess hhdm m' kernel virt = pageAccess hhdm m kernel virt

-- A segment of the lower half, or one without pages.
def Segment.Below (seg : Segment) : Prop :=
  seg.numPages ≠ 0 → seg.vaddr.toNat + seg.memsz.toNat ≤ 2 ^ 47

instance (seg : Segment) : Decidable seg.Below := inferInstanceAs (Decidable (_ → _))

def LowerPage (page : BitVec 36) : Prop := lowerSlots (page.extractLsb' 27 9)

instance (page : BitVec 36) : Decidable (LowerPage page) := inferInstanceAs (Decidable (_ < _))

section Pages

variable {seg : Segment}

theorem Segment.Below.pages_lower (h : seg.Below) {page : BitVec 36} (hpage : page ∈ seg.pages) :
    LowerPage page := by
  obtain ⟨p, hp, rfl⟩ := List.mem_map.mp hpage
  rw [List.mem_range] at hp
  have hsome : seg.numPages ≠ 0 := by
    intro hz
    rw [hz] at hp
    exact absurd hp (Nat.not_lt_zero p)
  -- The pages do not depend on p_filesz.
  have hlower : Segment.Lower { seg with filesz := 0 } := ⟨h hsome, Nat.zero_le _⟩
  obtain ⟨haddr, hspace⟩ := page_addr hlower hp
  have haddr' : (seg.pageVaddr + BitVec.ofNat 64 p * 0x1000).toNat =
      (seg.vaddr.toNat / 4096 + p) * 4096 := haddr
  dsimp only at hspace
  refine lower_index ?_
  rw [Segment.page]
  generalize seg.pageVaddr + BitVec.ofNat 64 p * 0x1000 = cur at haddr' ⊢
  rw [pageNumber_toNat (by omega)]
  omega

end Pages

section Confined

variable {σ : Type} {alloc : Memory 64 → σ → BitVec 64 × Memory 64 × σ} {R : Set (BitVec 64)}
variable {m0 : Memory 64} {hhdm kernel user : BitVec 64} {front : List (BitVec 64)} {s s' : State σ}

-- All writes since pmm_alloc returned `front` lie in its own region and in these frames,
-- and the upper entries of the new PML4 are the kernel's.
structure Confined (R : Set (BitVec 64)) (m0 : Memory 64) (hhdm kernel user : BitVec 64)
    (front : List (BitVec 64)) (s : State σ) : Prop where
  loading : Loading R lowerSlots hhdm user ∅ front s
  kept : ∀ x, x ∉ R → (∀ p ∈ front, ¬InRange (p + hhdm) 4096 x) → s.mem x = m0 x
  upper : ∀ i : BitVec 9, 256 ≤ i.toNat → slot hhdm s.mem user i = slot hhdm m0 kernel i

theorem Confined.turn {elfBinary phdr : BitVec 64} {seg : Segment} {p : ℕ} {new : List (BitVec 64)}
    (hfoot : Footprint alloc R) (h : Confined R m0 hhdm kernel user front s)
    (hlow : LowerPage (seg.page p))
    (he : loadPage alloc elfBinary phdr seg (BitVec.ofNat 64 p) s = some s')
    (hnew : s'.handed = s.handed ++ new) (hresults : Results R hhdm ∅ (front ++ new)) :
    Confined R m0 hhdm kernel user (front ++ new) s' := by
  obtain ⟨hload, hturned⟩ := loadPage_turned hfoot h.loading hlow he hnew hresults
  refine ⟨hload, ?_, ?_⟩
  · intro x hR hx
    have hfront := fun q hq => hx q (List.mem_append_left new hq)
    rw [hturned.outside x hR ?_ (fun q hq => hx q (List.mem_append_right front hq))]
    · exact h.kept x hR hfront
    · intro f hf
      rcases h.loading.tables f hf with hold | hin
      · cases hold
      · exact hfront f hin.1
  · intro i hi
    rw [hturned.slots i ?_]
    · exact h.upper i hi
    · rintro rfl
      exact absurd hlow (Nat.not_lt.mpr hi)

-- Both PML4s show in the upper half what the kernel's showed before.
theorem Confined.access (h : Confined R m0 hhdm kernel user front s) (hkernel : Aligned kernel)
    (hspare : ∀ f ∈ tablesOf hhdm m0 kernel, Spares R hhdm f)
    (hresults : Results R hhdm (tablesOf hhdm m0 kernel) front) {virt : BitVec 64}
    (hv : UpperHalf virt) :
    pageAccess hhdm s.mem user virt = pageAccess hhdm m0 kernel virt ∧
      pageAccess hhdm s.mem kernel virt = pageAccess hhdm m0 kernel virt := by
  have hagree : ∀ f ∈ walkTables hhdm m0 kernel virt, Agree m0 s.mem (f + hhdm) 4096 := by
    intro f hf x hx
    refine h.kept x (hspare f (Or.inr ⟨virt, hf⟩) x hx) (fun p hp => ?_)
    have hne : f ≠ p := fun he => hresults.unused p hp (Or.inr ⟨virt, by rwa [he] at hf⟩)
    exact pages_apart (walkTables_aligned hkernel hf) (hresults.frame p hp).aligned hne x hx
  refine ⟨?_, ?_⟩
  · have hentry : pml4Entry hhdm s.mem user virt = pml4Entry hhdm m0 kernel virt :=
      h.upper _ ((upperHalf_iff virt).mp hv)
    rw [pageAccess, pageAccess,
      walkEntries_congr hentry (fun f hf => hagree f (List.mem_of_mem_tail hf))]
  · rw [pageAccess, pageAccess, walkEntries_kept hkernel hagree]

end Confined

section Start

variable {σ : Type} {alloc : Memory 64 → σ → BitVec 64 × Memory 64 × σ} {R : Set (BitVec 64)}
variable {s : Spaces σ}

theorem current_mem_tablesOf (s : Spaces σ) : s.current ∈ tablesOf s.hhdm s.mem s.current :=
  Or.inl ⟨[], (walk_prefixClosed _).nil, rfl⟩

theorem userSpace_handed (alloc : Memory 64 → σ → BitVec 64 × Memory 64 × σ) (s : Spaces σ) :
    (userSpace alloc s).vmm.handed = s.vmm.handed ++ [s.next alloc] := by
  unfold userSpace Spaces.create vmmCreateUserPml4 State.pmmAlloc
  simp only [Spaces.vmmSwitchPml4]
  split
  · rfl
  · rfl

-- The new PML4 in the memory that pmm_alloc leaves.
theorem userSpace_created (hs : s.Switched) (hnext : s.next alloc ≠ 0)
    (hresults : Results R s.hhdm (tablesOf s.hhdm s.mem s.current) [s.next alloc]) :
    Aligned (s.next alloc) ∧ (userSpace alloc s).hhdm = s.hhdm ∧
      Created s.hhdm (s.afterNext alloc) (userSpace alloc s).mem s.current (s.next alloc) := by
  have hal : Aligned (s.next alloc) := (hresults.frame _ List.mem_cons_self).aligned
  have hne : s.next alloc ≠ s.current :=
    fun he => hresults.unused _ List.mem_cons_self (he ▸ current_mem_tablesOf s)
  obtain ⟨hroot, -, hnew, -⟩ := Spaces.create_some alloc hs hnext hal hne
  exact ⟨hal, hroot.hhdm, hnew⟩

theorem userSpace_confined (hfoot : Footprint alloc R) (hs : s.Switched) (hnext : s.next alloc ≠ 0)
    (hspare : ∀ f ∈ tablesOf s.hhdm s.mem s.current, Spares R s.hhdm f)
    (hresults : Results R s.hhdm (tablesOf s.hhdm s.mem s.current) [s.next alloc]) :
    Confined R s.mem s.hhdm s.current (s.next alloc) [s.next alloc] (userSpace alloc s).vmm := by
  obtain ⟨hal, hhdm, hnew⟩ := userSpace_created hs hnext hresults
  have htaken := Spaces.afterNext_keeps hfoot s
  obtain ⟨htree, honly⟩ := Spaces.Isolation.plainTree_vacant hal hnew.lower
  have hpml4 : (userSpace alloc s).vmm.pml4 = s.next alloc + s.hhdm := by
    show (s.next alloc &&& ~~~0xFFF) + (s.create alloc).hhdm = _
    rw [and_not_low_of_aligned hal]
    exact congrArg _ hhdm
  refine ⟨⟨hhdm, hpml4, htree.tree, htree.plain, ?_, ?_⟩, ?_, ?_⟩
  · intro f hf
    rw [honly f hf]
    exact Or.inr ⟨List.mem_cons_self, hnext⟩
  · intro f hf
    rw [honly f hf]
    exact hresults.spares _ List.mem_cons_self
  · intro x hR hx
    exact (hnew.outside x (hx _ List.mem_cons_self)).trans (htaken x hR)
  · intro i hi
    have hcurrent : Agree s.mem (s.afterNext alloc) (s.current + s.hhdm) 4096 :=
      fun x hx => htaken x (hspare _ (current_mem_tablesOf s) x hx)
    exact (hnew.upper i hi).trans (slot_congr s.current_aligned hcurrent i)

end Start

end Miyabi.Elf.Loader
