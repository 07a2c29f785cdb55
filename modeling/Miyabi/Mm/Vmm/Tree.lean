import Miyabi.Base.TableTree
import Miyabi.Mm.Vmm.Slots

namespace Miyabi.Mm.Vmm

open Miyabi.Base Miyabi.Base.Memory Miyabi.Base.TableTree

-- Bits 12 to 51 of an entry, which the processor takes as a frame address.
def frameMask : BitVec 64 := 0x000FFFFFFFFFF000

def entryFrame (e : BitVec 64) : BitVec 64 := e &&& frameMask

def Present (e : BitVec 64) : Prop := e &&& ptePresent ≠ 0

instance (e : BitVec 64) : Decidable (Present e) := inferInstanceAs (Decidable (_ ≠ _))

-- Neither PTE_HUGE nor any of the bits above bit 51.
structure Plain (e : BitVec 64) : Prop where
  huge : e &&& pteHuge = 0
  high : e &&& 0xFFF0000000000000 = 0

-- The table that an entry points to.
def child (e : BitVec 64) : Option (BitVec 64) :=
  if e &&& ptePresent ≠ 0 ∧ e &&& pteHuge = 0 then some (entryFrame e) else none

def IsFrame (p : BitVec 64) : Prop := entryFrame p = p

instance (p : BitVec 64) : Decidable (IsFrame p) := inferInstanceAs (Decidable (_ = _))

-- The index paths to tables, from the root entries in `roots` on.
structure Walk (roots : BitVec 9 → Prop) (path : List (BitVec 9)) : Prop where
  length : path.length ≤ 3
  first : ∀ i ∈ path.head?, roots i

-- The roots of a tree that is taken as a whole.
abbrev everywhere : BitVec 9 → Prop := fun _ => True

theorem walk_prefixClosed (roots : BitVec 9 → Prop) : PrefixClosed (Walk roots) := by
  constructor
  · exact ⟨by simp, by simp⟩
  · intro path i h
    refine ⟨?_, ?_⟩
    · have := h.length
      simp at this
      omega
    · cases path with
      | nil => simp
      | cons j rest => exact h.first

abbrev tableAt (hhdm : BitVec 64) (m : Memory 64) (root : BitVec 64) (path : List (BitVec 9)) :
    Option (BitVec 64) :=
  lookup child (slot hhdm m) root path

abbrev tables (roots : BitVec 9 → Prop) (hhdm : BitVec 64) (m : Memory 64) (root : BitVec 64) :
    Set (BitVec 64) :=
  Reached child (Walk roots) (slot hhdm m) root

structure Tree (roots : BitVec 9 → Prop) (hhdm : BitVec 64) (m : Memory 64) (root : BitVec 64) :
    Prop where
  root_aligned : Aligned root
  unshared : Unshared child (Walk roots) (slot hhdm m) root

section EntryBits

variable {e p c : BitVec 64}

theorem or_and (x y c : BitVec 64) : (x ||| y) &&& c = x &&& c ||| y &&& c := by
  rw [BitVec.and_comm, BitVec.and_or_distrib_left, BitVec.and_comm c x, BitVec.and_comm c y]

theorem or_and_of_zero {x y c : BitVec 64} (h : y &&& c = 0) : (x ||| y) &&& c = x &&& c := by
  rw [or_and, h]
  exact BitVec.or_zero

theorem or_and_of_zero_left {x y c : BitVec 64} (h : x &&& c = 0) :
    (x ||| y) &&& c = y &&& c := by
  rw [or_and, h]
  exact BitVec.zero_or

theorem and_eq_zero_of_frame (hp : IsFrame p) (hc : frameMask &&& c = 0) : p &&& c = 0 := by
  rw [← show entryFrame p = p from hp, entryFrame, BitVec.and_assoc, hc]
  exact BitVec.and_zero

theorem entryFrame_isFrame (e : BitVec 64) : IsFrame (entryFrame e) := by
  simp only [IsFrame, entryFrame, BitVec.and_assoc, BitVec.and_self]

theorem IsFrame.aligned (hp : IsFrame p) : Aligned p := by
  have hlow := and_eq_zero_of_frame (c := 0xFFF) hp (by decide)
  have hmod := Word.toNat_and_mask p 0xFFF 12 (by decide)
  rw [hlow] at hmod
  exact hmod.symm

-- The code keeps all bits above bit 11, the processor those up to bit 51.
theorem and_not_low_eq (h : e &&& 0xFFF0000000000000 = 0) : e &&& ~~~0xFFF = entryFrame e := by
  have hmask : (~~~0xFFF : BitVec 64) = frameMask ||| 0xFFF0000000000000 := by decide
  rw [hmask, BitVec.and_or_distrib_left, h]
  exact BitVec.or_zero

theorem Plain.frame (h : Plain e) : e &&& ~~~0xFFF = entryFrame e := and_not_low_eq h.high

theorem child_of_plain (h : Plain e) (hp : Present e) : child e = some (entryFrame e) :=
  if_pos ⟨hp, h.huge⟩

theorem child_of_absent (h : ¬Present e) : child e = none :=
  if_neg (fun hc => h hc.1)

theorem child_some {g : BitVec 64} (h : child e = some g) : Present e ∧ entryFrame e = g := by
  unfold child at h
  split at h
  · rename_i hc
    exact ⟨hc.1, Option.some.inj h⟩
  · cases h

-- The flags that ensure_table adds to a present entry.
theorem plain_or_flags (h : Plain e) : Plain (e ||| (pteUser ||| pteWrite)) := by
  constructor
  · rw [or_and_of_zero (by decide)]
    exact h.huge
  · rw [or_and_of_zero (by decide)]
    exact h.high

theorem entryFrame_or_flags : entryFrame (e ||| (pteUser ||| pteWrite)) = entryFrame e :=
  or_and_of_zero (by decide)

theorem present_or_flags (h : Present e) : Present (e ||| (pteUser ||| pteWrite)) := by
  unfold Present
  rw [or_and_of_zero (by decide)]
  exact h

-- The entry that ensure_table writes for a fresh table.
def tableEntry (p : BitVec 64) : BitVec 64 := p ||| ptePresent ||| pteWrite ||| pteUser

theorem tableEntry_eq (p : BitVec 64) :
    tableEntry p = p ||| (ptePresent ||| pteWrite ||| pteUser) := by
  simp only [tableEntry, BitVec.or_assoc]

theorem tableEntry_and (hp : IsFrame p) (hc : frameMask &&& c = 0) :
    tableEntry p &&& c = (ptePresent ||| pteWrite ||| pteUser) &&& c := by
  rw [tableEntry_eq, or_and_of_zero_left (and_eq_zero_of_frame hp hc)]

theorem tableEntry_plain (hp : IsFrame p) : Plain (tableEntry p) := by
  constructor
  · rw [tableEntry_and hp (by decide)]
    decide
  · rw [tableEntry_and hp (by decide)]
    decide

theorem tableEntry_present (hp : IsFrame p) : Present (tableEntry p) := by
  intro hz
  rw [tableEntry_and hp (by decide)] at hz
  exact absurd hz (by decide)

theorem tableEntry_frame (hp : IsFrame p) : entryFrame (tableEntry p) = p := by
  rw [tableEntry_eq, entryFrame, or_and_of_zero (by decide)]
  exact hp

end EntryBits

section Tables

variable {roots : BitVec 9 → Prop} {hhdm root : BitVec 64} {m m' : Memory 64}

theorem Tree.aligned (h : Tree roots hhdm m root) {path : List (BitVec 9)} {f : BitVec 64}
    (hf : tableAt hhdm m root path = some f) : Aligned f := by
  induction path using List.reverseRecOn with
  | nil =>
      cases hf
      exact h.root_aligned
  | append_singleton path i _ =>
      rw [tableAt, lookup_snoc] at hf
      obtain ⟨t, -, hc⟩ := Option.bind_eq_some_iff.mp hf
      have hframe := (child_some hc).2
      rw [← hframe]
      exact (entryFrame_isFrame _).aligned

theorem Tree.mem_aligned (h : Tree roots hhdm m root) {f : BitVec 64}
    (hf : f ∈ tables roots hhdm m root) : Aligned f := by
  obtain ⟨path, -, hp⟩ := hf
  exact h.aligned hp

-- A tree that consists of its root.
theorem lookup_empty (h : ∀ i, slot hhdm m root i = 0) {path : List (BitVec 9)} {f : BitVec 64}
    (hf : tableAt hhdm m root path = some f) : path = [] ∧ f = root := by
  cases path with
  | nil => exact ⟨rfl, (Option.some.inj hf).symm⟩
  | cons i rest =>
      simp only [tableAt, lookup, h i] at hf
      cases hf

theorem tables_empty (h : ∀ i, slot hhdm m root i = 0) {f : BitVec 64}
    (hf : f ∈ tables roots hhdm m root) : f = root := by
  obtain ⟨path, -, hp⟩ := hf
  exact (lookup_empty h hp).2

theorem tree_empty (hal : Aligned root) (h : ∀ i, slot hhdm m root i = 0) :
    Tree roots hhdm m root := by
  refine ⟨hal, ?_⟩
  intro p q f _ _ hp hq
  rw [(lookup_empty h hp).1, (lookup_empty h hq).1]

end Tables

end Miyabi.Mm.Vmm
