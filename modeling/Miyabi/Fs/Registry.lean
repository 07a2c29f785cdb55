import Miyabi.Base.Linked
import Miyabi.Fs.Devfs

namespace Miyabi.Fs

open Miyabi.Base.Linked

-- strcmp of lib/string.c is the same loop.
def strcmp (s1 s2 : CString) : Int := devfsStrcmp s1 s2

theorem strcmp_eq_zero_iff (s1 s2 : CString) : strcmp s1 s2 = 0 ↔ s1 = s2 :=
  devfsStrcmp_eq_zero_iff s1 s2

-- The mount operations of the descriptors.
inductive FsMount
  | ext2
  | other
  deriving DecidableEq

structure FsType where
  name : CString
  mount : Option FsMount
  next : BitVec 64

-- The vfs_fs_type_t objects by address, and fs_types_head.
structure Registry where
  types : BitVec 64 → FsType
  head : BitVec 64

namespace Registry

def vfsRegisterFilesystem (r : Registry) (fs : BitVec 64) : Registry :=
  if fs = 0 then r
  else { types := Function.update r.types fs { r.types fs with next := r.head }, head := fs }

-- The loop over the list. `fuel` bounds its turns.
def findFrom (r : Registry) (name : CString) : ℕ → BitVec 64 → Except Fault (BitVec 64)
  | 0, _ => .error .endless
  | fuel + 1, current =>
      if current = 0 then .ok 0
      else if strcmp (r.types current).name name = 0 then .ok current
      else findFrom r name fuel (r.types current).next

-- none: a NULL name
def vfsFindFilesystem (r : Registry) (fuel : ℕ) : Option CString → Except Fault (BitVec 64)
  | none => .ok 0
  | some name => r.findFrom name fuel r.head

def registerAll (r : Registry) (calls : List (BitVec 64)) : Registry :=
  calls.foldl vfsRegisterFilesystem r

-- The next pointers lead over these descriptors to NULL.
def Chain (r : Registry) (p : BitVec 64) (list : List (BitVec 64)) : Prop :=
  Segment (fun fs => (r.types fs).next) id (· ≠ 0) p list 0

def registered (calls : List (BitVec 64)) : List (BitVec 64) := calls.filter (· ≠ 0)

-- The list ends, it holds what was registered, and every search of it ends with a descriptor
-- of that name, or with NULL if there is none.
structure Listed (r : Registry) (calls : List (BitVec 64)) : Prop where
  list : ∃ list, r.Chain r.head list ∧ list.Nodup ∧ ∀ fs ∈ registered calls, fs ∈ list
  finds : ∀ name, ∃ fuel fs, r.vfsFindFilesystem fuel (some name) = .ok fs ∧
    (fs ≠ 0 → fs ∈ registered calls ∧ (r.types fs).name = name) ∧
    (fs = 0 → ∀ other ∈ registered calls, (r.types other).name ≠ name)

variable {r : Registry} {fs : BitVec 64}

theorem register_zero : r.vfsRegisterFilesystem 0 = r := if_pos rfl

theorem register_head (hfs : fs ≠ 0) : (r.vfsRegisterFilesystem fs).head = fs := by
  rw [vfsRegisterFilesystem, if_neg hfs]

theorem register_next_self (hfs : fs ≠ 0) :
    ((r.vfsRegisterFilesystem fs).types fs).next = r.head := by
  simp only [vfsRegisterFilesystem, if_neg hfs, Function.update_self]

theorem register_next_ne (hfs : fs ≠ 0) {other : BitVec 64} (hne : other ≠ fs) :
    ((r.vfsRegisterFilesystem fs).types other).next = (r.types other).next := by
  simp only [vfsRegisterFilesystem, if_neg hfs, Function.update_of_ne hne]

theorem registerAll_append (calls : List (BitVec 64)) (fs : BitVec 64) :
    r.registerAll (calls ++ [fs]) = (r.registerAll calls).vfsRegisterFilesystem fs := by
  rw [registerAll, List.foldl_append]
  rfl

theorem registered_append (calls : List (BitVec 64)) :
    registered (calls ++ [fs]) = registered calls ++ registered [fs] := List.filter_append _ _

theorem registered_single (hfs : fs ≠ 0) : registered [fs] = [fs] := by
  rw [registered, List.filter_cons_of_pos (by simpa using hfs), List.filter_nil]

-- A chain does not come back to its first descriptor.
theorem Chain.not_mem {list : List (BitVec 64)} (h : r.Chain fs (fs :: list)) : fs ∉ list := by
  intro hmem
  obtain ⟨pre, post, rfl⟩ := List.append_of_mem hmem
  obtain ⟨-, hfs, hrest⟩ := h
  have hback := ((segment_middle pre post fs).mp hrest).2.2
  have hne : ∀ bs, (∃ p, r.Chain p bs) → ∀ b ∈ bs, id b ≠ 0 := by
    rintro bs ⟨p, hp⟩ b hb
    exact segment_holds hp hb
  have hsame := segment_unique (fun b c _ _ h => h) (hne _ ⟨_, hrest⟩) (hne _ ⟨_, hback⟩) hrest hback
  have hlength := congrArg List.length hsame
  rw [List.length_append, List.length_cons] at hlength
  omega

-- Registering what is not in the list puts it in front of the list.
theorem chain_register_iff (hfs : fs ≠ 0) {list : List (BitVec 64)} (hmem : fs ∉ list)
    {p : BitVec 64} : (r.vfsRegisterFilesystem fs).Chain p list ↔ r.Chain p list := by
  have hsame : ∀ b ∈ list,
      ((r.vfsRegisterFilesystem fs).types (id b)).next = (r.types (id b)).next := by
    intro b hb
    exact register_next_ne hfs fun h => hmem (h ▸ hb)
  constructor
  · intro h
    exact segment_congr h fun b hb => ⟨(hsame b hb).symm, id⟩
  · intro h
    exact segment_congr h fun b hb => ⟨hsame b hb, id⟩

-- The registry before the first call.
def unregistered (types : BitVec 64 → FsType) : Registry := ⟨types, 0⟩

variable {types : BitVec 64 → FsType}

theorem chain_zero {list : List (BitVec 64)} (h : r.Chain 0 list) : list = [] := by
  cases list with
  | nil => rfl
  | cons b rest => exact absurd h.1.symm h.2.1

-- A list that ends holds each descriptor once, the last registered in front.
theorem chain_registered {calls : List (BitVec 64)} : ∀ {list : List (BitVec 64)},
    ((unregistered types).registerAll calls).Chain
      ((unregistered types).registerAll calls).head list →
    list = (registered calls).reverse ∧ (registered calls).Nodup := by
  induction calls using List.reverseRecOn with
  | nil =>
    intro list h
    exact ⟨chain_zero h, List.nodup_nil⟩
  | append_singleton calls fs ih =>
    intro list h
    rw [registerAll_append] at h
    by_cases hfs : fs = 0
    · subst hfs
      rw [register_zero] at h
      rw [registered_append]
      have hnone : registered [(0 : BitVec 64)] = [] := rfl
      rw [hnone, List.append_nil]
      exact ih h
    · rw [register_head hfs] at h
      cases list with
      | nil => exact absurd h hfs
      | cons b rest =>
        obtain rfl : fs = b := h.1
        have hmem := Chain.not_mem h
        have hrest := h.2.2
        simp only [register_next_self hfs] at hrest
        obtain ⟨hlist, hnodup⟩ := ih ((chain_register_iff hfs hmem).mp hrest)
        rw [registered_append, registered_single hfs, List.reverse_append, List.reverse_singleton,
          List.singleton_append, hlist]
        refine ⟨rfl, List.Nodup.append hnodup (List.nodup_singleton fs) ?_⟩
        rw [List.disjoint_singleton]
        rwa [hlist, List.mem_reverse] at hmem

theorem chain_of_nodup {calls : List (BitVec 64)} (h : (registered calls).Nodup) :
    ((unregistered types).registerAll calls).Chain
      ((unregistered types).registerAll calls).head (registered calls).reverse := by
  induction calls using List.reverseRecOn with
  | nil => rfl
  | append_singleton calls fs ih =>
    rw [registered_append] at h ⊢
    rw [registerAll_append]
    have hcalls := ih (List.Nodup.of_append_left h)
    by_cases hfs : fs = 0
    · subst hfs
      have hnone : registered [(0 : BitVec 64)] = [] := rfl
      rw [register_zero, hnone, List.append_nil]
      exact hcalls
    · rw [registered_single hfs] at h ⊢
      have hmem : fs ∉ (registered calls).reverse := by
        rw [List.mem_reverse]
        exact List.disjoint_singleton.mp (List.disjoint_of_nodup_append h)
      rw [List.reverse_append, List.reverse_singleton, List.singleton_append, register_head hfs]
      refine ⟨rfl, hfs, ?_⟩
      simp only [register_next_self hfs]
      exact (chain_register_iff hfs hmem).mpr hcalls

-- A search of a list that ends takes no more turns than it has descriptors, and one.
theorem findFrom_chain (name : CString) {list : List (BitVec 64)} : ∀ {p : BitVec 64},
    r.Chain p list → r.findFrom name (list.length + 1) p =
      .ok ((list.find? fun fs => (r.types fs).name = name).getD 0) := by
  induction list with
  | nil =>
    intro p h
    exact if_pos h
  | cons fs rest ih =>
    intro p h
    obtain ⟨hp, hfs, hrest⟩ := h
    have hp : fs = p := hp.symm
    subst hp
    rw [List.length_cons, findFrom, if_neg hfs]
    by_cases hname : (r.types fs).name = name
    · rw [List.find?_cons_of_pos (by simpa using hname)]
      exact if_pos ((strcmp_eq_zero_iff _ _).mpr hname)
    · rw [List.find?_cons_of_neg (by simpa using hname), ← ih hrest]
      exact if_neg fun h => hname ((strcmp_eq_zero_iff _ _).mp h)

theorem listed_of_chain {calls : List (BitVec 64)}
    (h : r.Chain r.head (registered calls).reverse) (hnodup : (registered calls).Nodup) :
    Listed r calls where
  list := ⟨_, h, List.nodup_reverse.mpr hnodup, fun fs hfs => List.mem_reverse.mpr hfs⟩
  finds name := by
    refine ⟨(registered calls).reverse.length + 1, _, findFrom_chain name h, ?_, ?_⟩
    · intro hne
      cases hfind : (registered calls).reverse.find? fun fs => (r.types fs).name = name with
      | none =>
        rw [hfind] at hne
        exact absurd rfl hne
      | some fs =>
        have hmem := List.mem_of_find?_eq_some hfind
        have hname := List.find?_some hfind
        exact ⟨List.mem_reverse.mp hmem, of_decide_eq_true hname⟩
    · intro hzero other hother hname
      cases hfind : (registered calls).reverse.find? fun fs => (r.types fs).name = name with
      | none =>
        rw [List.find?_eq_none] at hfind
        exact hfind other (List.mem_reverse.mpr hother) (decide_eq_true hname)
      | some fs =>
        rw [hfind] at hzero
        have hmem := List.mem_of_find?_eq_some hfind
        exact segment_holds h hmem hzero

-- The registry is a list for every run that registers no descriptor twice, and for no other.
theorem registry_listed_iff (types : BitVec 64 → FsType) (calls : List (BitVec 64)) :
    Listed ((unregistered types).registerAll calls) calls ↔ (registered calls).Nodup := by
  constructor
  · rintro ⟨⟨list, hchain, -, -⟩, -⟩
    exact (chain_registered hchain).2
  · intro hnodup
    exact listed_of_chain (chain_of_nodup hnodup) hnodup

def ext2FsType : FsType := ⟨chars [0x65, 0x78, 0x74, 0x32], some .ext2, 0⟩

-- ext2_init called twice.
theorem registry_cycle :
    ¬Listed ((unregistered fun _ => ext2FsType).registerAll [0x1000, 0x1000])
      [0x1000, 0x1000] := by
  rintro ⟨⟨list, hchain, -, -⟩, -⟩
  have hnodup := (chain_registered hchain).2
  exact absurd hnodup (by decide)

end Registry

end Miyabi.Fs
