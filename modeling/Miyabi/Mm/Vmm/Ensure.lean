import Miyabi.Mm.Vmm.Tree

namespace Miyabi.Mm.Vmm

open Miyabi.Base Miyabi.Base.Memory Miyabi.Base.TableTree

-- The page that the direct map shows of a frame lies outside the region R.
def Spares (R : Set (BitVec 64)) (hhdm f : BitVec 64) : Prop :=
  ∀ x, InRange (f + hhdm) 4096 x → x ∉ R

-- An allocator that writes inside the region R only.
def Footprint {σ : Type} (alloc : Memory 64 → σ → BitVec 64 × Memory 64 × σ)
    (R : Set (BitVec 64)) : Prop :=
  ∀ m frames x, x ∉ R → (alloc m frames).2.1 x = m x

-- The entry of a leaf table, 0 where there is no such table.
def leafAt (hhdm : BitVec 64) (m : Memory 64) (root : BitVec 64) (path : List (BitVec 9))
    (i : BitVec 9) : BitVec 64 :=
  match tableAt hhdm m root path with
  | none => 0
  | some f => slot hhdm m f i

section Growth

variable (roots : BitVec 9 → Prop) (R : Set (BitVec 64)) (hhdm root : BitVec 64)

-- Frames that may become tables of the tree.
structure Fresh (m : Memory 64) (new : List (BitVec 64)) : Prop where
  nodup : new.Nodup
  frames : ∀ p ∈ new, IsFrame p
  unused : ∀ p ∈ new, p ∉ tables roots hhdm m root
  spares : ∀ p ∈ new, Spares R hhdm p

-- The tree has grown by the tables `new`.
structure Extends (m m' : Memory 64) (new : List (BitVec 64)) : Prop where
  tree : Tree roots hhdm m' root
  keeps : ∀ path f, Walk roots path → tableAt hhdm m root path = some f →
    tableAt hhdm m' root path = some f
  tables : ∀ f, f ∈ tables roots hhdm m' root ↔ f ∈ tables roots hhdm m root ∨ f ∈ new
  plain : ∀ path i f, Walk roots (path ++ [i]) → tableAt hhdm m' root path = some f →
    (tableAt hhdm m root path = some f ∧ slot hhdm m' f i = slot hhdm m f i) ∨
      (Present (slot hhdm m' f i) → Plain (slot hhdm m' f i))
  outside : ∀ x, x ∉ R → (∀ f ∈ Vmm.tables roots hhdm m' root, ¬InRange (f + hhdm) 4096 x) →
    m' x = m x

-- It has grown, and all leaf entries are kept.
structure Grown (m m' : Memory 64) (new : List (BitVec 64)) : Prop
    extends Extends roots R hhdm root m m' new where
  leaves : ∀ path i, Walk roots path → path.length = 3 →
    leafAt hhdm m' root path i = leafAt hhdm m root path i

variable {roots R hhdm root} {m m' m'' : Memory 64} {new new' : List (BitVec 64)}

theorem Extends.trans (h : Extends roots R hhdm root m m' new)
    (h' : Extends roots R hhdm root m' m'' new') :
    Extends roots R hhdm root m m'' (new ++ new') := by
  refine ⟨h'.tree, ?_, ?_, ?_, ?_⟩
  · intro path f hw hf
    exact h'.keeps path f hw (h.keeps path f hw hf)
  · intro f
    rw [h'.tables, h.tables, List.mem_append, or_assoc]
  · intro path i f hw hf
    rcases h'.plain path i f hw hf with ⟨hf', he⟩ | hp
    · rw [he]
      exact h.plain path i f hw hf'
    · exact Or.inr hp
  · intro x hx hout
    rw [h'.outside x hx hout, h.outside x hx]
    intro f hf
    exact hout f ((h'.tables f).mpr (Or.inl hf))

theorem Grown.trans (h : Grown roots R hhdm root m m' new)
    (h' : Grown roots R hhdm root m' m'' new') :
    Grown roots R hhdm root m m'' (new ++ new') := by
  refine ⟨h.toExtends.trans h'.toExtends, ?_⟩
  intro path i hw hlen
  rw [h'.leaves path i hw hlen, h.leaves path i hw hlen]

theorem Fresh.left (h : Fresh roots R hhdm root m (new ++ new')) :
    Fresh roots R hhdm root m new :=
  ⟨(List.nodup_append.mp h.nodup).1, fun p hp => h.frames p (List.mem_append_left _ hp),
    fun p hp => h.unused p (List.mem_append_left _ hp),
    fun p hp => h.spares p (List.mem_append_left _ hp)⟩

-- The frames of later calls are still fresh after the earlier ones.
theorem Fresh.right (h : Fresh roots R hhdm root m (new ++ new'))
    (hg : Extends roots R hhdm root m m' new) : Fresh roots R hhdm root m' new' := by
  obtain ⟨-, hnd, hdisj⟩ := List.nodup_append.mp h.nodup
  refine ⟨hnd, fun p hp => h.frames p (List.mem_append_right _ hp), ?_,
    fun p hp => h.spares p (List.mem_append_right _ hp)⟩
  intro p hp hin
  rcases (hg.tables p).mp hin with hold | hnew
  · exact h.unused p (List.mem_append_right _ hp) hold
  · exact hdisj p hnew p hp rfl

-- Whatever holds of the old tables and of the new frames holds of the tables afterwards.
theorem Extends.forall_tables (h : Extends roots R hhdm root m m' new) {P : BitVec 64 → Prop}
    (hold : ∀ f ∈ Vmm.tables roots hhdm m root, P f) (hnew : ∀ f ∈ new, P f) :
    ∀ f ∈ Vmm.tables roots hhdm m' root, P f := by
  intro f hf
  rcases (h.tables f).mp hf with hin | hin
  · exact hold f hin
  · exact hnew f hin

theorem Extends.spares (h : Extends roots R hhdm root m m' new)
    (hs : ∀ f ∈ Vmm.tables roots hhdm m root, Spares R hhdm f)
    (hf : Fresh roots R hhdm root m new) :
    ∀ f ∈ Vmm.tables roots hhdm m' root, Spares R hhdm f :=
  h.forall_tables hs hf.spares

-- A present entry is plain afterwards if it was before or has been made.
theorem Extends.plain_entry (h : Extends roots R hhdm root m m' new) {path : List (BitVec 9)}
    {i : BitVec 9} {f : BitVec 64} (hw : Walk roots (path ++ [i]))
    (hplain : tableAt hhdm m root path = some f → Present (slot hhdm m f i) → Plain (slot hhdm m f i))
    (hf : tableAt hhdm m' root path = some f) (hpres : Present (slot hhdm m' f i)) :
    Plain (slot hhdm m' f i) := by
  rcases h.plain path i f hw hf with ⟨hf', hslot⟩ | hp
  · rw [hslot] at hpres ⊢
    exact hplain hf' hpres
  · exact hp hpres

end Growth

section Slots

variable {roots : BitVec 9 → Prop} {R : Set (BitVec 64)} {hhdm root : BitVec 64} {m : Memory 64}
variable {path : List (BitVec 9)} {i : BitVec 9} {f : BitVec 64}

-- A table of an inner level is no leaf table.
theorem Tree.inner_ne_leaf (ht : Tree roots hhdm m root) (hw : Walk roots path)
    (hlen : path.length < 3) (hf : tableAt hhdm m root path = some f) {path' : List (BitVec 9)}
    {f' : BitVec 64} (hw' : Walk roots path') (hlen' : path'.length = 3)
    (hf' : tableAt hhdm m root path' = some f') : f' ≠ f := by
  intro he
  have hpath := ht.unshared path path' f hw hw' hf (he ▸ hf')
  rw [hpath] at hlen
  omega

-- A memory that agrees on the pages of the tables has the same tree.
structure SameTree (roots : BitVec 9 → Prop) (hhdm root : BitVec 64) (m m' : Memory 64) : Prop where
  tree : Tree roots hhdm m' root
  lookup : ∀ path, Walk roots path → tableAt hhdm m' root path = tableAt hhdm m root path
  tables : Vmm.tables roots hhdm m' root = Vmm.tables roots hhdm m root
  slot : ∀ path f i, Walk roots path → tableAt hhdm m root path = some f →
    Vmm.slot hhdm m' f i = Vmm.slot hhdm m f i

theorem sameTree {m' : Memory 64} (ht : Tree roots hhdm m root)
    (hkeep : ∀ f ∈ tables roots hhdm m root, Agree m m' (f + hhdm) 4096) :
    SameTree roots hhdm root m m' := by
  have hc := walk_prefixClosed roots
  have hslot : ∀ path f i, Walk roots path → tableAt hhdm m root path = some f →
      slot hhdm m' f i = slot hhdm m f i :=
    fun path f i hw hf => slot_congr (ht.aligned hf) (hkeep f ⟨path, hw, hf⟩) i
  have hchildren : SameChildren child (Walk roots) (slot hhdm m) (slot hhdm m') root :=
    fun path i f hw hf => congrArg child (hslot path f i (hc.init path i hw) hf)
  exact ⟨⟨ht.root_aligned, unshared_congr hc hchildren ht.unshared⟩,
    fun path hw => lookup_congr hc hchildren path hw, reached_congr hc hchildren, hslot⟩

theorem SameTree.leafAt {m' : Memory 64} (h : SameTree roots hhdm root m m') (hw : Walk roots path)
    (i : BitVec 9) : leafAt hhdm m' root path i = Vmm.leafAt hhdm m root path i := by
  simp only [Vmm.leafAt, h.lookup path hw]
  cases hf : tableAt hhdm m root path with
  | none => rfl
  | some f => exact h.slot path f i hw hf

theorem SameTree.plain {m' : Memory 64} (h : SameTree roots hhdm root m m')
    (hplain : ∀ path i f, Walk roots (path ++ [i]) → tableAt hhdm m root path = some f →
      Present (Vmm.slot hhdm m f i) → Plain (Vmm.slot hhdm m f i)) (path : List (BitVec 9)) (i : BitVec 9)
    (f : BitVec 64) (hw : Walk roots (path ++ [i])) (hf : tableAt hhdm m' root path = some f) :
    Present (Vmm.slot hhdm m' f i) → Plain (Vmm.slot hhdm m' f i) := by
  have hwp := (walk_prefixClosed roots).init path i hw
  rw [h.lookup path hwp] at hf
  rw [h.slot path f i hwp hf]
  exact hplain path i f hw hf

theorem grown_of_flags (ht : Tree roots hhdm m root)
    (hf : tableAt hhdm m root path = some f) (hw : Walk roots (path ++ [i]))
    (hpres : Present (slot hhdm m f i)) (hplain : Plain (slot hhdm m f i)) :
    Grown roots R hhdm root m (writeEntry m (f + hhdm) (i.setWidth 64)
      (slot hhdm m f i ||| (pteUser ||| pteWrite))) [] := by
  have hc := walk_prefixClosed roots
  have hwp := hc.init path i hw
  have hlen : path.length < 3 := by
    have := hw.length
    simp at this
    omega
  have hal := ht.aligned hf
  generalize hm' : writeEntry m (f + hhdm) (i.setWidth 64)
    (slot hhdm m f i ||| (pteUser ||| pteWrite)) = m'
  have hsame : slot hhdm m' f i = slot hhdm m f i ||| (pteUser ||| pteWrite) := by
    rw [← hm', slot_writeEntry_same]
  have hother : ∀ f' j, Aligned f' → ¬(f' = f ∧ j = i) → slot hhdm m' f' j = slot hhdm m f' j := by
    intro f' j hal' hne
    rw [← hm', slot_writeEntry_ne hal' hal hne]
  have hchildren : SameChildren child (Walk roots) (slot hhdm m) (slot hhdm m') root := by
    intro path' j f' _ hf'
    by_cases he : f' = f ∧ j = i
    · obtain ⟨rfl, rfl⟩ := he
      rw [hsame, child_of_plain (plain_or_flags hplain) (present_or_flags hpres),
        child_of_plain hplain hpres, entryFrame_or_flags]
    · rw [hother f' j (ht.aligned hf') he]
  have hlookup := fun p => lookup_congr hc hchildren p
  refine ⟨⟨⟨ht.root_aligned, unshared_congr hc hchildren ht.unshared⟩, ?_, ?_, ?_, ?_⟩, ?_⟩
  · intro p t hp hpt
    rw [tableAt, hlookup p hp]
    exact hpt
  · intro t
    simp only [tables, reached_congr hc hchildren, List.not_mem_nil, or_false]
  · intro p j t hp hpt
    rw [tableAt, hlookup p (hc.init p j hp)] at hpt
    by_cases he : t = f ∧ j = i
    · obtain ⟨rfl, rfl⟩ := he
      rw [hsame]
      exact Or.inr (fun _ => plain_or_flags hplain)
    · exact Or.inl ⟨hpt, hother t j (ht.aligned hpt) he⟩
  · intro x _ hout
    have hin : f ∈ tables roots hhdm m' root := by
      simp only [tables, reached_congr hc hchildren]
      exact ⟨path, hwp, hf⟩
    rw [← hm']
    exact writeEntry_keeps hal i _ x (hout f hin)
  · intro p j hp hplen
    simp only [leafAt, tableAt, hlookup p hp]
    cases hpt : lookup child (slot hhdm m) root p with
    | none => rfl
    | some t =>
        have hne := ht.inner_ne_leaf hwp hlen hf hp hplen hpt
        exact hother t j (ht.aligned hpt) (fun h => hne h.1)

-- A zeroed fresh frame hung into an absent entry. The allocator has turned m into m1.
theorem grown_of_graft {m1 : Memory 64} {p : BitVec 64} (ht : Tree roots hhdm m root)
    (hs : ∀ f ∈ tables roots hhdm m root, Spares R hhdm f) (hm1 : ∀ x, x ∉ R → m1 x = m x)
    (hf : tableAt hhdm m root path = some f) (hw : Walk roots (path ++ [i]))
    (habs : ¬Present (slot hhdm m f i)) (hp : IsFrame p) (hnew : p ∉ tables roots hhdm m root) :
    Grown roots R hhdm root m (writeEntry (zeroTable m1 (p + hhdm) 512) (f + hhdm) (i.setWidth 64)
        (tableEntry p)) [p] ∧
      tableAt hhdm (writeEntry (zeroTable m1 (p + hhdm) 512) (f + hhdm) (i.setWidth 64)
        (tableEntry p)) root (path ++ [i]) = some p := by
  have hc := walk_prefixClosed roots
  have hwp := hc.init path i hw
  have hlen : path.length < 3 := by
    have := hw.length
    simp at this
    omega
  have hal := ht.aligned hf
  have hin : f ∈ tables roots hhdm m root := ⟨path, hwp, hf⟩
  have hne : p ≠ f := fun he => hnew (he ▸ hin)
  obtain ⟨hzero, hzkeep⟩ := zeroTable_spec hhdm m1 hp.aligned 512 le_rfl
  generalize hm2 : zeroTable m1 (p + hhdm) 512 = m2 at hzero hzkeep ⊢
  generalize hm' : writeEntry m2 (f + hhdm) (i.setWidth 64) (tableEntry p) = m'
  have hsame : slot hhdm m' f i = tableEntry p := by
    rw [← hm', slot_writeEntry_same]
  have hempty : ∀ j, slot hhdm m' p j = 0 := by
    intro j
    rw [← hm', slot_writeEntry_ne hp.aligned hal (fun h => hne h.1)]
    exact hzero j (toNat_index j).2
  have hother : ∀ f' ∈ tables roots hhdm m root, ∀ j, ¬(f' = f ∧ j = i) →
      slot hhdm m' f' j = slot hhdm m f' j := by
    intro f' hf' j hne'
    have hal' := ht.mem_aligned hf'
    have hfp : f' ≠ p := fun he => hnew (he ▸ hf')
    rw [← hm', slot_writeEntry_ne hal' hal hne',
      slot_congr hal' (hzkeep.agree (pages_apart hal' hp.aligned hfp)),
      slot_congr hal' (fun x hx => hm1 x (hs f' hf' x hx))]
  have hgraft : Grafted child (Walk roots) (slot hhdm m) (slot hhdm m') root path i f p := by
    refine ⟨hf, hw, child_of_absent habs, hnew, ?_, ?_, ?_⟩
    · rw [hsame, child_of_plain (tableEntry_plain hp) (tableEntry_present hp), tableEntry_frame hp]
    · intro j
      rw [hempty j]
      rfl
    · intro f' hf' j hne'
      rw [hother f' hf' j hne']
  have hu := ht.unshared
  refine ⟨⟨⟨⟨ht.root_aligned, hgraft.unshared hc hu⟩, ?_, ?_, ?_, ?_⟩, ?_⟩, hgraft.lookup_new hc hu⟩
  · intro q t hq hqt
    exact hgraft.lookup_old hc hu hq hqt
  · intro t
    simp only [tables, hgraft.reached hc hu, Set.mem_insert_iff, List.mem_singleton]
    exact or_comm
  · intro q j t hq hqt
    have hqp := hc.init q j hq
    rcases hgraft.lookup_cases hc hu hqp hqt with ⟨-, rfl⟩ | ⟨-, hold⟩
    · rw [hempty j]
      exact Or.inr (fun hz => absurd rfl hz)
    · by_cases he : t = f ∧ j = i
      · obtain ⟨rfl, rfl⟩ := he
        rw [hsame]
        exact Or.inr (fun _ => tableEntry_plain hp)
      · exact Or.inl ⟨hold, hother t ⟨q, hqp, hold⟩ j he⟩
  · intro x hx hout
    have hreach := hgraft.reached hc hu
    have hxf : ¬InRange (f + hhdm) 4096 x := hout f (by
      simp only [tables, hreach]
      exact Set.mem_insert_of_mem _ hin)
    have hxp : ¬InRange (p + hhdm) 4096 x := hout p (by
      simp only [tables, hreach]
      exact Set.mem_insert _ _)
    rw [← hm', writeEntry_keeps hal i _ x hxf, hzkeep x hxp, hm1 x hx]
  · intro q j hq hqlen
    by_cases he : q = path ++ [i]
    · -- The leaf table is the new one: all its entries are 0, as before it existed.
      have hnone : tableAt hhdm m root q = none := by
        have hparent : lookup child (slot hhdm m) root path = some f := hf
        rw [he, tableAt, lookup_snoc, hparent]
        exact child_of_absent habs
      have hsome : tableAt hhdm m' root q = some p := he ▸ hgraft.lookup_new hc hu
      simp only [leafAt, hnone, hsome, hempty]
    · have hlook := (hgraft.lookup hc hu q hq).2 he
      simp only [leafAt, tableAt, hlook]
      cases hqt : lookup child (slot hhdm m) root q with
      | none => rfl
      | some t =>
          have hnt := ht.inner_ne_leaf hwp hlen hf hq hqlen hqt
          exact hother t ⟨q, hq, hqt⟩ j (fun h => hnt h.1)

end Slots

section EnsureTable

variable {σ : Type} {alloc : Memory 64 → σ → BitVec 64 × Memory 64 × σ}
variable {roots : BitVec 9 → Prop} {R : Set (BitVec 64)} {root : BitVec 64} {s s' : State σ}

-- The frames `new` have been handed out; the pointers of the state are kept.
structure Logged (s s' : State σ) (new : List (BitVec 64)) : Prop where
  handed : s'.handed = s.handed ++ new
  hhdm : s'.hhdmOffset = s.hhdmOffset
  pml4 : s'.pml4 = s.pml4

theorem Logged.trans {s s1 s2 : State σ} {new new' : List (BitVec 64)} (h : Logged s s1 new)
    (h' : Logged s1 s2 new') : Logged s s2 (new ++ new') := by
  refine ⟨?_, h'.hhdm.trans h.hhdm, h'.pml4.trans h.pml4⟩
  rw [h'.handed, h.handed, List.append_assoc]

theorem Logged.unique {s s' : State σ} {new new' : List (BitVec 64)} (h : Logged s s' new)
    (h' : Logged s s' new') : new = new' :=
  List.append_cancel_left (h.handed.symm.trans h'.handed)

-- What ensure_table can do: add flags to a present entry, or hang in a fresh table.
theorem ensureTable_cases {table index q : BitVec 64}
    (he : ensureTable alloc table index s = some (q, s')) :
    (Present (readEntry s.mem table index) ∧
      s' = { s with
        mem := writeEntry s.mem table index
          (readEntry s.mem table index ||| (pteUser ||| pteWrite)) } ∧
      q = s.physToVirt (readEntry s'.mem table index &&& ~~~0xFFF)) ∨
    (¬Present (readEntry s.mem table index) ∧ ∃ p m1 frames,
      alloc s.mem s.frames = (p, m1, frames) ∧ p ≠ 0 ∧
      s' = ⟨writeEntry (zeroTable m1 (p + s.hhdmOffset) 512) table index (tableEntry p),
        s.hhdmOffset, s.pml4, frames, s.handed ++ [p]⟩ ∧
      q = s.physToVirt (readEntry s'.mem table index &&& ~~~0xFFF)) := by
  unfold ensureTable at he
  split at he
  · rename_i hz
    refine Or.inr ⟨not_not.mpr hz, ?_⟩
    unfold allocPageTable State.pmmAlloc at he
    generalize alloc s.mem s.frames = result at he ⊢
    obtain ⟨p, m1, frames⟩ := result
    by_cases hp0 : p = 0
    · simp only [hp0, if_true] at he
      cases he
    · simp only [hp0, if_false] at he
      obtain ⟨rfl, rfl⟩ := Prod.mk.inj (Option.some.inj he)
      exact ⟨p, m1, frames, rfl, hp0, rfl, rfl⟩
  · rename_i hz
    obtain ⟨rfl, rfl⟩ := Prod.mk.inj (Option.some.inj he)
    exact Or.inl ⟨hz, rfl, rfl⟩

theorem ensureTable_logged {table index q : BitVec 64}
    (he : ensureTable alloc table index s = some (q, s')) : ∃ new, Logged s s' new := by
  rcases ensureTable_cases he with ⟨-, rfl, -⟩ | ⟨-, p, m1, frames, -, -, rfl, -⟩
  · exact ⟨[], (List.append_nil _).symm, rfl, rfl⟩
  · exact ⟨[p], rfl, rfl, rfl⟩

theorem ensureTable_of_present (alloc : Memory 64 → σ → BitVec 64 × Memory 64 × σ)
    (table index : BitVec 64) (h : Present (readEntry s.mem table index)) :
    ∃ q s', ensureTable alloc table index s = some (q, s') ∧ Logged s s' [] := by
  unfold ensureTable
  rw [if_neg h]
  exact ⟨_, _, rfl, (List.append_nil _).symm, rfl, rfl⟩

-- One step of the walk of vmm_map_page, from a table to the one below it.
theorem ensureTable_spec {hhdm : BitVec 64} (path : List (BitVec 9)) {i : BitVec 9}
    {f q : BitVec 64} {new : List (BitVec 64)} (hfoot : Footprint alloc R)
    (hh : s.hhdmOffset = hhdm) (ht : Tree roots hhdm s.mem root)
    (hs : ∀ f ∈ tables roots hhdm s.mem root, Spares R hhdm f)
    (hf : tableAt hhdm s.mem root path = some f) (hw : Walk roots (path ++ [i]))
    (hplain : Present (slot hhdm s.mem f i) → Plain (slot hhdm s.mem f i))
    (he : ensureTable alloc (f + hhdm) (i.setWidth 64) s = some (q, s'))
    (hlog : Logged s s' new) (hfresh : Fresh roots R hhdm root s.mem new) :
    Grown roots R hhdm root s.mem s'.mem new ∧
      ∃ g, q = g + hhdm ∧ tableAt hhdm s'.mem root (path ++ [i]) = some g := by
  subst hh
  have hslot : ∀ m, readEntry m (f + s.hhdmOffset) (i.setWidth 64) = slot s.hhdmOffset m f i :=
    fun _ => rfl
  rcases ensureTable_cases he with ⟨hpres, rfl, rfl⟩ | ⟨hpres, p, m1, frames, hcall, -, rfl, rfl⟩
  · have hg := grown_of_flags (R := R) ht hf hw hpres (hplain hpres)
    obtain rfl := hlog.unique ⟨(List.append_nil _).symm, rfl, rfl⟩
    have hold : tableAt s.hhdmOffset s.mem root (path ++ [i]) =
        some (entryFrame (slot s.hhdmOffset s.mem f i)) := by
      have hparent : lookup child (slot s.hhdmOffset s.mem) root path = some f := hf
      rw [tableAt, lookup_snoc, hparent]
      exact child_of_plain (hplain hpres) hpres
    refine ⟨hg, _, ?_, hg.keeps _ _ hw hold⟩
    simp only [hslot, slot_writeEntry_same]
    rw [(plain_or_flags (hplain hpres)).frame, entryFrame_or_flags]
    rfl
  · have hm1 := hfoot s.mem s.frames
    rw [hcall] at hm1
    obtain rfl : new = [p] := hlog.unique ⟨rfl, rfl, rfl⟩
    have hp := hfresh.frames p (by simp)
    obtain ⟨hg, hlook⟩ := grown_of_graft ht hs hm1 hf hw hpres hp (hfresh.unused p (by simp))
    refine ⟨hg, p, ?_, hlook⟩
    simp only [hslot, slot_writeEntry_same, State.physToVirt]
    rw [(tableEntry_plain hp).frame, tableEntry_frame hp]

end EnsureTable

end Miyabi.Mm.Vmm
