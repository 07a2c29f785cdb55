import Miyabi.Mm.Vmm.Theorems
import Miyabi.Mm.Vmm.Writes

namespace Miyabi.Mm.Vmm

open Miyabi.Base Miyabi.Base.Memory Miyabi.Base.TableTree Miyabi.Base.Transition

def Carries (bit e : BitVec 64) : Prop := Present e ∧ e &&& bit ≠ 0

instance (bit e : BitVec 64) : Decidable (Carries bit e) := inferInstanceAs (Decidable (_ ∧ _))

-- A present page that has a permission bit on every level.
def Allows (bit hhdm : BitVec 64) (m : Memory 64) (root virt : BitVec 64) : Prop :=
  ∀ e ∈ walkEntries hhdm m root virt, Carries bit e

instance (bit hhdm : BitVec 64) (m : Memory 64) (root virt : BitVec 64) :
    Decidable (Allows bit hhdm m root virt) :=
  inferInstanceAs (Decidable (∀ e ∈ walkEntries hhdm m root virt, Carries bit e))

section Levels

variable {hhdm root virt bit : BitVec 64} {m : Memory 64} {page : BitVec 36}

-- The entries on the way to a leaf table.
theorem upper_cases {path : List (BitVec 9)} {i : BitVec 9} :
    path ++ [i] <+: tablePath page ↔ (path = [] ∧ i = page.extractLsb' 27 9) ∨
      (path = [page.extractLsb' 27 9] ∧ i = page.extractLsb' 18 9) ∨
      (path = [page.extractLsb' 27 9, page.extractLsb' 18 9] ∧ i = page.extractLsb' 9 9) := by
  constructor
  · intro h
    have hlen : path.length < 3 := by
      have := h.length_le
      simp [tablePath] at this
      omega
    rcases path with _ | ⟨a, _ | ⟨b, _ | ⟨c, rest⟩⟩⟩
    · simpa [tablePath] using h
    · simpa [tablePath] using h
    · simpa [tablePath, and_assoc] using h
    · simp only [List.length_cons] at hlen
      omega
  · rintro (⟨rfl, rfl⟩ | ⟨rfl, rfl⟩ | ⟨rfl, rfl⟩)
    · exact ⟨_, rfl⟩
    · exact ⟨_, rfl⟩
    · exact ⟨_, rfl⟩

theorem leafAt_some {path : List (BitVec 9)} {f : BitVec 64} (hf : tableAt hhdm m root path = some f)
    (i : BitVec 9) : leafAt hhdm m root path i = slot hhdm m f i := by
  simp only [leafAt, hf]

-- A present leaf entry hangs below present entries.
theorem uppers_present (h : Present (leafEntry hhdm m root page)) {path : List (BitVec 9)}
    {i : BitVec 9} (hpre : path ++ [i] <+: tablePath page) :
    Present (leafAt hhdm m root path i) := by
  cases hpt : tableAt hhdm m root (tablePath page) with
  | none =>
      simp only [leafEntry, leafAt, hpt] at h
      exact absurd (by decide) h
  | some pt =>
      obtain ⟨rest, hrest⟩ := hpre
      obtain ⟨g, hg⟩ : ∃ g, tableAt hhdm m root (path ++ [i]) = some g := by
        rw [← hrest, tableAt, lookup_append] at hpt
        obtain ⟨g, hg, -⟩ := Option.bind_eq_some_iff.mp hpt
        exact ⟨g, hg⟩
      obtain ⟨f, hf, hpres, -, -⟩ := child_slot path hg
      rw [leafAt_some hf]
      exact hpres

-- Without a huge page the processor reads four entries.
theorem carries_walk {e4 e3 e2 e1 : BitVec 64} (h3 : Present e4 → Present e3 → ¬Ends e3)
    (h2 : Present e4 → Present e3 → Present e2 → ¬Ends e2) :
    (∀ e ∈ e4 :: if ¬Present e4 then [] else e3 :: if Ends e3 then [] else
        e2 :: if Ends e2 then [] else [e1], Carries bit e) ↔
      Carries bit e1 ∧ Carries bit e4 ∧ Carries bit e3 ∧ Carries bit e2 := by
  by_cases p4 : Present e4
  · by_cases p3 : Present e3
    · by_cases p2 : Present e2
      · simp only [p4, h3 p4 p3, h2 p4 p3 p2, not_true_eq_false, if_false, List.forall_mem_cons,
          List.not_mem_nil, false_implies, implies_true, and_true]
        tauto
      · refine iff_of_false (fun h => p2 (h e2 ?_).1) (fun h => p2 h.2.2.2.1)
        simp [p4, h3 p4 p3]
    · refine iff_of_false (fun h => p3 (h e3 ?_).1) (fun h => p3 h.2.2.1.1)
      simp [p4]
  · exact iff_of_false (fun h => p4 (h e4 (by simp)).1) (fun h => p4 h.2.1.1)

-- The four entries of a page, by their places in the tree.
theorem allows_iff (hplain : PlainWalk hhdm m root (pageNumber virt)) :
    Allows bit hhdm m root virt ↔ Carries bit (leafEntry hhdm m root (pageNumber virt)) ∧
      ∀ path i, path ++ [i] <+: tablePath (pageNumber virt) → Carries bit (leafAt hhdm m root path i) := by
  have hgoing : ∀ path i f e, path ++ [i] <+: tablePath (pageNumber virt) →
      tableAt hhdm m root path = some f → slot hhdm m f i = e → Present e →
      ¬Ends e ∧ tableAt hhdm m root (path ++ [i]) = some (entryFrame e) := by
    rintro path i f _ hpre hf rfl hpres
    have hp := hplain path i f hpre hf hpres
    exact ⟨by simp [Ends, hpres, hp.huge], tableAt_snoc path i hf (child_of_plain hp hpres)⟩
  simp only [upper_cases, or_imp, forall_and, and_imp, forall_eq_apply_imp_iff, forall_eq]
  have hpath : tablePath (pageNumber virt) = [(pageNumber virt).extractLsb' 27 9,
    (pageNumber virt).extractLsb' 18 9, (pageNumber virt).extractLsb' 9 9] := rfl
  rw [leafEntry]
  unfold Allows walkEntries
  generalize h4 : pml4Entry hhdm m root virt = e4
  generalize h3 : pdptEntry hhdm m root virt = e3
  generalize h2 : pdEntry hhdm m root virt = e2
  generalize h1 : ptEntry hhdm m root virt = e1
  rw [pml4Entry] at h4
  rw [pdptEntry, pml4Entry, h4] at h3
  rw [pdEntry, pdptEntry, pml4Entry, h4, h3] at h2
  rw [ptEntry, pdEntry, pdptEntry, pml4Entry, h4, h3, h2] at h1
  rw [hpath] at hgoing ⊢
  generalize (pageNumber virt).extractLsb' 27 9 = i4 at *
  generalize (pageNumber virt).extractLsb' 18 9 = i3 at *
  generalize (pageNumber virt).extractLsb' 9 9 = i2 at *
  have t4 := hgoing [] i4 root e4 ⟨_, rfl⟩ rfl h4
  have t3 := fun p4 => hgoing [i4] i3 _ e3 ⟨_, rfl⟩ (t4 p4).2 h3
  have t2 := fun p4 p3 => hgoing [i4, i3] i2 _ e2 (List.prefix_refl _) (t3 p4 p3).2 h2
  refine (carries_walk (fun p4 p3 => (t3 p4 p3).1) (fun p4 p3 p2 => (t2 p4 p3 p2).1)).trans ?_
  have l4 : leafAt hhdm m root [] i4 = e4 := h4
  rw [l4]
  by_cases p4 : Present e4
  · have l3 : leafAt hhdm m root [i4] i3 = e3 := (leafAt_some (t4 p4).2 i3).trans h3
    rw [l3]
    by_cases p3 : Present e3
    · have l2 : leafAt hhdm m root [i4, i3] i2 = e2 := (leafAt_some (t3 p4 p3).2 i2).trans h2
      rw [l2]
      by_cases p2 : Present e2
      · rw [show leafAt hhdm m root [i4, i3, i2] _ = e1 from (leafAt_some (t2 p4 p3 p2).2 _).trans h1]
      · exact iff_of_false (fun h => p2 h.2.2.2.1) (fun h => p2 h.2.2.2.1)
    · exact iff_of_false (fun h => p3 h.2.2.1.1) (fun h => p3 h.2.2.1.1)
  · exact iff_of_false (fun h => p4 h.2.1.1) (fun h => p4 h.2.1.1)

theorem present_of_access (hplain : PlainWalk hhdm m root (pageNumber virt)) {access : Access}
    (h : pageAccess hhdm m root virt = some access) :
    Present (leafEntry hhdm m root (pageNumber virt)) := by
  have hall : Allows ptePresent hhdm m root virt := by
    unfold pageAccess accessOf at h
    split at h
    · rename_i hpres
      intro e he
      have hp := of_decide_eq_true (List.all_eq_true.mp hpres e he)
      exact ⟨hp, hp⟩
    · cases h
  exact ((allows_iff hplain).mp hall).1.1

-- Through plain entries the processor finds the leaf entry of the tree.
theorem pageLeaf_plain (hplain : PlainWalk hhdm m root (pageNumber virt)) :
    pageLeaf hhdm m root virt = if Present (leafEntry hhdm m root (pageNumber virt)) then
      some (4, leafEntry hhdm m root (pageNumber virt)) else none := by
  split
  · rename_i hpres
    exact pageLeaf_of_leaf hpres
  · rename_i habs
    rw [pageLeaf, Option.map_eq_none_iff]
    by_contra hsome
    obtain ⟨access, haccess⟩ := Option.ne_none_iff_exists'.mp hsome
    exact habs (present_of_access hplain haccess)

end Levels

section Entries

variable {hhdm root f g : BitVec 64} {m m' m'' : Memory 64} {path : List (BitVec 9)} {i : BitVec 9}
variable {new : List (BitVec 64)} {page : BitVec 36}

-- One step of the walk, by the places of the tree: the entry it goes through gets
-- the flags and all others are kept.
structure Passed (hhdm root : BitVec 64) (path : List (BitVec 9)) (i : BitVec 9)
    (m m' : Memory 64) : Prop where
  others : ∀ p j, Walk everywhere p → ¬(p = path ∧ j = i) →
    leafAt hhdm m' root p j = leafAt hhdm m root p j
  flags : Present (leafAt hhdm m root path i) →
    leafAt hhdm m' root path i = leafAt hhdm m root path i ||| (pteUser ||| pteWrite)

theorem Ensured.passed {R : Set (BitVec 64)} (h : Ensured R hhdm m m' f i g new)
    (hg : Grown everywhere R hhdm root m m' new) (ht : Tree everywhere hhdm m root)
    (hs : ∀ t ∈ tables everywhere hhdm m root, Spares R hhdm t)
    (hw : Walk everywhere path) (hf : tableAt hhdm m root path = some f)
    (hunused : ∀ p ∈ new, p ∉ tables everywhere hhdm m root) :
    Passed hhdm root path i m m' := by
  constructor
  · intro p j hp hne
    cases hpt : tableAt hhdm m root p with
    | some t =>
        rw [leafAt_some hpt, leafAt_some (hg.keeps p t hp hpt)]
        refine h.others t j (ht.aligned hpt) (Or.inr (hs t ⟨p, hp, hpt⟩))
          (fun hin => hunused t hin ⟨p, hp, hpt⟩) ?_
        rintro ⟨rfl, rfl⟩
        exact hne ⟨ht.unshared p path t hp hw hpt hf, rfl⟩
    | none =>
        simp only [leafAt, hpt]
        cases hpt' : tableAt hhdm m' root p with
        | none => rfl
        | some t =>
            -- A table that appears is the new one.
            rcases (hg.tables t).mp ⟨p, hp, hpt'⟩ with ⟨q, hq, hqt⟩ | hin
            · obtain rfl := hg.tree.unshared p q t hp hq hpt' (hg.keeps q t hq hqt)
              cases hpt.symm.trans hqt
            · by_cases hpres : Present (slot hhdm m f i)
              · rw [(h.found hpres).1] at hin
                exact absurd hin List.not_mem_nil
              · obtain ⟨rfl, hzero⟩ := h.made hpres
                obtain rfl := List.mem_singleton.mp hin
                exact hzero j
  · intro hpres
    rw [leafAt_some hf] at hpres ⊢
    rw [leafAt_some (hg.keeps path f hw hf)]
    exact (h.found hpres).2.2

theorem writeEntry_others (ht : Tree everywhere hhdm m root) (hw : Walk everywhere path)
    (hf : tableAt hhdm m root path = some f) (e : BitVec 64)
    (hsame : ∀ p, Walk everywhere p → tableAt hhdm (writeEntry m (f + hhdm) (i.setWidth 64) e) root p =
      tableAt hhdm m root p) {p : List (BitVec 9)} {j : BitVec 9} (hp : Walk everywhere p)
    (hne : ¬(p = path ∧ j = i)) :
    leafAt hhdm (writeEntry m (f + hhdm) (i.setWidth 64) e) root p j = leafAt hhdm m root p j := by
  simp only [leafAt, hsame p hp]
  cases hpt : tableAt hhdm m root p with
  | none => rfl
  | some t =>
      refine slot_writeEntry_ne (ht.aligned hpt) (ht.aligned hf) ?_ e
      rintro ⟨rfl, rfl⟩
      exact hne ⟨ht.unshared p path t hp hw hpt hf, rfl⟩

variable {σ : Type} {alloc : Memory 64 → σ → BitVec 64 × Memory 64 × σ} {R : Set (BitVec 64)}
variable {s s' : State σ}

theorem ensureTable_passes {q : BitVec 64} (path : List (BitVec 9)) (hfoot : Footprint alloc R)
    (hh : s.hhdmOffset = hhdm) (ht : Tree everywhere hhdm s.mem root)
    (hs : ∀ t ∈ tables everywhere hhdm s.mem root, Spares R hhdm t)
    (hf : tableAt hhdm s.mem root path = some f) (hw : Walk everywhere (path ++ [i]))
    (hplain : Present (slot hhdm s.mem f i) → Plain (slot hhdm s.mem f i))
    (he : ensureTable alloc (f + hhdm) (i.setWidth 64) s = some (q, s'))
    (hlog : Logged s s' new) (hfresh : Fresh everywhere R hhdm root s.mem new) :
    Grown everywhere R hhdm root s.mem s'.mem new ∧ Passed hhdm root path i s.mem s'.mem ∧
      (∀ t ∈ tables everywhere hhdm s'.mem root, Spares R hhdm t) ∧
      ∃ g, q = g + hhdm ∧ tableAt hhdm s'.mem root (path ++ [i]) = some g := by
  have hwp := (walk_prefixClosed everywhere).init path i hw
  obtain ⟨hg, hbelow⟩ := ensureTable_spec path hfoot hh ht hs hf hw hplain he hlog hfresh
  obtain ⟨g, -, hstep⟩ := ensureTable_writes hfoot hh (ht.aligned hf) he hlog (fun p hp =>
    ⟨(hfresh.frames p hp).aligned, fun h => hfresh.unused p hp (h ▸ ⟨path, hwp, hf⟩)⟩)
  exact ⟨hg, hstep.passed hg ht hs hwp hf hfresh.unused, hg.toExtends.spares hs hfresh, hbelow⟩

-- vmm_map_page by the places of the tree.
structure Added (hhdm root : BitVec 64) (page : BitVec 36) (m m' : Memory 64) : Prop where
  others : ∀ p j, Walk everywhere p → ¬p ++ [j] <+: tablePath page →
    ¬(p = tablePath page ∧ j = leafIndex page) → leafAt hhdm m' root p j = leafAt hhdm m root p j
  flags : ∀ p j, p ++ [j] <+: tablePath page → Present (leafAt hhdm m root p j) →
    leafAt hhdm m' root p j = leafAt hhdm m root p j ||| (pteUser ||| pteWrite)

theorem vmmMapPage_added {virt phys flags : BitVec 64} (hfoot : Footprint alloc R)
    (hh : s.hhdmOffset = hhdm) (hroot : s.pml4 = root + hhdm) (ht : Tree everywhere hhdm s.mem root)
    (hs : ∀ t ∈ tables everywhere hhdm s.mem root, Spares R hhdm t)
    (hplain : PlainWalk hhdm s.mem root (pageNumber virt))
    (he : vmmMapPage alloc virt phys flags s = some s') (hlog : Logged s s' new)
    (hfresh : Fresh everywhere R hhdm root s.mem new) :
    Added hhdm root (pageNumber virt) s.mem s'.mem := by
  obtain ⟨q1, s1, q2, s2, q3, s3, h1, h2, h3, rfl⟩ := vmmMapPage_steps he
  rw [pml4Index_eq, hroot] at h1
  rw [pdptIndex_eq] at h2
  rw [pdIndex_eq] at h3
  rw [ptIndex_eq] at hlog ⊢
  have hw := walk_on_path everywhere (pageNumber virt) trivial
  generalize pageNumber virt = page at *
  obtain ⟨n1, l1⟩ := ensureTable_logged h1
  obtain ⟨n2, l2⟩ := ensureTable_logged h2
  obtain ⟨n3, l3⟩ := ensureTable_logged h3
  have hall := (l1.trans l2).trans l3
  obtain rfl : new = n1 ++ n2 ++ n3 := hlog.unique ⟨hall.handed, hall.hhdm, hall.pml4⟩
  obtain ⟨g1, p1, hs1, t1, rfl, ht1⟩ := ensureTable_passes [] hfoot hh ht hs rfl (hw _ ⟨_, rfl⟩)
    (hplain [] _ root ⟨_, rfl⟩ rfl) h1 l1 hfresh.left.left
  have hh1 := l1.hhdm.trans hh
  have hplain1 := hplain.extends hw g1.toExtends
  obtain ⟨g2, p2, hs2, t2, rfl, ht2⟩ := ensureTable_passes [_] hfoot hh1 g1.tree hs1 ht1
    (hw _ ⟨_, rfl⟩) (hplain1 _ _ t1 ⟨_, rfl⟩ ht1) h2 l2 (hfresh.left.right g1.toExtends)
  have hh2 := l2.hhdm.trans hh1
  have g12 := g1.trans g2
  have hplain2 := hplain.extends hw g12.toExtends
  obtain ⟨g3, p3, -, t3, rfl, ht3⟩ := ensureTable_passes [_, _] hfoot hh2 g12.tree hs2 ht2
    (hw _ ⟨_, rfl⟩) (hplain2 _ _ t2 ⟨_, rfl⟩ ht2) h3 l3 (hfresh.right g12.toExtends)
  have hleaf := hw _ (List.prefix_refl _)
  obtain ⟨-, hsame, -⟩ := leaf_written (R := R) (g12.trans g3).tree ht3 hleaf rfl
    (leafIndex page) ((phys &&& ~~~0xFFF) ||| flags ||| ptePresent)
  have p4 := fun p j (hp : Walk everywhere p) hne =>
    writeEntry_others (p := p) (j := j) (g12.trans g3).tree hleaf ht3 _ hsame hp hne
  constructor
  · intro p j hp hupper hlow
    rw [upper_cases, not_or, not_or] at hupper
    obtain ⟨u1, u2, u3⟩ := hupper
    rw [p4 p j hp hlow, p3.others p j hp u3, p2.others p j hp u2, p1.others p j hp u1]
  · intro p j hpre hpres
    have hp := (walk_prefixClosed everywhere).init p j (hw _ hpre)
    have hlow : ¬(p = tablePath page ∧ j = leafIndex page) := by
      rintro ⟨rfl, -⟩
      have := hpre.length_le
      simp at this
    rw [p4 p j hp hlow]
    rcases upper_cases.mp hpre with ⟨rfl, rfl⟩ | ⟨rfl, rfl⟩ | ⟨rfl, rfl⟩
    · rw [p3.others _ _ hp (by simp), p2.others _ _ hp (by simp), p1.flags hpres]
    · have hkept := p1.others _ (page.extractLsb' 18 9) hp (by simp)
      rw [p3.others _ _ hp (by simp), p2.flags (hkept ▸ hpres), hkept]
    · have hkept := (p2.others _ (page.extractLsb' 9 9) hp (by simp)).trans
        (p1.others _ _ hp (by simp))
      rw [p3.flags (hkept ▸ hpres), hkept]

end Entries

theorem and_ne_zero_of_or {x y c : BitVec 64} (h : y &&& c ≠ 0) : (x ||| y) &&& c ≠ 0 := by
  intro hz
  rw [or_and] at hz
  exact h (BitVec.or_eq_zero_iff.mp hz).2

theorem carries_flags {e bit : BitVec 64} (hbit : bit = pteUser ∨ bit = pteWrite) (hp : Present e) :
    Carries bit (e ||| (pteUser ||| pteWrite)) := by
  refine ⟨present_or_flags hp, and_ne_zero_of_or ?_⟩
  rcases hbit with rfl | rfl
  · decide
  · decide

section Permissions

variable {σ : Type} {alloc : Memory 64 → σ → BitVec 64 × Memory 64 × σ} {R : Set (BitVec 64)}

theorem allows_after {hhdm root virt phys flags other bit : BitVec 64} {s s' : State σ}
    (hfoot : Footprint alloc R) (hh : s.hhdmOffset = hhdm) (hroot : s.pml4 = root + hhdm)
    (hwell : WellFormed hhdm root s.mem)
    (hs : ∀ t ∈ tables everywhere hhdm s.mem root, Spares R hhdm t)
    (hp : Permitted alloc R root s (.map virt phys flags))
    (he : vmmMapPage alloc virt phys flags s = some s')
    (hother : pageNumber other ≠ pageNumber virt) (hbit : bit = pteUser ∨ bit = pteWrite) :
    Allows bit hhdm s'.mem root other ↔
      Carries bit (leafEntry hhdm s.mem root (pageNumber other)) ∧
        ∀ path i, path ++ [i] <+: tablePath (pageNumber other) →
          path ++ [i] <+: tablePath (pageNumber virt) ∨ Carries bit (leafAt hhdm s.mem root path i) := by
  obtain ⟨new, hlog, hfresh, hm, hwell', -⟩ := vmmMapPage_mapped hfoot hh hroot hwell hs hp he
  have hadd := vmmMapPage_added hfoot hh hroot hwell.tree hs (hwell.plainWalk _) he hlog hfresh
  rw [allows_iff (hwell'.plainWalk _), leafEntry_page hm.leaves _ trivial, if_neg hother]
  refine and_congr_right (fun hleaf => forall₃_congr (fun path i hpre => ?_))
  have hpres := uppers_present hleaf.1 hpre
  by_cases hshared : path ++ [i] <+: tablePath (pageNumber virt)
  · rw [hadd.flags path i hshared hpres]
    exact iff_of_true (carries_flags hbit hpres) (Or.inl hshared)
  · have hw := walk_on_path everywhere (pageNumber other) trivial _ hpre
    rw [hadd.others path i ((walk_prefixClosed everywhere).init path i hw) hshared, or_iff_right hshared]
    rintro ⟨rfl, -⟩
    have := hpre.length_le
    simp [tablePath] at this

-- After a map every other page has the permissions of its leaf entry and of the upper
-- entries that it does not share with the mapped page: it loses none, and gains none
-- where the shared entries had them.
theorem rights_after_map {σ : Type} (alloc : Memory 64 → σ → BitVec 64 × Memory 64 × σ)
    (R : Set (BitVec 64)) (hhdm root : BitVec 64) (s s' : State σ)
    (virt phys flags other bit : BitVec 64) (hfoot : Footprint alloc R) (hh : s.hhdmOffset = hhdm)
    (hroot : s.pml4 = root + hhdm) (hwell : WellFormed hhdm root s.mem)
    (hs : ∀ t ∈ tables everywhere hhdm s.mem root, Spares R hhdm t)
    (hp : Permitted alloc R root s (.map virt phys flags))
    (he : vmmMapPage alloc virt phys flags s = some s')
    (hother : pageNumber other ≠ pageNumber virt) (hbit : bit = pteUser ∨ bit = pteWrite) :
    (Allows bit hhdm s'.mem root other ↔
      Carries bit (leafEntry hhdm s.mem root (pageNumber other)) ∧
        ∀ path i, path ++ [i] <+: tablePath (pageNumber other) →
          path ++ [i] <+: tablePath (pageNumber virt) ∨ Carries bit (leafAt hhdm s.mem root path i)) ∧
    (Allows bit hhdm s.mem root other → Allows bit hhdm s'.mem root other) ∧
    ((∀ path i, path ++ [i] <+: tablePath (pageNumber other) →
        path ++ [i] <+: tablePath (pageNumber virt) → Carries bit (leafAt hhdm s.mem root path i)) →
      (Allows bit hhdm s'.mem root other ↔ Allows bit hhdm s.mem root other)) := by
  have hafter := allows_after hfoot hh hroot hwell hs hp he hother hbit
  refine ⟨hafter, ?_, ?_⟩
  · intro h
    obtain ⟨hleaf, hupper⟩ := (allows_iff (hwell.plainWalk _)).mp h
    exact hafter.mpr ⟨hleaf, fun path i hpre => Or.inr (hupper path i hpre)⟩
  · intro hshared
    rw [hafter, allows_iff (hwell.plainWalk _)]
    refine and_congr_right (fun _ => forall₃_congr (fun path i hpre => ?_))
    exact or_iff_right_of_imp (hshared path i hpre)

end Permissions

section Sample

open Miyabi.Mm.Boot

-- A tree in frames 1 to 4 that maps page 0 for user mode in its leaf entry only, next to the
-- bitmap of pmm_alloc in frame 0.
def kernelPage : State (List Returned) :=
  let m := lowBitmap 0xFF1F
  let m := writeEntry m (0x1000 + 0xFFFF800000000000) (BitVec.setWidth 64 (0 : BitVec 9)) 0x2003
  let m := writeEntry m (0x2000 + 0xFFFF800000000000) (BitVec.setWidth 64 (0 : BitVec 9)) 0x3003
  let m := writeEntry m (0x3000 + 0xFFFF800000000000) (BitVec.setWidth 64 (0 : BitVec 9)) 0x4003
  let m := writeEntry m (0x4000 + 0xFFFF800000000000) (BitVec.setWidth 64 (0 : BitVec 9)) 0x9007
  ⟨m, 0xFFFF800000000000, 0x1000 + 0xFFFF800000000000, [], []⟩

theorem kernelPage_slot {f : BitVec 64} (hf : Aligned f) (hpos : f ≠ 0) (i : BitVec 9) :
    slot 0xFFFF800000000000 kernelPage.mem f i =
      if f = 0x4000 ∧ i = 0 then 0x9007 else if f = 0x3000 ∧ i = 0 then 0x4003
      else if f = 0x2000 ∧ i = 0 then 0x3003 else if f = 0x1000 ∧ i = 0 then 0x2003 else 0 := by
  have hwrite : ∀ (m : Memory 64) (g e : BitVec 64), Aligned g →
      slot 0xFFFF800000000000 (writeEntry m (g + 0xFFFF800000000000) (BitVec.setWidth 64 (0 : BitVec 9)) e)
        f i = if f = g ∧ i = 0 then e else slot 0xFFFF800000000000 m f i := by
    intro m g e hg
    split
    · rename_i h
      rw [h.1, h.2]
      exact slot_writeEntry_same 0 e
    · rename_i h
      exact slot_writeEntry_ne hf hg h e
  unfold kernelPage
  rw [hwrite _ 0x4000 _ rfl, hwrite _ 0x3000 _ rfl, hwrite _ 0x2000 _ rfl, hwrite _ 0x1000 _ rfl,
    lowBitmap_slot 0xFF1F hf hpos]

theorem kernelPage_bitmap : ∀ x ∈ bitmapRegion lowPmm, kernelPage.mem x = lowBitmap 0xFF1F x := by
  intro x hx
  have hkeep : ∀ (m : Memory 64) (g e : BitVec 64), Aligned g → g ≠ 0 →
      writeEntry m (g + 0xFFFF800000000000) (BitVec.setWidth 64 (0 : BitVec 9)) e x = m x :=
    fun m g e hg hpos =>
      writeEntry_keeps hg 0 e x (fun hin => lowPmm_spares hg hpos x hin hx)
  refine (hkeep _ 0x4000 0x9007 rfl (by decide)).trans ?_
  rw [hkeep _ 0x3000 _ rfl (by decide), hkeep _ 0x2000 _ rfl (by decide),
    hkeep _ 0x1000 _ rfl (by decide)]

-- Its tables hang one below the other.
theorem kernelPage_tables {path : List (BitVec 9)} {f : BitVec 64} (hlen : path.length ≤ 3)
    (hf : tableAt 0xFFFF800000000000 kernelPage.mem 0x1000 path = some f) :
    (path = [] ∧ f = 0x1000) ∨ (path = [0] ∧ f = 0x2000) ∨ (path = [0, 0] ∧ f = 0x3000) ∨
      (path = [0, 0, 0] ∧ f = 0x4000) := by
  induction path using List.reverseRecOn generalizing f with
  | nil => exact Or.inl ⟨rfl, (Option.some.inj hf).symm⟩
  | append_singleton path i ih =>
      obtain ⟨t, ht, hpres, -, hframe⟩ := child_slot path hf
      simp only [List.length_append, List.length_singleton] at hlen
      have hcase := ih (by omega) ht
      have hal : Aligned t ∧ t ≠ 0 := by
        rcases hcase with ⟨-, rfl⟩ | ⟨-, rfl⟩ | ⟨-, rfl⟩ | ⟨-, rfl⟩ <;> exact ⟨rfl, by decide⟩
      rw [kernelPage_slot hal.1 hal.2] at hpres hframe
      by_cases hi : i = 0
      · subst hi
        rcases hcase with ⟨rfl, rfl⟩ | ⟨rfl, rfl⟩ | ⟨rfl, rfl⟩ | ⟨rfl, rfl⟩
        · exact Or.inr (Or.inl ⟨rfl, hframe.symm⟩)
        · exact Or.inr (Or.inr (Or.inl ⟨rfl, hframe.symm⟩))
        · exact Or.inr (Or.inr (Or.inr ⟨rfl, hframe.symm⟩))
        · simp at hlen
      · simp only [hi, and_false, if_false] at hpres
        exact absurd (by decide) hpres

theorem kernelPage_table {f : BitVec 64}
    (hf : f ∈ tables everywhere 0xFFFF800000000000 kernelPage.mem 0x1000) :
    f = 0x1000 ∨ f = 0x2000 ∨ f = 0x3000 ∨ f = 0x4000 := by
  obtain ⟨path, hw, hf⟩ := hf
  rcases kernelPage_tables hw.length hf with ⟨-, h⟩ | ⟨-, h⟩ | ⟨-, h⟩ | ⟨-, h⟩
  · exact Or.inl h
  · exact Or.inr (Or.inl h)
  · exact Or.inr (Or.inr (Or.inl h))
  · exact Or.inr (Or.inr (Or.inr h))

theorem kernelPage_wellFormed : WellFormed 0xFFFF800000000000 0x1000 kernelPage.mem := by
  have htables := fun {path f} (hw : Walk everywhere path) => kernelPage_tables (f := f) hw.length
  refine ⟨⟨rfl, ?_⟩, ?_, ?_⟩
  · intro p q f hp hq hfp hfq
    rcases htables hp hfp with ⟨rfl, rfl⟩ | ⟨rfl, rfl⟩ | ⟨rfl, rfl⟩ | ⟨rfl, rfl⟩ <;>
      rcases htables hq hfq with ⟨rfl, h⟩ | ⟨rfl, h⟩ | ⟨rfl, h⟩ | ⟨rfl, h⟩ <;>
      first | rfl | exact absurd h (by decide)
  · intro path i f hw hf hpres
    have hcase := htables ((walk_prefixClosed everywhere).init path i hw) hf
    have hal : Aligned f ∧ f ≠ 0 := by
      rcases hcase with ⟨-, rfl⟩ | ⟨-, rfl⟩ | ⟨-, rfl⟩ | ⟨-, rfl⟩ <;> exact ⟨rfl, by decide⟩
    rw [kernelPage_slot hal.1 hal.2] at hpres ⊢
    by_cases hi : i = 0
    · subst hi
      rcases hcase with ⟨-, rfl⟩ | ⟨-, rfl⟩ | ⟨-, rfl⟩ | ⟨-, rfl⟩ <;> exact ⟨by decide, by decide⟩
    · simp only [hi, and_false, if_false] at hpres
      exact absurd (by decide) hpres
  · intro f hf
    rcases kernelPage_table hf with rfl | rfl | rfl | rfl <;> decide

theorem kernelPage_spares : ∀ f ∈ tables everywhere kernelPage.hhdmOffset kernelPage.mem 0x1000,
    Spares (bitmapRegion lowPmm) kernelPage.hhdmOffset f := by
  intro f hf
  rcases kernelPage_table hf with rfl | rfl | rfl | rfl <;> exact lowPmm_spares rfl (by decide)

-- Frames 5 to 7 are free.
theorem kernelPage_supplied : Supplied (bitmapAlloc lowPmm) (bitmapRegion lowPmm)
    kernelPage.hhdmOffset 0x1000 kernelPage (lowFrames 0xFF1F) := by
  refine ⟨lowPmm_upcoming 0xFF1F kernelPage_bitmap kernelPage.frames,
    fun p hp => (lowFrames_cases hp).2.1, lowFrames_fresh (fun p hp hin => ?_)⟩
  rcases kernelPage_table hin with rfl | rfl | rfl | rfl <;> exact absurd hp (by decide +kernel)

theorem kernelPage_maps (virt phys flags : BitVec 64) :
    Permitted (bitmapAlloc lowPmm) (bitmapRegion lowPmm) 0x1000 kernelPage (.map virt phys flags) ∧
      ∃ s', vmmMapPage (bitmapAlloc lowPmm) virt phys flags kernelPage = some s' := by
  have hlen : 3 ≤ (lowFrames 0xFF1F).length := by decide +kernel
  obtain ⟨s', -, -, he, -⟩ := kernelPage_supplied.map lowPmm_footprint rfl rfl kernelPage_wellFormed
    kernelPage_spares hlen virt phys flags
  exact ⟨kernelPage_supplied.permits lowPmm_footprint rfl kernelPage_wellFormed kernelPage_spares hlen
    (fun _ hp => lowFrames_pointer hp) virt phys flags, s', he⟩

theorem kernelPage_leaf : Carries pteUser (leafEntry 0xFFFF800000000000 kernelPage.mem 0x1000 0) := by
  decide +kernel

theorem rights_after_map_neighbour :
    ∃ s', vmmMapPage (bitmapAlloc lowPmm) 0x1000 0xA000 0 kernelPage = some s' ∧
      Allows pteUser 0xFFFF800000000000 s'.mem 0x1000 0 := by
  obtain ⟨hp, s', he⟩ := kernelPage_maps 0x1000 0xA000 0
  obtain ⟨hiff, -⟩ := rights_after_map (bitmapAlloc lowPmm) (bitmapRegion lowPmm) 0xFFFF800000000000 0x1000
    kernelPage s' 0x1000 0xA000 0 0 pteUser lowPmm_footprint rfl rfl kernelPage_wellFormed kernelPage_spares
    hp he (by decide) (Or.inl rfl)
  exact ⟨s', he, hiff.mpr ⟨kernelPage_leaf, fun _ _ hpre => Or.inl hpre⟩⟩

-- Page 0 becomes a user page because page 1 is mapped.
theorem rights_gained :
    ¬∀ (s s' : State (List Returned)) (hhdm root virt phys flags other bit : BitVec 64),
      s.hhdmOffset = hhdm → s.pml4 = root + hhdm → WellFormed hhdm root s.mem →
      (∀ t ∈ tables everywhere hhdm s.mem root, Spares (bitmapRegion lowPmm) hhdm t) →
      Permitted (bitmapAlloc lowPmm) (bitmapRegion lowPmm) root s (.map virt phys flags) →
      vmmMapPage (bitmapAlloc lowPmm) virt phys flags s = some s' →
      pageNumber other ≠ pageNumber virt → bit = pteUser ∨ bit = pteWrite →
      (Allows bit hhdm s'.mem root other ↔ Allows bit hhdm s.mem root other) := by
  intro hall
  obtain ⟨hp, s', he⟩ := kernelPage_maps 0x1000 0xA000 0
  have hpage : pageNumber 0 ≠ pageNumber 0x1000 := by decide
  have hafter := (allows_after lowPmm_footprint rfl rfl kernelPage_wellFormed kernelPage_spares hp he
    hpage (Or.inl rfl)).mpr ⟨kernelPage_leaf, fun _ _ hpre => Or.inl hpre⟩
  have hbefore : ¬Allows pteUser 0xFFFF800000000000 kernelPage.mem 0x1000 0 := by
    intro h
    have hupper := ((allows_iff (kernelPage_wellFormed.plainWalk _)).mp h).2 [] 0 (upper_cases.mpr (Or.inl ⟨rfl, rfl⟩))
    have hslot : leafAt 0xFFFF800000000000 kernelPage.mem 0x1000 [] 0 = 0x2003 :=
      kernelPage_slot (f := 0x1000) rfl (by decide) 0
    rw [hslot] at hupper
    exact absurd hupper (by decide)
  exact hbefore ((hall kernelPage s' 0xFFFF800000000000 0x1000 0x1000 0xA000 0 0 pteUser rfl rfl
    kernelPage_wellFormed kernelPage_spares hp he hpage (Or.inl rfl)).mp hafter)

end Sample

end Miyabi.Mm.Vmm
