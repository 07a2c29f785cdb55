import Miyabi.Mm.Vmm.Ensure

namespace Miyabi.Mm.Vmm

open Miyabi.Base Miyabi.Base.Memory Miyabi.Base.TableTree

-- Bits 47 to 12 of an address, the walk to its leaf table, and the entry in that table.
def pageNumber (virt : BitVec 64) : BitVec 36 := virt.extractLsb' 12 36

def tablePath (page : BitVec 36) : List (BitVec 9) :=
  [page.extractLsb' 27 9, page.extractLsb' 18 9, page.extractLsb' 9 9]

def leafIndex (page : BitVec 36) : BitVec 9 := page.extractLsb' 0 9

section Indices

theorem index_eq (virt : BitVec 64) (j k : ℕ) (hk : k = 12 + j) (hj : j + 9 ≤ 36) :
    (virt >>> k) &&& 0x1FF = ((pageNumber virt).extractLsb' j 9).setWidth 64 := by
  apply BitVec.eq_of_toNat_eq
  have hmask := Word.toNat_and_mask (virt >>> k) 0x1FF 9 (by decide)
  have hpow : (2 : ℕ) ^ 36 = 2 ^ j * 2 ^ (36 - j) := by
    rw [← pow_add]
    congr 1
    omega
  have hdvd : (2 : ℕ) ^ 9 ∣ 2 ^ (36 - j) := pow_dvd_pow 2 (by omega)
  rw [hmask, BitVec.toNat_ushiftRight, Nat.shiftRight_eq_div_pow, BitVec.toNat_setWidth,
    BitVec.extractLsb'_toNat, pageNumber, BitVec.extractLsb'_toNat, Nat.shiftRight_eq_div_pow,
    Nat.shiftRight_eq_div_pow, hk, pow_add, ← Nat.div_div_eq_div_mul, hpow,
    Nat.mod_mul_right_div_self, Nat.mod_mod_of_dvd _ hdvd]
  exact (Nat.mod_eq_of_lt ((Nat.mod_lt _ (by omega)).trans (by omega))).symm

theorem pml4Index_eq (virt : BitVec 64) :
    pml4Index virt = ((pageNumber virt).extractLsb' 27 9).setWidth 64 :=
  index_eq virt 27 39 rfl (by omega)

theorem pdptIndex_eq (virt : BitVec 64) :
    pdptIndex virt = ((pageNumber virt).extractLsb' 18 9).setWidth 64 :=
  index_eq virt 18 30 rfl (by omega)

theorem pdIndex_eq (virt : BitVec 64) :
    pdIndex virt = ((pageNumber virt).extractLsb' 9 9).setWidth 64 :=
  index_eq virt 9 21 rfl (by omega)

theorem ptIndex_eq (virt : BitVec 64) : ptIndex virt = (leafIndex (pageNumber virt)).setWidth 64 :=
  index_eq virt 0 12 rfl (by omega)

-- The four indices determine the page.
theorem page_ext {p q : BitVec 36} (hpath : tablePath p = tablePath q)
    (hleaf : leafIndex p = leafIndex q) : p = q := by
  simp only [tablePath, List.cons.injEq, and_true] at hpath
  obtain ⟨h4, h3, h2⟩ := hpath
  have h := fun (j : ℕ) (x y : BitVec 36) (hxy : x.extractLsb' j 9 = y.extractLsb' j 9) =>
    congrArg BitVec.toNat hxy
  have n4 := h 27 p q h4
  have n3 := h 18 p q h3
  have n2 := h 9 p q h2
  have n1 := h 0 p q hleaf
  simp only [BitVec.extractLsb'_toNat, Nat.shiftRight_eq_div_pow] at n4 n3 n2 n1
  apply BitVec.eq_of_toNat_eq
  have hp := p.isLt
  have hq := q.isLt
  omega

end Indices

section LeafWrite

variable {roots : BitVec 9 → Prop} {R : Set (BitVec 64)} {hhdm root : BitVec 64} {m : Memory 64}
variable {path : List (BitVec 9)} {f : BitVec 64}

-- Writing an entry of a leaf table changes that entry only.
theorem leaf_written (ht : Tree roots hhdm m root) (hf : tableAt hhdm m root path = some f)
    (hw : Walk roots path) (hlen : path.length = 3) (i : BitVec 9) (e : BitVec 64) :
    Extends roots R hhdm root m (writeEntry m (f + hhdm) (i.setWidth 64) e) [] ∧
      (∀ p, Walk roots p → tableAt hhdm (writeEntry m (f + hhdm) (i.setWidth 64) e) root p =
        tableAt hhdm m root p) ∧
      ∀ p j, Walk roots p → p.length = 3 →
        leafAt hhdm (writeEntry m (f + hhdm) (i.setWidth 64) e) root p j =
          if p = path ∧ j = i then e else leafAt hhdm m root p j := by
  have hc := walk_prefixClosed roots
  have hal := ht.aligned hf
  generalize hm' : writeEntry m (f + hhdm) (i.setWidth 64) e = m'
  have hother : ∀ f' j, Aligned f' → ¬(f' = f ∧ j = i) → slot hhdm m' f' j = slot hhdm m f' j := by
    intro f' j hal' hne
    rw [← hm', slot_writeEntry_ne hal' hal hne]
  have hinner : ∀ p j t, Walk roots (p ++ [j]) → tableAt hhdm m root p = some t →
      slot hhdm m' t j = slot hhdm m t j := by
    intro p j t hp hpt
    have hplen : p.length < 3 := by
      have := hp.length
      simp at this
      omega
    have hne := ht.inner_ne_leaf (hc.init p j hp) hplen hpt hw hlen hf
    exact hother t j (ht.aligned hpt) (fun h => hne h.1.symm)
  have hchildren : SameChildren child (Walk roots) (slot hhdm m) (slot hhdm m') root :=
    fun p j t hp hpt => congrArg child (hinner p j t hp hpt)
  have hlookup : ∀ p, Walk roots p → tableAt hhdm m' root p = tableAt hhdm m root p :=
    fun p hp => lookup_congr hc hchildren p hp
  refine ⟨⟨⟨ht.root_aligned, unshared_congr hc hchildren ht.unshared⟩, ?_, ?_, ?_, ?_⟩, hlookup, ?_⟩
  · intro p t hp hpt
    rw [hlookup p hp, hpt]
  · intro t
    simp only [tables, reached_congr hc hchildren, List.not_mem_nil, or_false]
  · intro p j t hp hpt
    rw [hlookup p (hc.init p j hp)] at hpt
    exact Or.inl ⟨hpt, hinner p j t hp hpt⟩
  · intro x _ hout
    have hin : f ∈ tables roots hhdm m' root := by
      simp only [tables, reached_congr hc hchildren]
      exact ⟨path, hw, hf⟩
    rw [← hm']
    exact writeEntry_keeps hal i _ x (hout f hin)
  · intro p j hp hplen
    simp only [leafAt, hlookup p hp]
    by_cases he : p = path ∧ j = i
    · obtain ⟨rfl, rfl⟩ := he
      simp only [hf, and_self, if_true, ← hm', slot_writeEntry_same]
    · rw [if_neg he]
      cases hpt : tableAt hhdm m root p with
      | none => rfl
      | some t =>
          refine hother t j (ht.aligned hpt) (fun h => he ⟨?_, h.2⟩)
          exact ht.unshared p path t hp hw hpt (h.1 ▸ hf)

end LeafWrite

section LeafEntries

-- The leaf entry of a page, 0 where it has no leaf table.
def leafEntry (hhdm : BitVec 64) (m : Memory 64) (root : BitVec 64) (page : BitVec 36) : BitVec 64 :=
  leafAt hhdm m root (tablePath page) (leafIndex page)

theorem walk_on_path (roots : BitVec 9 → Prop) (page : BitVec 36)
    (hfirst : roots (page.extractLsb' 27 9)) (path : List (BitVec 9))
    (hpre : path <+: tablePath page) : Walk roots path := by
  refine ⟨hpre.length_le, ?_⟩
  cases path with
  | nil => simp
  | cons i rest =>
      have hi := (List.cons_prefix_cons.mp hpre).1
      simpa [hi] using hfirst

theorem leafEntry_page {roots : BitVec 9 → Prop} {hhdm root : BitVec 64} {m m' : Memory 64}
    {page : BitVec 36} {e : BitVec 64}
    (h : ∀ p j, Walk roots p → p.length = 3 → leafAt hhdm m' root p j =
      if p = tablePath page ∧ j = leafIndex page then e else leafAt hhdm m root p j)
    (q : BitVec 36) (hq : roots (q.extractLsb' 27 9)) :
    leafEntry hhdm m' root q = if q = page then e else leafEntry hhdm m root q := by
  rw [leafEntry, h _ _ (walk_on_path roots q hq _ (List.prefix_refl _)) rfl]
  by_cases he : q = page
  · rw [if_pos he, he, if_pos ⟨rfl, rfl⟩]
  · rw [if_neg he, if_neg (fun hp => he (page_ext hp.1 hp.2))]
    rfl

end LeafEntries

section MapPage

variable {σ : Type} {alloc : Memory 64 → σ → BitVec 64 × Memory 64 × σ}
variable {roots : BitVec 9 → Prop} {R : Set (BitVec 64)} {root : BitVec 64} {s s' : State σ}

-- Every present entry on the way to the page's leaf table is plain.
def PlainWalk (hhdm : BitVec 64) (m : Memory 64) (root : BitVec 64) (page : BitVec 36) : Prop :=
  ∀ path i f, path ++ [i] <+: tablePath page → tableAt hhdm m root path = some f →
    Present (slot hhdm m f i) → Plain (slot hhdm m f i)

theorem PlainWalk.extends {hhdm : BitVec 64} {m m' : Memory 64} {page : BitVec 36}
    {new : List (BitVec 64)} (h : PlainWalk hhdm m root page)
    (hw : ∀ path, path <+: tablePath page → Walk roots path)
    (he : Extends roots R hhdm root m m' new) : PlainWalk hhdm m' root page :=
  fun path i f hpre => he.plain_entry (hw _ hpre) (h path i f hpre)

-- What vmm_map_page does to the tree when its new frames are fresh.
structure Mapped (roots : BitVec 9 → Prop) (R : Set (BitVec 64)) (hhdm root : BitVec 64)
    (page : BitVec 36) (e : BitVec 64) (m m' : Memory 64) (new : List (BitVec 64)) : Prop
    extends Extends roots R hhdm root m m' new where
  leaf : (tableAt hhdm m' root (tablePath page)).isSome = true
  leaves : ∀ path i, Walk roots path → path.length = 3 → leafAt hhdm m' root path i =
    if path = tablePath page ∧ i = leafIndex page then e else leafAt hhdm m root path i

-- A successful vmm_map_page is three steps of the walk and a write to the leaf table.
theorem vmmMapPage_steps {virt phys flags : BitVec 64}
    (he : vmmMapPage alloc virt phys flags s = some s') :
    ∃ q1 s1 q2 s2 q3 s3, ensureTable alloc s.pml4 (pml4Index virt) s = some (q1, s1) ∧
      ensureTable alloc q1 (pdptIndex virt) s1 = some (q2, s2) ∧
      ensureTable alloc q2 (pdIndex virt) s2 = some (q3, s3) ∧
      s' = { s3 with
        mem := writeEntry s3.mem q3 (ptIndex virt) ((phys &&& ~~~0xFFF) ||| flags ||| ptePresent) } := by
  unfold vmmMapPage at he
  cases h1 : ensureTable alloc s.pml4 (pml4Index virt) s with
  | none => simp only [h1] at he; cases he
  | some r1 =>
      obtain ⟨q1, s1⟩ := r1
      simp only [h1] at he
      cases h2 : ensureTable alloc q1 (pdptIndex virt) s1 with
      | none => simp only [h2] at he; cases he
      | some r2 =>
          obtain ⟨q2, s2⟩ := r2
          simp only [h2] at he
          cases h3 : ensureTable alloc q2 (pdIndex virt) s2 with
          | none => simp only [h3] at he; cases he
          | some r3 =>
              obtain ⟨q3, s3⟩ := r3
              simp only [h3] at he
              exact ⟨q1, s1, q2, s2, q3, s3, rfl, h2, h3, (Option.some.inj he).symm⟩

theorem vmmMapPage_logged {virt phys flags : BitVec 64}
    (he : vmmMapPage alloc virt phys flags s = some s') : ∃ new, Logged s s' new := by
  obtain ⟨q1, s1, q2, s2, q3, s3, h1, h2, h3, rfl⟩ := vmmMapPage_steps he
  obtain ⟨n1, l1⟩ := ensureTable_logged h1
  obtain ⟨n2, l2⟩ := ensureTable_logged h2
  obtain ⟨n3, l3⟩ := ensureTable_logged h3
  have hlog := (l1.trans l2).trans l3
  exact ⟨_, hlog.handed, hlog.hhdm, hlog.pml4⟩

theorem vmmMapPage_spec {hhdm virt phys flags : BitVec 64} {new : List (BitVec 64)}
    (hfoot : Footprint alloc R) (hh : s.hhdmOffset = hhdm) (hroot : s.pml4 = root + hhdm)
    (ht : Tree roots hhdm s.mem root)
    (hs : ∀ f ∈ tables roots hhdm s.mem root, Spares R hhdm f)
    (hfirst : roots ((pageNumber virt).extractLsb' 27 9))
    (hplain : PlainWalk hhdm s.mem root (pageNumber virt))
    (he : vmmMapPage alloc virt phys flags s = some s') (hlog : Logged s s' new)
    (hfresh : Fresh roots R hhdm root s.mem new) :
    Mapped roots R hhdm root (pageNumber virt) ((phys &&& ~~~0xFFF) ||| flags ||| ptePresent)
      s.mem s'.mem new := by
  obtain ⟨q1, s1, q2, s2, q3, s3, h1, h2, h3, rfl⟩ := vmmMapPage_steps he
  rw [pml4Index_eq, hroot] at h1
  rw [pdptIndex_eq] at h2
  rw [pdIndex_eq] at h3
  rw [ptIndex_eq] at hlog ⊢
  have hw := walk_on_path roots _ hfirst
  generalize pageNumber virt = page at *
  obtain ⟨n1, l1⟩ := ensureTable_logged h1
  obtain ⟨n2, l2⟩ := ensureTable_logged h2
  obtain ⟨n3, l3⟩ := ensureTable_logged h3
  have hall := (l1.trans l2).trans l3
  obtain rfl : new = n1 ++ n2 ++ n3 := hlog.unique ⟨hall.handed, hall.hhdm, hall.pml4⟩
  -- From the root.
  have f1 := hfresh.left.left
  obtain ⟨g1, t1, rfl, ht1⟩ := ensureTable_spec [] hfoot hh ht hs rfl (hw _ ⟨_, rfl⟩)
    (hplain [] _ root ⟨_, rfl⟩ rfl) h1 l1 f1
  -- From the table just found.
  have hh1 := l1.hhdm.trans hh
  have s1spares := g1.toExtends.spares hs f1
  have p1 := hplain.extends hw g1.toExtends
  have f2 := hfresh.left.right g1.toExtends
  obtain ⟨g2, t2, rfl, ht2⟩ := ensureTable_spec _ hfoot hh1 g1.tree s1spares ht1 (hw _ ⟨_, rfl⟩)
    (p1 _ _ t1 ⟨_, rfl⟩ ht1) h2 l2 f2
  -- And once more, to the leaf table.
  have hh2 := l2.hhdm.trans hh1
  have g12 := g1.trans g2
  have s2spares := g12.toExtends.spares hs hfresh.left
  have p2 := hplain.extends hw g12.toExtends
  have f3 := hfresh.right g12.toExtends
  obtain ⟨g3, t3, rfl, ht3⟩ := ensureTable_spec _ hfoot hh2 g12.tree s2spares ht2 (hw _ ⟨_, rfl⟩)
    (p2 _ _ t2 ⟨_, rfl⟩ ht2) h3 l3 f3
  have g123 := g12.trans g3
  obtain ⟨hext, hsame, hleaf⟩ := leaf_written (R := R) g123.tree ht3 (hw _ (List.prefix_refl _)) rfl
    (leafIndex page) ((phys &&& ~~~0xFFF) ||| flags ||| ptePresent)
  have hfinal := g123.toExtends.trans hext
  rw [List.append_nil] at hfinal
  refine ⟨hfinal, ?_, ?_⟩
  · have hlook := hsame _ (hw _ (List.prefix_refl _))
    rw [hlook]
    exact Option.isSome_iff_exists.mpr ⟨t3, ht3⟩
  · intro path i hwp hlen
    rw [hleaf path i hwp hlen, g123.leaves path i hwp hlen]
    rfl

-- Where the leaf table is there, no frame is needed.
theorem ensureTable_found {hhdm : BitVec 64} {path : List (BitVec 9)} {i : BitVec 9} {f g : BitVec 64}
    (hfoot : Footprint alloc R) (hh : s.hhdmOffset = hhdm) (ht : Tree roots hhdm s.mem root)
    (hs : ∀ f ∈ tables roots hhdm s.mem root, Spares R hhdm f) (hw : Walk roots (path ++ [i]))
    (hplain : ∀ f, tableAt hhdm s.mem root path = some f → Present (slot hhdm s.mem f i) →
      Plain (slot hhdm s.mem f i))
    (hf : tableAt hhdm s.mem root path = some f) (hg : tableAt hhdm s.mem root (path ++ [i]) = some g) :
    ∃ s', ensureTable alloc (f + hhdm) (i.setWidth 64) s = some (g + hhdm, s') ∧ Logged s s' [] ∧
      Grown roots R hhdm root s.mem s'.mem [] := by
  have hpres : Present (slot hhdm s.mem f i) := by
    rw [tableAt, lookup_snoc] at hg
    obtain ⟨t, ht', hc⟩ := Option.bind_eq_some_iff.mp hg
    obtain rfl := Option.some.inj (ht'.symm.trans hf)
    exact (child_some hc).1
  obtain ⟨q, s', he, hlog⟩ := ensureTable_of_present alloc (f + hhdm)
    (i.setWidth 64) hpres
  obtain ⟨hgrown, g', rfl, hg'⟩ := ensureTable_spec path hfoot hh ht hs hf hw (hplain f hf) he hlog
    ⟨List.nodup_nil, by simp, by simp, by simp⟩
  obtain rfl := Option.some.inj ((hgrown.keeps _ g hw hg).symm.trans hg')
  exact ⟨s', he, hlog, hgrown⟩

theorem vmmMapPage_found {hhdm virt : BitVec 64} (phys flags : BitVec 64) (hfoot : Footprint alloc R)
    (hh : s.hhdmOffset = hhdm) (hroot : s.pml4 = root + hhdm) (ht : Tree roots hhdm s.mem root)
    (hs : ∀ f ∈ tables roots hhdm s.mem root, Spares R hhdm f)
    (hfirst : roots ((pageNumber virt).extractLsb' 27 9))
    (hplain : PlainWalk hhdm s.mem root (pageNumber virt))
    (hleaf : (tableAt hhdm s.mem root (tablePath (pageNumber virt))).isSome = true) :
    ∃ s', vmmMapPage alloc virt phys flags s = some s' ∧ Logged s s' [] := by
  have hw := walk_on_path roots _ hfirst
  obtain ⟨t3, h3⟩ := Option.isSome_iff_exists.mp hleaf
  -- The tables on the way.
  have hsnoc : ∀ path i g, tableAt hhdm s.mem root (path ++ [i]) = some g →
      ∃ f, tableAt hhdm s.mem root path = some f := by
    intro path i g hg
    rw [tableAt, lookup_snoc] at hg
    obtain ⟨f, hf, -⟩ := Option.bind_eq_some_iff.mp hg
    exact ⟨f, hf⟩
  obtain ⟨t2, h2⟩ := hsnoc [_, _] _ t3 h3
  obtain ⟨t1, h1⟩ := hsnoc [_] _ t2 h2
  have hnone : ∀ {m m' : Memory 64}, Grown roots R hhdm root m m' [] →
      (∀ f ∈ tables roots hhdm m root, Spares R hhdm f) →
      ∀ f ∈ tables roots hhdm m' root, Spares R hhdm f :=
    fun hg hs => hg.toExtends.spares hs ⟨List.nodup_nil, by simp, by simp, by simp⟩
  obtain ⟨s1, e1, l1, g1⟩ := ensureTable_found hfoot hh ht hs (hw _ ⟨_, rfl⟩)
    (fun f => hplain [] _ f ⟨_, rfl⟩) rfl h1
  have hh1 := l1.hhdm.trans hh
  have p1 := hplain.extends hw g1.toExtends
  have s1spares := hnone g1 hs
  obtain ⟨s2, e2, l2, g2⟩ := ensureTable_found hfoot hh1 g1.tree s1spares (hw _ ⟨_, rfl⟩)
    (fun f => p1 _ _ f ⟨_, rfl⟩) (g1.keeps _ _ (hw _ ⟨_, rfl⟩) h1) (g1.keeps _ _ (hw _ ⟨_, rfl⟩) h2)
  have hh2 := l2.hhdm.trans hh1
  have g12 := g1.trans g2
  have p2 := p1.extends hw g2.toExtends
  obtain ⟨s3, e3, l3, -⟩ := ensureTable_found hfoot hh2 g2.tree (hnone g2 s1spares) (hw _ ⟨_, rfl⟩)
    (fun f => p2 _ _ f ⟨_, rfl⟩) (g12.keeps _ _ (hw _ ⟨_, rfl⟩) h2)
    (g12.keeps _ _ (hw _ (List.prefix_refl _)) h3)
  have hall := (l1.trans l2).trans l3
  unfold vmmMapPage
  rw [pml4Index_eq, hroot, e1]
  simp only [pdptIndex_eq, e2, pdIndex_eq, e3]
  exact ⟨_, rfl, hall.handed, hall.hhdm, hall.pml4⟩

end MapPage

end Miyabi.Mm.Vmm
