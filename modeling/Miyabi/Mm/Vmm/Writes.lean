import Miyabi.Mm.Vmm.Access

namespace Miyabi.Mm.Vmm

open Miyabi.Base Miyabi.Base.Memory Miyabi.Base.TableTree

-- The table that vmm_map_page takes an entry to point to: it looks neither at
-- PTE_HUGE nor at the bits above bit 51.
def codeChild (e : BitVec 64) : Option (BitVec 64) :=
  if Present e then some (e &&& ~~~0xFFF) else none

abbrev codeTable (hhdm : BitVec 64) (m : Memory 64) (root : BitVec 64) (path : List (BitVec 9)) :
    Option (BitVec 64) :=
  lookup codeChild (slot hhdm m) root path

-- The tables below the root that vmm_map_page finds on its way to a page.
def Visits (hhdm : BitVec 64) (m : Memory 64) (root : BitVec 64) (page : BitVec 36) (f : BitVec 64) :
    Prop :=
  ∃ path, path ≠ [] ∧ path <+: tablePath page ∧ codeTable hhdm m root path = some f

section Entries

variable {e p : BitVec 64}

theorem aligned_and_not_low (e : BitVec 64) : Aligned (e &&& ~~~0xFFF) := by
  rw [Aligned, Word.toNat_and_not_mask e 0xFFF 12 (by decide)]
  exact Nat.mul_mod_left _ _

theorem and_not_low_of_aligned (hp : Aligned p) : p &&& ~~~0xFFF = p := by
  apply BitVec.eq_of_toNat_eq
  rw [Aligned] at hp
  rw [Word.toNat_and_not_mask p 0xFFF 12 (by decide)]
  omega

theorem codeChild_or_flags : codeChild (e ||| (pteUser ||| pteWrite)) = codeChild e := by
  have hlow : (e ||| (pteUser ||| pteWrite)) &&& ~~~0xFFF = e &&& ~~~0xFFF :=
    or_and_of_zero (by decide)
  have hpres : Present (e ||| (pteUser ||| pteWrite)) ↔ Present e := by
    unfold Present
    rw [or_and_of_zero (by decide)]
  simp only [codeChild, hlow, hpres]

theorem tableEntry_base (hp : Aligned p) : tableEntry p &&& ~~~0xFFF = p := by
  rw [tableEntry_eq, or_and_of_zero (by decide), and_not_low_of_aligned hp]

end Entries

section Visited

variable {hhdm root f : BitVec 64} {m : Memory 64} {page : BitVec 36}

theorem Visits.aligned (h : Visits hhdm m root page f) : Aligned f := by
  obtain ⟨path, hne, -, hf⟩ := h
  obtain ⟨init, i, rfl⟩ := (List.eq_nil_or_concat' path).resolve_left hne
  rw [codeTable, lookup_snoc] at hf
  obtain ⟨t, -, hc⟩ := Option.bind_eq_some_iff.mp hf
  unfold codeChild at hc
  split at hc
  · rw [← Option.some.inj hc]
    exact aligned_and_not_low _
  · cases hc

-- Below an absent root entry there is nothing to find.
theorem not_visits (habs : ¬Present (slot hhdm m root (page.extractLsb' 27 9))) :
    ¬Visits hhdm m root page f := by
  rintro ⟨path, hne, hpre, hf⟩
  cases path with
  | nil => exact hne rfl
  | cons i rest =>
      obtain rfl := (List.cons_prefix_cons.mp hpre).1
      simp only [codeTable, lookup, codeChild, habs, if_false] at hf
      cases hf

-- Through plain entries the code goes from table to table of the tree.
theorem codeTable_eq (hplain : PlainWalk hhdm m root page) {path : List (BitVec 9)}
    (hpre : path <+: tablePath page) : codeTable hhdm m root path = tableAt hhdm m root path := by
  induction path using List.reverseRecOn with
  | nil => rfl
  | append_singleton path i ih =>
      have hrest := ih ((List.prefix_append path [i]).trans hpre)
      rw [codeTable, tableAt, lookup_snoc, lookup_snoc]
      rw [codeTable, tableAt] at hrest
      rw [hrest]
      cases hf : lookup child (slot hhdm m) root path with
      | none => rfl
      | some t =>
          show codeChild (slot hhdm m t i) = child (slot hhdm m t i)
          by_cases hp : Present (slot hhdm m t i)
          · have h := hplain path i t hpre hf hp
            rw [codeChild, if_pos hp, child_of_plain h hp, h.frame]
          · rw [codeChild, if_neg hp, child_of_absent hp]

theorem Visits.table {roots : BitVec 9 → Prop} (h : Visits hhdm m root page f)
    (hplain : PlainWalk hhdm m root page) (hfirst : roots (page.extractLsb' 27 9)) :
    ∃ path, path ≠ [] ∧ Walk roots path ∧ tableAt hhdm m root path = some f := by
  obtain ⟨path, hne, hpre, hf⟩ := h
  rw [codeTable_eq hplain hpre] at hf
  exact ⟨path, hne, walk_on_path roots page hfirst path hpre, hf⟩

theorem Visits.ne_root {roots : BitVec 9 → Prop} (h : Visits hhdm m root page f)
    (ht : Tree roots hhdm m root) (hplain : PlainWalk hhdm m root page)
    (hfirst : roots (page.extractLsb' 27 9)) : f ≠ root := by
  obtain ⟨path, hne, hw, hf⟩ := h.table hplain hfirst
  rintro rfl
  exact hne (ht.unshared path [] f hw (walk_prefixClosed roots).nil hf rfl)

end Visited

section EnsureTable

variable {σ : Type} {alloc : Memory 64 → σ → BitVec 64 × Memory 64 × σ} {R : Set (BitVec 64)}
variable {hhdm f g : BitVec 64} {i : BitVec 9} {m m' : Memory 64} {new : List (BitVec 64)}
variable {s s' : State σ}

-- One step of the walk, from entry i of the table f to the table g. pmm_alloc writes
-- inside the region R.
structure Ensured (R : Set (BitVec 64)) (hhdm : BitVec 64) (m m' : Memory 64) (f : BitVec 64)
    (i : BitVec 9) (g : BitVec 64) (new : List (BitVec 64)) : Prop where
  aligned : Aligned g
  outside : ∀ x, x ∉ R → ¬InRange (f + hhdm) 4096 x → (∀ p ∈ new, ¬InRange (p + hhdm) 4096 x) →
    m' x = m x
  others : ∀ h j, Aligned h → new = [] ∨ Spares R hhdm h → h ∉ new → ¬(h = f ∧ j = i) →
    slot hhdm m' h j = slot hhdm m h j
  found : Present (slot hhdm m f i) →
    new = [] ∧ g = slot hhdm m f i &&& ~~~0xFFF ∧
      slot hhdm m' f i = slot hhdm m f i ||| (pteUser ||| pteWrite)
  made : ¬Present (slot hhdm m f i) → new = [g] ∧ ∀ j, slot hhdm m' g j = 0

theorem ensureTable_writes {q : BitVec 64} (hfoot : Footprint alloc R) (hh : s.hhdmOffset = hhdm)
    (hf : Aligned f) (he : ensureTable alloc (f + hhdm) (i.setWidth 64) s = some (q, s'))
    (hlog : Logged s s' new) (hnew : ∀ p ∈ new, Aligned p ∧ p ≠ f) :
    ∃ g, q = g + hhdm ∧ Ensured R hhdm s.mem s'.mem f i g new := by
  subst hh
  have hslot : ∀ m, readEntry m (f + s.hhdmOffset) (i.setWidth 64) = slot s.hhdmOffset m f i :=
    fun _ => rfl
  rcases ensureTable_cases he with ⟨hpres, rfl, rfl⟩ | ⟨habs, p, m1, frames, hcall, -, rfl, rfl⟩
  · obtain rfl := hlog.unique ⟨(List.append_nil _).symm, rfl, rfl⟩
    rw [hslot] at hpres
    simp only [hslot, slot_writeEntry_same]
    refine ⟨_, rfl, aligned_and_not_low _, fun x _ hx _ => writeEntry_keeps hf i _ x hx,
      fun h j hal _ _ hne => slot_writeEntry_ne hal hf hne _, fun _ => ⟨rfl, ?_, ?_⟩,
      fun habs => absurd hpres habs⟩
    · exact or_and_of_zero (by decide)
    · rw [slot_writeEntry_same]
  · have hm1 : ∀ x, x ∉ R → m1 x = s.mem x := by
      have hout := hfoot s.mem s.frames
      rwa [hcall] at hout
    obtain rfl : new = [p] := hlog.unique ⟨rfl, rfl, rfl⟩
    obtain ⟨hp, hne⟩ := hnew p (by simp)
    obtain ⟨hzero, hkeep⟩ := zeroTable_spec s.hhdmOffset m1 hp 512 le_rfl
    rw [hslot] at habs
    simp only [hslot, slot_writeEntry_same, tableEntry_base hp]
    refine ⟨p, rfl, hp, ?_, ?_, fun hpres => absurd hpres habs, fun _ => ⟨rfl, ?_⟩⟩
    · intro x hR hx hxp
      rw [writeEntry_keeps hf i _ x hx, hkeep x (hxp p (by simp)), hm1 x hR]
    · intro h j hal hspare hmem hne'
      have hout : Spares R s.hhdmOffset h := hspare.resolve_left (List.cons_ne_nil p [])
      rw [slot_writeEntry_ne hal hf hne', slot_congr hal (hkeep.agree (pages_apart hal hp ?_)),
        slot_congr hal (fun x hx => hm1 x (hout x hx))]
      exact fun he => hmem (by simp [he])
    · intro j
      rw [slot_writeEntry_ne hp hf (fun h => hne h.1)]
      exact hzero j (toNat_index j).2

end EnsureTable

section Walking

-- The walk has come along `path` to the table g, in the memory m that m0 has become.
structure Walking (R : Set (BitVec 64)) (hhdm : BitVec 64) (m0 : Memory 64) (root : BitVec 64)
    (page : BitVec 36) (path : List (BitVec 9)) (m : Memory 64) (g : BitVec 64)
    (new : List (BitVec 64)) : Prop where
  aligned : Aligned g
  start : path = [] → g = root ∧ m = m0
  place : (new = [] ∧ codeTable hhdm m0 root path = some g ∧
      ∀ h j, Aligned h → codeChild (slot hhdm m h j) = codeChild (slot hhdm m0 h j)) ∨
    (g ∈ new ∧ ∀ j, slot hhdm m g j = 0)
  outside : ∀ x, x ∉ R → ¬InRange (root + hhdm) 4096 x →
    (∀ f, Visits hhdm m0 root page f → ¬InRange (f + hhdm) 4096 x) →
    (∀ p ∈ new, ¬InRange (p + hhdm) 4096 x) → m x = m0 x
  others : ∀ j, path.head? ≠ some j → slot hhdm m root j = slot hhdm m0 root j
  first : ∀ j, path.head? = some j → Present (slot hhdm m0 root j) →
    slot hhdm m root j = slot hhdm m0 root j ||| (pteUser ||| pteWrite)

-- The frames that pmm_alloc returns during the walk.
structure Handed (hhdm : BitVec 64) (m0 : Memory 64) (root : BitVec 64) (page : BitVec 36)
    (new : List (BitVec 64)) : Prop where
  nodup : new.Nodup
  aligned : ∀ p ∈ new, Aligned p
  below : ∀ p ∈ new, p ≠ root
  unvisited : ∀ p ∈ new, ¬Visits hhdm m0 root page p

variable {σ : Type} {alloc : Memory 64 → σ → BitVec 64 × Memory 64 × σ} {R : Set (BitVec 64)}
variable {hhdm root g : BitVec 64} {m0 m : Memory 64} {page : BitVec 36}
variable {path : List (BitVec 9)} {i : BitVec 9} {new new' : List (BitVec 64)}
variable {s s' : State σ}

theorem walking_start (hroot : Aligned root) : Walking R hhdm m root page [] m root [] :=
  ⟨hroot, fun _ => ⟨rfl, rfl⟩, Or.inl ⟨rfl, rfl, fun _ _ _ => rfl⟩, fun _ _ _ _ _ => rfl,
    fun _ _ => rfl, fun j hj => by simp at hj⟩

theorem Handed.left (h : Handed hhdm m0 root page (new ++ new')) : Handed hhdm m0 root page new :=
  ⟨(List.nodup_append.mp h.nodup).1, fun p hp => h.aligned p (List.mem_append_left _ hp),
    fun p hp => h.below p (List.mem_append_left _ hp),
    fun p hp => h.unvisited p (List.mem_append_left _ hp)⟩

-- Where the walk can be.
theorem Walking.table (h : Walking R hhdm m0 root page path m g new) (hpre : path <+: tablePath page) :
    (path = [] ∧ g = root) ∨ (path ≠ [] ∧ Visits hhdm m0 root page g) ∨ g ∈ new := by
  rcases h.place with ⟨-, hold, -⟩ | ⟨hin, -⟩
  · by_cases hnil : path = []
    · subst hnil
      exact Or.inl ⟨rfl, (Option.some.inj hold).symm⟩
    · exact Or.inr (Or.inl ⟨hnil, path, hnil, hpre, hold⟩)
  · exact Or.inr (Or.inr hin)

-- Below the root it does not come back to it.
theorem Walking.ne_root (h : Walking R hhdm m0 root page path m g new) (hpre : path <+: tablePath page)
    (hpath : path ≠ []) (hout : ¬Visits hhdm m0 root page root)
    (hnew : Handed hhdm m0 root page new) : g ≠ root := by
  rcases h.table hpre with ⟨hnil, -⟩ | ⟨-, hvisit⟩ | hin
  · exact absurd hnil hpath
  · exact fun he => hout (he ▸ hvisit)
  · exact hnew.below g hin

theorem Walking.step {q : BitVec 64} (hfoot : Footprint alloc R) (hroot : Aligned root)
    (hspare : Spares R hhdm root) (h : Walking R hhdm m0 root page path s.mem g new)
    (hpre : path ++ [i] <+: tablePath page) (hout : ¬Visits hhdm m0 root page root)
    (hnew : Handed hhdm m0 root page (new ++ new')) (hh : s.hhdmOffset = hhdm)
    (he : ensureTable alloc (g + hhdm) (i.setWidth 64) s = some (q, s'))
    (hlog : Logged s s' new') :
    ∃ g', q = g' + hhdm ∧ Walking R hhdm m0 root page (path ++ [i]) s'.mem g' (new ++ new') := by
  have hprefix : path <+: tablePath page := (List.prefix_append path [i]).trans hpre
  obtain ⟨-, -, hdisj⟩ := List.nodup_append.mp hnew.nodup
  have htable := h.table hprefix
  have hfresh : ∀ p ∈ new', Aligned p ∧ p ≠ g := by
    intro p hp
    have hin := List.mem_append_right new hp
    refine ⟨hnew.aligned p hin, ?_⟩
    rcases htable with ⟨-, rfl⟩ | ⟨-, hvisit⟩ | hg
    · exact hnew.below p hin
    · exact fun he => hnew.unvisited p hin (he ▸ hvisit)
    · exact fun he => hdisj g hg p hp he.symm
  have hroots : root ∉ new' := fun hin => hnew.below root (List.mem_append_right _ hin) rfl
  obtain ⟨g', hq, hstep⟩ := ensureTable_writes hfoot hh h.aligned he hlog hfresh
  refine ⟨g', hq, hstep.aligned, fun hnil => by simp at hnil, ?_, ?_, ?_, ?_⟩
  · by_cases hpres : Present (slot hhdm s.mem g i)
    · obtain ⟨rfl, hg', hflags⟩ := hstep.found hpres
      rw [List.append_nil]
      rcases h.place with ⟨rfl, hold, hsame⟩ | ⟨hin, hzero⟩
      · refine Or.inl ⟨rfl, ?_, ?_⟩
        · have hparent : lookup codeChild (slot hhdm m0) root path = some g := hold
          rw [codeTable, lookup_snoc, hparent, Option.bind_some, ← hsame g i h.aligned, codeChild,
            if_pos hpres, hg']
        · intro f j hf
          by_cases hfi : f = g ∧ j = i
          · obtain ⟨rfl, rfl⟩ := hfi
            rw [hflags, codeChild_or_flags, hsame f j hf]
          · rw [hstep.others f j hf (Or.inl rfl) (by simp) hfi, hsame f j hf]
      · rw [hzero i] at hpres
        exact absurd (by decide) hpres
    · obtain ⟨rfl, hzero⟩ := hstep.made hpres
      exact Or.inr ⟨by simp, hzero⟩
  · intro x hR hx hvisit hxnew
    have hxg : ¬InRange (g + hhdm) 4096 x := by
      rcases htable with ⟨-, rfl⟩ | ⟨-, hg⟩ | hg
      · exact hx
      · exact hvisit g hg
      · exact hxnew g (List.mem_append_left _ hg)
    rw [hstep.outside x hR hxg (fun p hp => hxnew p (List.mem_append_right _ hp)),
      h.outside x hR hx hvisit (fun p hp => hxnew p (List.mem_append_left _ hp))]
  · intro j hj
    cases path with
    | nil =>
        obtain ⟨rfl, hmem⟩ := h.start rfl
        have hne : ¬(g = g ∧ j = i) := fun he => hj (by simp [he.2])
        rw [hstep.others g j hroot (Or.inr hspare) hroots hne, hmem]
    | cons k rest =>
        have hg := h.ne_root hprefix (by simp) hout hnew.left
        rw [hstep.others root j hroot (Or.inr hspare) hroots (fun he => hg he.1.symm)]
        exact h.others j hj
  · intro j hj hpres
    cases path with
    | nil =>
        obtain ⟨rfl, hmem⟩ := h.start rfl
        obtain rfl : i = j := by simpa using hj
        rw [← hmem] at hpres ⊢
        exact (hstep.found hpres).2.2
    | cons k rest =>
        have hg := h.ne_root hprefix (by simp) hout hnew.left
        rw [hstep.others root j hroot (Or.inr hspare) hroots (fun he => hg he.1.symm)]
        exact h.first j hj hpres

-- What vmm_map_page writes: the root entry, the tables that it finds and those that
-- it makes.
theorem vmmMapPage_writes {virt phys flags : BitVec 64} (hfoot : Footprint alloc R)
    (hh : s.hhdmOffset = hhdm) (hroot : Aligned root) (hspare : Spares R hhdm root)
    (hpml4 : s.pml4 = root + hhdm) (he : vmmMapPage alloc virt phys flags s = some s')
    (hlog : Logged s s' new) (hout : ¬Visits hhdm s.mem root (pageNumber virt) root)
    (hnew : Handed hhdm s.mem root (pageNumber virt) new) :
    (∀ x, x ∉ R → ¬InRange (root + hhdm) 4096 x →
      (∀ f, Visits hhdm s.mem root (pageNumber virt) f → ¬InRange (f + hhdm) 4096 x) →
      (∀ p ∈ new, ¬InRange (p + hhdm) 4096 x) → s'.mem x = s.mem x) ∧
    (∀ j, j ≠ (pageNumber virt).extractLsb' 27 9 → slot hhdm s'.mem root j = slot hhdm s.mem root j) ∧
    (Present (pml4Entry hhdm s.mem root virt) →
      pml4Entry hhdm s'.mem root virt = pml4Entry hhdm s.mem root virt ||| (pteUser ||| pteWrite)) := by
  obtain ⟨q1, s1, q2, s2, q3, s3, h1, h2, h3, rfl⟩ := vmmMapPage_steps he
  rw [pml4Index_eq, hpml4] at h1
  rw [pdptIndex_eq] at h2
  rw [pdIndex_eq] at h3
  rw [ptIndex_eq] at hlog ⊢
  simp only [pml4Entry]
  generalize pageNumber virt = page at *
  obtain ⟨n1, l1⟩ := ensureTable_logged h1
  obtain ⟨n2, l2⟩ := ensureTable_logged h2
  obtain ⟨n3, l3⟩ := ensureTable_logged h3
  have hall := (l1.trans l2).trans l3
  obtain rfl : new = n1 ++ n2 ++ n3 := hlog.unique ⟨hall.handed, hall.hhdm, hall.pml4⟩
  have hh1 := l1.hhdm.trans hh
  have hh2 := l2.hhdm.trans hh1
  obtain ⟨g1, rfl, w1⟩ := (walking_start hroot).step hfoot hroot hspare ⟨_, rfl⟩ hout hnew.left.left hh h1 l1
  obtain ⟨g2, rfl, w2⟩ := w1.step hfoot hroot hspare ⟨_, rfl⟩ hout hnew.left hh1 h2 l2
  obtain ⟨g3, rfl, w3⟩ := w2.step hfoot hroot hspare ⟨_, rfl⟩ hout hnew hh2 h3 l3
  have hne := w3.ne_root (List.prefix_refl _) (by simp) hout hnew
  have hslot : ∀ j, slot hhdm (writeEntry s3.mem (g3 + hhdm) ((leafIndex page).setWidth 64)
      ((phys &&& ~~~0xFFF) ||| flags ||| ptePresent)) root j = slot hhdm s3.mem root j :=
    fun j => slot_writeEntry_ne hroot w3.aligned (fun h => hne h.1.symm) _
  refine ⟨?_, ?_, ?_⟩
  · intro x hR hx hvisit hxnew
    have hxg : ¬InRange (g3 + hhdm) 4096 x := by
      rcases w3.table (List.prefix_refl _) with ⟨hnil, -⟩ | ⟨-, hg⟩ | hg
      · simp at hnil
      · exact hvisit g3 hg
      · exact hxnew g3 hg
    rw [writeEntry_keeps w3.aligned _ _ x hxg]
    exact w3.outside x hR hx hvisit hxnew
  · intro j hj
    rw [hslot]
    exact w3.others j (by simpa using Ne.symm hj)
  · intro hpres
    rw [hslot]
    exact w3.first _ rfl hpres

-- The frames taken are not NULL.
theorem ensureTable_nonzero {table index q : BitVec 64}
    (he : ensureTable alloc table index s = some (q, s')) (hlog : Logged s s' new) :
    ∀ p ∈ new, p ≠ 0 := by
  rcases ensureTable_cases he with ⟨-, rfl, -⟩ | ⟨-, p, m1, frames, -, hp, rfl, -⟩
  · obtain rfl := hlog.unique ⟨(List.append_nil _).symm, rfl, rfl⟩
    simp
  · obtain rfl : new = [p] := hlog.unique ⟨rfl, rfl, rfl⟩
    simpa using hp

theorem vmmMapPage_nonzero {virt phys flags : BitVec 64}
    (he : vmmMapPage alloc virt phys flags s = some s') (hlog : Logged s s' new) :
    ∀ p ∈ new, p ≠ 0 := by
  obtain ⟨q1, s1, q2, s2, q3, s3, h1, h2, h3, rfl⟩ := vmmMapPage_steps he
  obtain ⟨n1, l1⟩ := ensureTable_logged h1
  obtain ⟨n2, l2⟩ := ensureTable_logged h2
  obtain ⟨n3, l3⟩ := ensureTable_logged h3
  have hall := (l1.trans l2).trans l3
  obtain rfl : new = n1 ++ n2 ++ n3 := hlog.unique ⟨hall.handed, hall.hhdm, hall.pml4⟩
  intro p hp
  rw [List.mem_append, List.mem_append] at hp
  rcases hp with (hp | hp) | hp
  · exact ensureTable_nonzero h1 l1 p hp
  · exact ensureTable_nonzero h2 l2 p hp
  · exact ensureTable_nonzero h3 l3 p hp

end Walking

end Miyabi.Mm.Vmm
