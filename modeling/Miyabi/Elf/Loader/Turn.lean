import Miyabi.Elf.Loader.Course
import Miyabi.Elf.Loader.Traced

namespace Miyabi.Elf.Loader

open Miyabi.Base Miyabi.Base.Memory Miyabi.Base.TableTree Miyabi.Mm Miyabi.Mm.Vmm

-- Results of pmm_alloc that are no frames in use, nor one another, and lie apart from its
-- own region R; several may be NULL.
structure Results (R : Set (BitVec 64)) (hhdm : BitVec 64) (used : Set (BitVec 64))
    (l : List (BitVec 64)) : Prop where
  frame : ∀ p ∈ l, IsFrame p
  unused : ∀ p ∈ l, p ∉ used
  spares : ∀ p ∈ l, Spares R hhdm p
  distinct : l.Pairwise (fun p q => p ≠ 0 → p ≠ q)

section Results

variable {R : Set (BitVec 64)} {hhdm : BitVec 64} {used used' : Set (BitVec 64)}
variable {l new : List (BitVec 64)}

theorem Results.left (h : Results R hhdm used (l ++ new)) : Results R hhdm used l :=
  ⟨fun p hp => h.frame p (List.mem_append_left _ hp), fun p hp => h.unused p (List.mem_append_left _ hp),
    fun p hp => h.spares p (List.mem_append_left _ hp), (List.pairwise_append.mp h.distinct).1⟩

theorem Results.right (h : Results R hhdm used (l ++ new)) : Results R hhdm used new :=
  ⟨fun p hp => h.frame p (List.mem_append_right _ hp),
    fun p hp => h.unused p (List.mem_append_right _ hp),
    fun p hp => h.spares p (List.mem_append_right _ hp), (List.pairwise_append.mp h.distinct).2.1⟩

theorem Results.mono (h : Results R hhdm used l) (hused : used' ⊆ used) : Results R hhdm used' l :=
  ⟨h.frame, fun p hp hin => h.unused p hp (hused hin), h.spares, h.distinct⟩

-- Those that are not NULL differ.
theorem Results.nodup (h : Results R hhdm used l) (hne : ∀ p ∈ l, p ≠ 0) : l.Nodup :=
  h.distinct.imp_of_mem (fun hp _ hpq => hpq (hne _ hp))

end Results

section Loading

variable {σ : Type} (R : Set (BitVec 64)) (roots : BitVec 9 → Prop) (hhdm root : BitVec 64)

-- The page tables below the entries `roots` of a PML4, ready for more pages: frames that
-- were in use, or that pmm_alloc has returned since then.
structure Loading (used : Set (BitVec 64)) (front : List (BitVec 64)) (s : State σ) : Prop where
  offset : s.hhdmOffset = hhdm
  pml4 : s.pml4 = root + hhdm
  tree : Tree roots hhdm s.mem root
  plain : ∀ path i f, Walk roots (path ++ [i]) → tableAt hhdm s.mem root path = some f →
    Present (slot hhdm s.mem f i) → Plain (slot hhdm s.mem f i)
  tables : ∀ f ∈ tables roots hhdm s.mem root, f ∈ used ∨ (f ∈ front ∧ f ≠ 0)
  spares : ∀ f ∈ Vmm.tables roots hhdm s.mem root, Spares R hhdm f

-- What loading one page does with the results `new` of pmm_alloc.
structure Turned (page : BitVec 36) (new : List (BitVec 64)) (s s' : State σ) : Prop where
  slots : ∀ j, j ≠ page.extractLsb' 27 9 → slot hhdm s'.mem root j = slot hhdm s.mem root j
  tables : ∀ f ∈ Vmm.tables roots hhdm s'.mem root, f ∈ Vmm.tables roots hhdm s.mem root ∨ f ∈ new
  outside : ∀ x, x ∉ R → (∀ f ∈ Vmm.tables roots hhdm s.mem root, ¬InRange (f + hhdm) 4096 x) →
    (∀ p ∈ new, ¬InRange (p + hhdm) 4096 x) → s'.mem x = s.mem x
  leaf : ∃ e, Present e ∧ e &&& pteUser ≠ 0 ∧ ∀ q, roots (q.extractLsb' 27 9) →
    leafEntry hhdm s'.mem root q = if q = page then e else leafEntry hhdm s.mem root q

end Loading

section Turn

variable {σ : Type} {alloc : Memory 64 → σ → BitVec 64 × Memory 64 × σ} {R : Set (BitVec 64)}
variable {roots : BitVec 9 → Prop} {hhdm root elfBinary phdr : BitVec 64} {seg : Segment}
variable {used : Set (BitVec 64)} {front new : List (BitVec 64)} {s s' : State σ}

-- No result of pmm_alloc is a table.
theorem Loading.fresh (h : Loading R roots hhdm root used front s)
    (hnew : Results R hhdm used (front ++ new)) {p : BitVec 64} (hp : p ∈ new) :
    p ∉ Vmm.tables roots hhdm s.mem root := by
  intro hin
  rcases h.tables p hin with hold | ⟨hold, hne⟩
  · exact hnew.unused p (List.mem_append_right _ hp) hold
  · exact (List.pairwise_append.mp hnew.distinct).2.2 p hold p hp hne rfl

-- The flags of elf_load let user mode in.
theorem user_entry (base flags : BitVec 64)
    (hflags : flags = ptePresent ||| pteUser ∨ flags = ptePresent ||| pteUser ||| pteWrite) :
    Present (base ||| flags ||| ptePresent) ∧ (base ||| flags ||| ptePresent) &&& pteUser ≠ 0 := by
  have hbit : ∀ bit : BitVec 64, (flags ||| ptePresent) &&& bit = bit → bit ≠ 0 →
      (base ||| flags ||| ptePresent) &&& bit ≠ 0 := by
    intro bit hc hne
    have habsorb : base &&& bit ||| bit = bit := by
      ext i hi
      simp only [BitVec.getElem_or, BitVec.getElem_and]
      cases base[i] <;> cases bit[i] <;> rfl
    rw [BitVec.or_assoc, or_and, hc, habsorb]
    exact hne
  rcases hflags with rfl | rfl
  · exact ⟨hbit _ (by decide) (by decide), hbit _ (by decide) (by decide)⟩
  · exact ⟨hbit _ (by decide) (by decide), hbit _ (by decide) (by decide)⟩

-- After the frame of the page is taken.
def afterFrame (alloc : Memory 64 → σ → BitVec 64 × Memory 64 × σ) (s : State σ) : State σ :=
  (s.pmmAlloc alloc).2

theorem loadPage_parts {p : BitVec 64} (he : loadPage alloc elfBinary phdr seg p s = some s') :
    ∃ flags s2, (flags = ptePresent ||| pteUser ∨ flags = ptePresent ||| pteUser ||| pteWrite) ∧
      vmmMapPage alloc (seg.pageVaddr + p * 0x1000) (alloc s.mem s.frames).1 flags
        (afterFrame alloc s) = some s2 ∧
      s' = { s2 with
        mem := writePage s2.mem elfBinary (s2.physToVirt (alloc s.mem s.frames).1)
          (seg.pageVaddr + p * 0x1000) seg } := by
  unfold loadPage at he
  have hcall : s.pmmAlloc alloc = ((alloc s.mem s.frames).1, afterFrame alloc s) := rfl
  simp only [hcall] at he
  split at he
  · cases he
  · next s2 hmap =>
    refine ⟨_, s2, ?_, hmap, (Option.some.inj he).symm⟩
    split
    · exact Or.inr rfl
    · exact Or.inl rfl

-- The tables while pmm_alloc runs.
theorem Loading.sameTree (h : Loading R roots hhdm root used front s) {m : Memory 64}
    (hm : ∀ x, x ∉ R → m x = s.mem x) : SameTree roots hhdm root s.mem m :=
  Vmm.sameTree h.tree (fun f hf x hx => hm x (h.spares f hf x hx))

-- After a turn that put the frame `p0` behind a page and took the frames `made` for
-- tables; m1 is the memory before the mapping, and m2 the one before the page is written.
structure Laid (R : Set (BitVec 64)) (roots : BitVec 9 → Prop) (hhdm root : BitVec 64)
    (page : BitVec 36) (p0 e : BitVec 64) (made : List (BitVec 64)) (s s' : State σ)
    (m1 m2 : Memory 64) : Prop where
  offset : s'.hhdmOffset = hhdm
  pml4 : s'.pml4 = root + hhdm
  taken : ∀ x, x ∉ R → m1 x = s.mem x
  nonzero : ∀ p ∈ made, p ≠ 0
  mapped : Mapped roots R hhdm root page e m1 m2 made
  slots : ∀ j, j ≠ page.extractLsb' 27 9 → slot hhdm m2 root j = slot hhdm m1 root j
  aligned : Aligned p0
  apart : p0 ∉ tables roots hhdm m2 root
  keeps : KeepsOutside m2 s'.mem (p0 + hhdm) 4096

theorem loadPage_handed {p : BitVec 64} (he : loadPage alloc elfBinary phdr seg p s = some s') :
    ∃ new, s'.handed = s.handed ++ new := by
  obtain ⟨flags, s2, -, hmap, rfl⟩ := loadPage_parts he
  obtain ⟨made, hlog⟩ := vmmMapPage_logged hmap
  have hhanded : (afterFrame alloc s).handed = s.handed ++ [(alloc s.mem s.frames).1] := rfl
  exact ⟨[(alloc s.mem s.frames).1] ++ made, by rw [hlog.handed, hhanded, List.append_assoc]⟩

theorem loadPage_laid {p : ℕ} (hfoot : Footprint alloc R) (h : Loading R roots hhdm root used front s)
    (hfirst : roots ((seg.page p).extractLsb' 27 9))
    (he : loadPage alloc elfBinary phdr seg (BitVec.ofNat 64 p) s = some s')
    (hnew : s'.handed = s.handed ++ new) (hresults : Results R hhdm used (front ++ new)) :
    ∃ p0 made e m1 m2, new = p0 :: made ∧ Present e ∧ e &&& pteUser ≠ 0 ∧
      Laid R roots hhdm root (seg.page p) p0 e made s s' m1 m2 := by
  obtain ⟨flags, s2, hcases, hmap, rfl⟩ := loadPage_parts he
  rw [Segment.page] at hfirst ⊢
  generalize seg.pageVaddr + BitVec.ofNat 64 p * 0x1000 = cur at *
  obtain ⟨made, hlog⟩ := vmmMapPage_logged hmap
  have hnonzero := vmmMapPage_nonzero hmap hlog
  have htaken : ∀ x, x ∉ R → (afterFrame alloc s).mem x = s.mem x := hfoot s.mem s.frames
  have hhanded : (afterFrame alloc s).handed = s.handed ++ [(alloc s.mem s.frames).1] := rfl
  obtain rfl : new = (alloc s.mem s.frames).1 :: made := by
    have hlist : s.handed ++ new = s.handed ++ ((alloc s.mem s.frames).1 :: made) := by
      rw [← hnew, hlog.handed, hhanded, List.append_assoc]
      rfl
    exact List.append_cancel_left hlist
  generalize (alloc s.mem s.frames).1 = p0 at *
  have hfresh := fun q hq => h.fresh hresults (p := q) hq
  have hright := hresults.right
  have hsome := List.mem_cons_self (a := p0) (l := made)
  have hmore := fun q (hq : q ∈ made) => List.mem_cons_of_mem p0 hq
  -- The mapping.
  have hoffset : (afterFrame alloc s).hhdmOffset = hhdm := h.offset
  have hpml4 : (afterFrame alloc s).pml4 = root + hhdm := h.pml4
  have hsame := h.sameTree htaken
  generalize afterFrame alloc s = s1 at *
  have htables : Vmm.tables roots hhdm s1.mem root = Vmm.tables roots hhdm s.mem root := hsame.tables
  have hspares : ∀ f ∈ Vmm.tables roots hhdm s1.mem root, Spares R hhdm f := htables ▸ h.spares
  have hplain : PlainWalk hhdm s1.mem root (pageNumber cur) := fun path i f hpre =>
    hsame.plain h.plain path i f (walk_on_path roots _ hfirst _ hpre)
  have hnodup : made.Nodup := by
    have hpair : Results R hhdm used ([p0] ++ made) := hright
    exact hpair.right.nodup hnonzero
  have hm := vmmMapPage_spec hfoot hoffset hpml4 hsame.tree hspares hfirst hplain hmap hlog
    ⟨hnodup, fun q hq => hright.frame q (hmore q hq), fun q hq => htables ▸ hfresh q (hmore q hq),
      fun q hq => hright.spares q (hmore q hq)⟩
  have hvisit : ∀ f, Visits hhdm s1.mem root (pageNumber cur) f → f ≠ root :=
    fun f hf => hf.ne_root hsame.tree hplain hfirst
  have hroot : root ∈ Vmm.tables roots hhdm s.mem root := ⟨[], (walk_prefixClosed roots).nil, rfl⟩
  have hhanded : Handed hhdm s1.mem root (pageNumber cur) made := by
    refine ⟨hnodup, fun q hq => (hright.frame q (hmore q hq)).aligned, fun q hq he => ?_,
      fun q hq hv => ?_⟩
    · exact hfresh q (hmore q hq) (he ▸ hroot)
    · obtain ⟨path, -, hw, hf⟩ := hv.table hplain hfirst
      exact hfresh q (hmore q hq) (htables ▸ ⟨path, hw, hf⟩)
  obtain ⟨-, hslots, -⟩ := vmmMapPage_writes hfoot hoffset hsame.tree.root_aligned
    (h.spares root hroot) hpml4 hmap hlog (fun hv => hvisit root hv rfl) hhanded
  -- The bytes of the page.
  have hvirt : s2.physToVirt p0 = p0 + hhdm := by
    rw [State.physToVirt, hlog.hhdm, hoffset]
  have hkeeps := writePage_keeps s2.mem elfBinary (s2.physToVirt p0) cur seg
  rw [hvirt] at hkeeps ⊢
  obtain ⟨hpres, huser⟩ := user_entry (p0 &&& ~~~0xFFF) flags hcases
  refine ⟨p0, made, _, s1.mem, s2.mem, rfl, hpres, huser, ?_⟩
  constructor
  case offset => exact hlog.hhdm.trans hoffset
  case pml4 => exact hlog.pml4.trans hpml4
  case taken => exact htaken
  case nonzero => exact hnonzero
  case mapped => exact hm
  case slots => exact hslots
  case aligned => exact (hright.frame p0 hsome).aligned
  case apart =>
    -- The frame of the page is no table.
    intro hin
    rcases (hm.toExtends.tables _).mp hin with hold | hin
    · exact hfresh p0 hsome (htables ▸ hold)
    · exact (List.pairwise_cons.mp hright.distinct).1 p0 hin (hnonzero p0 hin) rfl
  case keeps => simpa only using hkeeps

namespace Laid

variable {page : BitVec 36} {p0 e : BitVec 64} {made : List (BitVec 64)} {m1 m2 : Memory 64}
variable (hlaid : Laid R roots hhdm root page p0 e made s s' m1 m2)

include hlaid

theorem sameTree : SameTree roots hhdm root m2 s'.mem :=
  Vmm.sameTree hlaid.mapped.toExtends.tree fun _ hf => hlaid.keeps.agree
    (pages_apart (hlaid.mapped.toExtends.tree.mem_aligned hf) hlaid.aligned
      fun he => hlaid.apart (he ▸ hf))

theorem tables (h : Loading R roots hhdm root used front s) : ∀ f ∈ Vmm.tables roots hhdm s'.mem root,
    f ∈ Vmm.tables roots hhdm s.mem root ∨ f ∈ made := by
  intro f hf
  rw [hlaid.sameTree.tables, hlaid.mapped.toExtends.tables, (h.sameTree hlaid.taken).tables] at hf
  exact hf

theorem loading (h : Loading R roots hhdm root used front s)
    (hresults : Results R hhdm used (front ++ p0 :: made)) :
    Loading R roots hhdm root used (front ++ p0 :: made) s' := by
  have hbefore := h.sameTree hlaid.taken
  have hsame := hlaid.sameTree
  constructor
  case offset => exact hlaid.offset
  case pml4 => exact hlaid.pml4
  case tree => exact hsame.tree
  case plain =>
    exact hsame.plain (fun path i f hw =>
      hlaid.mapped.toExtends.plain_entry hw (hbefore.plain h.plain path i f hw))
  case tables =>
    intro f hf
    rcases hlaid.tables h f hf with hold | hin
    · exact (h.tables f hold).imp_right (fun hf => ⟨List.mem_append_left _ hf.1, hf.2⟩)
    · exact Or.inr ⟨List.mem_append_right _ (List.mem_cons_of_mem _ hin), hlaid.nonzero f hin⟩
  case spares =>
    intro f hf
    rcases hlaid.tables h f hf with hold | hin
    · exact h.spares f hold
    · exact hresults.spares f (List.mem_append_right _ (List.mem_cons_of_mem _ hin))

theorem turned (h : Loading R roots hhdm root used front s) (hpres : Present e)
    (huser : e &&& pteUser ≠ 0) : Turned R roots hhdm root page (p0 :: made) s s' := by
  have hbefore := h.sameTree hlaid.taken
  constructor
  case slots =>
    intro j hj
    have hnil := (walk_prefixClosed roots).nil
    rw [hlaid.sameTree.slot [] root j hnil rfl, hlaid.slots j hj, hbefore.slot [] root j hnil rfl]
  case tables => exact fun f hf => (hlaid.tables h f hf).imp_right (List.mem_cons_of_mem p0)
  case outside =>
    intro x hR hx hxf
    rw [hlaid.keeps x (hxf p0 List.mem_cons_self), hlaid.mapped.toExtends.outside x hR,
      hlaid.taken x hR]
    intro f hf
    rcases (hlaid.mapped.toExtends.tables f).mp hf with hold | hin
    · exact hx f (hbefore.tables ▸ hold)
    · exact hxf f (List.mem_cons_of_mem p0 hin)
  case leaf =>
    refine ⟨e, hpres, huser, fun q hq => ?_⟩
    have hw := walk_on_path roots q hq _ (List.prefix_refl _)
    have htaken : leafEntry hhdm m1 root q = leafEntry hhdm s.mem root q := hbefore.leafAt hw _
    rw [leafEntry, hlaid.sameTree.leafAt hw, ← htaken]
    exact leafEntry_page hlaid.mapped.leaves q hq

end Laid

theorem loadPage_turned {p : ℕ} (hfoot : Footprint alloc R) (h : Loading R roots hhdm root used front s)
    (hfirst : roots ((seg.page p).extractLsb' 27 9))
    (he : loadPage alloc elfBinary phdr seg (BitVec.ofNat 64 p) s = some s')
    (hnew : s'.handed = s.handed ++ new) (hresults : Results R hhdm used (front ++ new)) :
    Loading R roots hhdm root used (front ++ new) s' ∧
      Turned R roots hhdm root (seg.page p) new s s' := by
  obtain ⟨p0, made, e, m1, m2, rfl, hpres, huser, hlaid⟩ :=
    loadPage_laid hfoot h hfirst he hnew hresults
  exact ⟨hlaid.loading h hresults, hlaid.turned h hpres huser⟩

-- What holds as long as pmm_alloc has returned, since `base`, results that are not in use.
def Supplied (R : Set (BitVec 64)) (hhdm : BitVec 64) (used : Set (BitVec 64)) (base : List (BitVec 64))
    (P : List (BitVec 64) → State σ → Prop) (s : State σ) : Prop :=
  ∃ front, s.handed = base ++ front ∧ (Results R hhdm used front → P front s)

theorem supplied_keeps {allowed : BitVec 36 → Prop} {base : List (BitVec 64)}
    {P : List (BitVec 36) → List (BitVec 64) → State σ → Prop}
    (hstep : ∀ done front new s s' phdr (seg : Segment) p, P done front s → allowed (seg.page p) →
      loadPage alloc elfBinary phdr seg (BitVec.ofNat 64 p) s = some s' →
      s'.handed = s.handed ++ new → Results R hhdm used (front ++ new) →
      P (done ++ [seg.page p]) (front ++ new) s') :
    Keeps alloc elfBinary allowed (fun done => Supplied R hhdm used base (P done)) := by
  rintro done s s' phdr seg p ⟨front, hfront, h⟩ hpage he
  obtain ⟨new, hnew⟩ := loadPage_handed he
  refine ⟨front ++ new, by rw [hnew, hfront, List.append_assoc], fun hresults => ?_⟩
  exact hstep done front new s s' phdr seg p (h hresults.left) hpage he hnew hresults

theorem Supplied.holds {base : List (BitVec 64)} {P : List (BitVec 64) → State σ → Prop}
    (h : Supplied R hhdm used base P s) (hnew : s.handed = base ++ new)
    (hresults : Results R hhdm used new) : P new s := by
  obtain ⟨front, hfront, hP⟩ := h
  obtain rfl := List.append_cancel_left (hfront.symm.trans hnew)
  exact hP hresults

end Turn

end Miyabi.Elf.Loader
