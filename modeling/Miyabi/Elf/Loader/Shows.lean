import Miyabi.Elf.Loader.Pages

namespace Miyabi.Elf.Loader

open Miyabi.Base Miyabi.Base.Memory Miyabi.Base.TableTree Miyabi.Mm Miyabi.Mm.Vmm

-- The root entries of the lower half.
abbrev lowerHalf : BitVec 9 → Prop := fun i => i.toNat < 256

abbrev fileBytes (elfBinary : BitVec 64) (size : ℕ) : Set (BitVec 64) :=
  {x | InRange elfBinary size x}

-- The frame that the tree maps a page to.
def pageFrame (hhdm : BitVec 64) (m : Memory 64) (root : BitVec 64) (page : BitVec 36) : BitVec 64 :=
  entryFrame (leafEntry hhdm m root page)

section Relation

variable (R : Set (BitVec 64)) (elfBinary : BitVec 64) (size : ℕ) (hhdm root : BitVec 64)

-- A frame that is no table of the lower half, and holds neither bytes of the file nor
-- of the region R that pmm_alloc writes to.
structure Unused (m : Memory 64) (p : BitVec 64) : Prop where
  frame : IsFrame p
  spares : Spares (fileBytes elfBinary size) hhdm p
  region : Spares R hhdm p
  outside : p ∉ tables lowerHalf hhdm m root

-- The page tables that a program is loaded into, next to the file and to R.
structure Ready (m : Memory 64) : Prop where
  tree : Tree lowerHalf hhdm m root
  plain : ∀ path i f, Walk lowerHalf (path ++ [i]) → tableAt hhdm m root path = some f →
    Present (slot hhdm m f i) → Plain (slot hhdm m f i)
  spares : ∀ f ∈ tables lowerHalf hhdm m root, Spares (fileBytes elfBinary size) hhdm f
  region : ∀ f ∈ tables lowerHalf hhdm m root, Spares R hhdm f
  apart : ∀ x ∈ fileBytes elfBinary size, x ∉ R

-- A page that reads as the segment asks.
structure Shown (file m : Memory 64) (page : BitVec 36) (seg : Segment) : Prop where
  lower : page.toNat < 2 ^ 35
  present : Present (leafEntry hhdm m root page)
  outside : pageFrame hhdm m root page ∉ tables lowerHalf hhdm m root
  region : Spares R hhdm (pageFrame hhdm m root page)
  bytes : ∀ v, v.toNat / 4096 = page.toNat →
    m (pageFrame hhdm m root page + hhdm + (v &&& 0xFFF)) = seg.byteAt file elfBinary v

-- The memory shows the image; `future` are frames that pmm_alloc has still to return.
structure Shows (file : Memory 64) (future : List (BitVec 64)) (image : Image) (m : Memory 64) :
    Prop where
  ready : Ready R elfBinary size hhdm root m
  kept : Agree file m elfBinary size
  nodup : future.Nodup
  unused : ∀ p ∈ future, Unused R elfBinary size hhdm root m p
  pages : ∀ page seg, image page = some seg → Shown R elfBinary hhdm root file m page seg
  hidden : ∀ p ∈ future, ∀ page seg, image page = some seg → p ≠ pageFrame hhdm m root page
  apart : ∀ page page' seg seg', image page = some seg → image page' = some seg' →
    pageFrame hhdm m root page = pageFrame hhdm m root page' → page = page'

end Relation

def showPage (image : Image) (seg : Segment) (page : BitVec 36) : Image :=
  fun q => if q = page then some seg else image q

theorem showPage_cases {image : Image} {seg s : Segment} {page q : BitVec 36}
    (h : showPage image seg page q = some s) : (q = page ∧ s = seg) ∨ (q ≠ page ∧ image q = some s) := by
  unfold showPage at h
  by_cases hq : q = page
  · rw [if_pos hq] at h
    exact Or.inl ⟨hq, (Option.some.inj h).symm⟩
  · rw [if_neg hq] at h
    exact Or.inr ⟨hq, h⟩

section Kept

variable {R : Set (BitVec 64)} {elfBinary : BitVec 64} {size : ℕ} {hhdm root : BitVec 64} {file m m' : Memory 64}
variable {page : BitVec 36} {seg : Segment}

theorem pageFrame_aligned (m : Memory 64) (page : BitVec 36) : Aligned (pageFrame hhdm m root page) :=
  (entryFrame_isFrame _).aligned

theorem low_inRange (f v : BitVec 64) : InRange f 4096 (f + (v &&& 0xFFF)) := by
  have hlow := Word.toNat_and_mask v 0xFFF 12 (by decide)
  simp only [InRange, add_sub_cancel_left, hlow]
  omega

theorem lower_index (h : page.toNat < 2 ^ 35) :
    lowerHalf (page.extractLsb' 27 9) := by
  simp only [lowerHalf, BitVec.extractLsb'_toNat, Nat.shiftRight_eq_div_pow]
  omega

-- A page stays shown while its entry and its frame are left alone.
theorem Shown.kept (h : Shown R elfBinary hhdm root file m page seg)
    (hleaf : leafEntry hhdm m' root page = leafEntry hhdm m root page)
    (htables : pageFrame hhdm m root page ∉ tables lowerHalf hhdm m' root)
    (hframe : Agree m m' (pageFrame hhdm m root page + hhdm) 4096) :
    Shown R elfBinary hhdm root file m' page seg := by
  have hsame : pageFrame hhdm m' root page = pageFrame hhdm m root page := by
    rw [pageFrame, hleaf, pageFrame]
  refine ⟨h.lower, ?_, ?_, ?_, ?_⟩
  · rw [hleaf]
    exact h.present
  · rw [hsame]
    exact htables
  · rw [hsame]
    exact h.region
  · intro v hv
    rw [hsame, hframe _ (low_inRange _ v)]
    exact h.bytes v hv

-- Writes to R, to the pages of tables and to one more frame p0 leave another frame alone.
theorem frame_kept {new : List (BitVec 64)} {m2 : Memory 64} {p0 f : BitVec 64}
    (he : Extends lowerHalf R hhdm root m m2 new) (hp : Aligned p0)
    (hk : KeepsOutside m2 m' (p0 + hhdm) 4096) (hf : Aligned f) (hne : f ≠ p0)
    (hspare : Spares R hhdm f) (hout : f ∉ tables lowerHalf hhdm m2 root) :
    Agree m m' (f + hhdm) 4096 := by
  intro x hx
  rw [hk x (pages_apart hf hp hne x hx)]
  refine he.outside x (hspare x hx) (fun g hg hxg => ?_)
  have hgf : f ≠ g := fun h => hout (h ▸ hg)
  exact pages_apart hf (he.tree.mem_aligned hg) hgf x hx hxg

-- What pmm_alloc writes changes neither the tables nor the pages.
theorem Ready.sameTree (h : Ready R elfBinary size hhdm root m) (hm : ∀ x, x ∉ R → m' x = m x) :
    SameTree lowerHalf hhdm root m m' :=
  Vmm.sameTree h.tree (fun f hf x hx => hm x (h.region f hf x hx))

theorem Ready.congr (h : Ready R elfBinary size hhdm root m) (hm : ∀ x, x ∉ R → m' x = m x) :
    Ready R elfBinary size hhdm root m' := by
  have hsame := h.sameTree hm
  refine ⟨hsame.tree, ?_, ?_, ?_, h.apart⟩
  · exact hsame.plain h.plain
  · rw [hsame.tables]
    exact h.spares
  · rw [hsame.tables]
    exact h.region

theorem Shows.congr {future : List (BitVec 64)} {image : Image}
    (h : Shows R elfBinary size hhdm root file future image m) (hm : ∀ x, x ∉ R → m' x = m x) :
    Shows R elfBinary size hhdm root file future image m' := by
  have hsame := h.ready.sameTree hm
  have hleaf : ∀ page seg, image page = some seg →
      leafEntry hhdm m' root page = leafEntry hhdm m root page := by
    intro page seg hseg
    have hlow : lowerHalf (page.extractLsb' 27 9) := lower_index (h.pages page seg hseg).lower
    exact hsame.leafAt (walk_on_path lowerHalf page hlow _ (List.prefix_refl _)) _
  have hframe : ∀ page seg, image page = some seg →
      pageFrame hhdm m' root page = pageFrame hhdm m root page := by
    intro page seg hseg
    rw [pageFrame, hleaf page seg hseg, pageFrame]
  refine ⟨h.ready.congr hm, ?_, h.nodup, ?_, ?_, ?_, ?_⟩
  · intro x hx
    rw [hm x (h.ready.apart x hx)]
    exact h.kept x hx
  · intro p hp
    have hp' := h.unused p hp
    exact ⟨hp'.frame, hp'.spares, hp'.region, hsame.tables ▸ hp'.outside⟩
  · intro page seg hseg
    have hshown := h.pages page seg hseg
    exact hshown.kept (hleaf page seg hseg) (hsame.tables ▸ hshown.outside)
      (fun x hx => hm x (hshown.region x hx))
  · intro p hp page seg hseg
    rw [hframe page seg hseg]
    exact h.hidden p hp page seg hseg
  · intro page page' seg seg' hseg hseg' he
    rw [hframe page seg hseg, hframe page' seg' hseg'] at he
    exact h.apart page page' seg seg' hseg hseg' he

end Kept

section Step

variable {R : Set (BitVec 64)} {elfBinary : BitVec 64} {size : ℕ} {hhdm root : BitVec 64} {file m m2 m3 : Memory 64}
variable {image : Image} {seg : Segment} {page : BitVec 36} {e p0 : BitVec 64}
variable {new rest : List (BitVec 64)}

-- The tables and the file after a page has been mapped and written.
theorem Ready.step (h : Ready R elfBinary size hhdm root m)
    (hm : Extends lowerHalf R hhdm root m m2 new)
    (hnew : ∀ p ∈ new, Unused R elfBinary size hhdm root m p)
    (hsame : SameTree lowerHalf hhdm root m2 m3) : Ready R elfBinary size hhdm root m3 := by
  refine ⟨hsame.tree, ?_, ?_, ?_, h.apart⟩
  · exact hsame.plain (fun path i f hw => hm.plain_entry hw (h.plain path i f hw))
  · intro f hf
    rw [hsame.tables] at hf
    exact hm.forall_tables h.spares (fun f hin => (hnew f hin).spares) f hf
  · intro f hf
    rw [hsame.tables] at hf
    exact hm.forall_tables h.region (fun f hin => (hnew f hin).region) f hf

theorem Ready.agree (h : Ready R elfBinary size hhdm root m)
    (hm : Extends lowerHalf R hhdm root m m2 new)
    (hnew : ∀ p ∈ new, Unused R elfBinary size hhdm root m p) (hfile : Agree file m elfBinary size) :
    Agree file m2 elfBinary size := by
  intro x hx
  rw [hm.outside x (h.apart x hx) (fun f hf hin => ?_)]
  · exact hfile x hx
  · exact hm.forall_tables h.spares (fun f hf => (hnew f hf).spares) f hf x hin hx

-- One page: its frame p0 is mapped with the help of new tables, then written.
theorem Shows.step (h : Shows R elfBinary size hhdm root file (p0 :: (new ++ rest)) image m)
    (hm : Mapped lowerHalf R hhdm root page e m m2 new) (hpres : Present e)
    (hframe : entryFrame e = p0) (hlow : page.toNat < 2 ^ 35)
    (hk : KeepsOutside m2 m3 (p0 + hhdm) 4096)
    (hbytes : ∀ v, v.toNat / 4096 = page.toNat →
      m3 (p0 + hhdm + (v &&& 0xFFF)) = seg.byteAt file elfBinary v) :
    Shows R elfBinary size hhdm root file rest (showPage image seg page) m3 := by
  obtain ⟨hp0, hnd⟩ := List.nodup_cons.mp h.nodup
  obtain ⟨-, hrest, hapart⟩ := List.nodup_append.mp hnd
  have hext := hm.toExtends
  have hunused := fun p (hp : p ∈ new ++ rest) => h.unused p (List.mem_cons_of_mem p0 hp)
  have hfirst := h.unused p0 (by simp)
  have hal := hfirst.frame.aligned
  have hnew := fun p (hp : p ∈ new) => hunused p (List.mem_append_left rest hp)
  -- The frame of the page is no table.
  have hdata : p0 ∉ tables lowerHalf hhdm m2 root := by
    intro hin
    rcases (hext.tables p0).mp hin with hold | hin
    · exact hfirst.outside hold
    · exact hp0 (List.mem_append_left rest hin)
  have hsame : SameTree lowerHalf hhdm root m2 m3 :=
    sameTree hext.tree (fun f hf x hx => hk x (pages_apart (hext.tree.mem_aligned hf) hal
      (fun he => hdata (he ▸ hf)) x hx))
  have htables : tables lowerHalf hhdm m3 root = tables lowerHalf hhdm m2 root := hsame.tables
  have hentry : ∀ q, q.toNat < 2 ^ 35 → leafEntry hhdm m3 root q =
      if q = page then e else leafEntry hhdm m root q := by
    intro q hq
    have hw := walk_on_path lowerHalf q (lower_index hq) _ (List.prefix_refl _)
    rw [leafEntry, hsame.leafAt hw]
    exact leafEntry_page hm.leaves q (lower_index hq)
  have hown : pageFrame hhdm m3 root page = p0 := by
    rw [pageFrame, hentry page hlow, if_pos rfl, hframe]
  -- The pages shown before keep their frames.
  have hother : ∀ q s, image q = some s → q ≠ page →
      leafEntry hhdm m3 root q = leafEntry hhdm m root q ∧
        pageFrame hhdm m3 root q = pageFrame hhdm m root q ∧
        pageFrame hhdm m root q ∉ tables lowerHalf hhdm m2 root := by
    intro q s hq hne
    have hshown := h.pages q s hq
    have hleaf := hentry q hshown.lower
    rw [if_neg hne] at hleaf
    refine ⟨hleaf, by rw [pageFrame, hleaf, pageFrame], ?_⟩
    intro hin
    rcases (hext.tables _).mp hin with hold | hin
    · exact hshown.outside hold
    · exact h.hidden _ (by simp [hin]) q s hq rfl
  refine ⟨h.ready.step hext hnew hsame, ?_, hrest, ?_, ?_, ?_, ?_⟩
  · intro x hx
    rw [hk x (fun hin => hfirst.spares x hin hx)]
    exact h.ready.agree hext hnew h.kept x hx
  · intro p hp
    have hup := hunused p (List.mem_append_right new hp)
    refine ⟨hup.frame, hup.spares, hup.region, ?_⟩
    rw [htables, hext.tables, not_or]
    exact ⟨hup.outside, fun hin => hapart p hin p hp rfl⟩
  · intro q s hq
    rcases showPage_cases hq with ⟨rfl, rfl⟩ | ⟨hne, hq⟩
    · refine ⟨hlow, ?_, ?_, ?_, ?_⟩
      · rw [hentry q hlow, if_pos rfl]
        exact hpres
      · rw [hown, htables]
        exact hdata
      · rw [hown]
        exact hfirst.region
      · rw [hown]
        exact hbytes
    · obtain ⟨hleaf, -, hout⟩ := hother q s hq hne
      refine (h.pages q s hq).kept hleaf (htables ▸ hout) ?_
      exact frame_kept hext hal hk (pageFrame_aligned m q)
        (fun he => h.hidden p0 (by simp) q s hq he.symm) (h.pages q s hq).region hout
  · intro p hp q s hq
    rcases showPage_cases hq with ⟨rfl, -⟩ | ⟨hne, hq⟩
    · rw [hown]
      exact fun he => hp0 (he ▸ List.mem_append_right new hp)
    · rw [(hother q s hq hne).2.1]
      exact h.hidden p (by simp [hp]) q s hq
  · intro q q' s s' hq hq' he
    rcases showPage_cases hq with ⟨rfl, -⟩ | ⟨hne, hold⟩
    · rcases showPage_cases hq' with ⟨rfl, -⟩ | ⟨hne', hold'⟩
      · rfl
      · rw [hown, (hother q' s' hold' hne').2.1] at he
        exact absurd he (h.hidden p0 (by simp) q' s' hold')
    · rcases showPage_cases hq' with ⟨rfl, -⟩ | ⟨hne', hold'⟩
      · rw [hown, (hother q s hold hne).2.1] at he
        exact absurd he.symm (h.hidden p0 (by simp) q s hold)
      · rw [(hother q s hold hne).2.1, (hother q' s' hold' hne').2.1] at he
        exact h.apart q q' s s' hold hold' he

end Step

end Miyabi.Elf.Loader
