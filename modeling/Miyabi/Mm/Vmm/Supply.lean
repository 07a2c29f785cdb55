import Miyabi.Mm.Vmm.Map

namespace Miyabi.Mm.Vmm

open Miyabi.Base Miyabi.Base.Memory Miyabi.Base.TableTree

section Upcoming

variable {σ : Type} (alloc : Memory 64 → σ → BitVec 64 × Memory 64 × σ) (R : Set (BitVec 64))

-- The next results of pmm_alloc, whatever is stored outside of its own region R
-- before each call.
def Upcoming : Memory 64 → σ → List (BitVec 64) → Prop
  | _, _, [] => True
  | m, frames, p :: rest => ∀ m', (∀ x ∈ R, m' x = m x) →
      (alloc m' frames).1 = p ∧ Upcoming (alloc m' frames).2.1 (alloc m' frames).2.2 rest

variable {alloc R} {m m' : Memory 64} {frames : σ} {l rest : List (BitVec 64)}

theorem Upcoming.congr (h : Upcoming alloc R m frames l) (hkeep : ∀ x ∈ R, m' x = m x) :
    Upcoming alloc R m' frames l := by
  cases l with
  | nil => trivial
  | cons p rest => exact fun m'' hm => h m'' (fun x hx => (hm x hx).trans (hkeep x hx))

theorem Upcoming.initial (h : Upcoming alloc R m frames (l ++ rest)) : Upcoming alloc R m frames l := by
  induction l generalizing m frames with
  | nil => trivial
  | cons p l ih => exact fun m' hm => ⟨(h m' hm).1, ih (h m' hm).2⟩

theorem Upcoming.next {p : BitVec 64} (h : Upcoming alloc R m frames (p :: rest)) :
    (alloc m frames).1 = p ∧ Upcoming alloc R (alloc m frames).2.1 (alloc m frames).2.2 rest :=
  h m (fun _ _ => rfl)

end Upcoming

section Drawing

variable {σ : Type} {alloc : Memory 64 → σ → BitVec 64 × Memory 64 × σ}
variable {roots : BitVec 9 → Prop} {R : Set (BitVec 64)} {hhdm root : BitVec 64}
variable {s s' : State σ} {l : List (BitVec 64)}

theorem Fresh.tail {m m' : Memory 64} {new rest : List (BitVec 64)} {n : ℕ}
    (h : Fresh roots R hhdm root m l) (hl : l = new ++ rest)
    (hg : Extends roots R hhdm root m m' new) (hlen : n + 1 ≤ l.length) (hnew : new.length ≤ 1) :
    Fresh roots R hhdm root m' rest ∧ n ≤ rest.length := by
  subst hl
  rw [List.length_append] at hlen
  exact ⟨h.right hg, by omega⟩

-- One step of the walk while pmm_alloc has a fresh frame: it returns, having taken that
-- frame or none.
theorem ensureTable_draws (path : List (BitVec 9)) {i : BitVec 9} {f : BitVec 64}
    (hfoot : Footprint alloc R) (hh : s.hhdmOffset = hhdm) (ht : Tree roots hhdm s.mem root)
    (hs : ∀ f ∈ tables roots hhdm s.mem root, Spares R hhdm f)
    (hf : tableAt hhdm s.mem root path = some f) (hw : Walk roots (path ++ [i]))
    (hplain : Present (slot hhdm s.mem f i) → Plain (slot hhdm s.mem f i))
    (hup : Upcoming alloc R s.mem s.frames l) (hlen : 1 ≤ l.length) (hne : ∀ p ∈ l, p ≠ 0)
    (hfresh : Fresh roots R hhdm root s.mem l) :
    ∃ g s' new rest, ensureTable alloc (f + hhdm) (i.setWidth 64) s = some (g + hhdm, s') ∧
      tableAt hhdm s'.mem root (path ++ [i]) = some g ∧ Logged s s' new ∧
      Grown roots R hhdm root s.mem s'.mem new ∧ l = new ++ rest ∧ new.length ≤ 1 ∧
      Upcoming alloc R s'.mem s'.frames rest := by
  have hal := ht.aligned hf
  have hspare : Spares R hhdm f :=
    hs f ⟨path, (walk_prefixClosed roots).init path i hw, hf⟩
  obtain ⟨p, rest, rfl⟩ := List.exists_cons_of_length_pos hlen
  have hp := hne p List.mem_cons_self
  have hsome : ∃ q s', ensureTable alloc (f + hhdm) (i.setWidth 64) s = some (q, s') := by
    have hcall := hup.next.1
    unfold ensureTable
    split
    · unfold allocPageTable State.pmmAlloc
      generalize alloc s.mem s.frames = result at hcall
      obtain ⟨page, m1, frames⟩ := result
      subst hcall
      simp only [hp, if_false]
      exact ⟨_, _, rfl⟩
    · exact ⟨_, _, rfl⟩
  obtain ⟨q, s', he⟩ := hsome
  rcases ensureTable_cases he with ⟨-, hs', -⟩ | ⟨-, page, m1, frames, hcall, -, hs', -⟩
  · have hlog : Logged s s' [] := by
      rw [hs']
      exact ⟨(List.append_nil _).symm, rfl, rfl⟩
    obtain ⟨hg, g, rfl, hlook⟩ := ensureTable_spec path hfoot hh ht hs hf hw hplain he hlog
      ⟨List.nodup_nil, by simp, by simp, by simp⟩
    refine ⟨g, s', [], p :: rest, he, hlook, hlog, hg, rfl, by simp, ?_⟩
    rw [hs']
    exact hup.congr (fun x hx => writeEntry_keeps hal i _ x (fun hin => hspare x hin hx))
  · obtain rfl : page = p := by rw [← hup.next.1, hcall]
    have hfirst : Fresh roots R hhdm root s.mem ([page] ++ rest) := hfresh
    have hlog : Logged s s' [page] := by
      rw [hs']
      exact ⟨rfl, rfl, rfl⟩
    obtain ⟨hg, g, rfl, hlook⟩ := ensureTable_spec path hfoot hh ht hs hf hw hplain he hlog
      hfirst.left
    refine ⟨g, s', [page], rest, he, hlook, hlog, hg, rfl, by simp, ?_⟩
    have hafter := hup.next.2
    rw [hcall] at hafter
    have hframe := (hfresh.frames page List.mem_cons_self).aligned
    have hpage := hfresh.spares page List.mem_cons_self
    rw [hs']
    subst hh
    refine hafter.congr (fun x hx => ?_)
    refine (writeEntry_keeps hal i _ x (fun hin => hspare x hin hx)).trans ?_
    exact (zeroTable_spec s.hhdmOffset m1 hframe 512 le_rfl).2 x (fun hin => hpage x hin hx)

-- vmm_map_page while pmm_alloc has three fresh frames.
theorem vmmMapPage_draws {virt : BitVec 64} (phys flags : BitVec 64) (hfoot : Footprint alloc R)
    (hh : s.hhdmOffset = hhdm) (hroot : s.pml4 = root + hhdm) (ht : Tree roots hhdm s.mem root)
    (hs : ∀ f ∈ tables roots hhdm s.mem root, Spares R hhdm f)
    (hfirst : roots ((pageNumber virt).extractLsb' 27 9))
    (hplain : PlainWalk hhdm s.mem root (pageNumber virt))
    (hup : Upcoming alloc R s.mem s.frames l) (hlen : 3 ≤ l.length) (hne : ∀ p ∈ l, p ≠ 0)
    (hfresh : Fresh roots R hhdm root s.mem l) :
    ∃ s' new rest, vmmMapPage alloc virt phys flags s = some s' ∧ Logged s s' new ∧
      Mapped roots R hhdm root (pageNumber virt) ((phys &&& ~~~0xFFF) ||| flags ||| ptePresent)
        s.mem s'.mem new ∧ l = new ++ rest ∧ new.length ≤ 3 ∧
      Upcoming alloc R s'.mem s'.frames rest := by
  have hw := walk_on_path roots _ hfirst
  -- From the root.
  obtain ⟨t1, s1, n1, l1, h1, ht1, log1, g1, rfl, hn1, up1⟩ := ensureTable_draws [] hfoot hh ht hs rfl
    (hw _ ⟨_, rfl⟩) (hplain [] _ root ⟨_, rfl⟩ rfl) hup (by omega) hne hfresh
  have hh1 := log1.hhdm.trans hh
  have p1 := hplain.extends hw g1.toExtends
  have s1spares := g1.toExtends.spares hs hfresh.left
  obtain ⟨f1, len1⟩ := hfresh.tail rfl g1.toExtends hlen hn1
  have ne1 := fun p hp => hne p (List.mem_append_right n1 hp)
  -- From the table just found.
  obtain ⟨t2, s2, n2, l2, h2, ht2, log2, g2, rfl, hn2, up2⟩ := ensureTable_draws _ hfoot hh1 g1.tree
    s1spares ht1 (hw _ ⟨_, rfl⟩) (p1 _ _ t1 ⟨_, rfl⟩ ht1) up1 (by omega) ne1 f1
  have hh2 := log2.hhdm.trans hh1
  have p2 := p1.extends hw g2.toExtends
  have s2spares := g2.toExtends.spares s1spares f1.left
  obtain ⟨f2, len2⟩ := f1.tail rfl g2.toExtends len1 hn2
  have ne2 := fun p hp => ne1 p (List.mem_append_right n2 hp)
  -- And once more, to the leaf table.
  obtain ⟨t3, s3, n3, rest, h3, ht3, log3, g3, rfl, hn3, up3⟩ := ensureTable_draws _ hfoot hh2 g2.tree
    s2spares ht2 (hw _ ⟨_, rfl⟩) (p2 _ _ t2 ⟨_, rfl⟩ ht2) up2 (by omega) ne2 f2
  have s3spares := g3.toExtends.spares s2spares f2.left
  have hall := (log1.trans log2).trans log3
  obtain ⟨m', hm'⟩ : ∃ m', m' = writeEntry s3.mem (t3 + hhdm) (ptIndex virt)
      ((phys &&& ~~~0xFFF) ||| flags ||| ptePresent) := ⟨_, rfl⟩
  have he : vmmMapPage alloc virt phys flags s = some { s3 with mem := m' } := by
    unfold vmmMapPage
    rw [pml4Index_eq, hroot, h1]
    simp only [pdptIndex_eq, h2, pdIndex_eq, h3, hm']
  have hlog : Logged s { s3 with mem := m' } (n1 ++ n2 ++ n3) :=
    ⟨hall.handed, hall.hhdm, hall.pml4⟩
  have hsplit : Fresh roots R hhdm root s.mem (n1 ++ n2 ++ n3 ++ rest) := by
    simpa only [List.append_assoc] using hfresh
  have hfront := hsplit.left
  have hmapped := vmmMapPage_spec hfoot hh hroot ht hs hfirst hplain he hlog hfront
  have hspare := s3spares t3 ⟨_, hw _ (List.prefix_refl _), ht3⟩
  refine ⟨_, n1 ++ n2 ++ n3, rest, he, hlog, hmapped, by simp only [List.append_assoc], ?_, ?_⟩
  · simp only [List.length_append]
    omega
  · refine up3.congr (fun x hx => ?_)
    rw [hm', ptIndex_eq]
    exact writeEntry_keeps (g3.tree.aligned ht3) _ _ x (fun hin => hspare x hin hx)

end Drawing

end Miyabi.Mm.Vmm
