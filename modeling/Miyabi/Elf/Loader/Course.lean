import Miyabi.Elf.Loader
import Miyabi.Mm.Vmm.Spaces.Isolation

namespace Miyabi.Elf.Loader

open Miyabi.Base Miyabi.Base.Memory Miyabi.Base.TableTree Miyabi.Mm Miyabi.Mm.Vmm

-- The page that turn number p of the loop over the pages of a segment maps.
def Segment.page (seg : Segment) (p : ℕ) : BitVec 36 :=
  pageNumber (seg.pageVaddr + BitVec.ofNat 64 p * 0x1000)

def Segment.pages (seg : Segment) : List (BitVec 36) := (List.range seg.numPages.toNat).map seg.page

section Course

variable {σ : Type} (alloc : Memory 64 → σ → BitVec 64 × Memory 64 × σ)
variable (elfBinary phdr : BitVec 64)

-- The PT_LOAD segments that elf_load maps, as it reads their headers.
def loadedFrom : ℕ → ℕ → State σ → List Segment
  | 0, _, _ => []
  | fuel + 1, i, s =>
      if i < (ePhnum s.mem elfBinary).toNat then
        let header := phdr + BitVec.ofNat 64 (i * phdrSize)
        if pType s.mem header = ptLoad then
          let seg := readSegment s.mem header
          match loadPages alloc elfBinary header seg seg.numPages.toNat s with
          | none => [seg]
          | some s => seg :: loadedFrom fuel (i + 1) s
        else loadedFrom fuel (i + 1) s
      else []

def loadedSegments (s : State σ) : List Segment :=
  if !magicOk s.mem elfBinary then []
  else if eMachine s.mem elfBinary ≠ emX8664 ∨ eType s.mem elfBinary ≠ etExec then []
  else loadedFrom alloc elfBinary (elfBinary + ePhoff s.mem elfBinary) (2 ^ 16) 0 s

-- The pages that it maps, in order.
def visitedPages (s : State σ) : List (BitVec 36) :=
  (loadedSegments alloc elfBinary s).flatMap Segment.pages

end Course

section Induction

variable {σ : Type} {alloc : Memory 64 → σ → BitVec 64 × Memory 64 × σ}
variable {elfBinary phdr : BitVec 64} {Inv : List (BitVec 36) → State σ → Prop}
variable {allowed : BitVec 36 → Prop}

-- A turn of the loop over the pages keeps what is known of the pages so far.
def Keeps (alloc : Memory 64 → σ → BitVec 64 × Memory 64 × σ) (elfBinary : BitVec 64)
    (allowed : BitVec 36 → Prop) (Inv : List (BitVec 36) → State σ → Prop) : Prop :=
  ∀ done s s' phdr (seg : Segment) p, Inv done s → allowed (seg.page p) →
    loadPage alloc elfBinary phdr seg (BitVec.ofNat 64 p) s = some s' → Inv (done ++ [seg.page p]) s'

theorem loadPages_inv (hstep : Keeps alloc elfBinary allowed Inv) {done : List (BitVec 36)}
    {seg : Segment} {s s' : State σ} (n : ℕ) (h : Inv done s) (hall : ∀ p < n, allowed (seg.page p))
    (hrun : loadPages alloc elfBinary phdr seg n s = some s') :
    Inv (done ++ (List.range n).map seg.page) s' := by
  induction n generalizing s' with
  | zero =>
      cases hrun
      simpa using h
  | succ n ih =>
      rw [loadPages] at hrun
      cases hfirst : loadPages alloc elfBinary phdr seg n s with
      | none => simp [hfirst] at hrun
      | some s1 =>
          simp only [hfirst] at hrun
          have h1 := ih (fun p hp => hall p (by omega)) hfirst
          rw [List.range_succ, List.map_append, ← List.append_assoc]
          exact hstep _ s1 s' phdr seg n h1 (hall n (by omega)) hrun

theorem loadSegments_inv (hstep : Keeps alloc elfBinary allowed Inv) (fuel i : ℕ)
    {done : List (BitVec 36)} {s s' : State σ} (h : Inv done s)
    (hall : ∀ page ∈ (loadedFrom alloc elfBinary phdr fuel i s).flatMap Segment.pages, allowed page)
    (hrun : loadSegments alloc elfBinary phdr fuel i s = some s') :
    Inv (done ++ (loadedFrom alloc elfBinary phdr fuel i s).flatMap Segment.pages) s' := by
  induction fuel generalizing i done s with
  | zero => cases hrun
  | succ fuel ih =>
      unfold loadSegments at hrun
      unfold loadedFrom at hall ⊢
      by_cases hi : i < (ePhnum s.mem elfBinary).toNat
      · simp only [hi, if_true] at hrun hall ⊢
        by_cases ht : pType s.mem (phdr + BitVec.ofNat 64 (i * phdrSize)) = ptLoad
        · simp only [ht, if_true] at hrun hall ⊢
          generalize readSegment s.mem (phdr + BitVec.ofNat 64 (i * phdrSize)) = seg at hrun hall ⊢
          cases hpages : loadPages alloc elfBinary (phdr + BitVec.ofNat 64 (i * phdrSize)) seg
              seg.numPages.toNat s with
          | none => simp [hpages] at hrun
          | some s1 =>
              simp only [hpages, List.flatMap_cons, List.forall_mem_append] at hrun hall ⊢
              have hown : ∀ p < seg.numPages.toNat, allowed (seg.page p) := fun p hp =>
                hall.1 _ (List.mem_map.mpr ⟨p, List.mem_range.mpr hp, rfl⟩)
              have h1 := loadPages_inv hstep seg.numPages.toNat h hown hpages
              rw [← List.append_assoc]
              exact ih (i + 1) h1 hall.2 hrun
        · simp only [ht, if_false] at hrun hall ⊢
          exact ih (i + 1) h hall hrun
      · simp only [hi, if_false] at hrun ⊢
        cases hrun
        simpa using h

-- What every page keeps holds after elf_load, of all pages that it maps.
theorem elfLoad_inv (hstep : Keeps alloc elfBinary allowed Inv) {s s' : State σ}
    {userPml4 entry : BitVec 64} (h : Inv [] s)
    (hall : ∀ page ∈ visitedPages alloc elfBinary s, allowed page)
    (hrun : elfLoad alloc elfBinary userPml4 s = some (entry, s')) :
    Inv (visitedPages alloc elfBinary s) s' := by
  unfold elfLoad at hrun
  unfold visitedPages loadedSegments at hall ⊢
  split at hrun
  · rename_i hbad
    rw [if_pos hbad]
    cases hrun
    exact h
  · rename_i hgood
    rw [if_neg hgood] at hall ⊢
    split at hrun
    · rename_i hbad
      rw [if_pos hbad]
      cases hrun
      exact h
    · rename_i hexec
      rw [if_neg hexec] at hall ⊢
      cases hload : loadSegments alloc elfBinary (elfBinary + ePhoff s.mem elfBinary) (2 ^ 16) 0 s with
      | none => simp only [hload] at hrun; cases hrun
      | some s1 =>
          simp only [hload, Option.some.injEq, Prod.mk.injEq] at hrun
          obtain ⟨-, rfl⟩ := hrun
          exact loadSegments_inv hstep _ 0 h hall hload

end Induction

end Miyabi.Elf.Loader
