import Miyabi.Modules.Loader.Image

namespace Miyabi.Modules

open Miyabi.Base Miyabi.Base.Memory Miyabi.Elf

theorem Spans.apart {base size a b : BitVec 64} {n k : ℕ} (h : Spans base size a n)
    (hroom : Apart base size.toNat b k) : Apart a n b k :=
  fun x hx => hroom x (h.inRange hx)

theorem Spans.within {base size a inner x : BitVec 64} {n : ℕ}
    (h : Spans base size a inner.toNat) (hx : Spans a inner x n) : Spans base size x n := by
  have hsum : x - base = (x - a) + (a - base) := by ring
  have hmod := Nat.mod_le ((x - a).toNat + (a - base).toNat) (2 ^ 64)
  unfold Spans at h hx ⊢
  rw [hsum, BitVec.toNat_add]
  omega

section Turns

variable (ehdr shdrs fileBuffer moduleMemory : BitVec 64)

-- The second pass comes to an allocated section, with its offset and the memory as it is
-- then.
structure PlaceTurn where
  mem : Memory 64
  sh : BitVec 64
  offset : BitVec 64

-- The stores of the turn after that of sh_addr, which is the first and so the last of the
-- list.
def PlaceTurn.stores (u : PlaceTurn) : List (BitVec 64 × ℕ) :=
  (placeSection fileBuffer moduleMemory u.offset u.sh ⟨u.mem, [], [], []⟩).stores.dropLast

def placeTurns : ℕ → ℕ → BitVec 64 → Work → List PlaceTurn
  | 0, _, _, _ => []
  | fuel + 1, i, offset, w =>
      if i < (eShnum w.mem ehdr).toNat then
        let sh := shdr shdrs i
        if IsAlloc w.mem sh then
          let offset := alignOffset offset (shAddralign w.mem sh)
          let w' := placeSection fileBuffer moduleMemory offset sh w
          ⟨w.mem, sh, offset⟩ :: placeTurns fuel (i + 1) (offset + shSize w'.mem sh) w'
        else placeTurns fuel (i + 1) offset w
      else []

end Turns

-- What has been placed stays so.
theorem placeSections_placed_mono (ehdr shdrs fileBuffer moduleMemory : BitVec 64) (fuel i : ℕ)
    (offset : BitVec 64) (w : Work) : w.placed ⊆
      (placeSections ehdr shdrs fileBuffer moduleMemory fuel i offset w).2.placed := by
  induction fuel generalizing i offset w with
  | zero => exact List.Subset.refl _
  | succ fuel ih =>
      rw [placeSections]
      split
      · dsimp only
        split
        · refine List.Subset.trans ?_ (ih (i + 1) _ _)
          rw [placeSection_placed]
          exact List.subset_cons_self _ _
        · exact ih (i + 1) offset w
      · exact List.Subset.refl _

section SecondPass

variable {m : Memory 64} {fileBuffer fileSize shdrs base total : BitVec 64}
variable (fuel : ℕ) {i : ℕ} {w : Work}

-- Turn number i has the offset and the fields that the first pass had.
theorem placeSections_end (h : Settled m fileBuffer fileSize shdrs base i w.mem)
    (ht : Table m fileBuffer fileSize shdrs) (hi : (eShnum m fileBuffer).toNat ≤ i)
    (offset : BitVec 64) :
    placeSections fileBuffer shdrs fileBuffer base fuel i offset w = (offset, w) ∧
      placeTurns fileBuffer shdrs fileBuffer base fuel i offset w = [] := by
  cases fuel with
  | zero => exact ⟨rfl, rfl⟩
  | succ fuel =>
      rw [placeSections, placeTurns, h.shnum ht, if_neg (Nat.not_lt_of_le hi),
        if_neg (Nat.not_lt_of_le hi)]
      exact ⟨rfl, rfl⟩

theorem placeSections_skip (h : Settled m fileBuffer fileSize shdrs base i w.mem)
    (ht : Table m fileBuffer fileSize shdrs) (hi : i < (eShnum m fileBuffer).toNat)
    (hskip : ¬IsAlloc m (shdr shdrs i)) (offset : BitVec 64) :
    placeSections fileBuffer shdrs fileBuffer base (fuel + 1) i offset w =
        placeSections fileBuffer shdrs fileBuffer base fuel (i + 1) offset w ∧
      placeTurns fileBuffer shdrs fileBuffer base (fuel + 1) i offset w =
        placeTurns fileBuffer shdrs fileBuffer base fuel (i + 1) offset w := by
  have hskip' : ¬IsAlloc w.mem (shdr shdrs i) := (h.isAlloc ht hi).not.mpr hskip
  rw [placeSections, placeTurns, h.shnum ht, if_pos hi, if_pos hi]
  dsimp only
  rw [if_neg hskip', if_neg hskip']
  exact ⟨rfl, rfl⟩

theorem placeSections_turn (h : Settled m fileBuffer fileSize shdrs base i w.mem)
    (ht : Table m fileBuffer fileSize shdrs) (hi : i < (eShnum m fileBuffer).toNat)
    (halloc : IsAlloc m (shdr shdrs i)) :
    ∃ w', w' = placeSection fileBuffer base (startOf m shdrs i) (shdr shdrs i) w ∧
      placeSections fileBuffer shdrs fileBuffer base (fuel + 1) i (offsetAt m shdrs i) w =
        placeSections fileBuffer shdrs fileBuffer base fuel (i + 1)
          (startOf m shdrs i + shSize w'.mem (shdr shdrs i)) w' ∧
      placeTurns fileBuffer shdrs fileBuffer base (fuel + 1) i (offsetAt m shdrs i) w =
        ⟨w.mem, shdr shdrs i, startOf m shdrs i⟩ ::
          placeTurns fileBuffer shdrs fileBuffer base fuel (i + 1)
            (startOf m shdrs i + shSize w'.mem (shdr shdrs i)) w' := by
  have halloc' : IsAlloc w.mem (shdr shdrs i) := (h.isAlloc ht hi).mpr halloc
  refine ⟨_, rfl, ?_⟩
  rw [placeSections, placeTurns, h.shnum ht, if_pos hi, if_pos hi]
  dsimp only
  rw [if_pos halloc', if_pos halloc', h.addralign ht hi]
  exact ⟨rfl, rfl⟩

-- A section that lies in the image is placed as the first pass has counted it.
theorem Settled.place (h : Settled m fileBuffer fileSize shdrs base i w.mem)
    (ht : Table m fileBuffer fileSize shdrs) (hi : i < (eShnum m fileBuffer).toNat)
    (halloc : IsAlloc m (shdr shdrs i)) (hroom : Apart base total.toNat fileBuffer fileSize.toNat)
    (hspan : Spans base total (base + startOf m shdrs i) (shSize m (shdr shdrs i)).toNat) :
    placeSection fileBuffer base (startOf m shdrs i) (shdr shdrs i) w =
        { mem := sectionFilled (w.mem.store64 (shdr shdrs i + 16) (base + startOf m shdrs i))
            (shdr shdrs i) (base + startOf m shdrs i) fileBuffer
          stores := bytesOf (base + startOf m shdrs i) (shSize m (shdr shdrs i)).toNat ++
            (shdr shdrs i + 16, 8) :: w.stores
          placed := placement m shdrs base i :: w.placed
          applied := w.applied } ∧
      Settled m fileBuffer fileSize shdrs base (i + 1)
        (placeSection fileBuffer base (startOf m shdrs i) (shdr shdrs i) w).mem := by
  have hfile := hspan.apart hroom
  have hsep : Apart (base + startOf m shdrs i) (shSize w.mem (shdr shdrs i)).toNat
      (shdr shdrs i + 32) 8 := by
    rw [h.size ht hi]
    exact fun x hx hin => hfile x hx (ht.field_inRange (o := 32) (k := 8) hi (by decide) hin)
  have heq := placeSection_eq fileBuffer hsep
  rw [h.size ht hi, h.addralign ht hi] at heq
  refine ⟨heq, ?_⟩
  have hassign := h.assign ht hi halloc
  rw [heq]
  refine hassign.outside ht hi ?_
  have hkeep := sectionFilled_keeps
    (w.mem.store64 (shdr shdrs i + 16) (base + startOf m shdrs i)) (shdr shdrs i)
    (base + startOf m shdrs i) fileBuffer
  rw [hassign.size ht hi] at hkeep
  exact hkeep.agree hfile.symm

variable (ht : Table m fileBuffer fileSize shdrs)
variable (hroom : Apart base total.toNat fileBuffer fileSize.toNat)

include ht hroom

-- Conversely, sections that have all been placed in the image are those of the first pass.
theorem spans_of_placed (hi : i ≤ (eShnum m fileBuffer).toNat)
    (hfuel : (eShnum m fileBuffer).toNat ≤ fuel + i)
    (h : Settled m fileBuffer fileSize shdrs base i w.mem)
    (hinside : ∀ p ∈ (placeSections fileBuffer shdrs fileBuffer base fuel i (offsetAt m shdrs i)
      w).2.placed, Spans base total p.addr p.size.toNat) :
    ∀ j, i ≤ j → j < (eShnum m fileBuffer).toNat → IsAlloc m (shdr shdrs j) →
      Spans base total (base + startOf m shdrs j) (shSize m (shdr shdrs j)).toNat := by
  induction fuel generalizing i w with
  | zero => exact fun j hij hj => by omega
  | succ fuel ih =>
      intro j hij hj halloc
      have hlt : i < (eShnum m fileBuffer).toNat := hij.trans_lt hj
      by_cases hiloc : IsAlloc m (shdr shdrs i)
      · obtain ⟨w', hw', hrun, -⟩ := placeSections_turn fuel h ht hlt hiloc
        rw [hrun] at hinside
        have hplaced : (⟨shdr shdrs i, shAddralign w.mem (shdr shdrs i),
            shSize w.mem (shdr shdrs i), base + startOf m shdrs i⟩ : Placement) ∈ w'.placed := by
          rw [hw', placeSection_placed]
          exact List.mem_cons_self
        have hspan := hinside _ (placeSections_placed_mono _ _ _ _ _ _ _ _ hplaced)
        rw [h.size ht hlt] at hspan
        rcases Nat.lt_or_eq_of_le hij with hlater | rfl
        · obtain ⟨-, hnext⟩ := h.place ht hlt hiloc hroom hspan
          rw [← hw'] at hnext
          rw [hnext.size ht hlt, ← offsetAt_alloc hiloc] at hinside
          exact ih hlt (by omega) hnext hinside j hlater hj halloc
        · exact hspan
      · rw [(placeSections_skip fuel h ht hlt hiloc _).1, ← offsetAt_skip hiloc] at hinside
        rcases Nat.lt_or_eq_of_le hij with hlater | rfl
        · exact ih hlt (by omega) (h.skip hiloc) hinside j hlater hj halloc
        · exact absurd halloc hiloc

variable (hspans : ∀ j < (eShnum m fileBuffer).toNat, IsAlloc m (shdr shdrs j) →
  Spans base total (base + startOf m shdrs j) (shSize m (shdr shdrs j)).toNat)

include hspans

-- The second pass ends where the first did, and gives the sections their places.
theorem placeSections_settled (hi : i ≤ (eShnum m fileBuffer).toNat)
    (hfuel : (eShnum m fileBuffer).toNat ≤ fuel + i)
    (h : Settled m fileBuffer fileSize shdrs base i w.mem)
    (hplaced : w.placed = layout m shdrs base i) :
    (placeSections fileBuffer shdrs fileBuffer base fuel i (offsetAt m shdrs i) w).1 =
        offsetAt m shdrs (eShnum m fileBuffer).toNat ∧
      Settled m fileBuffer fileSize shdrs base (eShnum m fileBuffer).toNat
        (placeSections fileBuffer shdrs fileBuffer base fuel i (offsetAt m shdrs i) w).2.mem ∧
      (placeSections fileBuffer shdrs fileBuffer base fuel i (offsetAt m shdrs i) w).2.placed =
        layout m shdrs base (eShnum m fileBuffer).toNat := by
  induction fuel generalizing i w with
  | zero =>
      obtain rfl : i = (eShnum m fileBuffer).toNat := by omega
      exact ⟨rfl, h, hplaced⟩
  | succ fuel ih =>
      rcases Nat.lt_or_eq_of_le hi with hlt | rfl
      · by_cases halloc : IsAlloc m (shdr shdrs i)
        · obtain ⟨w', hw', hrun, -⟩ := placeSections_turn fuel h ht hlt halloc
          obtain ⟨heq, hnext⟩ := h.place ht hlt halloc hroom (hspans i hlt halloc)
          rw [← hw'] at heq hnext
          rw [hrun, hnext.size ht hlt, ← offsetAt_alloc halloc]
          refine ih hlt (by omega) hnext ?_
          rw [heq, layout, if_pos halloc, hplaced]
        · rw [(placeSections_skip fuel h ht hlt halloc _).1, ← offsetAt_skip halloc]
          refine ih hlt (by omega) (h.skip halloc) ?_
          rw [layout, if_neg halloc, hplaced]
      · rw [(placeSections_end _ h ht le_rfl _).1]
        exact ⟨rfl, h, hplaced⟩

-- What each turn stores behind sh_addr are bytes of its section.
theorem placeTurns_inside (hi : i ≤ (eShnum m fileBuffer).toNat)
    (h : Settled m fileBuffer fileSize shdrs base i w.mem) :
    ∀ u ∈ placeTurns fileBuffer shdrs fileBuffer base fuel i (offsetAt m shdrs i) w,
      ∀ s ∈ u.stores fileBuffer base,
        ∃ p ∈ layout m shdrs base (eShnum m fileBuffer).toNat, p.header = u.sh ∧
          Spans p.addr p.size s.1 s.2 := by
  induction fuel generalizing i w with
  | zero => exact fun u hu => absurd hu List.not_mem_nil
  | succ fuel ih =>
      rcases Nat.lt_or_eq_of_le hi with hlt | rfl
      · by_cases halloc : IsAlloc m (shdr shdrs i)
        · obtain ⟨w', hw', -, hturns⟩ := placeSections_turn fuel h ht hlt halloc
          obtain ⟨-, hnext⟩ := h.place ht hlt halloc hroom (hspans i hlt halloc)
          rw [← hw'] at hnext
          rw [hturns, hnext.size ht hlt, ← offsetAt_alloc halloc, List.forall_mem_cons]
          refine ⟨fun s hs => ?_, ih hlt hnext⟩
          refine ⟨_, mem_layout.mpr ⟨i, hlt, halloc, rfl⟩, rfl, ?_⟩
          have halone : Settled m fileBuffer fileSize shdrs base i
            (⟨w.mem, [], [], []⟩ : Work).mem := h
          have hbytes := (halone.place ht hlt halloc hroom (hspans i hlt halloc)).1
          rw [PlaceTurn.stores, hbytes, List.dropLast_concat] at hs
          exact bytesOf_spans le_rfl hs
        · rw [(placeSections_skip fuel h ht hlt halloc _).2, ← offsetAt_skip halloc]
          exact ih hlt (h.skip halloc)
      · rw [(placeSections_end _ h ht le_rfl _).2]
        exact fun u hu => absurd hu List.not_mem_nil

-- All stores of the second pass are to the file and the image.
theorem placeSections_bounded (hi : i ≤ (eShnum m fileBuffer).toNat)
    (h : Settled m fileBuffer fileSize shdrs base i w.mem)
    (hbounded : Bounded fileBuffer fileSize base total w) :
    Bounded fileBuffer fileSize base total
      (placeSections fileBuffer shdrs fileBuffer base fuel i (offsetAt m shdrs i) w).2 := by
  induction fuel generalizing i w with
  | zero => exact hbounded
  | succ fuel ih =>
      rcases Nat.lt_or_eq_of_le hi with hlt | rfl
      · by_cases halloc : IsAlloc m (shdr shdrs i)
        · obtain ⟨w', hw', hrun, -⟩ := placeSections_turn fuel h ht hlt halloc
          obtain ⟨heq, hnext⟩ := h.place ht hlt halloc hroom (hspans i hlt halloc)
          rw [← hw'] at heq hnext
          rw [hrun, hnext.size ht hlt, ← offsetAt_alloc halloc]
          refine ih hlt hnext fun s hs => ?_
          rw [heq] at hs
          rcases List.mem_append.mp hs with hs | hs
          · exact Or.inr ((hspans i hlt halloc).within (bytesOf_spans le_rfl hs))
          · rcases List.mem_cons.mp hs with rfl | hs
            · refine Or.inl ?_
              have hroomy := ht.room
              have hsize := fileSize.isLt
              have haddr := ht.shdr_at i 16
              rw [Spans, show shdr shdrs i + 16 = _ from haddr, add_sub_cancel_left,
                BitVec.toNat_ofNat, Nat.mod_eq_of_lt (by omega)]
              omega
            · exact hbounded s hs
        · rw [(placeSections_skip fuel h ht hlt halloc _).1, ← offsetAt_skip halloc]
          exact ih hlt (h.skip halloc) hbounded
      · rw [(placeSections_end _ h ht le_rfl _).1]
        exact hbounded

end SecondPass

end Miyabi.Modules
