import Miyabi.Mm.Heap.Runs

namespace Miyabi.Mm.Heap

open Miyabi.Base Miyabi.Base.Memory Miyabi.Base.Linked Miyabi.Base.Tiling Miyabi.Base.Transition

-- The request rounded to 16 bytes, as a number that cannot wrap.
def rounded (size : BitVec 64) : Nat := (size.toNat + 15) / 16 * 16

-- Bytes of the whole pages that hold the rounded request and its header.
def pagesFor (size : BitVec 64) : Nat := (rounded size + 24 + 4095) / 4096 * 4096

-- Counted without wrap, a free block on the list fits the rounded request, or
-- its pages fit between heap_end and the top of the address space.
def HasRoom (s : System) : Call → Prop
  | .kmalloc size =>
      size = 0 ∨
        (∃ bs, Layout s.heap bs ∧ ∃ b ∈ bs, b.isFree = true ∧ rounded size ≤ b.size.toNat) ∨
        s.heap.heapEnd.toNat + pagesFor size < 2 ^ 64
  | .kfree ptr => ptr = 0 ∨ ∃ a ∈ s.live, a.ptr = ptr

theorem layout_unique {h : State} {bs cs : List Block} (hb : Layout h bs) (hc : Layout h cs) :
    bs = cs := by
  refine segment_unique ?_ (fun b hm => hb.addr_ne_zero hm) (fun c hm => hc.addr_ne_zero hm)
    hb.chain hc.chain
  rintro ⟨p, n, f⟩ ⟨q, k, g⟩ h1 h2 he
  have hpq : p = q := he
  subst hpq
  obtain ⟨hn, hf⟩ := h1
  obtain ⟨hk, hg⟩ := h2
  simp only at hn hf hk hg
  rw [← hn, ← hf, ← hk, ← hg]

theorem alignUp_rounded {size : BitVec 64} (h : rounded size < 2 ^ 64) :
    (alignUp size 16).toNat = rounded size := by
  have hlt := size.isLt
  refine alignUp_16 size ?_
  simp only [rounded] at h
  omega

theorem requestFits_of_rounded {size : BitVec 64} (h : rounded size + 24 + 4095 < 2 ^ 64) :
    RequestFits size := by
  have ha := alignUp_rounded (show rounded size < 2 ^ 64 by omega)
  simp only [rounded] at h
  exact ⟨by omega, by rw [ha]; exact h⟩

theorem growth_pagesFor {size : BitVec 64} (h : RequestFits size) : growth size = pagesFor size := by
  have hr := h.rounding
  rw [growth_eq h, alignUp_rounded (by simp only [rounded]; omega), pagesFor]

theorem fits_iff {size : BitVec 64} (b : Block) (hsize : size.toNat + 15 < 2 ^ 64) :
    Fits (alignUp size 16) b ↔ b.isFree = true ∧ rounded size ≤ b.size.toNat := by
  rw [Fits, BitVec.le_def, alignUp_rounded (by simp only [rounded]; omega)]

section Tidy

variable {s : System} {bs : List Block}

-- The window has room for 2^30 bytes, so no block comes near to a wrap.
theorem Tidy.size_lt (h : Tidy s bs) {b : Block} (hb : b ∈ bs) : b.size.toNat < 2 ^ 30 := by
  have hbound := tiles_bounds h.layout.tiles hb
  have hend := s.heap.heapEnd.isLt
  have hs : heapStart.toNat = 2 ^ 64 - 2 ^ 30 := by decide
  simp only [Block.len] at hbound
  omega

theorem HasRoom.requestFits (h : Tidy s bs) {size : BitVec 64} (hr : HasRoom s (.kmalloc size)) :
    RequestFits size := by
  rcases hr with rfl | ⟨cs, hl, b, hb, -, hle⟩ | hend
  · exact ⟨by decide, by decide⟩
  · have hlt := h.size_lt (layout_unique hl h.layout ▸ hb)
    exact requestFits_of_rounded (by omega)
  · apply requestFits_of_rounded
    have hs := BitVec.le_def.mp h.mapped.start
    have hstart : heapStart.toNat = 2 ^ 64 - 2 ^ 30 := by decide
    simp only [pagesFor] at hend
    omega

-- Where no block fits, room means that heap_end does not wrap.
theorem HasRoom.growth (h : Tidy s bs) {size : BitVec 64} (hr : HasRoom s (.kmalloc size))
    (hz : size ≠ 0) (hn : ∀ c ∈ bs, ¬Fits (alignUp size 16) c) :
    s.heap.heapEnd.toNat + Heap.growth size < 2 ^ 64 := by
  have hreq := HasRoom.requestFits h hr
  rcases hr with hz' | ⟨cs, hl, b, hb, hf, hle⟩ | hend
  · exact absurd hz' hz
  · have hb' := layout_unique hl h.layout ▸ hb
    exact absurd ((fits_iff b hreq.rounding).mpr ⟨hf, hle⟩) (hn b hb')
  · rwa [growth_pagesFor hreq]

theorem HasRoom.permitted (h : Tidy s bs) {call : Call} (hr : HasRoom s call) :
    Permitted s call := by
  cases call with
  | kfree ptr => exact hr
  | kmalloc size =>
      have hreq := HasRoom.requestFits h hr
      refine ⟨hreq, fun s' he => ?_⟩
      by_cases hz : size = 0
      · simp only [System.step, Heap.kmalloc, hz, if_true, Option.some.injEq] at he
        rw [← he]
        exact BitVec.le_refl _
      · cases hk : Heap.kmalloc size s.heap with
        | none => simp [System.step, hk] at he
        | some r =>
            simp only [System.step, hk, Option.some.injEq] at he
            subst he
            rcases first_fit_cases (alignUp size 16) bs with hn | ⟨pre, b, post, rfl, hpre, hb⟩
            · have hroom := HasRoom.growth h hr hz hn
              obtain ⟨-, hend, -⟩ := kmalloc_expand_step h.layout h.nonempty hz hreq hn hk hroom
              show s.heap.heapEnd ≤ r.2.heapEnd
              exact BitVec.le_def.mpr (by omega)
            · obtain ⟨m', he', -⟩ := kmalloc_reuse_step h.layout hz hreq hpre hb
              cases hk.symm.trans he'
              exact BitVec.le_refl _

-- A call that wraps neither the request nor heap_end had room, and the other
-- way round.
theorem hasRoom_of_permitted (h : Tidy s bs) {size : BitVec 64} {s' : System}
    (hp : Permitted s (.kmalloc size)) (he : s.step (.kmalloc size) = some s') :
    HasRoom s (.kmalloc size) := by
  by_cases hz : size = 0
  · exact Or.inl hz
  · cases hk : Heap.kmalloc size s.heap with
    | none => simp [System.step, hk] at he
    | some r =>
        have hend := hp.2 s' he
        simp only [System.step, hk, Option.some.injEq] at he
        subst he
        rcases first_fit_cases (alignUp size 16) bs with hn | ⟨pre, b, post, rfl, -, hb⟩
        · have hroom := growth_fits h.layout h.nonempty hz hp.1 hn hk hend
          rw [growth_pagesFor hp.1] at hroom
          exact Or.inr (Or.inr hroom)
        · have hm : b ∈ pre ++ b :: post := by simp
          exact Or.inr (Or.inl ⟨_, h.layout, b, hm, (fits_iff b hp.1.rounding).mp hb⟩)

end Tidy

theorem permitted_of_room {s0 : System} {bs : List Block} (h : Tidy s0 bs) (calls : List Call)
    (hp : PermittedRun System.step HasRoom s0 calls) :
    PermittedRun System.step Permitted s0 calls :=
  permittedRun_imp (fun s => ∃ bs, Tidy s bs)
    (fun _ call _ hs hcall he => hs.elim fun _ h => step_tidy h call (HasRoom.permitted h hcall) he)
    (fun _ _ hs hcall => hs.elim fun _ h => HasRoom.permitted h hcall) s0 calls ⟨bs, h⟩ hp

end Miyabi.Mm.Heap
