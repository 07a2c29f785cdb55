import Miyabi.Mm.Heap.Carve

namespace Miyabi.Mm.Heap

open Miyabi.Base Miyabi.Base.Memory Miyabi.Base.Linked Miyabi.Base.Tiling

abbrev Fits (size : BitVec 64) (b : Block) : Prop := b.isFree = true ∧ size ≤ b.size

-- The rounding of the request, the added header and the rounding to pages stay
-- inside the address space.
structure RequestFits (size : BitVec 64) : Prop where
  rounding : size.toNat + 15 < 2 ^ 64
  pages : (alignUp size 16).toNat + 24 + 4095 < 2 ^ 64

theorem alignUp_16 (size : BitVec 64) (h : size.toNat + 15 < 2 ^ 64) :
    (alignUp size 16).toNat = (size.toNat + 15) / 16 * 16 :=
  Word.toNat_round_up size 16 4 (by decide) h

theorem toNat_sub_header (n : BitVec 64) (h : 24 ≤ n.toNat) :
    (n - headerSize).toNat = n.toNat - 24 := by
  simp only [headerSize]
  bv_omega

theorem alignUp_page (bytes : BitVec 64) (h : bytes.toNat + 4095 < 2 ^ 64) :
    (alignUp bytes pageSize).toNat = (bytes.toNat + 4095) / 4096 * 4096 :=
  Word.toNat_round_up bytes pageSize 12 (by decide) h

section Search

variable {m : Memory 64} {size : BitVec 64}

theorem findFit_found {pre post : List Block} {b : Block} (p q last : BitVec 64) (fuel : Nat)
    (hc : Chain m p (pre ++ b :: post) q) (hne : ∀ c ∈ pre ++ b :: post, c.addr ≠ 0)
    (hpre : ∀ c ∈ pre, ¬Fits size c) (hb : Fits size b) (hfuel : pre.length < fuel) :
    ∃ before, findFit m size fuel p last = some (b.addr, before) := by
  induction pre generalizing p last fuel with
  | nil =>
      obtain ⟨fuel, rfl⟩ : ∃ n, fuel = n + 1 := ⟨fuel - 1, by simp at hfuel; omega⟩
      obtain ⟨rfl, hh, -⟩ := hc
      have hz := hne b (by simp)
      refine ⟨last, ?_⟩
      simp only [findFit, hz, if_false, hh.1, hh.2, hb.1, hb.2, and_self, if_true]
  | cons c pre ih =>
      obtain ⟨fuel, rfl⟩ : ∃ n, fuel = n + 1 := ⟨fuel - 1, by simp at hfuel; omega⟩
      obtain ⟨rfl, hh, hrest⟩ := hc
      have hz := hne c (by simp)
      have hn := hpre c (by simp)
      obtain ⟨before, hr⟩ := ih _ c.addr fuel hrest (fun d hd => hne d (by simp [hd]))
        (fun d hd => hpre d (by simp [hd])) (by simpa using hfuel)
      refine ⟨before, ?_⟩
      simp only [findFit, hz, if_false, hh.1, hh.2, hn]
      exact hr

theorem findFit_none {bs : List Block} (p last : BitVec 64) (fuel : Nat)
    (hc : Chain m p bs 0) (hne : ∀ c ∈ bs, c.addr ≠ 0) (hn : ∀ c ∈ bs, ¬Fits size c)
    (hfuel : bs.length < fuel) :
    findFit m size fuel p last = some (0, (bs.getLast?.map Block.addr).getD last) := by
  induction bs generalizing p last fuel with
  | nil =>
      obtain ⟨fuel, rfl⟩ : ∃ n, fuel = n + 1 := ⟨fuel - 1, by simp at hfuel; omega⟩
      have hp : p = 0 := hc
      simp [findFit, hp]
  | cons c rest ih =>
      obtain ⟨fuel, rfl⟩ : ∃ n, fuel = n + 1 := ⟨fuel - 1, by simp at hfuel; omega⟩
      obtain ⟨rfl, hh, hrest⟩ := hc
      have hz := hne c (by simp)
      have hnc := hn c (by simp)
      have hr := ih _ c.addr fuel hrest (fun d hd => hne d (by simp [hd]))
        (fun d hd => hn d (by simp [hd])) (by simpa using hfuel)
      simp only [findFit, hz, if_false, hh.1, hh.2, hnc]
      rw [hr]
      cases rest <;> simp [List.getLast?_cons]

-- A list has a first block that fits, or none.
theorem first_fit_cases (size : BitVec 64) (bs : List Block) :
    (∀ c ∈ bs, ¬Fits size c) ∨
      ∃ pre b post, bs = pre ++ b :: post ∧ (∀ c ∈ pre, ¬Fits size c) ∧ Fits size b := by
  induction bs with
  | nil => exact Or.inl (by simp)
  | cons c rest ih =>
      by_cases hc : Fits size c
      · exact Or.inr ⟨[], c, rest, rfl, by simp, hc⟩
      · rcases ih with hn | ⟨pre, b, post, rfl, hpre, hb⟩
        · exact Or.inl (List.forall_mem_cons.mpr ⟨hc, hn⟩)
        · exact Or.inr ⟨c :: pre, b, post, rfl, List.forall_mem_cons.mpr ⟨hc, hpre⟩, hb⟩

end Search

section Expand

-- The virtual addresses of the pages mapped so far.
def State.pages (h : State) : List (BitVec 64) := h.mapped.map Mapping.virt

theorem mapPages_supplied (n : Nat) (h : State) (hs : ∀ k, h.frames.result k ≠ 0) :
    ∃ h', mapPages n h = some h' := by
  induction n generalizing h with
  | zero => exact ⟨h, rfl⟩
  | succ n ih =>
      simp only [mapPages, FrameSupply.pmmAlloc, hs h.frames.calls, if_false]
      apply ih
      exact hs

-- The i-th page mapped from heap_end on.
def nextPage (h : State) (i : Nat) : BitVec 64 := h.heapEnd + BitVec.ofNat 64 (i * 4096)

theorem mapPages_returned (n : Nat) {h h' : State} (he : mapPages n h = some h') :
    h'.mem = h.mem ∧ h'.head = h.head ∧ h'.heapEnd = nextPage h n ∧
      h'.frames.result = h.frames.result ∧
      ∀ v, v ∈ h'.pages ↔ (∃ i < n, v = nextPage h i) ∨ v ∈ h.pages := by
  induction n generalizing h with
  | zero =>
      cases he
      exact ⟨rfl, rfl, by simp [nextPage], rfl, by simp⟩
  | succ n ih =>
      simp only [mapPages, FrameSupply.pmmAlloc] at he
      by_cases hz : h.frames.result h.frames.calls = 0
      · simp [hz] at he
      · simp only [hz, if_false] at he
        obtain ⟨hm, hh, hend, hf, hp⟩ := ih he
        have hnext : ∀ i, h.heapEnd + pageSize + BitVec.ofNat 64 (i * 4096) = nextPage h (i + 1) := by
          intro i
          rw [nextPage, Nat.succ_mul, BitVec.ofNat_add, pageSize, add_assoc, add_comm (4096 : BitVec 64)]
          rfl
        refine ⟨hm, hh, hend.trans (hnext n), hf, fun v => ?_⟩
        rw [hp v, State.pages, List.map_cons, List.mem_cons, State.pages]
        constructor
        · rintro (⟨i, hi, rfl⟩ | rfl | hv)
          · exact Or.inl ⟨i + 1, by omega, hnext i⟩
          · exact Or.inl ⟨0, by omega, by simp [nextPage]⟩
          · exact Or.inr hv
        · rintro (⟨i, hi, rfl⟩ | hv)
          · cases i with
            | zero => exact Or.inr (Or.inl (by simp [nextPage]))
            | succ i => exact Or.inl ⟨i, by omega, (hnext i).symm⟩
          · exact Or.inr (Or.inr hv)

def freshBlock (h : State) (bytes : BitVec 64) : Block :=
  ⟨h.heapEnd, alignUp bytes pageSize - headerSize, true⟩

-- What heap_expand has done to the heap when it returns. Nothing is said of
-- the wrap of heap_end or of `bytes`.
structure Expanded (bytes : BitVec 64) (h h' : State) : Prop where
  head : h'.head = h.head
  heapEnd : h'.heapEnd = h.heapEnd + alignUp bytes pageSize
  frames : h'.frames.result = h.frames.result
  chain : Chain h'.mem h.heapEnd [freshBlock h bytes] 0
  mem : h'.mem = setNext (setIsFree (setSize h.mem h.heapEnd (alignUp bytes pageSize - headerSize))
    h.heapEnd true) h.heapEnd 0
  keeps : KeepsOutside h.mem h'.mem h.heapEnd 24
  pages : ∀ v, v ∈ h'.pages ↔
    (∃ i < (alignUp bytes pageSize).toNat / 4096, v = nextPage h i) ∨ v ∈ h.pages

-- Rounding to pages gives whole pages even where it wraps.
theorem alignUp_page_dvd (bytes : BitVec 64) :
    (alignUp bytes pageSize).toNat / 4096 * 4096 = (alignUp bytes pageSize).toNat := by
  have hm := Word.toNat_and_not_mask (bytes + pageSize - 1) (pageSize - 1) 12 (by decide)
  rw [alignUp, hm]
  omega

theorem heapExpand_returned {h h' : State} {bytes p : BitVec 64}
    (he : heapExpand bytes h = some (p, h')) : p = h.heapEnd ∧ Expanded bytes h h' := by
  cases hp : mapPages (alignUp bytes pageSize / pageSize).toNat h with
  | none =>
      simp only [heapExpand, hp] at he
      cases he
  | some h1 =>
      simp only [heapExpand, hp, Option.some.injEq, Prod.mk.injEq] at he
      obtain ⟨rfl, rfl⟩ := he
      obtain ⟨hm, hh, hend, hf, hpages⟩ := mapPages_returned _ hp
      have hn : (alignUp bytes pageSize / pageSize).toNat = (alignUp bytes pageSize).toNat / 4096 := by
        rw [BitVec.toNat_udiv]
        rfl
      refine ⟨rfl, hh, ?_, hf, ?_, ?_, ?_, ?_⟩
      · simp only [hend, nextPage, hn, alignUp_page_dvd, BitVec.ofNat_toNat, BitVec.setWidth_eq]
      · simp only [freshBlock, Segment, Block.Holds]
        simp
      · simp only [hm]
      · simp only [hm]
        exact ((setSize_keeps _ _ _).trans (setIsFree_keeps _ _ _)).trans (setNext_keeps _ _ _)
      · rw [← hn]
        exact hpages

theorem heapExpand_supplied (h : State) (bytes : BitVec 64) (hs : ∀ k, h.frames.result k ≠ 0) :
    ∃ h', heapExpand bytes h = some (h.heapEnd, h') := by
  obtain ⟨h1, he⟩ := mapPages_supplied (alignUp bytes pageSize / pageSize).toNat h hs
  simp only [heapExpand, he]
  exact ⟨_, rfl⟩

end Expand

-- Taking a block that is large enough: the walk and the tiling afterwards.
theorem take_block {m : Memory 64} {p size : BitVec 64} {lo hi : Nat} {pre post : List Block}
    {b : Block} (hc : Chain m p (pre ++ b :: post) 0) (ht : BlockTiles lo (pre ++ b :: post) hi)
    (hhi : hi ≤ 2 ^ 64) (hwrap : size.toNat + 40 < 2 ^ 64) :
    Chain (carved m b.addr size) p (pre ++ carve size b ++ post) 0 ∧
      BlockTiles lo (pre ++ carve size b ++ post) hi ∧
      KeepsOutside m (carved m b.addr size) b.addr b.len := by
  have hh : b.Holds m := segment_holds hc (by simp)
  have hspace := tiled_in_space ht hhi (b := b) (by simp)
  have hk := carved_keeps hh hspace hwrap
  refine ⟨chain_replace hc ht hhi hk (carved_chain hh hspace hwrap), ?_, hk⟩
  obtain ⟨hpre, hpost⟩ := (blockTiles_middle pre post b).mp ht
  rw [List.append_assoc]
  refine (tiles_append pre _).mpr ⟨_, hpre, ?_⟩
  exact (tiles_append _ post).mpr ⟨_, carve_tiles hspace hwrap, hpost⟩

theorem RequestFits.room {size : BitVec 64} (h : RequestFits size) :
    (alignUp size 16).toNat + 40 < 2 ^ 64 := by
  have := h.pages
  omega

theorem Layout.addr_ne_zero {h : State} {bs : List Block} (hl : Layout h bs) {b : Block}
    (hb : b ∈ bs) : b.addr ≠ 0 :=
  tiled_addr_ne_zero hl.tiles (by decide) hb

theorem Layout.length_lt {h : State} {bs : List Block} (hl : Layout h bs) :
    bs.length < 2 ^ 64 :=
  tiled_length_lt hl.tiles h.heapEnd.isLt.le

-- What kmalloc does with the outcome of its search, whatever is in memory.
theorem kmalloc_found {h : State} {size current last : BitVec 64} (hsize : size ≠ 0)
    (hf : findFit h.mem (alignUp size 16) (2 ^ 64) h.head 0 = some (current, last))
    (hz : current ≠ 0) : kmalloc size h = some (current + headerSize,
      { h with mem := carved h.mem current (alignUp size 16) }) := by
  simp only [kmalloc, hsize, if_false, hf, hz, ne_eq, not_false_eq_true, if_true, carved]

theorem kmalloc_missed {h : State} {size last : BitVec 64} (hsize : size ≠ 0)
    (hf : findFit h.mem (alignUp size 16) (2 ^ 64) h.head 0 = some (0, last)) (hz : last ≠ 0) :
    kmalloc size h = (heapExpand (alignUp size 16 + headerSize) h).map fun r =>
      (r.1 + headerSize, { r.2 with mem := carved (setNext r.2.mem last r.1) r.1 (alignUp size 16) }) := by
  simp only [kmalloc, hsize, if_false, hf, ne_eq, not_true_eq_false]
  cases heapExpand (alignUp size 16 + headerSize) h with
  | none => rfl
  | some r => simp only [hz, not_false_eq_true, if_true, false_and, if_false, Option.map_some, carved]

-- First fit: the block found is carved, and nothing outside it is written.
theorem kmalloc_reuse {h : State} {size : BitVec 64} {pre post : List Block} {b : Block}
    (hl : Layout h (pre ++ b :: post)) (hsize : size ≠ 0)
    (hwrap : (alignUp size 16).toNat + 40 < 2 ^ 64)
    (hpre : ∀ c ∈ pre, ¬Fits (alignUp size 16) c) (hb : Fits (alignUp size 16) b) :
    kmalloc size h = some (b.payload, { h with mem := carved h.mem b.addr (alignUp size 16) }) ∧
      Layout { h with mem := carved h.mem b.addr (alignUp size 16) }
        (pre ++ carve (alignUp size 16) b ++ post) ∧
      KeepsOutside h.mem (carved h.mem b.addr (alignUp size 16)) b.addr b.len := by
  obtain ⟨hc, ht, hk⟩ := take_block hl.chain hl.tiles h.heapEnd.isLt.le hwrap
  have hlen := hl.length_lt
  obtain ⟨before, hf⟩ := findFit_found h.head 0 0 (2 ^ 64) hl.chain
    (fun c hc => hl.addr_ne_zero hc) hpre hb (by simp only [List.length_append] at hlen; omega)
  exact ⟨kmalloc_found hsize hf (hl.addr_ne_zero (by simp)), ⟨hc, ht⟩, hk⟩

theorem RequestFits.bytes {size : BitVec 64} (h : RequestFits size) :
    (alignUp size 16 + headerSize).toNat = (alignUp size 16).toNat + 24 := by
  have hp := h.pages
  have hh : headerSize.toNat = 24 := rfl
  rw [BitVec.toNat_add_of_lt (by rw [hh]; omega), hh]

-- No block fits: the heap is expanded and the new block linked behind the last one.
theorem kmalloc_grow {h : State} {size : BitVec 64} {pre : List Block} {l : Block}
    (hl : Layout h (pre ++ [l])) (hsize : size ≠ 0)
    (hn : ∀ c ∈ pre ++ [l], ¬Fits (alignUp size 16) c) :
    kmalloc size h = (heapExpand (alignUp size 16 + headerSize) h).map fun r =>
      (r.1 + headerSize, { r.2 with mem := carved (setNext r.2.mem l.addr r.1) r.1 (alignUp size 16) }) := by
  have hfind := findFit_none h.head 0 (2 ^ 64) hl.chain (fun c hc => hl.addr_ne_zero hc) hn
    hl.length_lt
  rw [List.getLast?_concat] at hfind
  exact kmalloc_missed hsize hfind (hl.addr_ne_zero (by simp))

theorem kmalloc_grow_returned {h h' : State} {size p : BitVec 64} {pre : List Block} {l : Block}
    (hl : Layout h (pre ++ [l])) (hsize : size ≠ 0)
    (hn : ∀ c ∈ pre ++ [l], ¬Fits (alignUp size 16) c) (he : kmalloc size h = some (p, h')) :
    ∃ h1, Expanded (alignUp size 16 + headerSize) h h1 ∧ p = h.heapEnd + headerSize ∧
      h' = { h1 with mem := carved (setNext h1.mem l.addr h.heapEnd) h.heapEnd (alignUp size 16) } := by
  rw [kmalloc_grow hl hsize hn, Option.map_eq_some_iff] at he
  obtain ⟨⟨new, h1⟩, hx, hr⟩ := he
  obtain ⟨rfl, hex⟩ := heapExpand_returned hx
  simp only [Prod.mk.injEq] at hr
  exact ⟨h1, hex, hr.1.symm, hr.2.symm⟩

-- Without wrap of heap_end the new block continues the tiling and is carved.
theorem kmalloc_expand {h h' : State} {size p : BitVec 64} {pre : List Block} {l : Block}
    (hl : Layout h (pre ++ [l])) (hsize : size ≠ 0) (hreq : RequestFits size)
    (hn : ∀ c ∈ pre ++ [l], ¬Fits (alignUp size 16) c) (he : kmalloc size h = some (p, h'))
    (hend : h.heapEnd.toNat + (alignUp (alignUp size 16 + headerSize) pageSize).toNat < 2 ^ 64) :
    p = (freshBlock h (alignUp size 16 + headerSize)).payload ∧
      h'.heapEnd = h.heapEnd + alignUp (alignUp size 16 + headerSize) pageSize ∧
      h'.frames.result = h.frames.result ∧
      (∀ v, v ∈ h'.pages ↔
        (∃ i < (alignUp (alignUp size 16 + headerSize) pageSize).toNat / 4096, v = nextPage h i) ∨
          v ∈ h.pages) ∧
      Layout h' (pre ++ [l] ++ carve (alignUp size 16) (freshBlock h (alignUp size 16 + headerSize))) ∧
      ∀ x, ¬InRange l.addr 24 x →
        ¬InRange h.heapEnd (freshBlock h (alignUp size 16 + headerSize)).len x →
        h'.mem x = h.mem x := by
  obtain ⟨h1, hex, hp, rfl⟩ := kmalloc_grow_returned hl hsize hn he
  refine ⟨hp, hex.heapEnd, hex.frames, hex.pages, ?_⟩
  have hbn := hreq.bytes
  have hneed := alignUp_page (alignUp size 16 + headerSize) (by have := hreq.pages; omega)
  have hend1 := hex.heapEnd
  have hc1 := hex.chain
  have hk1 := hex.keeps
  have hhead := hex.head
  clear hex he hp
  generalize alignUp size 16 + headerSize = bytes at *
  generalize hfresh : freshBlock h bytes = fresh at *
  have haddr : fresh.addr = h.heapEnd := by rw [← hfresh]; rfl
  have hstart : fresh.start = h.heapEnd.toNat := by rw [← hfresh]; rfl
  have hlen : fresh.len = (alignUp bytes pageSize).toNat := by
    simp only [← hfresh, Block.len, freshBlock]
    rw [toNat_sub_header _ (by omega)]
    omega
  have hend1' : h1.heapEnd.toNat = h.heapEnd.toNat + fresh.len := by
    rw [hend1, BitVec.toNat_add_of_lt hend, hlen]
  have hspace : fresh.start + fresh.len ≤ 2 ^ 64 := by omega
  -- The old blocks all end at heap_end, where the new header lies.
  have hold : ∀ c ∈ pre ++ [l], Apart c.addr 24 fresh.addr fresh.len := fun c hc =>
    header_apart (tiled_in_space hl.tiles h.heapEnd.isLt.le hc) hspace
      (Or.inl (by rw [hstart]; exact (tiles_bounds hl.tiles hc).2))
  have hchain1 : Chain h1.mem h.head (pre ++ [l]) 0 := chain_congr hl.chain fun c hc =>
    hk1.agree (haddr ▸ (hold c hc).mono le_rfl (by simp only [Block.len]; omega))
  -- Linking the new block behind the last one.
  have hk2 := setNext_keeps h1.mem l.addr h.heapEnd
  have hfl : Apart fresh.addr 24 l.addr 24 :=
    ((hold l (by simp)).mono le_rfl (by simp only [Block.len]; omega)).symm
  have hchain2 : Chain (setNext h1.mem l.addr h.heapEnd) h.head ((pre ++ [l]) ++ fresh :: []) 0 := by
    obtain ⟨hpre, hh, -⟩ := (segment_middle pre [] l).mp hchain1
    rw [List.append_assoc]
    refine (segment_middle pre [fresh] l).mpr ⟨?_, ⟨by simp [hh.1], by simp [hh.2]⟩, ?_⟩
    · refine chain_congr hpre (fun c hc => hk2.agree ?_)
      have hp := pre_header_apart pre [] hl.tiles h.heapEnd.isLt.le hc
      exact hp.mono le_rfl (by simp only [Block.len]; omega)
    · rw [blockNext_setNext]
      refine chain_congr hc1 (fun c hc => hk2.agree ?_)
      rw [List.mem_singleton.mp hc]
      exact hfl
  have htiles : BlockTiles heapStart.toNat ((pre ++ [l]) ++ fresh :: []) h1.heapEnd.toNat :=
    (tiles_append _ _).mpr ⟨_, hl.tiles, hstart, hend1'.symm⟩
  obtain ⟨hc3, ht3, hk3⟩ := take_block hchain2 htiles h1.heapEnd.isLt.le hreq.room
  rw [haddr, ← hhead] at hc3
  rw [haddr] at hk3
  refine ⟨⟨by simpa using hc3, by simpa using ht3⟩, ?_⟩
  intro x hx hxf
  have h1x : ¬InRange h.heapEnd 24 x := fun hr =>
    hxf (inRange_mono _ x (by simp only [Block.len]; omega) hr)
  exact (hk3 x hxf).trans ((hk2 x hx).trans (hk1 x h1x))

end Miyabi.Mm.Heap
