import Miyabi.Mm.Heap.Owners

namespace Miyabi.Mm.Heap

open Miyabi.Base Miyabi.Base.Memory Miyabi.Base.Linked Miyabi.Base.Tiling

-- The bytes of every used block's payload are kept.
def KeepsUsed (m m' : Memory 64) (bs : List Block) : Prop :=
  ∀ b ∈ usedBlocks bs, Agree m m' b.payload b.size.toNat

theorem size_le_rounded (size : BitVec 64) (h : size.toNat + 15 < 2 ^ 64) :
    size ≤ alignUp size 16 := by
  rw [BitVec.le_def, alignUp_16 size h]
  have := Nat.div_add_mod' (size.toNat + 15) 16
  omega

theorem no_wrap_of_le (a n : BitVec 64) (h : a ≤ a + n) (hn : 0 < n.toNat) :
    a.toNat + n.toNat < 2 ^ 64 := by
  bv_omega

theorem usedBlocks_append (xs ys : List Block) :
    usedBlocks (xs ++ ys) = usedBlocks xs ++ usedBlocks ys := by
  simp [usedBlocks]

theorem usedBlocks_cons_free {b : Block} (h : b.isFree = true) (xs : List Block) :
    usedBlocks (b :: xs) = usedBlocks xs := by
  simp [usedBlocks, h]

theorem usedBlocks_cons_used {b : Block} (h : b.isFree = false) (xs : List Block) :
    usedBlocks (b :: xs) = b :: usedBlocks xs := by
  simp [usedBlocks, h]

-- What one successful request does to a heap with block list `bs`.
structure Allocated (size : BitVec 64) (h : State) (bs : List Block) (h' : State)
    (bs' : List Block) (b : Block) : Prop where
  layout : Layout h' bs'
  nonempty : bs' ≠ []
  frames : h'.frames.result = h.frames.result
  used : (usedBlocks bs').Perm (b :: usedBlocks bs)
  size_le : size ≤ b.size
  keeps : KeepsUsed h.mem h'.mem bs

-- The block that serves the request, if one on the list does, or the one that
-- the expansion makes.
def freshFor (size : BitVec 64) (h : State) : Block := freshBlock h (alignUp size 16 + headerSize)

-- Bytes by which an expansion for the request moves heap_end.
def growth (size : BitVec 64) : Nat := (alignUp (alignUp size 16 + headerSize) pageSize).toNat

theorem kmalloc_reuse_step {h : State} {size : BitVec 64} {pre post : List Block} {b : Block}
    (hl : Layout h (pre ++ b :: post)) (hsize : size ≠ 0) (hreq : RequestFits size)
    (hpre : ∀ c ∈ pre, ¬Fits (alignUp size 16) c) (hb : Fits (alignUp size 16) b) :
    ∃ m', kmalloc size h = some ((front (alignUp size 16) b).payload, { h with mem := m' }) ∧
      Allocated size h (pre ++ b :: post) { h with mem := m' }
        (pre ++ carve (alignUp size 16) b ++ post) (front (alignUp size 16) b) := by
  obtain ⟨he, hl', hk⟩ := kmalloc_reuse hl hsize hreq.room hpre hb
  refine ⟨_, he, hl', ?_, rfl, ?_, ?_, ?_⟩
  · simp [carve_ne_nil]
  · simp only [usedBlocks_append, usedBlocks_cons_free hb.1, usedBlocks_carve, List.append_assoc,
      List.singleton_append]
    exact List.perm_middle
  · exact BitVec.le_trans (size_le_rounded size hreq.rounding) (size_le_front hb.2)
  · intro c hc
    obtain ⟨hcm, hcf⟩ := mem_usedBlocks.mp hc
    have hne : c ≠ b := by
      rintro rfl
      rw [hb.1] at hcf
      cases hcf
    exact hk.agree (payload_block_apart hl.tiles h.heapEnd.isLt hcm (by simp) hne)

theorem growth_eq {size : BitVec 64} (hreq : RequestFits size) :
    growth size = ((alignUp size 16).toNat + 24 + 4095) / 4096 * 4096 := by
  have hb := hreq.bytes
  have hp := hreq.pages
  rw [growth, alignUp_page _ (by omega), hb]

-- The fresh block covers exactly the new pages and holds the request.
theorem freshFor_size {h : State} {size : BitVec 64} (hreq : RequestFits size) :
    (freshFor size h).size.toNat + 24 = growth size ∧
      (alignUp size 16).toNat ≤ (freshFor size h).size.toNat := by
  have hg := growth_eq hreq
  simp only [freshFor, freshBlock]
  rw [toNat_sub_header _ (by rw [growth] at hg; omega)]
  rw [growth] at hg ⊢
  omega

theorem kmalloc_expand_step {h h' : State} {size p : BitVec 64} {bs : List Block}
    (hl : Layout h bs) (hne : bs ≠ []) (hsize : size ≠ 0) (hreq : RequestFits size)
    (hn : ∀ c ∈ bs, ¬Fits (alignUp size 16) c) (he : kmalloc size h = some (p, h'))
    (hend : h.heapEnd.toNat + growth size < 2 ^ 64) :
    p = (front (alignUp size 16) (freshFor size h)).payload ∧
      h'.heapEnd.toNat = h.heapEnd.toNat + growth size ∧
      (∀ v, v ∈ h'.pages ↔ (∃ i < growth size / 4096, v = nextPage h i) ∨ v ∈ h.pages) ∧
      Allocated size h bs h' (bs ++ carve (alignUp size 16) (freshFor size h))
        (front (alignUp size 16) (freshFor size h)) := by
  obtain ⟨pre, l, rfl⟩ : ∃ pre l, bs = pre ++ [l] := ⟨_, _, (List.dropLast_concat_getLast hne).symm⟩
  obtain ⟨hp, hend1, hf, hpages, hl', hk⟩ := kmalloc_expand hl hsize hreq hn he hend
  have hfresh := freshFor_size (h := h) hreq
  refine ⟨hp, ?_, hpages, hl', by simp, hf, ?_, ?_, ?_⟩
  · rw [hend1, BitVec.toNat_add_of_lt hend]
    rfl
  · rw [usedBlocks_append _ (carve _ _), usedBlocks_carve]
    exact List.perm_append_comm
  · exact BitVec.le_trans (size_le_rounded size hreq.rounding)
      (size_le_front (BitVec.le_def.mpr hfresh.2))
  · intro c hc x hx
    have hcm := (mem_usedBlocks.mp hc).1
    have hlt := h.heapEnd.isLt
    refine hk x (payload_header_apart hl.tiles hlt hcm (by simp) x hx) ?_
    have hpc := payload_toNat hl.tiles hlt hcm
    have hbc := tiles_bounds hl.tiles hcm
    refine apart_of_le c.payload h.heapEnd c.size.toNat _ (by omega) ?_ x hx
    simp only [freshFor] at hfresh
    simp only [Block.len]
    omega

-- heap_end does not move down in a call that expands the heap, so it moves up.
theorem growth_fits {h h' : State} {size p : BitVec 64} {bs : List Block} (hl : Layout h bs)
    (hne : bs ≠ []) (hsize : size ≠ 0) (hreq : RequestFits size)
    (hn : ∀ c ∈ bs, ¬Fits (alignUp size 16) c) (he : kmalloc size h = some (p, h'))
    (hend : h.heapEnd ≤ h'.heapEnd) : h.heapEnd.toNat + growth size < 2 ^ 64 := by
  obtain ⟨pre, l, rfl⟩ : ∃ pre l, bs = pre ++ [l] := ⟨_, _, (List.dropLast_concat_getLast hne).symm⟩
  obtain ⟨h1, hex, -, rfl⟩ := kmalloc_grow_returned hl hsize hn he
  have hg := growth_eq hreq
  refine no_wrap_of_le _ _ (hex.heapEnd ▸ hend) ?_
  rw [growth] at hg
  omega

-- A request of at least one byte in a heap that can supply the frames.
theorem kmalloc_supplied {h : State} {size : BitVec 64} {bs : List Block} (hl : Layout h bs)
    (hne : bs ≠ []) (hsize : size ≠ 0) (hreq : RequestFits size)
    (hs : ∀ k, h.frames.result k ≠ 0) : ∃ p h', kmalloc size h = some (p, h') := by
  rcases first_fit_cases (alignUp size 16) bs with hn | ⟨pre, b, post, rfl, hpre, hb⟩
  · obtain ⟨pre, l, rfl⟩ : ∃ pre l, bs = pre ++ [l] :=
      ⟨_, _, (List.dropLast_concat_getLast hne).symm⟩
    obtain ⟨h1, he⟩ := heapExpand_supplied h (alignUp size 16 + headerSize) hs
    rw [kmalloc_grow hl hsize hn, he]
    exact ⟨_, _, rfl⟩
  · obtain ⟨m', he, -⟩ := kmalloc_reuse_step hl hsize hreq hpre hb
    exact ⟨_, _, he⟩

-- kmalloc returns for every permitted request of at least one byte.
theorem kmalloc_step {h : State} {size : BitVec 64} {bs : List Block} (hl : Layout h bs)
    (hne : bs ≠ []) (hsize : size ≠ 0) (hreq : RequestFits size)
    (hs : ∀ k, h.frames.result k ≠ 0)
    (hend : ∀ p h', kmalloc size h = some (p, h') → h.heapEnd ≤ h'.heapEnd) :
    ∃ h' bs' b, kmalloc size h = some (b.payload, h') ∧ Allocated size h bs h' bs' b := by
  rcases first_fit_cases (alignUp size 16) bs with hn | ⟨pre, b, post, rfl, hpre, hb⟩
  · obtain ⟨p, h', he⟩ := kmalloc_supplied hl hne hsize hreq hs
    have hgrow := growth_fits hl hne hsize hreq hn he (hend p h' he)
    obtain ⟨rfl, -, -, ha⟩ := kmalloc_expand_step hl hne hsize hreq hn he hgrow
    exact ⟨h', _, _, he, ha⟩
  · obtain ⟨m', he, ha⟩ := kmalloc_reuse_step hl hsize hreq hpre hb
    exact ⟨_, _, _, he, ha⟩

-- kfree of a used block's payload returns and gives exactly that block back.
theorem kfree_step {h : State} {bs : List Block} {b : Block} (hl : Layout h bs)
    (hb : b ∈ usedBlocks bs) :
    ∃ m' bs', kfree b.payload h = some { h with mem := m' } ∧
      Layout { h with mem := m' } bs' ∧ bs' ≠ [] ∧
      (usedBlocks bs).Perm (b :: usedBlocks bs') ∧ KeepsUsed h.mem m' bs := by
  obtain ⟨hbm, hbf⟩ := mem_usedBlocks.mp hb
  obtain ⟨pre, post, rfl⟩ := List.append_of_mem hbm
  obtain ⟨m', he, hl', hk⟩ := kfree_block hl
  refine ⟨m', _, he, hl', ?_, ?_, ?_⟩
  · cases pre with
    | nil => exact coalesceFrom_ne_nil _ _
    | cons a pre => exact coalesceFrom_ne_nil _ _
  · rw [usedBlocks_coalesced, usedBlocks_append, usedBlocks_append, usedBlocks_cons_used hbf,
      usedBlocks_cons_free (b := b.freed) rfl]
    exact List.perm_middle
  · intro c hc x hx
    have hcm := (mem_usedBlocks.mp hc).1
    exact hk x (fun d hd => payload_header_apart hl.tiles h.heapEnd.isLt hcm hd x hx)

theorem initHeap_layout {h : State} (hstart : h.heapEnd = heapStart)
    (hs : ∀ k, h.frames.result k ≠ 0) :
    ∃ h', initHeap h = some h' ∧ Layout h' [freshBlock h heapInitialSize] ∧
      h'.frames.result = h.frames.result := by
  obtain ⟨h', he⟩ := heapExpand_supplied h heapInitialSize hs
  obtain ⟨-, hex⟩ := heapExpand_returned he
  refine ⟨{ h' with head := h.heapEnd }, ?_, ⟨hex.chain, ?_⟩, hex.frames⟩
  · simp only [initHeap, he]
  · simp only [Tiles, Block.start, Block.len, freshBlock, hex.heapEnd, hstart]
    exact ⟨trivial, by decide⟩

end Miyabi.Mm.Heap
