import Miyabi.Mm.Heap.Room

namespace Miyabi.Mm.Heap

open Miyabi.Base Miyabi.Base.Memory Miyabi.Base.Linked Miyabi.Base.Tiling Miyabi.Base.Transition

-- One free block over the whole heap.
def wholeHeap (h : State) : Block := ⟨heapStart, h.heapEnd - heapStart - headerSize, true⟩

theorem Tidy.all_free {s : System} {bs : List Block} (h : Tidy s bs) (hlive : s.live = []) :
    ∀ b ∈ bs, b.isFree = true := by
  intro b hb
  by_contra hf
  have hu := mem_usedBlocks.mpr ⟨hb, Bool.eq_false_iff.mpr hf⟩
  obtain ⟨a, ha, -⟩ := h.owners.exists_alloc hu
  rw [hlive] at ha
  cases ha

-- Without a free pair a heap whose blocks are all free has only one.
theorem Tidy.single {s : System} {bs : List Block} (h : Tidy s bs) (hlive : s.live = []) :
    bs = [wholeHeap s.heap] := by
  have hfree := h.all_free hlive
  have hne := h.nonempty
  have hsep := h.separate
  have ht := h.layout.tiles
  cases bs with
  | nil => exact absurd rfl hne
  | cons a rest =>
      cases rest with
      | cons b rest =>
          have hab := (List.isChain_cons_cons.mp hsep).1
          exact absurd ⟨hfree a (by simp), hfree b (by simp)⟩ hab
      | nil =>
          obtain ⟨hstart, hend⟩ := ht
          have haddr : a.addr = heapStart := BitVec.eq_of_toNat_eq hstart
          have hsize : a.size = s.heap.heapEnd - heapStart - headerSize := by
            simp only [Tiles, Block.len] at hend
            simp only [headerSize, heapStart] at hend ⊢
            bv_omega
          have hfa := hfree a (by simp)
          cases a
          simp_all [wholeHeap]

-- The heap never stays fragmented, and with nothing allocated it is one block.
theorem heap_stays_coalesced (mem : Memory 64) (frames : FrameSupply) (calls : List Call)
    (s0 s : System) (hb : boot mem frames = some s0)
    (hp : PermittedRun System.step Permitted s0 calls) (hr : run System.step s0 calls = some s) :
    ∃ bs, Layout s.heap bs ∧ NoFreePair bs ∧ (s.live = [] → bs = [wholeHeap s.heap]) := by
  obtain ⟨h0, -, -⟩ := boot_returned hb
  obtain ⟨bs, h⟩ := run_tidy h0 calls hp hr
  exact ⟨bs, h.layout, h.separate, h.single⟩

theorem heap_stays_coalesced_reuse :
    ∃ s0 s bs, boot (fun _ => 0) sampleFrames = some s0 ∧
      run System.step s0 sampleCalls = some s ∧ Layout s.heap bs ∧ NoFreePair bs := by
  obtain ⟨s0, hb, h0, -⟩ := boot_invariant (fun _ => 0) sampleFrames sampleFrames_ne
  have hp := sample_permitted hb
  obtain ⟨s, -, hr, -⟩ := run_invariant h0 sampleCalls hp
  obtain ⟨bs, hl, hn, -⟩ :=
    heap_stays_coalesced (fun _ => 0) sampleFrames sampleCalls s0 s hb hp hr
  exact ⟨s0, s, bs, hb, hr, hl, hn⟩

-- The block list with n bytes of free space put at its end, at `addr`.
def extend (bs : List Block) (addr n : BitVec 64) : List Block :=
  match bs.getLast? with
  | none => [⟨addr, n - headerSize, true⟩]
  | some l =>
      if l.isFree then bs.dropLast ++ [{ l with size := l.size + n }]
      else bs ++ [⟨addr, n - headerSize, true⟩]

-- The list after the front of the carved block has been given back.
theorem coalesced_reused {size : BitVec 64} {pre post : List Block} {b : Block}
    (hb : b.isFree = true) (h : NoFreePair (pre ++ b :: post)) :
    coalesced (pre ++ (front size b).freed :: (back size b ++ post)) = pre ++ b :: post := by
  obtain ⟨hpre, hpost⟩ := (noFreePair_middle pre post b).mp h
  rw [coalesced_append pre _ _ (noFreePair_congr_last (by rw [hb]; rfl) hpre),
    coalesceFrom_front hb, coalesceFrom_of_noFreePair b post hpost]

theorem coalesced_grown {size : BitVec 64} {bs : List Block} {b : Block} (hb : b.isFree = true)
    (hne : bs ≠ []) (h : NoFreePair bs) :
    coalesced (bs ++ (front size b).freed :: back size b) =
      extend bs b.addr (headerSize + b.size) := by
  obtain ⟨pre, l, rfl⟩ : ∃ pre l, bs = pre ++ [l] := ⟨_, _, (List.dropLast_concat_getLast hne).symm⟩
  have hfresh : (⟨b.addr, headerSize + b.size - headerSize, true⟩ : Block) = b := by
    rw [add_sub_cancel_left, ← hb]
  have hback := List.append_nil (back size b)
  rw [extend, List.getLast?_concat]
  by_cases hl : l.isFree = true
  · simp only [hl, if_true, List.dropLast_concat]
    rw [List.append_assoc, List.singleton_append, coalesced_append pre _ l h, ← hback,
      coalesceFrom_front_merge hl]
    simp only [coalesceFrom, Block.merge, hl]
  · have hseam : NoFreePair ((pre ++ [l]) ++ [(front size b).freed]) := by
      refine List.isChain_append.mpr ⟨h, List.isChain_singleton _, fun x hx y _ => ?_⟩
      rw [List.getLast?_concat] at hx
      cases hx
      simp [hl]
    simp only [hl, if_false, Bool.false_eq_true]
    rw [coalesced_append _ _ _ hseam, ← hback, coalesceFrom_front hb, hfresh]
    rfl

-- kfree right after kmalloc gives the list back, or the list with the new pages
-- as free space at its end.
theorem alloc_free_identity (mem : Memory 64) (frames : FrameSupply) (calls : List Call)
    (s0 s : System) (size : BitVec 64) (hb : boot mem frames = some s0)
    (hp : PermittedRun System.step HasRoom s0 calls) (hr : run System.step s0 calls = some s)
    (hsize : size ≠ 0) (hroom : HasRoom s (.kmalloc size)) :
    ∃ bs, Layout s.heap bs ∧
      ((∃ b ∈ bs, Fits (alignUp size 16) b) ∨ (∀ k, s.heap.frames.result k ≠ 0) →
        ∃ p h1, kmalloc size s.heap = some (p, h1)) ∧
      ∀ p h1, kmalloc size s.heap = some (p, h1) → ∃ h2, kfree p h1 = some h2 ∧
        ((∃ b ∈ bs, Fits (alignUp size 16) b) →
          h2.heapEnd = s.heap.heapEnd ∧ Layout h2 bs) ∧
        ((∀ b ∈ bs, ¬Fits (alignUp size 16) b) →
          h2.heapEnd = s.heap.heapEnd + alignUp (alignUp size 16 + headerSize) pageSize ∧
          Layout h2 (extend bs s.heap.heapEnd (alignUp (alignUp size 16 + headerSize) pageSize))) := by
  obtain ⟨h0, -, -⟩ := boot_returned hb
  obtain ⟨bs, h⟩ := run_tidy h0 calls (permitted_of_room h0 calls hp) hr
  have hreq := HasRoom.requestFits h hroom
  have hperm := HasRoom.permitted h hroom
  refine ⟨bs, h.layout, ?_, fun p h1 he => ?_⟩
  · rintro (⟨b, hb, hfit⟩ | hs)
    · rcases first_fit_cases (alignUp size 16) bs with hn | ⟨pre, c, post, rfl, hpre, hc⟩
      · exact absurd hfit (hn b hb)
      · obtain ⟨m', he, -⟩ := kmalloc_reuse_step h.layout hsize hreq hpre hc
        exact ⟨_, _, he⟩
    · exact kmalloc_supplied h.layout h.nonempty hsize hreq hs
  · have hend := hperm.2 ⟨h1, if p = 0 then s.live else ⟨p, size⟩ :: s.live⟩
      (by simp only [System.step, he])
    obtain ⟨bs', b, rfl, hserved, ha⟩ := kmalloc_served h.layout h.nonempty hsize hreq he hend
    cases hserved with
    | reused pre post b m first fits =>
        have hl1 := ha.layout
        rw [carve_eq, List.append_assoc, List.cons_append] at hl1
        obtain ⟨m', hk, hl2, -⟩ := kfree_block hl1
        rw [coalesced_reused fits.1 h.separate] at hl2
        refine ⟨_, hk, fun _ => ⟨rfl, hl2⟩, fun hn => ?_⟩
        exact absurd fits (hn b (by simp))
    | grown _ _ none room heapEnd pages =>
        have hl1 := ha.layout
        rw [carve_eq] at hl1
        obtain ⟨m', hk, hl2, -⟩ := kfree_block hl1
        have hlen : headerSize + (freshFor size s.heap).size =
            alignUp (alignUp size 16 + headerSize) pageSize := by
          simp only [freshFor, freshBlock, add_sub_cancel]
        rw [coalesced_grown rfl h.nonempty h.separate, hlen] at hl2
        refine ⟨_, hk, fun hfit => ?_, fun _ => ⟨?_, hl2⟩⟩
        · obtain ⟨b, hb, hfit⟩ := hfit
          exact absurd hfit (none b hb)
        · apply BitVec.eq_of_toNat_eq
          rw [BitVec.toNat_add_of_lt room]
          exact heapEnd

theorem initial_room {s0 : System} (h : Tidy s0 [initialBlock]) (size : BitVec 64)
    (hs : rounded size ≤ initialBlock.size.toNat) : HasRoom s0 (.kmalloc size) :=
  Or.inr (Or.inl ⟨_, h.layout, initialBlock, by simp, rfl, hs⟩)

theorem sample_room {s0 : System} (hb : boot (fun _ => 0) sampleFrames = some s0) :
    PermittedRun System.step HasRoom s0 sampleCalls := by
  have hp := sample_permitted hb
  refine ⟨initial_room (boot_returned hb).1 100 (by decide), ?_⟩
  exact fun s1 he => ⟨(hp.2 s1 he).1, fun _ _ => trivial⟩

theorem alloc_free_identity_first :
    ∃ s0 bs p h1 h2, boot (fun _ => 0) sampleFrames = some s0 ∧
      kmalloc 100 s0.heap = some (p, h1) ∧ kfree p h1 = some h2 ∧
      Layout s0.heap bs ∧ Layout h2 bs := by
  obtain ⟨s0, hb, -⟩ := boot_invariant (fun _ => 0) sampleFrames sampleFrames_ne
  obtain ⟨h0, -, -⟩ := boot_returned hb
  obtain ⟨bs, hl, hret, h⟩ := alloc_free_identity (fun _ => 0) sampleFrames [] s0 s0 100 hb trivial rfl
    (by decide) (initial_room h0 100 (by decide))
  obtain rfl := layout_unique h0.layout hl
  have hfit : ∃ b ∈ [initialBlock], Fits (alignUp 100 16) b :=
    ⟨initialBlock, by simp, rfl, by decide⟩
  obtain ⟨p, h1, he⟩ := hret (Or.inl hfit)
  obtain ⟨h2, hk, hsame, -⟩ := h p h1 he
  exact ⟨s0, _, p, h1, h2, hb, he, hk, hl, (hsame hfit).2⟩

-- A request whose pages end at the top of the address space: heap_end wraps to 0.
def toppedCalls : List Call := [.kmalloc 0x3EFFFFE0]

-- The memory that init_heap leaves.
def firstHeader (mem : Memory 64) : Memory 64 :=
  setNext (setIsFree (setSize mem heapStart (heapInitialSize - headerSize)) heapStart true)
    heapStart 0

-- heap_end after init_heap.
def firstEnd : BitVec 64 := heapStart + heapInitialSize

theorem boot_state {mem : Memory 64} {frames : FrameSupply} {s0 : System}
    (hb : boot mem frames = some s0) :
    s0.heap.mem = firstHeader mem ∧ s0.heap.head = heapStart ∧ s0.heap.heapEnd = firstEnd ∧
      s0.heap.frames.result = frames.result := by
  cases he : heapExpand heapInitialSize ⟨mem, 0, heapStart, frames, []⟩ with
  | none =>
      simp only [boot, initHeap, he] at hb
      cases hb
  | some r =>
      obtain ⟨p, h⟩ := r
      obtain ⟨rfl, hex⟩ := heapExpand_returned he
      simp only [boot, initHeap, he, Option.some.injEq] at hb
      subst hb
      have hm := hex.mem
      have hend := hex.heapEnd
      have hwhole : alignUp heapInitialSize pageSize = heapInitialSize := by decide
      rw [hwhole] at hm hend
      exact ⟨hm, rfl, hend, hex.frames⟩

-- The header that heap_expand writes.
def expanded (m : Memory 64) (block size : BitVec 64) : Memory 64 :=
  setNext (setIsFree (setSize m block (size - headerSize)) block true) block 0

def topped : Memory 64 :=
  carved (setNext (expanded (firstHeader fun _ => 0) firstEnd 0x3F000000) heapStart firstEnd) firstEnd
    0x3EFFFFE0

-- The block made at address 0 is NULL for the one before it.
def unlisted : Memory 64 := carved (setNext (expanded topped 0 0x1001000) firstEnd 0) 0 0x1000000

theorem topped_run {s0 : System} (hb : boot (fun _ => 0) sampleFrames = some s0) :
    ∃ s, run System.step s0 toppedCalls = some s ∧ s.heap.mem = topped ∧
      s.heap.head = heapStart ∧ s.heap.heapEnd = 0 ∧ ∀ k, s.heap.frames.result k ≠ 0 := by
  obtain ⟨hm, hh, hend, hf⟩ := boot_state hb
  have hs : ∀ k, s0.heap.frames.result k ≠ 0 := by
    intro k
    rw [hf]
    exact sampleFrames_ne k
  have hmissed : findFit s0.heap.mem (alignUp 0x3EFFFFE0 16) (2 ^ 64) s0.heap.head 0 =
      some (0, heapStart) := by
    rw [hm, hh]
    decide +kernel
  obtain ⟨h1, he⟩ := heapExpand_supplied s0.heap (alignUp 0x3EFFFFE0 16 + headerSize) hs
  obtain ⟨-, hex⟩ := heapExpand_returned he
  have hround : alignUp 0x3EFFFFE0 16 = 0x3EFFFFE0 := by decide
  have hpages : alignUp (0x3EFFFFE0 + headerSize) pageSize = 0x3F000000 := by decide
  have hmem := hex.mem
  have hheapEnd := hex.heapEnd
  rw [hround, hpages, hend] at hmem hheapEnd
  have hmalloc : kmalloc 0x3EFFFFE0 s0.heap =
      some (firstEnd + headerSize, { h1 with mem := topped }) := by
    rw [kmalloc_missed (by decide) hmissed (by decide), he]
    simp only [hround, Option.map_some, hmem, hm, hend, topped, expanded]
  have hne : firstEnd + headerSize ≠ 0 := by decide
  refine ⟨⟨{ h1 with mem := topped }, ⟨firstEnd + headerSize, 0x3EFFFFE0⟩ :: s0.live⟩, ?_, rfl,
    hex.head.trans hh, hheapEnd, fun k => ?_⟩
  · simp only [toppedCalls, run, System.step, hmalloc, hne, if_false]
  · exact hex.frames ▸ hs k

-- After it a request that no block fits gets a block that is not on the list, and so
-- its release does not extend the list.
theorem alloc_free_unlisted :
    ∃ s0 s bs p h1 h2, boot (fun _ => 0) sampleFrames = some s0 ∧
      run System.step s0 toppedCalls = some s ∧ kmalloc 0x1000000 s.heap = some (p, h1) ∧
      kfree p h1 = some h2 ∧ Chain s.heap.mem s.heap.head bs 0 ∧
      (∀ b ∈ bs, ¬Fits (alignUp 0x1000000 16) b) ∧ Chain h2.mem h2.head bs 0 ∧
      ¬Chain h2.mem h2.head
        (extend bs s.heap.heapEnd (alignUp (alignUp 0x1000000 16 + headerSize) pageSize)) 0 := by
  obtain ⟨s0, hb, -⟩ := boot_invariant (fun _ => 0) sampleFrames sampleFrames_ne
  obtain ⟨s, hr, hm, hh, hend, hs⟩ := topped_run hb
  have hmissed : findFit s.heap.mem (alignUp 0x1000000 16) (2 ^ 64) s.heap.head 0 =
      some (0, firstEnd) := by
    rw [hm, hh]
    decide +kernel
  obtain ⟨h1, he⟩ := heapExpand_supplied s.heap (alignUp 0x1000000 16 + headerSize) hs
  obtain ⟨-, hex⟩ := heapExpand_returned he
  have hround : alignUp 0x1000000 16 = 0x1000000 := by decide
  have hpages : alignUp (0x1000000 + headerSize) pageSize = 0x1001000 := by decide
  have hmem := hex.mem
  rw [hround, hpages, hend] at hmem
  have hmalloc : kmalloc 0x1000000 s.heap = some (0 + headerSize, { h1 with mem := unlisted }) := by
    rw [kmalloc_missed (by decide) hmissed (by decide), he]
    simp only [hround, Option.map_some, hmem, hm, hend, unlisted, expanded]
  have hwalk : (coalesce (setIsFree unlisted 0 true) heapStart (2 ^ 64)).map (fun m =>
      ([blockSize m heapStart, blockNext m heapStart, blockSize m firstEnd, blockNext m firstEnd,
        blockSize m 0], blockIsFree m heapStart, blockIsFree m firstEnd)) =
      some ([0xFFFFE8, firstEnd, 0x3EFFFFE8, 0, 0x1000000], true, false) := by
    decide +kernel
  obtain ⟨m', hk, hm'⟩ := Option.map_eq_some_iff.mp hwalk
  simp only [Prod.mk.injEq, List.cons.injEq, and_true] at hm'
  obtain ⟨⟨hsize, hnext, hsize₁, hnext₁, hlost⟩, hfree, hfree₁⟩ := hm'
  have hfreed : kfree (0 + headerSize) { h1 with mem := unlisted } = some { h1 with mem := m' } := by
    have hz : 0 + headerSize ≠ 0 := by decide
    simp only [kfree, hz, if_false, add_sub_cancel_right, hex.head, hh, hk]
  refine ⟨s0, s, [⟨heapStart, 0xFFFFE8, true⟩, ⟨firstEnd, 0x3EFFFFE8, false⟩], _, _, _, hb, hr,
    hmalloc, hfreed, ?_, ?_, ?_, ?_⟩
  · rw [hm, hh]
    simp only [Segment, Block.Holds]
    decide +kernel
  · simp only [List.forall_mem_cons]
    refine ⟨by decide, by decide, fun b hb => ?_⟩
    cases hb
  · rw [hex.head, hh]
    exact ⟨rfl, ⟨hsize, hfree⟩, hnext, ⟨hnext ▸ hsize₁, hnext ▸ hfree₁⟩, hnext ▸ hnext₁⟩
  · rw [hend]
    rintro ⟨-, -, -, -, -, ⟨hholds, -⟩, -⟩
    exact absurd (hlost.symm.trans hholds) (by decide)

end Miyabi.Mm.Heap
