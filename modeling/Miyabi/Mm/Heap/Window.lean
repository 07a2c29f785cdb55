import Miyabi.Mm.Heap.Alignment

namespace Miyabi.Mm.Heap

open Miyabi.Base Miyabi.Base.Memory Miyabi.Base.Linked Miyabi.Base.Tiling Miyabi.Base.Transition

def OnHeapPage (h : State) (x : BitVec 64) : Prop := ∃ v ∈ h.pages, InRange v 4096 x

-- The pointer is the payload of a block that can hold the request, that lies on
-- pages mapped for the heap and that shares no byte with another block.
structure Honoured (size p : BitVec 64) (h : State) (bs : List Block) (b : Block) : Prop where
  list : Chain h.mem h.head bs 0
  mem : b ∈ bs
  payload : b.payload = p
  size : size ≤ b.size
  inside : ∀ x, InRange b.addr b.len x → OnHeapPage h x
  headers : ∀ c ∈ bs, ∀ x, InRange c.addr 24 x → OnHeapPage h x
  apart : ∀ c ∈ bs, c ≠ b → Apart b.addr b.len c.addr c.len

-- kmalloc halts for lack of frames, returns NULL or honours the request.
def Answers (size : BitVec 64) (h : State) : Prop :=
  (kmalloc size h = none ∧ ∃ k, h.frames.result k = 0) ∨
    ∃ p h', kmalloc size h = some (p, h') ∧ (p = 0 ∨ ∃ bs b, Honoured size p h' bs b)

section Tidy

variable {s : System} {bs : List Block}

theorem Mapped.onHeapPage {h : State} (hm : Mapped h) {x : BitVec 64}
    (hlo : heapStart.toNat ≤ x.toNat) (hhi : x.toNat < h.heapEnd.toNat) : OnHeapPage h x := by
  have hs : heapStart.toNat % 4096 = 0 := by decide
  have hv : (BitVec.ofNat 64 (x.toNat / 4096 * 4096)).toNat = x.toNat / 4096 * 4096 := by
    rw [BitVec.toNat_ofNat]
    exact Nat.mod_eq_of_lt (by have := x.isLt; omega)
  refine ⟨BitVec.ofNat 64 (x.toNat / 4096 * 4096), (hm.pages _).mpr ?_, ?_⟩
  · rw [hv]
    omega
  · rw [inRange_iff _ _ _ (by rw [hv]; have := x.isLt; omega), hv]
    omega

theorem block_onHeapPage {h : State} (hm : Mapped h) (hl : Layout h bs) {b : Block} (hb : b ∈ bs)
    {x : BitVec 64} (hx : InRange b.addr b.len x) : OnHeapPage h x := by
  have hbound := tiles_bounds hl.tiles hb
  have hlt := h.heapEnd.isLt
  have hx' := (inRange_iff b.addr x b.len (by simp only [Block.start] at hbound; omega)).mp hx
  simp only [Block.start] at hbound
  exact hm.onHeapPage (by omega) (by omega)

theorem blocks_apart {h : State} (hl : Layout h bs) {b c : Block} (hb : b ∈ bs) (hc : c ∈ bs)
    (hne : c ≠ b) : Apart b.addr b.len c.addr c.len := by
  have hbb := tiled_in_space hl.tiles h.heapEnd.isLt.le hb
  have hbc := tiled_in_space hl.tiles h.heapEnd.isLt.le hc
  simp only [Block.start] at hbb hbc
  rcases tiles_apart hl.tiles hb hc with he | hle | hle
  · exact absurd he.symm hne
  · exact apart_of_le _ _ _ _ hle hbc
  · exact (apart_of_le _ _ _ _ hle hbb).symm

theorem HasRoom.answers (h : Tidy s bs) {size : BitVec 64} (hr : HasRoom s (.kmalloc size)) :
    Answers size s.heap := by
  by_cases hz : size = 0
  · refine Or.inr ⟨0, s.heap, ?_, Or.inl rfl⟩
    simp only [kmalloc, hz, if_true]
  · have hreq := HasRoom.requestFits h hr
    cases he : kmalloc size s.heap with
    | none =>
        refine Or.inl ⟨he, ?_⟩
        by_contra hk
        obtain ⟨p, h', he'⟩ := kmalloc_supplied h.layout h.nonempty hz hreq
          (fun k hz => hk ⟨k, hz⟩)
        cases he.symm.trans he'
    | some r =>
        obtain ⟨p, h'⟩ := r
        have hend := (HasRoom.permitted h hr).2
          ⟨h', if p = 0 then s.live else ⟨p, size⟩ :: s.live⟩ (by simp only [System.step, he])
        obtain ⟨bs', b, rfl, hserved, ha⟩ := kmalloc_served h.layout h.nonempty hz hreq he hend
        have hm' := hserved.mapped h.mapped
        have hb : b ∈ bs' := (mem_usedBlocks.mp (ha.used.mem_iff.mpr (by simp))).1
        refine Or.inr ⟨b.payload, h', he, Or.inr ⟨bs', b, ha.layout.chain, hb, rfl, ha.size_le,
          ?_, ?_, ?_⟩⟩
        · exact fun x hx => block_onHeapPage hm' ha.layout hb hx
        · intro c hc x hx
          exact block_onHeapPage hm' ha.layout hc (header_inside c x hx)
        · exact fun c hc hne => blocks_apart ha.layout hb hc hne

end Tidy

section Wrap

theorem alignUp_16_mod (size : BitVec 64) :
    (alignUp size 16).toNat = (size.toNat + 15) % 2 ^ 64 / 16 * 16 := by
  have hm := Word.toNat_and_not_mask (size + 16 - 1) (16 - 1) 4 (by decide)
  have hs : size + 16 - 1 = size + 15 := by ring
  rw [alignUp, hm, hs, BitVec.toNat_add]
  rfl

theorem alignUp_page_mod (bytes : BitVec 64) :
    (alignUp bytes pageSize).toNat = (bytes.toNat + 4095) % 2 ^ 64 / 4096 * 4096 := by
  have hm := Word.toNat_and_not_mask (bytes + pageSize - 1) (pageSize - 1) 12 (by decide)
  have hs : bytes + pageSize - 1 = bytes + 4095 := by
    simp only [pageSize]
    ring
  rw [alignUp, hm, hs, BitVec.toNat_add]
  rfl

theorem carved_size (m : Memory 64) (p size : BitVec 64) :
    blockSize (carved m p size) p = size ∨ blockSize (carved m p size) p = blockSize m p := by
  unfold carved splitBlock
  split
  · exact Or.inl (by simp)
  · exact Or.inr (by simp)

variable {s : System} {bs : List Block} {size p : BitVec 64} {h' : State}

-- The size of a block is what its header says.
theorem Honoured.size_le {b : Block} (hh : Honoured size (p + headerSize) h' bs b) :
    b.addr = p ∧ size ≤ blockSize h'.mem p := by
  have ha : b.addr = p := by
    have hp := hh.payload
    simp only [Block.payload] at hp
    exact add_right_cancel hp
  refine ⟨ha, ?_⟩
  have hs := (segment_holds hh.list hh.mem).1
  rw [ha] at hs
  rw [hs]
  exact hh.size

-- The rounding to 16 wraps to 0, so that the block returned is as small as the
-- heap allows.
theorem rounding_wrap (h : Tidy s bs) (hw : 2 ^ 64 ≤ size.toNat + 15)
    (he : kmalloc size s.heap = some (p, h')) : ¬∃ cs b, Honoured size p h' cs b := by
  have hlt := size.isLt
  have hzero : alignUp size 16 = 0 := by
    apply BitVec.eq_of_toNat_eq
    rw [alignUp_16_mod]
    show _ = 0
    omega
  have hz : size ≠ 0 := by
    rintro rfl
    exact absurd hw (by decide)
  rintro ⟨cs, b, hh⟩
  rcases first_fit_cases (alignUp size 16) bs with hn | ⟨pre, c, post, rfl, hpre, hc⟩
  · obtain ⟨pre, l, rfl⟩ : ∃ pre l, bs = pre ++ [l] :=
      ⟨_, _, (List.dropLast_concat_getLast h.nonempty).symm⟩
    obtain ⟨h1, hex, rfl, rfl⟩ := kmalloc_grow_returned h.layout hz hn he
    have hend := s.heap.heapEnd.isLt
    have hwhole := h.mapped.whole
    have hlb := tiles_bounds h.layout.tiles (List.mem_append_right pre (List.mem_singleton_self l))
    have hap : Apart s.heap.heapEnd 24 l.addr 24 := by
      simp only [Block.start, Block.len] at hlb
      exact (apart_of_le _ _ 24 24 (by omega) (by omega)).symm
    have hfresh : blockSize (setNext h1.mem l.addr s.heap.heapEnd) s.heap.heapEnd =
        alignUp (alignUp size 16 + headerSize) pageSize - headerSize := by
      rw [blockSize_congr ((setNext_keeps h1.mem l.addr s.heap.heapEnd).agree hap)]
      exact hex.chain.2.1.1
    have hpage : alignUp (alignUp size 16 + headerSize) pageSize - headerSize = 4072 := by
      rw [hzero]
      decide
    have hle := BitVec.le_def.mp hh.size_le.2
    rcases carved_size (setNext h1.mem l.addr s.heap.heapEnd) s.heap.heapEnd (alignUp size 16)
      with hs | hs
    · simp only [hs] at hle
      rw [hzero] at hle
      have : (0 : BitVec 64).toNat = 0 := rfl
      omega
    · simp only [hs, hfresh, hpage] at hle
      have : (4072 : BitVec 64).toNat = 4072 := rfl
      omega
  · obtain ⟨he', -⟩ := kmalloc_reuse h.layout hz (by rw [hzero]; decide) hpre hc
    cases he.symm.trans he'
    have hle := BitVec.le_def.mp hh.size_le.2
    have hcs := h.size_lt (b := c) (by simp)
    have hhold := (segment_holds h.layout.chain (b := c) (by simp)).1
    rcases carved_size s.heap.mem c.addr (alignUp size 16) with hs | hs
    · simp only [hs] at hle
      rw [hzero] at hle
      have : (0 : BitVec 64).toNat = 0 := rfl
      omega
    · simp only [hs, hhold] at hle
      omega

-- The header or the rounding to pages wraps: no page is mapped, or one page for
-- a block that claims the whole address space.
theorem pages_wrap (h : Tidy s bs) (hround : size.toNat + 15 < 2 ^ 64)
    (hw : 2 ^ 64 ≤ rounded size + 24 + 4095) (he : kmalloc size s.heap = some (p, h')) :
    ¬∃ cs b, Honoured size p h' cs b := by
  have hr := alignUp_rounded (show rounded size < 2 ^ 64 by simp only [rounded]; omega)
  have hmul : rounded size % 16 = 0 ∧ size.toNat ≤ rounded size ∧ rounded size ≤ size.toNat + 15 := by
    simp only [rounded]
    omega
  have hz : size ≠ 0 := by
    rintro rfl
    exact absurd hw (by decide)
  have hn : ∀ c ∈ bs, ¬Fits (alignUp size 16) c := by
    intro c hc hfit
    have hlt := h.size_lt hc
    have hle := ((fits_iff c hround).mp hfit).2
    omega
  obtain ⟨pre, l, rfl⟩ : ∃ pre l, bs = pre ++ [l] :=
    ⟨_, _, (List.dropLast_concat_getLast h.nonempty).symm⟩
  obtain ⟨h1, hex, rfl, rfl⟩ := kmalloc_grow_returned h.layout hz hn he
  rintro ⟨cs, b, hh⟩
  obtain ⟨haddr, -⟩ := hh.size_le
  have hpages := hex.pages
  have hneed := alignUp_page_mod (alignUp size 16 + headerSize)
  have hheader : headerSize.toNat = 24 := rfl
  rw [BitVec.toNat_add, hr, hheader] at hneed
  have hlt := s.heap.heapEnd.isLt
  have hstart := BitVec.le_def.mp h.mapped.start
  have hwhole := h.mapped.whole
  have hlo : heapStart.toNat = 2 ^ 64 - 2 ^ 30 := by decide
  by_cases hover : rounded size + 24 < 2 ^ 64
  · -- Nothing is mapped, and the header lies at heap_end.
    obtain ⟨v, hv, hin⟩ := hh.inside b.addr (inRange_self b.addr b.len (by simp only [Block.len]; omega))
    rw [haddr] at hin
    have hold : v ∈ s.heap.pages := by
      rcases (hpages v).mp hv with ⟨i, hi, -⟩ | hv
      · omega
      · exact hv
    obtain ⟨-, hvend, hvw⟩ := (h.mapped.pages v).mp hold
    have hin' := (inRange_iff v s.heap.heapEnd 4096 (by omega)).mp hin
    omega
  · -- One page is mapped, and the block reaches over address 0.
    have hsize := BitVec.le_def.mp hh.size
    have hzero : InRange b.addr b.len 0 := by
      rw [haddr]
      simp only [InRange, Block.len]
      bv_omega
    obtain ⟨v, hv, hin⟩ := hh.inside 0 hzero
    have hvw : v.toNat % 4096 = 0 ∧ 0 < v.toNat := by
      rcases (hpages v).mp hv with ⟨i, hi, rfl⟩ | hv
      · obtain rfl : i = 0 := by omega
        have hn0 : nextPage s.heap 0 = s.heap.heapEnd := by simp [nextPage]
        rw [hn0]
        omega
      · have hv' := (h.mapped.pages v).mp hv
        omega
    have hvlt := v.isLt
    simp only [InRange] at hin
    bv_omega

theorem FirstFit.mem_chain {m : Memory 64} {p b : BitVec 64} (hf : FirstFit m size p b)
    (hc : Chain m p bs 0) : ∃ c ∈ bs, c.addr = b := by
  induction hf generalizing bs with
  | here p hz _ =>
      cases bs with
      | nil => exact absurd hc hz
      | cons c rest => exact ⟨c, by simp, hc.1.symm⟩
  | next p b hz _ _ ih =>
      cases bs with
      | nil => exact absurd hc hz
      | cons c rest =>
          obtain ⟨rfl, -, hrest⟩ := hc
          obtain ⟨d, hd, he⟩ := ih hrest
          exact ⟨d, by simp [hd], he⟩

theorem Tidy.result_ne_zero (h : Tidy s bs) (hz : size ≠ 0)
    (he : kmalloc size s.heap = some (p, h')) : p ≠ 0 := by
  rcases kmalloc_returned hz he with ⟨b, hf, rfl, -⟩ | ⟨-, rfl, -⟩
  · obtain ⟨c, hc, rfl⟩ := hf.mem_chain h.layout.chain
    exact payload_ne_zero h.layout hc
  · have hwhole := h.mapped.whole
    simp only [headerSize]
    bv_omega

theorem wrap_refused (h : Tidy s bs) (hw : 2 ^ 64 ≤ rounded size + 24 + 4095)
    (he : kmalloc size s.heap = some (p, h')) :
    p ≠ 0 ∧ ¬∃ cs b, Honoured size p h' cs b := by
  have hz : size ≠ 0 := by
    rintro rfl
    exact absurd hw (by decide)
  refine ⟨h.result_ne_zero hz he, ?_⟩
  by_cases hround : size.toNat + 15 < 2 ^ 64
  · exact pages_wrap h hround hw he
  · exact rounding_wrap h (by omega) he

end Wrap

-- In every run of requests that had room, one that has room is honoured, and
-- one whose size wraps in the rounding or with its header and pages is not.
theorem kmalloc_honours (mem : Memory 64) (frames : FrameSupply) (calls : List Call)
    (s0 s : System) (hb : boot mem frames = some s0)
    (hp : PermittedRun System.step HasRoom s0 calls) (hr : run System.step s0 calls = some s)
    (size : BitVec 64) :
    (HasRoom s (.kmalloc size) → Answers size s.heap) ∧
      (2 ^ 64 ≤ rounded size + 24 + 4095 → ∀ p h', kmalloc size s.heap = some (p, h') →
        p ≠ 0 ∧ ¬∃ bs b, Honoured size p h' bs b) := by
  obtain ⟨h0, -, -⟩ := boot_returned hb
  obtain ⟨bs, h⟩ := run_tidy h0 calls (permitted_of_room h0 calls hp) hr
  exact ⟨fun hroom => hroom.answers h, fun hw p h' he => wrap_refused h hw he⟩

theorem kmalloc_honours_reuse :
    ∃ s0 s, boot (fun _ => 0) sampleFrames = some s0 ∧
      run System.step s0 sampleCalls = some s ∧ (HasRoom s (.kmalloc 64) → Answers 64 s.heap) := by
  obtain ⟨s0, hb, h0, -⟩ := boot_invariant (fun _ => 0) sampleFrames sampleFrames_ne
  obtain ⟨s, -, hr, -⟩ := run_invariant h0 sampleCalls (sample_permitted hb)
  exact ⟨s0, s, hb, hr, (kmalloc_honours (fun _ => 0) sampleFrames sampleCalls s0 s hb
    (sample_room hb) hr 64).1⟩

-- (size_t)-1 is rounded to 0 and gets a block of no bytes.
theorem kmalloc_wraps :
    ∃ s0 p h', boot (fun _ => 0) sampleFrames = some s0 ∧
      kmalloc (0 - 1) s0.heap = some (p, h') ∧ ¬Answers (0 - 1) s0.heap := by
  obtain ⟨s0, hb, -⟩ := boot_invariant (fun _ => 0) sampleFrames sampleFrames_ne
  obtain ⟨h0, -, -⟩ := boot_returned hb
  obtain ⟨hm, hh, -, -⟩ := boot_state hb
  have hfound : findFit s0.heap.mem (alignUp (0 - 1) 16) (2 ^ 64) s0.heap.head 0 =
      some (heapStart, 0) := by
    rw [hm, hh]
    decide +kernel
  have he := kmalloc_found (by decide) hfound (by decide)
  obtain ⟨hnz, hno⟩ := wrap_refused h0 (by decide) he
  refine ⟨s0, _, _, hb, he, ?_⟩
  rintro (⟨hnone, -⟩ | ⟨p, h', hs, hans⟩)
  · cases he.symm.trans hnone
  · cases he.symm.trans hs
    exact hans.elim hnz hno

-- What the heap has mapped and written lies in [HEAP_START, 2^64).
structure InWindow (mem : Memory 64) (h : State) : Prop where
  pages : ∀ v ∈ h.pages, heapStart.toNat ≤ v.toNat ∧ v.toNat + 4096 ≤ 2 ^ 64
  blocks : ∃ bs, Chain h.mem h.head bs 0 ∧
    ∀ b ∈ bs, heapStart.toNat ≤ b.addr.toNat ∧ b.addr.toNat + b.len ≤ 2 ^ 64
  heapEnd : heapStart ≤ h.heapEnd
  below : ∀ x, x.toNat < heapStart.toNat → h.mem x = mem x

-- The states of the loop of heap_expand in a call of kmalloc that comes to it, whether the
-- call then halts or not.
def Expanding (size : BitVec 64) (h h' : State) : Prop :=
  size ≠ 0 ∧ (∃ last, findFit h.mem (alignUp size 16) (2 ^ 64) h.head 0 = some (0, last)) ∧
    ∃ k ≤ (alignUp (alignUp size 16 + headerSize) pageSize / pageSize).toNat, mapPages k h = some h'

-- Requests below 2^32 and valid releases.
def Small (s : System) : Call → Prop
  | .kmalloc size => size.toNat < 2 ^ 32
  | .kfree ptr => ptr = 0 ∨ ∃ a ∈ s.live, a.ptr = ptr

section Run

variable {s s' : System} {bs : List Block}

theorem Tidy.inWindow {mem : Memory 64} (h : Tidy s bs)
    (hk : ∀ x, x.toNat < heapStart.toNat → s.heap.mem x = mem x) : InWindow mem s.heap := by
  have hlt := s.heap.heapEnd.isLt
  have hwhole := h.mapped.whole
  refine ⟨fun v hv => ?_, ⟨bs, h.layout.chain, fun b hb => ?_⟩, h.mapped.start, hk⟩
  · have hp := (h.mapped.pages v).mp hv
    omega
  · have hbound := tiles_bounds h.layout.tiles hb
    simp only [Block.start] at hbound
    omega

-- Bytes below the window are below every block.
theorem below_not_inRange (hl : Layout s.heap bs) {b : Block} (hb : b ∈ bs) {x : BitVec 64}
    (hx : x.toNat < heapStart.toNat) : ¬InRange b.addr b.len x := by
  have hbound := tiles_bounds hl.tiles hb
  have hlt := s.heap.heapEnd.isLt
  simp only [Block.start] at hbound
  rw [inRange_iff b.addr x b.len (by omega)]
  omega

theorem kmalloc_below (h : Tidy s bs) {size p : BitVec 64} {h' : State}
    (hr : HasRoom s (.kmalloc size)) (he : kmalloc size s.heap = some (p, h')) :
    ∀ x, x.toNat < heapStart.toNat → h'.mem x = s.heap.mem x := by
  intro x hx
  by_cases hz : size = 0
  · simp only [kmalloc, hz, if_true, Option.some.injEq, Prod.mk.injEq] at he
    rw [← he.2]
  · have hreq := HasRoom.requestFits h hr
    rcases first_fit_cases (alignUp size 16) bs with hn | ⟨pre, b, post, rfl, hpre, hb⟩
    · have hroom := HasRoom.growth h hr hz hn
      obtain ⟨pre, l, rfl⟩ : ∃ pre l, bs = pre ++ [l] :=
        ⟨_, _, (List.dropLast_concat_getLast h.nonempty).symm⟩
      obtain ⟨-, -, -, -, -, hk⟩ := kmalloc_expand h.layout hz hreq hn he hroom
      have hfresh := (freshFor_size (h := s.heap) hreq).1
      have hstart := BitVec.le_def.mp h.mapped.start
      refine hk x (fun hin => ?_) (fun hin => ?_)
      · exact below_not_inRange h.layout (by simp) hx (header_inside l x hin)
      · rw [freshFor] at hfresh
        rw [inRange_iff _ _ _ (by simp only [Block.len]; omega)] at hin
        omega
    · obtain ⟨he', -, hk⟩ := kmalloc_reuse h.layout hz hreq.room hpre hb
      cases he.symm.trans he'
      exact hk x (below_not_inRange h.layout (by simp) hx)

theorem step_below (h : Tidy s bs) (call : Call) (hr : HasRoom s call)
    (he : s.step call = some s') :
    ∀ x, x.toNat < heapStart.toNat → s'.heap.mem x = s.heap.mem x := by
  cases call with
  | kmalloc size =>
      cases hk : Heap.kmalloc size s.heap with
      | none => simp [System.step, hk] at he
      | some r =>
          simp only [System.step, hk, Option.some.injEq] at he
          rw [← he]
          exact kmalloc_below h hr hk
  | kfree ptr =>
      intro x hx
      by_cases hz : ptr = 0
      · simp only [System.step, Heap.kfree, hz, if_true, Option.some.injEq] at he
        rw [← he]
      · obtain ⟨a, ha, rfl⟩ : ∃ a ∈ s.live, a.ptr = ptr := hr.resolve_left hz
        obtain ⟨pre, b, post, m', -, -, hk, -, hkeep⟩ := kfree_tidy h ha
        simp only [System.step, hk, Option.some.injEq] at he
        rw [← he]
        refine hkeep x (fun b hb hin => ?_)
        exact below_not_inRange h.layout hb hx (header_inside b x hin)

-- Where the search comes to the end of the list, no block fits.
theorem missed_none {size last : BitVec 64} (h : Tidy s bs)
    (hmissed : findFit s.heap.mem (alignUp size 16) (2 ^ 64) s.heap.head 0 = some (0, last)) :
    ∀ c ∈ bs, ¬Fits (alignUp size 16) c := by
  rcases first_fit_cases (alignUp size 16) bs with hn | ⟨pre, b, post, rfl, hpre, hb⟩
  · exact hn
  · have hlen := h.layout.length_lt
    simp only [List.length_append] at hlen
    obtain ⟨before, hfound⟩ := findFit_found s.heap.head 0 0 (2 ^ 64) h.layout.chain
      (fun c hc => h.layout.addr_ne_zero hc) hpre hb (by omega)
    rw [hmissed, Option.some.injEq, Prod.mk.injEq] at hfound
    exact absurd hfound.1.symm (h.layout.addr_ne_zero (by simp))

-- The pages that a request with room maps do not come to the end of the address space.
theorem expanding_inside (h : Tidy s bs) {size : BitVec 64} {h' : State}
    (hroom : HasRoom s (.kmalloc size)) (hx : Expanding size s.heap h') :
    ∀ v ∈ h'.pages, heapStart.toNat ≤ v.toNat ∧ v.toNat + 4096 ≤ 2 ^ 64 := by
  obtain ⟨hz, ⟨last, hmissed⟩, k, hk, hpages⟩ := hx
  have hgrowth := HasRoom.growth h hroom hz (missed_none h hmissed)
  have hpage : pageSize.toNat = 4096 := rfl
  rw [BitVec.toNat_udiv, hpage] at hk
  rw [Heap.growth] at hgrowth
  obtain ⟨-, -, -, -, hmapped⟩ := mapPages_returned k hpages
  have hstart := BitVec.le_def.mp h.mapped.start
  have hwhole := h.mapped.whole
  have hlt := s.heap.heapEnd.isLt
  intro v hv
  rcases (hmapped v).mp hv with ⟨i, hi, rfl⟩ | hv
  · rw [nextPage_toNat s.heap hgrowth (by omega)]
    omega
  · have hold := (h.mapped.pages v).mp hv
    omega

-- A small request without room makes heap_end wrap into the lower half.
theorem no_room_wraps (h : Tidy s bs) {size p : BitVec 64} {h' : State}
    (hsmall : size.toNat < 2 ^ 32) (hno : ¬HasRoom s (.kmalloc size))
    (he : kmalloc size s.heap = some (p, h')) :
    h'.heapEnd.toNat + 2 ^ 64 = s.heap.heapEnd.toNat + growth size ∧ h'.heapEnd.toNat < 2 ^ 33 := by
  have hreq : RequestFits size := requestFits_of_rounded (by simp only [rounded]; omega)
  have hz : size ≠ 0 := fun hz => hno (Or.inl hz)
  have hg := growth_pagesFor hreq
  have hlt := s.heap.heapEnd.isLt
  have hroom : ¬s.heap.heapEnd.toNat + pagesFor size < 2 ^ 64 := fun hr => hno (Or.inr (Or.inr hr))
  have hpages : pagesFor size < 2 ^ 33 := by
    simp only [pagesFor, rounded]
    omega
  rcases first_fit_cases (alignUp size 16) bs with hn | ⟨pre, b, post, rfl, -, hb⟩
  · obtain ⟨pre, l, rfl⟩ : ∃ pre l, bs = pre ++ [l] :=
      ⟨_, _, (List.dropLast_concat_getLast h.nonempty).symm⟩
    obtain ⟨h1, hex, -, rfl⟩ := kmalloc_grow_returned h.layout hz hn he
    simp only [hex.heapEnd]
    rw [BitVec.toNat_add]
    rw [growth] at hg ⊢
    omega
  · have hm : b ∈ pre ++ b :: post := by simp
    exact absurd (Or.inr (Or.inl ⟨_, h.layout, b, hm, (fits_iff b hreq.rounding).mp hb⟩)) hno

-- A small step after which heap_end is still in the window had room.
theorem room_of_heapEnd (h : Tidy s bs) (call : Call) (hsmall : Small s call)
    (he : s.step call = some s') (hw : heapStart ≤ s'.heap.heapEnd) : HasRoom s call := by
  cases call with
  | kfree ptr => exact hsmall
  | kmalloc size =>
      by_contra hno
      cases hk : Heap.kmalloc size s.heap with
      | none => simp [System.step, hk] at he
      | some r =>
          simp only [System.step, hk, Option.some.injEq] at he
          have hwrap := (no_room_wraps h hsmall hno hk).2
          rw [← he] at hw
          have hlo : heapStart.toNat = 2 ^ 64 - 2 ^ 30 := by decide
          have hle := BitVec.le_def.mp hw
          simp only at hle
          omega

theorem run_below {mem : Memory 64} {s0 : System} (calls : List Call)
    (h0 : ∃ bs, Tidy s0 bs) (hm : ∀ x, x.toNat < heapStart.toNat → s0.heap.mem x = mem x)
    (hp : PermittedRun System.step HasRoom s0 calls) (hr : run System.step s0 calls = some s) :
    InWindow mem s.heap := by
  obtain ⟨⟨bs, h⟩, hk⟩ := run_of_preservation
    (fun s => (∃ bs, Tidy s bs) ∧ ∀ x, x.toNat < heapStart.toNat → s.heap.mem x = mem x)
    (fun s call s' hs hcall he => by
      obtain ⟨⟨bs, h⟩, hk⟩ := hs
      refine ⟨step_tidy h call (HasRoom.permitted h hcall) he, fun x hx => ?_⟩
      exact (step_below h call hcall he x hx).trans (hk x hx)) s0 s calls ⟨h0, hm⟩ hp hr
  exact h.inWindow hk

theorem room_of_window {mem : Memory 64} {s0 : System} (calls : List Call) (h0 : Tidy s0 bs)
    (hsmall : PermittedRun System.step Small s0 calls) (hr : run System.step s0 calls = some s)
    (hw : ∀ front back sm, calls = front ++ back → run System.step s0 front = some sm →
      InWindow mem sm.heap) : PermittedRun System.step HasRoom s0 calls := by
  induction calls generalizing s0 bs with
  | nil => trivial
  | cons call rest ih =>
      cases he : s0.step call with
      | none => simp [run, he] at hr
      | some s1 =>
          have hone : run System.step s0 [call] = some s1 := by rw [run_single, he]
          have hroom := room_of_heapEnd h0 call hsmall.1 he (hw [call] rest s1 rfl hone).heapEnd
          obtain ⟨bs1, h1⟩ := step_tidy h0 call (HasRoom.permitted h0 hroom) he
          refine ⟨hroom, fun s2 he2 => ?_⟩
          obtain rfl : s1 = s2 := Option.some.inj (he.symm.trans he2)
          simp only [run, he] at hr
          refine ih h1 (hsmall.2 s1 he) hr (fun front back sm hc hf => ?_)
          refine hw (call :: front) back sm (by rw [hc]; rfl) ?_
          simp only [run, he]
          exact hf

end Run

theorem boot_below {mem : Memory 64} {frames : FrameSupply} {s0 : System}
    (hb : boot mem frames = some s0) :
    ∀ x, x.toNat < heapStart.toNat → s0.heap.mem x = mem x := by
  intro x hx
  apply (boot_returned hb).2.2 x
  rw [inRange_iff heapStart x 24 (by decide)]
  omega

-- A run of small requests stays in the window exactly as long as each of its
-- requests finds room. A request with room that then halts has mapped no page outside.
theorem heap_window_iff (mem : Memory 64) (frames : FrameSupply) (calls : List Call)
    (s0 s : System) (hb : boot mem frames = some s0)
    (hsmall : PermittedRun System.step Small s0 calls) (hr : run System.step s0 calls = some s) :
    ((∀ front back sm, calls = front ++ back → run System.step s0 front = some sm →
      InWindow mem sm.heap) ↔ PermittedRun System.step HasRoom s0 calls) ∧
    (PermittedRun System.step HasRoom s0 calls → ∀ size h', HasRoom s (.kmalloc size) →
      Expanding size s.heap h' →
        ∀ v ∈ h'.pages, heapStart.toNat ≤ v.toNat ∧ v.toNat + 4096 ≤ 2 ^ 64) := by
  obtain ⟨h0, -, -⟩ := boot_returned hb
  refine ⟨⟨room_of_window calls h0 hsmall hr, ?_⟩, ?_⟩
  · rintro hp front back sm rfl hf
    exact run_below front ⟨_, h0⟩ (boot_below hb) ((permittedRun_append s0 front back).mp hp).1 hf
  · intro hp size h' hroom hx
    obtain ⟨bs, h⟩ := run_tidy h0 calls (permitted_of_room h0 calls hp) hr
    exact expanding_inside h hroom hx

theorem heap_window_iff_reuse :
    ∃ s0 s, boot (fun _ => 0) sampleFrames = some s0 ∧
      run System.step s0 sampleCalls = some s ∧ InWindow (fun _ => 0) s.heap := by
  obtain ⟨s0, hb, h0, -⟩ := boot_invariant (fun _ => 0) sampleFrames sampleFrames_ne
  obtain ⟨s, -, hr, -⟩ := run_invariant h0 sampleCalls (sample_permitted hb)
  have hroom := sample_room hb
  have hsmall : PermittedRun System.step Small s0 sampleCalls :=
    ⟨show (100 : BitVec 64).toNat < 2 ^ 32 by decide,
      fun s1 he => ⟨(hroom.2 s1 he).1, fun _ _ => trivial⟩⟩
  refine ⟨s0, s, hb, hr, ?_⟩
  exact (heap_window_iff (fun _ => 0) sampleFrames sampleCalls s0 s hb hsmall hr).1.mpr hroom
    sampleCalls [] s (by simp) hr

-- One request of 1 GiB maps the page at address 0.
theorem heap_window_left :
    ∃ s0 s, boot (fun _ => 0) sampleFrames = some s0 ∧
      run System.step s0 [.kmalloc 0x40000000] = some s ∧ 0 ∈ s.heap.pages ∧
      ¬InWindow (fun _ => 0) s.heap := by
  obtain ⟨s0, hb, h0, -⟩ := boot_invariant (fun _ => 0) sampleFrames sampleFrames_ne
  obtain ⟨-, -, hend, -⟩ := boot_state hb
  obtain ⟨p, h', he⟩ := kmalloc_supplied h0.layout (by simp) (by decide : (0x40000000 : BitVec 64) ≠ 0)
    ⟨by decide, by decide⟩ h0.supply
  have hn : ∀ c ∈ [initialBlock], ¬Fits (alignUp 0x40000000 16) c := by
    intro c hc
    rw [List.mem_singleton.mp hc]
    decide
  have hl : Layout s0.heap ([] ++ [initialBlock]) := h0.layout
  obtain ⟨h1, hex, hp, hh⟩ :=
    kmalloc_grow_returned hl (by decide : (0x40000000 : BitVec 64) ≠ 0) hn he
  have hpages : h'.pages = h1.pages := by
    rw [hh]
    rfl
  have hzero : (0 : BitVec 64) ∈ h'.pages := by
    rw [hpages]
    refine (hex.pages 0).mpr (Or.inl ⟨0x3F000, by decide, ?_⟩)
    rw [nextPage, hend]
    decide
  have hne : p ≠ 0 := by
    rw [hp, hend]
    decide
  refine ⟨s0, ⟨h', ⟨p, 0x40000000⟩ :: s0.live⟩, hb, ?_, hzero, fun hw => ?_⟩
  · simp only [run, System.step, he, hne, if_false]
  · exact absurd (hw.pages 0 hzero).1 (by decide)

end Miyabi.Mm.Heap
