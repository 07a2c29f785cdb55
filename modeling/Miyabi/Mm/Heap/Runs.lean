import Miyabi.Mm.Heap.Coalesced
import Miyabi.Mm.Heap.Theorems

namespace Miyabi.Mm.Heap

open Miyabi.Base Miyabi.Base.Memory Miyabi.Base.Linked Miyabi.Base.Tiling Miyabi.Base.Transition

-- The two ways in which a request is served: from the first free block that
-- fits, or from a new block at heap_end.
inductive Served (size : BitVec 64) (h : State) : List Block → State → List Block → Block → Prop
  | reused (pre post : List Block) (b : Block) (m : Memory 64)
      (first : ∀ c ∈ pre, ¬Fits (alignUp size 16) c) (fits : Fits (alignUp size 16) b) :
      Served size h (pre ++ b :: post) { h with mem := m } (pre ++ carve (alignUp size 16) b ++ post)
        (front (alignUp size 16) b)
  | grown (bs : List Block) (h' : State) (none : ∀ c ∈ bs, ¬Fits (alignUp size 16) c)
      (room : h.heapEnd.toNat + growth size < 2 ^ 64)
      (heapEnd : h'.heapEnd.toNat = h.heapEnd.toNat + growth size)
      (pages : ∀ v, v ∈ h'.pages ↔ (∃ i < growth size / 4096, v = nextPage h i) ∨ v ∈ h.pages) :
      Served size h bs h' (bs ++ carve (alignUp size 16) (freshFor size h))
        (front (alignUp size 16) (freshFor size h))

theorem kmalloc_served {h h' : State} {size p : BitVec 64} {bs : List Block} (hl : Layout h bs)
    (hne : bs ≠ []) (hsize : size ≠ 0) (hreq : RequestFits size)
    (he : kmalloc size h = some (p, h')) (hend : h.heapEnd ≤ h'.heapEnd) :
    ∃ bs' b, p = b.payload ∧ Served size h bs h' bs' b ∧ Allocated size h bs h' bs' b := by
  rcases first_fit_cases (alignUp size 16) bs with hn | ⟨pre, b, post, rfl, hpre, hb⟩
  · have hroom := growth_fits hl hne hsize hreq hn he hend
    obtain ⟨hp, hend', hpages, ha⟩ := kmalloc_expand_step hl hne hsize hreq hn he hroom
    exact ⟨_, _, hp, .grown bs h' hn hroom hend' hpages, ha⟩
  · obtain ⟨m', hr, ha⟩ := kmalloc_reuse_step hl hsize hreq hpre hb
    cases he.symm.trans hr
    exact ⟨_, _, rfl, .reused pre post b m' hpre hb, ha⟩

theorem Served.noFreePair {size : BitVec 64} {h h' : State} {bs bs' : List Block} {b : Block}
    (hs : Served size h bs h' bs' b) (hn : NoFreePair bs) : NoFreePair bs' := by
  cases hs with
  | reused pre post b m first fits => exact noFreePair_reuse _ fits.1 hn
  | grown _ _ none room heapEnd pages => exact noFreePair_grow _ rfl hn

-- The pages mapped for the heap are exactly those of [HEAP_START, heap_end).
structure Mapped (h : State) : Prop where
  start : heapStart ≤ h.heapEnd
  whole : h.heapEnd.toNat % 4096 = 0
  pages : ∀ v, v ∈ h.pages ↔
    heapStart.toNat ≤ v.toNat ∧ v.toNat < h.heapEnd.toNat ∧ v.toNat % 4096 = 0

theorem nextPage_toNat (h : State) {i n : Nat} (hn : h.heapEnd.toNat + n < 2 ^ 64)
    (hi : i * 4096 ≤ n) : (nextPage h i).toNat = h.heapEnd.toNat + i * 4096 := by
  have ho : (BitVec.ofNat 64 (i * 4096)).toNat = i * 4096 := by
    rw [BitVec.toNat_ofNat]
    exact Nat.mod_eq_of_lt (by omega)
  rw [nextPage, BitVec.toNat_add_of_lt (by rw [ho]; omega), ho]

theorem Mapped.grow {h h' : State} {n : Nat} (hm : Mapped h) (hn : n % 4096 = 0)
    (hroom : h.heapEnd.toNat + n < 2 ^ 64) (hend : h'.heapEnd.toNat = h.heapEnd.toNat + n)
    (hp : ∀ v, v ∈ h'.pages ↔ (∃ i < n / 4096, v = nextPage h i) ∨ v ∈ h.pages) : Mapped h' := by
  have hs := BitVec.le_def.mp hm.start
  have hw := hm.whole
  refine ⟨BitVec.le_def.mpr (by omega), by omega, fun v => ?_⟩
  rw [hp v, hm.pages v, hend]
  constructor
  · rintro (⟨i, hi, rfl⟩ | hv)
    · rw [nextPage_toNat h hroom (by omega)]
      omega
    · omega
  · rintro ⟨hlo, hhi, hv⟩
    by_cases hold : v.toNat < h.heapEnd.toNat
    · exact Or.inr ⟨hlo, hold, hv⟩
    · refine Or.inl ⟨(v.toNat - h.heapEnd.toNat) / 4096, by omega, ?_⟩
      apply BitVec.eq_of_toNat_eq
      rw [nextPage_toNat h hroom (by omega)]
      omega

theorem growth_dvd (size : BitVec 64) : growth size % 4096 = 0 := by
  have h := alignUp_page_dvd (alignUp size 16 + headerSize)
  rw [growth]
  omega

theorem Served.mapped {size : BitVec 64} {h h' : State} {bs bs' : List Block} {b : Block}
    (hs : Served size h bs h' bs' b) (hm : Mapped h) : Mapped h' := by
  cases hs with
  | reused pre post b m first fits => exact ⟨hm.start, hm.whole, hm.pages⟩
  | grown _ _ none room heapEnd pages => exact hm.grow (growth_dvd size) room heapEnd pages

-- What every state of a run of permitted calls satisfies, however many frames
-- there are.
structure Tidy (s : System) (bs : List Block) : Prop where
  layout : Layout s.heap bs
  nonempty : bs ≠ []
  owners : Owners (usedBlocks bs) s.live
  separate : NoFreePair bs
  mapped : Mapped s.heap

theorem boot_returned {mem : Memory 64} {frames : FrameSupply} {s0 : System}
    (hb : boot mem frames = some s0) :
    Tidy s0 [initialBlock] ∧ s0.live = [] ∧ KeepsOutside mem s0.heap.mem heapStart 24 := by
  cases he : heapExpand heapInitialSize ⟨mem, 0, heapStart, frames, []⟩ with
  | none =>
      simp only [boot, initHeap, he] at hb
      cases hb
  | some r =>
      obtain ⟨p, h⟩ := r
      obtain ⟨rfl, hex⟩ := heapExpand_returned he
      simp only [boot, initHeap, he, Option.some.injEq] at hb
      subst hb
      have hend : h.heapEnd.toNat = heapStart.toNat + 16777216 := by
        rw [hex.heapEnd]
        show (heapStart + alignUp heapInitialSize pageSize).toNat = _
        decide
      have hempty : Mapped ⟨mem, 0, heapStart, frames, []⟩ := by
        refine ⟨BitVec.le_refl _, ?_, fun v => ?_⟩
        · show heapStart.toNat % 4096 = 0
          decide
        simp only [State.pages, List.map_nil, List.not_mem_nil, false_iff]
        omega
      refine ⟨⟨⟨hex.chain, ?_⟩, by simp, ⟨List.Perm.refl _, by simp⟩,
        List.isChain_singleton _, ?_⟩, rfl, hex.keeps⟩
      · simp only [Tiles, Block.start, Block.len, initialBlock, hend]
        exact ⟨trivial, by decide⟩
      · refine hempty.grow (n := 16777216) (by decide) ?_ hend hex.pages
        show heapStart.toNat + 16777216 < 2 ^ 64
        decide

theorem kmalloc_tidy {s s' : System} {bs : List Block} (h : Tidy s bs) (size : BitVec 64)
    (hp : Permitted s (.kmalloc size)) (he : s.step (.kmalloc size) = some s') :
    ∃ bs', Tidy s' bs' := by
  by_cases hz : size = 0
  · simp only [System.step, Heap.kmalloc, hz, if_true, Option.some.injEq] at he
    exact ⟨bs, he ▸ h⟩
  · cases hk : Heap.kmalloc size s.heap with
    | none => simp [System.step, hk] at he
    | some r =>
        obtain ⟨p, h1⟩ := r
        have hend := hp.2 s' he
        simp only [System.step, hk, Option.some.injEq] at he
        subst he
        obtain ⟨bs', b, rfl, hserved, ha⟩ := kmalloc_served h.layout h.nonempty hz hp.1 hk hend
        have hb : b ∈ bs' := (mem_usedBlocks.mp (ha.used.mem_iff.mpr (by simp))).1
        have hnz : b.payload ≠ 0 := payload_ne_zero ha.layout hb
        have hnd := usedBlocks_nodup ha.layout.tiles h1.heapEnd.isLt
        refine ⟨bs', ha.layout, ha.nonempty, ?_, hserved.noFreePair h.separate,
          hserved.mapped h.mapped⟩
        simp only [hnz, if_false]
        exact h.owners.alloc ha.used hnd ha.size_le

-- A released block is marked and the whole list is coalesced.
theorem kfree_tidy {s : System} {bs : List Block} (h : Tidy s bs) {a : Alloc} (ha : a ∈ s.live) :
    ∃ pre b post m', bs = pre ++ b :: post ∧ b.payload = a.ptr ∧
      Heap.kfree a.ptr s.heap = some { s.heap with mem := m' } ∧
      Tidy ⟨{ s.heap with mem := m' }, s.live.filter (fun c => c.ptr ≠ a.ptr)⟩
        (coalesced (pre ++ b.freed :: post)) ∧
      KeepsPayloads s.heap.mem m' bs := by
  obtain ⟨b, hb, hbp⟩ := h.owners.exists_block ha
  obtain ⟨hbm, hbf⟩ := mem_usedBlocks.mp hb
  obtain ⟨pre, post, rfl⟩ := List.append_of_mem hbm
  obtain ⟨m', he, hl', hk⟩ := kfree_block h.layout
  have hnd := usedBlocks_nodup h.layout.tiles s.heap.heapEnd.isLt
  have hperm : (usedBlocks (pre ++ b :: post)).Perm
      (b :: usedBlocks (coalesced (pre ++ b.freed :: post))) := by
    rw [usedBlocks_coalesced, usedBlocks_append, usedBlocks_append, usedBlocks_cons_used hbf,
      usedBlocks_cons_free (b := b.freed) rfl]
    exact List.perm_middle
  refine ⟨pre, b, post, m', rfl, hbp, hbp ▸ he, ⟨hl', ?_, ?_, noFreePair_coalesced _, ?_⟩, hk⟩
  · cases pre with
    | nil => exact coalesceFrom_ne_nil _ _
    | cons c pre => exact coalesceFrom_ne_nil _ _
  · rw [← hbp]
    exact h.owners.free hperm hnd
  · exact ⟨h.mapped.start, h.mapped.whole, h.mapped.pages⟩

theorem Tidy.ptr_ne_zero {s : System} {bs : List Block} (h : Tidy s bs) {a : Alloc}
    (ha : a ∈ s.live) : a.ptr ≠ 0 := by
  obtain ⟨b, hb, hbp⟩ := h.owners.exists_block ha
  exact hbp ▸ payload_ne_zero h.layout (mem_usedBlocks.mp hb).1

theorem Tidy.filter_zero {s : System} {bs : List Block} (h : Tidy s bs) :
    s.live.filter (fun a => a.ptr ≠ 0) = s.live := by
  refine List.filter_eq_self.mpr (fun a ha => ?_)
  have hne := h.ptr_ne_zero ha
  simpa using hne

theorem step_tidy {s s' : System} {bs : List Block} (h : Tidy s bs) (call : Call)
    (hp : Permitted s call) (he : s.step call = some s') : ∃ bs', Tidy s' bs' := by
  cases call with
  | kmalloc size => exact kmalloc_tidy h size hp he
  | kfree ptr =>
      by_cases hz : ptr = 0
      · simp only [System.step, Heap.kfree, hz, if_true, Option.some.injEq] at he
        rw [h.filter_zero] at he
        exact ⟨bs, he ▸ h⟩
      · obtain ⟨a, ha, rfl⟩ : ∃ a ∈ s.live, a.ptr = ptr := hp.resolve_left hz
        obtain ⟨pre, b, post, m', -, -, hk, ht, -⟩ := kfree_tidy h ha
        simp only [System.step, hk, Option.some.injEq] at he
        exact ⟨_, he ▸ ht⟩

theorem run_tidy {s0 s : System} {bs : List Block} (h : Tidy s0 bs) (calls : List Call)
    (hp : PermittedRun System.step Permitted s0 calls) (hr : run System.step s0 calls = some s) :
    ∃ bs', Tidy s bs' :=
  run_of_preservation (fun s => ∃ bs, Tidy s bs)
    (fun _ call _ hs hcall he => hs.elim fun _ h => step_tidy h call hcall he) s0 s calls ⟨bs, h⟩ hp hr

end Miyabi.Mm.Heap
