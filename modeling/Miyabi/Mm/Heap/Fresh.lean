import Miyabi.Mm.Heap.Alignment
import Miyabi.Mm.Heap.Calls

namespace Miyabi.Mm.Heap

open Miyabi.Base Miyabi.Base.Memory Miyabi.Base.Linked Miyabi.Base.Tiling

-- The block that kmalloc takes for a request: the first on the list that fits, else a
-- new one at heap_end.
def Serves (h : State) (size b : BitVec 64) : Prop :=
  FirstFit h.mem (alignUp size 16) h.head b ∨
    (∀ c, ¬FirstFit h.mem (alignUp size 16) h.head c) ∧ b = h.heapEnd

theorem Serves.unique {h : State} {size b c : BitVec 64} (hb : Serves h size b)
    (hc : Serves h size c) : b = c := by
  rcases hb with hb | ⟨hb, rfl⟩
  · rcases hc with hc | ⟨hc, -⟩
    · exact hb.unique hc
    · exact absurd hb (hc b)
  · rcases hc with hc | ⟨-, rfl⟩
    · exact absurd hc (hb c)
    · rfl

theorem kmalloc_serves {system system' : System} {size ptr : BitVec 64}
    (h : system.kmalloc size = some (ptr, system')) (hne : ptr ≠ 0) :
    ∃ b, Serves system.heap size b ∧ ptr = b + headerSize := by
  unfold System.kmalloc at h
  split at h
  · cases h
  · rename_i p heap hk
    obtain ⟨rfl, -⟩ := Prod.mk.inj (Option.some.inj h)
    have hsize : size ≠ 0 := by
      rintro rfl
      simp only [Heap.kmalloc, if_true, Option.some.injEq, Prod.mk.injEq] at hk
      exact hne hk.1.symm
    rcases kmalloc_returned hsize hk with ⟨b, hf, rfl, -⟩ | ⟨hn, rfl, -⟩
    · exact ⟨b, Or.inl hf, rfl⟩
    · exact ⟨_, Or.inr ⟨hn, rfl⟩, rfl⟩

section Fresh

variable {s : System} {bs : List Block}

theorem firstFit_mem {m : Memory 64} {size p b : BitVec 64} (hc : Chain m p bs 0)
    (hf : FirstFit m size p b) : ∃ x ∈ bs, x.addr = b ∧ x.isFree = true := by
  induction bs generalizing p with
  | nil => exact absurd hc hf.ne_zero
  | cons x rest ih =>
      obtain ⟨rfl, hholds, hrest⟩ := hc
      cases hf with
      | here _ _ hfree => exact ⟨x, List.mem_cons_self, rfl, hholds.2.symm.trans hfree.1⟩
      | next _ _ _ _ hnext =>
          obtain ⟨y, hy, haddr, hfree⟩ := ih hrest hnext
          exact ⟨y, List.mem_cons_of_mem x hy, haddr, hfree⟩

-- Whatever the size, the pointer is that of no live allocation.
theorem Tidy.fresh (h : Tidy s bs) {size b : BitVec 64} (hs : Serves s.heap size b) :
    ∀ a ∈ s.live, a.ptr ≠ b + headerSize := by
  intro a ha he
  obtain ⟨x, hx, hxp⟩ := h.owners.exists_block ha
  obtain ⟨hxm, hused⟩ := mem_usedBlocks.mp hx
  have haddr : x.addr = b := add_right_cancel (hxp.trans he)
  rcases hs with hf | ⟨-, rfl⟩
  · obtain ⟨y, hy, hyb, hfree⟩ := firstFit_mem h.layout.chain hf
    have hpay : x.payload = y.payload := by
      rw [Block.payload, Block.payload, haddr, hyb]
    rw [payload_injective h.layout.tiles s.heap.heapEnd.isLt hxm hy hpay, hfree] at hused
    cases hused
  · have hbounds := (tiles_bounds h.layout.tiles hxm).2
    rw [Block.start, Block.len, haddr] at hbounds
    omega

theorem Tidy.nodup (h : Tidy s bs) : (s.live.map Alloc.ptr).Nodup :=
  h.owners.pointers.nodup_iff.mpr (usedBlocks_nodup h.layout.tiles s.heap.heapEnd.isLt)

-- The bytes of a live allocation hold no header.
theorem Tidy.payload_apart (h : Tidy s bs) {a : Alloc} (ha : a ∈ s.live) :
    ∀ b ∈ bs, Apart a.ptr a.size.toNat b.addr 24 := by
  intro b hb
  obtain ⟨x, hx, hxp⟩ := h.owners.exists_block ha
  have hxm := (mem_usedBlocks.mp hx).1
  have hsize := h.owners.sizes a ha x hx hxp
  rw [← hxp]
  exact (payload_header_apart h.layout.tiles s.heap.heapEnd.isLt hxm hb).mono hsize le_rfl

theorem Tidy.kfree_returns (h : Tidy s bs) {a : Alloc} (ha : a ∈ s.live) :
    ∃ s', s.kfree a.ptr = some s' := by
  obtain ⟨_, _, _, m', -, -, hfree, -⟩ := kfree_tidy h ha
  refine ⟨⟨{ s.heap with mem := m' }, s.live.filter (fun c => c.ptr ≠ a.ptr)⟩, ?_⟩
  simp only [System.kfree, System.step, hfree]

-- Writes that spare the headers keep the heap in order.
theorem Tidy.setMem (h : Tidy s bs) {m : Memory 64} (hm : ∀ b ∈ bs, Agree s.mem m b.addr 24) :
    Tidy (s.setMem m) bs :=
  ⟨⟨chain_congr h.layout.chain hm, h.layout.tiles⟩, h.nonempty, h.owners, h.separate,
    ⟨h.mapped.start, h.mapped.whole, h.mapped.pages⟩⟩

end Fresh

section Ledger

variable {s s' : System} {size ptr : BitVec 64}

theorem System.kmalloc_live (h : s.kmalloc size = some (ptr, s')) :
    s'.live = if ptr = 0 then s.live else ⟨ptr, size⟩ :: s.live := by
  unfold System.kmalloc at h
  cases hk : Heap.kmalloc size s.heap with
  | none =>
      rw [hk] at h
      cases h
  | some r =>
      rw [hk] at h
      obtain ⟨rfl, rfl⟩ := Prod.mk.inj (Option.some.inj h)
      rfl

theorem System.kfree_live (h : s.kfree ptr = some s') :
    s'.live = s.live.filter (fun a => a.ptr ≠ ptr) := by
  unfold System.kfree System.step at h
  cases hk : Heap.kfree ptr s.heap with
  | none =>
      simp only [hk] at h
      cases h
  | some heap =>
      simp only [hk] at h
      rw [← Option.some.inj h]

-- Giving back an allocation that no other one shares its pointer with.
theorem filter_fresh {live : List Alloc} (hfresh : ∀ a ∈ live, a.ptr ≠ ptr) :
    (⟨ptr, size⟩ :: live).filter (fun a => a.ptr ≠ ptr) = live := by
  rw [List.filter_cons_of_neg (by simp)]
  exact List.filter_eq_self.mpr fun a ha => decide_eq_true (hfresh a ha)

-- In order, the heap refuses only requests of no bytes.
theorem Tidy.kmalloc_null {bs : List Block} (h : Tidy s bs) (hk : s.kmalloc size = some (0, s')) :
    size = 0 ∧ s' = s := by
  unfold System.kmalloc at hk
  by_cases hz : size = 0
  · subst hz
    simp only [Heap.kmalloc, if_true, Option.some.injEq, Prod.mk.injEq, true_and] at hk
    exact ⟨rfl, hk.symm⟩
  · exfalso
    cases hr : Heap.kmalloc size s.heap with
    | none =>
        rw [hr] at hk
        cases hk
    | some r =>
        obtain ⟨p, heap⟩ := r
        rw [hr] at hk
        have hptr := (Prod.mk.inj (Option.some.inj hk)).1
        rcases kmalloc_returned hz hr with ⟨b, hf, hp, -⟩ | ⟨-, hp, -⟩
        · obtain ⟨x, hx, rfl, -⟩ := firstFit_mem h.layout.chain hf
          exact payload_ne_zero h.layout hx (hp.symm.trans hptr)
        · have hwhole := h.mapped.whole
          have hend : s.heap.heapEnd + headerSize = 0 := hp.symm.trans hptr
          simp only [headerSize] at hend
          bv_omega

end Ledger

section Growth

variable {h h' : State} {size p : BitVec 64}

-- heap_end grows by no more than the pages for the request.
theorem kmalloc_heapEnd (hreq : RequestFits size) (hend : h.heapEnd.toNat + pagesFor size < 2 ^ 64)
    (hk : kmalloc size h = some (p, h')) :
    h.heapEnd.toNat ≤ h'.heapEnd.toNat ∧ h'.heapEnd.toNat ≤ h.heapEnd.toNat + pagesFor size := by
  by_cases hz : size = 0
  · simp only [kmalloc, hz, if_true, Option.some.injEq, Prod.mk.injEq] at hk
    rw [← hk.2]
    omega
  · have hgrowth := growth_pagesFor hreq
    rw [growth] at hgrowth
    rcases kmalloc_returned hz hk with ⟨-, -, -, heq⟩ | ⟨-, -, heq⟩
    · rw [heq]
      omega
    · rw [heq, BitVec.toNat_add, hgrowth, Nat.mod_eq_of_lt hend]
      omega

theorem System.kmalloc_heapEnd {s s' : System} (hreq : RequestFits size)
    (hend : s.heap.heapEnd.toNat + pagesFor size < 2 ^ 64) (hk : s.kmalloc size = some (p, s')) :
    s.heap.heapEnd.toNat ≤ s'.heap.heapEnd.toNat ∧
      s'.heap.heapEnd.toNat ≤ s.heap.heapEnd.toNat + pagesFor size := by
  unfold System.kmalloc at hk
  split at hk
  · cases hk
  · rename_i q heap hheap
    obtain ⟨-, rfl⟩ := Prod.mk.inj (Option.some.inj hk)
    exact Heap.kmalloc_heapEnd hreq hend hheap

-- A request whose pages fit below the top of the address space is permitted.
theorem permitted_of_end {s : System} (hreq : RequestFits size)
    (hend : s.heap.heapEnd.toNat + pagesFor size < 2 ^ 64) : Permitted s (.kmalloc size) := by
  refine ⟨hreq, fun s' hstep => ?_⟩
  unfold System.step at hstep
  cases hk : kmalloc size s.heap with
  | none =>
      simp only [hk] at hstep
      cases hstep
  | some r =>
      obtain ⟨q, heap⟩ := r
      simp only [hk, Option.some.injEq] at hstep
      rw [← hstep]
      exact BitVec.le_def.mpr (kmalloc_heapEnd hreq hend hk).1

end Growth

-- The first request gets the start of the heap.
theorem first_kmalloc {mem : Memory 64} {frames : FrameSupply} {s0 : System} {size : BitVec 64}
    (hb : boot mem frames = some s0) (hsize : size ≠ 0)
    (hfit : alignUp size 16 ≤ heapInitialSize - headerSize) :
    s0.kmalloc size = some (heapStart + headerSize,
      ⟨{ s0.heap with mem := carved (firstHeader mem) heapStart (alignUp size 16) },
        [⟨heapStart + headerSize, size⟩]⟩) := by
  obtain ⟨hm, hh, -, -⟩ := boot_state hb
  obtain ⟨-, hlive, -⟩ := boot_returned hb
  have hfree : blockIsFree (firstHeader mem) heapStart = true := by simp [firstHeader]
  have hblock : blockSize (firstHeader mem) heapStart = heapInitialSize - headerSize := by
    simp [firstHeader]
  have hz : heapStart ≠ 0 := by decide
  have hfound : findFit s0.heap.mem (alignUp size 16) (2 ^ 64) s0.heap.head 0 = some (heapStart, 0) := by
    have hfuel : (2 ^ 64 : ℕ) = (2 ^ 64 - 1) + 1 := rfl
    have hfits : blockIsFree (firstHeader mem) heapStart = true ∧
        alignUp size 16 ≤ blockSize (firstHeader mem) heapStart := by
      rw [hblock]
      exact ⟨hfree, hfit⟩
    rw [hm, hh, hfuel, findFit, if_neg hz, if_pos hfits]
  have hk := System.kmalloc_search hsize hfound hz (by decide)
  rw [hm, hlive] at hk
  exact hk

end Miyabi.Mm.Heap
