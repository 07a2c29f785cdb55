import Miyabi.Base.Transition
import Miyabi.Mm.Heap.Steps

namespace Miyabi.Mm.Heap

open Miyabi.Base Miyabi.Base.Memory Miyabi.Base.Linked Miyabi.Base.Tiling Miyabi.Base.Transition

inductive Call where
  | kmalloc (size : BitVec 64)
  | kfree (ptr : BitVec 64)

-- The heap together with the allocations its clients hold.
structure System where
  heap : State
  live : List Alloc

def boot (mem : Memory 64) (frames : FrameSupply) : Option System :=
  match initHeap ⟨mem, 0, heapStart, frames, []⟩ with
  | none => none
  | some heap => some ⟨heap, []⟩

def System.step (s : System) : Call → Option System
  | .kmalloc size =>
      match Heap.kmalloc size s.heap with
      | none => none
      | some (ptr, heap) => some ⟨heap, if ptr = 0 then s.live else ⟨ptr, size⟩ :: s.live⟩
  | .kfree ptr =>
      match Heap.kfree ptr s.heap with
      | none => none
      | some heap => some ⟨heap, s.live.filter (fun a => a.ptr ≠ ptr)⟩

-- Requests that do not wrap, in a call in which heap_end does not wrap, and
-- releases of NULL or of a pointer still held.
def Permitted (s : System) : Call → Prop
  | .kmalloc size =>
      RequestFits size ∧ ∀ s', s.step (.kmalloc size) = some s' → s.heap.heapEnd ≤ s'.heap.heapEnd
  | .kfree ptr => ptr = 0 ∨ ∃ a ∈ s.live, a.ptr = ptr

-- The heap with block list `bs` is in order, and its clients own the used blocks.
structure Sound (s : System) (bs : List Block) : Prop where
  list : Chain s.heap.mem s.heap.head bs 0
  ordered : bs.Pairwise (fun a b => a.addr < b.addr)
  tiles : BlockTiles heapStart.toNat bs s.heap.heapEnd.toNat
  owned : ∀ a ∈ s.live, ∃! b, b ∈ bs ∧ b.isFree = false ∧ b.payload = a.ptr ∧ a.size ≤ b.size
  owners : ∀ b ∈ bs, b.isFree = false → ∃! a, a ∈ s.live ∧ a.ptr = b.payload
  payloads : s.live.Pairwise (fun a b => Apart a.ptr a.size.toNat b.ptr b.size.toNat)
  headers : ∀ a ∈ s.live, ∀ b ∈ bs, Apart a.ptr a.size.toNat b.addr 24

-- A step keeps every used block but the one it frees, and the bytes in it.
def Untouched (call : Call) (s s' : System) (bs bs' : List Block) : Prop :=
  ∀ b ∈ bs, b.isFree = false → call ≠ .kfree b.payload →
    b ∈ bs' ∧ Agree s.heap.mem s'.heap.mem b.payload b.size.toNat

structure Invariant (s : System) (bs : List Block) : Prop where
  layout : Layout s.heap bs
  nonempty : bs ≠ []
  supply : ∀ k, s.heap.frames.result k ≠ 0
  owners : Owners (usedBlocks bs) s.live

theorem apart_shrink {a b : Block} {p q n k : BitVec 64}
    (h : Apart a.payload a.size.toNat b.payload b.size.toNat) (hp : a.payload = p)
    (hq : b.payload = q) (hn : n ≤ a.size) (hk : k ≤ b.size) :
    Apart p n.toNat q k.toNat := by
  subst hp
  subst hq
  exact h.mono hn hk

theorem Invariant.ptrs_nodup {s : System} {bs : List Block} (h : Invariant s bs) :
    (s.live.map Alloc.ptr).Nodup :=
  h.owners.pointers.nodup_iff.mpr (usedBlocks_nodup h.layout.tiles s.heap.heapEnd.isLt)

theorem Invariant.owned {s : System} {bs : List Block} (h : Invariant s bs) {a : Alloc}
    (ha : a ∈ s.live) :
    ∃ b ∈ bs, b.isFree = false ∧ b.payload = a.ptr ∧ a.size ≤ b.size := by
  obtain ⟨b, hb, hp⟩ := h.owners.exists_block ha
  have hm := mem_usedBlocks.mp hb
  exact ⟨b, hm.1, hm.2, hp, h.owners.sizes a ha b hb hp⟩

theorem Invariant.sound {s : System} {bs : List Block} (h : Invariant s bs) : Sound s bs := by
  have hlt := s.heap.heapEnd.isLt
  refine ⟨h.layout.chain, ?_, h.layout.tiles, ?_, ?_, ?_, ?_⟩
  · refine (tiles_pairwise h.layout.tiles).imp (fun {a b} hab => ?_)
    rw [BitVec.lt_def]
    simp only [Block.start, Block.len] at hab
    omega
  · intro a ha
    obtain ⟨b, hb, hf, hp, hs⟩ := h.owned ha
    refine ⟨b, ⟨hb, hf, hp, hs⟩, ?_⟩
    rintro c ⟨hc, -, hcp, -⟩
    exact payload_injective h.layout.tiles hlt hc hb (hcp.trans hp.symm)
  · intro b hb hf
    obtain ⟨a, ha, hp⟩ := h.owners.exists_alloc (mem_usedBlocks.mpr ⟨hb, hf⟩)
    refine ⟨a, ⟨ha, hp⟩, ?_⟩
    rintro c ⟨hc, hcp⟩
    exact List.inj_on_of_nodup_map h.ptrs_nodup hc ha (hcp.trans hp.symm)
  · have hnd := List.pairwise_map.mp h.ptrs_nodup
    refine hnd.imp_of_mem (fun {a b} ha hb hne => ?_)
    obtain ⟨c, hc, -, hcp, hcs⟩ := h.owned ha
    obtain ⟨d, hd, -, hdp, hds⟩ := h.owned hb
    have hcd : c ≠ d := fun he => hne (by rw [← hcp, ← hdp, he])
    exact apart_shrink (payloads_apart h.layout.tiles hlt hc hd hcd) hcp hdp hcs hds
  · intro a ha b hb
    obtain ⟨c, hc, -, hcp, hcs⟩ := h.owned ha
    rw [← hcp]
    exact (payload_header_apart h.layout.tiles hlt hc hb).mono hcs le_rfl

theorem kmalloc_invariant {s : System} {bs : List Block} (h : Invariant s bs) (size : BitVec 64)
    (hp : Permitted s (.kmalloc size)) :
    ∃ s' bs', s.step (.kmalloc size) = some s' ∧ Invariant s' bs' ∧
      Untouched (.kmalloc size) s s' bs bs' := by
  by_cases hz : size = 0
  · refine ⟨s, bs, ?_, h, fun b hb _ _ => ⟨hb, Agree.refl _ _ _⟩⟩
    simp [System.step, Heap.kmalloc, hz]
  · have hend : ∀ p h', Heap.kmalloc size s.heap = some (p, h') →
        s.heap.heapEnd ≤ h'.heapEnd := by
      intro p h' he
      exact hp.2 ⟨h', if p = 0 then s.live else ⟨p, size⟩ :: s.live⟩ (by simp only [System.step, he])
    obtain ⟨h', bs', b, he, ha⟩ :=
      kmalloc_step h.layout h.nonempty hz hp.1 h.supply hend
    have hb : b ∈ bs' := (mem_usedBlocks.mp (ha.used.mem_iff.mpr (by simp))).1
    have hnz : b.payload ≠ 0 := payload_ne_zero ha.layout hb
    refine ⟨⟨h', ⟨b.payload, size⟩ :: s.live⟩, bs', ?_, ⟨ha.layout, ha.nonempty, ?_, ?_⟩, ?_⟩
    · simp only [System.step, he, hnz, if_false]
    · intro k
      rw [ha.frames]
      exact h.supply k
    · exact h.owners.alloc ha.used (usedBlocks_nodup ha.layout.tiles h'.heapEnd.isLt) ha.size_le
    · intro c hc hf _
      have hcu := mem_usedBlocks.mpr ⟨hc, hf⟩
      have hcu' := ha.used.mem_iff.mpr (List.mem_cons_of_mem b hcu)
      exact ⟨(mem_usedBlocks.mp hcu').1, ha.keeps c hcu⟩

theorem kfree_invariant {s : System} {bs : List Block} (h : Invariant s bs) (ptr : BitVec 64)
    (hp : Permitted s (.kfree ptr)) :
    ∃ s' bs', s.step (.kfree ptr) = some s' ∧ Invariant s' bs' ∧
      Untouched (.kfree ptr) s s' bs bs' := by
  by_cases hz : ptr = 0
  · refine ⟨s, bs, ?_, h, fun b hb _ _ => ⟨hb, Agree.refl _ _ _⟩⟩
    have hlive : s.live.filter (fun a => a.ptr ≠ ptr) = s.live := by
      refine List.filter_eq_self.mpr (fun a ha => ?_)
      obtain ⟨b, hb, -, hbp, -⟩ := h.owned ha
      have hne : a.ptr ≠ ptr := hz ▸ hbp ▸ payload_ne_zero h.layout hb
      simpa using hne
    simp only [System.step, Heap.kfree, hz, if_true]
    rw [← hz, hlive]
  · obtain ⟨a, ha, rfl⟩ : ∃ a ∈ s.live, a.ptr = ptr := hp.resolve_left hz
    obtain ⟨b, hb, hbp⟩ := h.owners.exists_block ha
    obtain ⟨m', bs', he, hl', hne, hperm, hk⟩ := kfree_step h.layout hb
    have hnd := usedBlocks_nodup h.layout.tiles s.heap.heapEnd.isLt
    refine ⟨⟨{ s.heap with mem := m' }, s.live.filter (fun c => c.ptr ≠ a.ptr)⟩, bs', ?_,
      ⟨hl', hne, h.supply, ?_⟩, ?_⟩
    · rw [← hbp]
      simp only [System.step, he]
    · rw [← hbp]
      exact h.owners.free hperm hnd
    · intro c hc hf hcall
      have hcu := mem_usedBlocks.mpr ⟨hc, hf⟩
      have hcb : c ≠ b := by
        rintro rfl
        exact hcall (by rw [hbp])
      have hcu' := (List.mem_cons.mp (hperm.mem_iff.mp hcu)).resolve_left hcb
      exact ⟨(mem_usedBlocks.mp hcu').1, hk c hcu⟩

theorem step_invariant {s : System} {bs : List Block} (h : Invariant s bs) (call : Call)
    (hp : Permitted s call) :
    ∃ s' bs', s.step call = some s' ∧ Invariant s' bs' ∧ Untouched call s s' bs bs' := by
  cases call with
  | kmalloc size => exact kmalloc_invariant h size hp
  | kfree ptr => exact kfree_invariant h ptr hp

-- The one free block that init_heap leaves.
def initialBlock : Block := ⟨heapStart, heapInitialSize - headerSize, true⟩

theorem boot_invariant (mem : Memory 64) (frames : FrameSupply) (hs : ∀ k, frames.result k ≠ 0) :
    ∃ s, boot mem frames = some s ∧ Invariant s [initialBlock] ∧ s.live = [] := by
  obtain ⟨h', he, hl, hf⟩ := initHeap_layout (h := ⟨mem, 0, heapStart, frames, []⟩) rfl hs
  refine ⟨⟨h', []⟩, ?_, ⟨hl, by simp, ?_, ?_⟩, rfl⟩
  · simp only [boot, he]
  · intro k
    rw [hf]
    exact hs k
  · exact ⟨List.Perm.refl _, by simp⟩

theorem run_invariant {s0 : System} {bs : List Block} (h : Invariant s0 bs) (calls : List Call)
    (hp : PermittedRun System.step Permitted s0 calls) :
    ∃ s bs', run System.step s0 calls = some s ∧ Invariant s bs' := by
  obtain ⟨s, hr, bs', hs⟩ := run_of_progress (fun s => ∃ bs, Invariant s bs)
    (fun s call hs hcall => by
      obtain ⟨bs, hs⟩ := hs
      obtain ⟨s', bs', he, h', -⟩ := step_invariant hs call hcall
      exact ⟨s', he, bs', h'⟩) s0 calls ⟨bs, h⟩ hp
  exact ⟨s, bs', hr, hs⟩

-- After any run of permitted calls from init_heap the heap is in order, and the
-- next permitted call returns, keeps it in order and touches no other block.
theorem heap_runs_sound (mem : Memory 64) (frames : FrameSupply) (calls : List Call)
    (hs : ∀ k, frames.result k ≠ 0) :
    ∃ s0, boot mem frames = some s0 ∧ (PermittedRun System.step Permitted s0 calls →
      ∃ s bs, run System.step s0 calls = some s ∧ Sound s bs ∧ ∀ call, Permitted s call →
        ∃ s' bs', s.step call = some s' ∧ Sound s' bs' ∧ Untouched call s s' bs bs') := by
  obtain ⟨s0, hb, h0, -⟩ := boot_invariant mem frames hs
  refine ⟨s0, hb, fun hp => ?_⟩
  obtain ⟨s, bs, hr, h⟩ := run_invariant h0 calls hp
  refine ⟨s, bs, hr, h.sound, fun call hcall => ?_⟩
  obtain ⟨s', bs', he, h', hu⟩ := step_invariant h call hcall
  exact ⟨s', bs', he, h'.sound, hu⟩

-- A request that some free block can serve leaves heap_end alone.
theorem kmalloc_first_fit {s : System} (pre post : List Block) {b : Block} (size : BitVec 64)
    (h : Invariant s (pre ++ b :: post)) (hsize : size ≠ 0) (hreq : RequestFits size)
    (hpre : ∀ c ∈ pre, ¬Fits (alignUp size 16) c) (hb : Fits (alignUp size 16) b) :
    Permitted s (.kmalloc size) ∧ ∀ s', s.step (.kmalloc size) = some s' →
      ⟨(front (alignUp size 16) b).payload, size⟩ ∈ s'.live := by
  obtain ⟨m', he, ha⟩ := kmalloc_reuse_step h.layout hsize hreq hpre hb
  have hm := ha.used.mem_iff.mpr (List.mem_cons_self ..)
  have hnz := payload_ne_zero ha.layout (mem_usedBlocks.mp hm).1
  have hstep : s.step (.kmalloc size) =
      some ⟨{ s.heap with mem := m' }, ⟨(front (alignUp size 16) b).payload, size⟩ :: s.live⟩ := by
    simp only [System.step, he, hnz, if_false]
  refine ⟨⟨hreq, ?_⟩, ?_⟩
  · intro s' hs'
    rw [hstep] at hs'
    obtain rfl := Option.some.inj hs'
    exact BitVec.le_refl _
  · intro s' hs'
    rw [hstep] at hs'
    obtain rfl := Option.some.inj hs'
    exact List.mem_cons_self ..

def sampleFrames : FrameSupply := ⟨fun k => BitVec.ofNat 64 (4096 * (k % 2 ^ 20 + 1)), 0⟩

theorem sampleFrames_ne (k : Nat) : sampleFrames.result k ≠ 0 := by
  show BitVec.ofNat 64 (4096 * (k % 2 ^ 20 + 1)) ≠ 0
  bv_omega

-- One allocation, released again.
def sampleCalls : List Call := [.kmalloc 100, .kfree (heapStart + 24)]

theorem sample_permitted {s0 : System} (hb : boot (fun _ => 0) sampleFrames = some s0) :
    PermittedRun System.step Permitted s0 sampleCalls := by
  obtain ⟨s1, hb1, h1, -⟩ := boot_invariant (fun _ => 0) sampleFrames sampleFrames_ne
  obtain rfl : s0 = s1 := Option.some.inj (hb.symm.trans hb1)
  obtain ⟨hfirst, hlive⟩ := kmalloc_first_fit [] [] 100 h1 (by decide)
    ⟨by decide, by decide⟩ (by simp) ⟨rfl, by decide⟩
  exact ⟨hfirst, fun s' hs' => ⟨Or.inr ⟨_, hlive s' hs', rfl⟩, fun _ _ => trivial⟩⟩

theorem heap_runs_sound_reuse :
    ∃ s0 s bs, boot (fun _ => 0) ⟨fun k => BitVec.ofNat 64 (4096 * (k % 2 ^ 20 + 1)), 0⟩ = some s0 ∧
      run System.step s0 [.kmalloc 100, .kfree (heapStart + 24)] = some s ∧ Sound s bs := by
  obtain ⟨s0, hb, hrun⟩ := heap_runs_sound (fun _ => 0) sampleFrames sampleCalls sampleFrames_ne
  obtain ⟨s, bs, hr, hsound, -⟩ := hrun (sample_permitted hb)
  exact ⟨s0, s, bs, hb, hr, hsound⟩

end Miyabi.Mm.Heap
