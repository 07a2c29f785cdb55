import Miyabi.Mm.Heap.Kmalloc

namespace Miyabi.Mm.Heap

open Miyabi.Base Miyabi.Base.Memory Miyabi.Base.Linked Miyabi.Base.Tiling

-- A block that has swallowed its successor.
def Block.merge (b c : Block) : Block := { b with size := b.size + (headerSize + c.size) }

-- Every maximal run of free blocks becomes one block.
def coalesceFrom (b : Block) : List Block → List Block
  | [] => [b]
  | c :: rest =>
      if b.isFree ∧ c.isFree then coalesceFrom (b.merge c) rest else b :: coalesceFrom c rest

def coalesced : List Block → List Block
  | [] => []
  | b :: rest => coalesceFrom b rest

-- `m'` keeps every byte outside the headers of the blocks.
def KeepsPayloads (m m' : Memory 64) (bs : List Block) : Prop :=
  ∀ x, (∀ b ∈ bs, ¬InRange b.addr 24 x) → m' x = m x

theorem merge_len {b c : Block} {rest : List Block} {lo hi : Nat}
    (ht : BlockTiles lo (b :: c :: rest) hi) (hhi : hi ≤ 2 ^ 64) :
    (b.merge c).len = b.len + c.len := by
  obtain ⟨hb, hc, hr⟩ := ht
  have hle := tiles_le hr
  simp only [Block.start, Block.len, Block.merge, headerSize] at *
  bv_omega

theorem merge_tiles {b c : Block} {rest : List Block} {lo hi : Nat}
    (ht : BlockTiles lo (b :: c :: rest) hi) (hhi : hi ≤ 2 ^ 64) :
    BlockTiles lo (b.merge c :: rest) hi := by
  have hlen := merge_len ht hhi
  obtain ⟨hb, hc, hr⟩ := ht
  refine ⟨hb, ?_⟩
  rw [hlen, ← Nat.add_assoc]
  exact hr

theorem coalesceFrom_tiles (rest : List Block) {b : Block} {lo hi : Nat}
    (ht : BlockTiles lo (b :: rest) hi) (hhi : hi ≤ 2 ^ 64) :
    BlockTiles lo (coalesceFrom b rest) hi := by
  induction rest generalizing b lo with
  | nil => exact ht
  | cons c rest ih =>
      simp only [coalesceFrom]
      split
      · exact ih (merge_tiles ht hhi)
      · exact ⟨ht.1, ih ht.2⟩

theorem cons_header_apart {b : Block} {rest : List Block} {lo hi : Nat}
    (ht : BlockTiles lo (b :: rest) hi) (hhi : hi ≤ 2 ^ 64) {c : Block} (hc : c ∈ rest) :
    Apart c.addr 24 b.addr 24 :=
  (post_header_apart [] rest ht hhi hc).mono le_rfl (by simp only [Block.len]; omega)

-- One turn of the inner loop: b takes over the size and the link of c.
def swallow (m : Memory 64) (b c : Block) : Memory 64 :=
  setNext (setSize m b.addr (b.size + (headerSize + c.size))) b.addr (blockNext m c.addr)

theorem swallow_keeps (m : Memory 64) (b c : Block) :
    KeepsOutside m (swallow m b c) b.addr 24 :=
  (setSize_keeps _ _ _).trans (setNext_keeps _ _ _)

theorem swallow_chain {m : Memory 64} {b c : Block} {rest : List Block} {lo hi : Nat}
    (hc : Chain m b.addr (b :: c :: rest) 0) (ht : BlockTiles lo (b :: c :: rest) hi)
    (hhi : hi ≤ 2 ^ 64) : Chain (swallow m b c) b.addr (b.merge c :: rest) 0 := by
  obtain ⟨-, hb, hnext, -, hrest⟩ := hc
  refine ⟨rfl, ⟨?_, ?_⟩, ?_⟩
  · simp [swallow, Block.merge]
  · simp [swallow, Block.merge, hb.2]
  · have hn : blockNext (swallow m b c) b.addr = blockNext m c.addr := by simp [swallow]
    rw [hn]
    rw [hnext] at hrest
    refine chain_congr hrest (fun d hd => (swallow_keeps m b c).agree ?_)
    exact cons_header_apart ht hhi (by simp [hd])

theorem mergeNext_swallow {m : Memory 64} {b c : Block} {rest : List Block} {lo hi : Nat}
    (fuel : Nat) (hc : Chain m b.addr (b :: c :: rest) 0) (ht : BlockTiles lo (b :: c :: rest) hi)
    (hhi : hi ≤ 2 ^ 64) (hz : c.addr ≠ 0) (hf : b.isFree = true ∧ c.isFree = true) :
    mergeNext m b.addr (fuel + 1) = mergeNext (swallow m b c) b.addr fuel := by
  obtain ⟨-, hb, hnext, hcc, -⟩ := hc
  have hap : Apart c.addr 24 b.addr 24 := cons_header_apart ht hhi (by simp)
  have hkeep := (setSize_keeps m b.addr (b.size + (headerSize + c.size))).agree hap
  simp only [mergeNext, hnext, hb.1, hb.2, hcc.1, hcc.2, hf, hz, ne_eq, not_false_eq_true,
    and_self, if_true]
  rw [blockNext_congr hkeep]
  rfl

theorem mergeNext_stop {m : Memory 64} {b : Block} {rest : List Block} (fuel : Nat)
    (hc : Chain m b.addr (b :: rest) 0)
    (hs : ∀ c ∈ rest.head?, ¬(b.isFree = true ∧ c.isFree = true)) :
    mergeNext m b.addr (fuel + 1) = some m := by
  obtain ⟨-, hb, hrest⟩ := hc
  cases rest with
  | nil =>
      have hn : blockNext m b.addr = 0 := hrest
      simp only [mergeNext, hn, ne_eq, not_true_eq_false, false_and, and_false, if_false]
  | cons c rest =>
      obtain ⟨hn, hcc, -⟩ := hrest
      have hnot := hs c (by simp)
      simp only [mergeNext, hn, hb.2, hcc.2]
      rw [if_neg (fun h => hnot ⟨h.1, h.2.2⟩)]

-- The two loops from block b on, with any inner fuel that is large enough: what
-- is left of the walk is the coalesced list, and only headers are written.
theorem coalesce_from (rest : List Block) {m : Memory 64} {b : Block} {lo hi : Nat}
    (inner outer : Nat) (hc : Chain m b.addr (b :: rest) 0) (ht : BlockTiles lo (b :: rest) hi)
    (hhi : hi ≤ 2 ^ 64) (hlo : 0 < lo) (hinner : rest.length < inner)
    (houter : rest.length < outer) :
    ∃ m', (match mergeNext m b.addr inner with
        | none => none
        | some m => coalesce m (blockNext m b.addr) outer) = some m' ∧
      Chain m' b.addr (coalesceFrom b rest) 0 ∧ KeepsPayloads m m' (b :: rest) := by
  induction rest generalizing m b lo inner outer with
  | nil =>
      obtain ⟨inner, rfl⟩ : ∃ n, inner = n + 1 := ⟨inner - 1, by simp at hinner; omega⟩
      obtain ⟨outer, rfl⟩ : ∃ n, outer = n + 1 := ⟨outer - 1, by simp at houter; omega⟩
      have hn : blockNext m b.addr = 0 := hc.2.2
      refine ⟨m, ?_, hc, fun _ _ => rfl⟩
      rw [mergeNext_stop inner hc (by simp)]
      simp [coalesce, hn]
  | cons c rest ih =>
      obtain ⟨inner, rfl⟩ : ∃ n, inner = n + 1 := ⟨inner - 1, by simp at hinner; omega⟩
      have hz : c.addr ≠ 0 := tiled_addr_ne_zero ht hlo (by simp)
      by_cases hf : b.isFree = true ∧ c.isFree = true
      · obtain ⟨m', he, hc', hk⟩ := ih inner outer (swallow_chain hc ht hhi) (merge_tiles ht hhi)
          hlo (by simp at hinner; omega) (by simp at houter; omega)
        refine ⟨m', ?_, ?_, ?_⟩
        · rw [mergeNext_swallow inner hc ht hhi hz hf]
          exact he
        · simp only [coalesceFrom, hf, and_self, if_true]
          exact hc'
        · intro x hx
          rw [hk x, swallow_keeps m b c x (hx b (by simp))]
          intro d hd
          rcases List.mem_cons.mp hd with rfl | hd
          · exact hx b (by simp)
          · exact hx d (by simp [hd])
      · obtain ⟨outer, rfl⟩ : ∃ n, outer = n + 1 := ⟨outer - 1, by simp at houter; omega⟩
        have hnext : blockNext m b.addr = c.addr := hc.2.2.1
        have hcc : Chain m c.addr (c :: rest) 0 := hnext ▸ hc.2.2
        have hlen := tiled_length_lt ht hhi
        obtain ⟨m', he, hc', hk⟩ := ih (2 ^ 64) outer hcc ht.2 (by omega)
          (by simp at hlen; omega) (by simp at houter; omega)
        have hb : Agree m m' b.addr 24 := by
          intro x hx
          refine hk x (fun d hd hdx => ?_)
          exact cons_header_apart ht hhi hd x hdx hx
        refine ⟨m', ?_, ?_, fun x hx => hk x (fun d hd => hx d (by simp [hd]))⟩
        · rw [mergeNext_stop inner hc (by simpa using hf)]
          simp only [coalesce, hnext, hz, if_false]
          exact he
        · simp only [coalesceFrom, hf, if_false]
          refine ⟨rfl, ⟨?_, ?_⟩, ?_⟩
          · rw [blockSize_congr hb, hc.2.1.1]
          · rw [blockIsFree_congr hb, hc.2.1.2]
          · rw [blockNext_congr hb, hnext]
            exact hc'

def Block.freed (b : Block) : Block := { b with isFree := true }

theorem payload_ne_zero {h : State} {bs : List Block} (hl : Layout h bs) {b : Block}
    (hb : b ∈ bs) : b.payload ≠ 0 := by
  have hbound := tiles_bounds hl.tiles hb
  have hend := h.heapEnd.isLt
  have hstart : 0 < heapStart.toNat := by decide
  simp only [Block.start, Block.len] at hbound
  simp only [Block.payload, headerSize]
  bv_omega

-- kfree of a block's payload frees that block and coalesces the list.
theorem kfree_block {h : State} {pre post : List Block} {b : Block}
    (hl : Layout h (pre ++ b :: post)) :
    ∃ m', kfree b.payload h = some { h with mem := m' } ∧
      Layout { h with mem := m' } (coalesced (pre ++ b.freed :: post)) ∧
      KeepsPayloads h.mem m' (pre ++ b :: post) := by
  have hhi := h.heapEnd.isLt.le
  have hz := payload_ne_zero hl (b := b) (by simp)
  have hblock : b.payload - headerSize = b.addr := by simp [Block.payload]
  have hkeep := setIsFree_keeps h.mem b.addr true
  have hin : KeepsOutside h.mem (setIsFree h.mem b.addr true) b.addr b.len :=
    hkeep.mono (header_inside b)
  have hh : b.Holds h.mem := segment_holds hl.chain (by simp)
  have hc : Chain (setIsFree h.mem b.addr true) h.head (pre ++ [b.freed] ++ post) 0 :=
    chain_replace hl.chain hl.tiles hhi hin
      ⟨rfl, ⟨by simp [Block.freed, hh.1], by simp [Block.freed]⟩, by simp [Segment]⟩
  have ht : BlockTiles heapStart.toNat (pre ++ [b.freed] ++ post) h.heapEnd.toNat := by
    have := (blockTiles_middle pre post b).mp hl.tiles
    rw [List.append_assoc]
    exact (blockTiles_middle pre post b.freed).mpr this
  rw [List.append_assoc] at hc ht
  simp only [List.singleton_append] at hc ht
  cases hbs : pre ++ b.freed :: post with
  | nil => simp at hbs
  | cons a rest =>
      rw [hbs] at hc ht
      have ha : h.head = a.addr := hc.1
      have hlen := tiled_length_lt ht hhi
      obtain ⟨m', he, hc', hk⟩ := coalesce_from rest (2 ^ 64) (2 ^ 64 - 1) (ha ▸ hc) ht hhi
        (by decide) (by simp at hlen; omega) (by simp at hlen; omega)
      have hanz : a.addr ≠ 0 := tiled_addr_ne_zero ht (by decide) (by simp)
      refine ⟨m', ?_, ⟨ha ▸ hc', coalesceFrom_tiles rest ht hhi⟩, ?_⟩
      · have hco : coalesce (setIsFree h.mem b.addr true) h.head (2 ^ 64) = some m' := by
          rw [show (2 : Nat) ^ 64 = (2 ^ 64 - 1) + 1 by norm_num, coalesce, ha, if_neg hanz]
          exact he
        simp only [kfree, hz, if_false, hblock, hco]
      · intro x hx
        rw [hk x, hkeep x (hx b (by simp))]
        intro d hd
        rw [← hbs, List.mem_append, List.mem_cons] at hd
        rcases hd with hd | rfl | hd
        · exact hx d (by simp [hd])
        · exact hx b (by simp)
        · exact hx d (by simp [hd])

end Miyabi.Mm.Heap
