import Miyabi.Modules.Loader.Leaks

namespace Miyabi.Modules

open Miyabi.Base Miyabi.Base.Memory Miyabi.Elf

section Sums

variable (m : Memory 64) (shdrs : BitVec 64)

-- The offset that both passes have behind the first n sections.
def offsetAt : ℕ → BitVec 64
  | 0 => 0
  | n + 1 =>
      if IsAlloc m (shdr shdrs n) then
        alignOffset (offsetAt n) (shAddralign m (shdr shdrs n)) + shSize m (shdr shdrs n)
      else offsetAt n

def startOf (i : ℕ) : BitVec 64 := alignOffset (offsetAt m shdrs i) (shAddralign m (shdr shdrs i))

def placement (base : BitVec 64) (i : ℕ) : Placement :=
  ⟨shdr shdrs i, shAddralign m (shdr shdrs i), shSize m (shdr shdrs i), base + startOf m shdrs i⟩

-- The first n sections as they follow one another, the last first.
def layout (base : BitVec 64) : ℕ → List Placement
  | 0 => []
  | n + 1 =>
      if IsAlloc m (shdr shdrs n) then placement m shdrs base n :: layout base n
      else layout base n

-- Neither the rounding up nor the sum with sh_size leaves 64 bits.
def NoWrap (n : ℕ) : Prop :=
  ∀ i < n, IsAlloc m (shdr shdrs i) →
    (offsetAt m shdrs i).toNat + (shAddralign m (shdr shdrs i)).toNat ≤ 2 ^ 64 ∧
      (startOf m shdrs i).toNat + (shSize m (shdr shdrs i)).toNat < 2 ^ 64

instance (n : ℕ) : Decidable (NoWrap m shdrs n) := inferInstanceAs (Decidable (∀ i < n, _ → _ ∧ _))

-- sh_addralign as the ELF format has it.
def PowerAligned (n : ℕ) : Prop :=
  ∀ i < n, IsAlloc m (shdr shdrs i) →
    shAddralign m (shdr shdrs i) = 0 ∨ ∃ k, (shAddralign m (shdr shdrs i)).toNat = 2 ^ k

end Sums

section Rounding

variable {offset align : BitVec 64}

theorem alignOffset_zero (align : BitVec 64) : alignOffset 0 align = 0 := by
  unfold alignOffset
  split
  · rw [zero_add, BitVec.and_not_self]
  · rfl

theorem le_alignOffset (h : offset.toNat + align.toNat ≤ 2 ^ 64) :
    offset.toNat ≤ (alignOffset offset align).toNat := by
  unfold alignOffset
  split
  · rename_i hlt
    have hone : 1 < align.toNat := hlt
    have hmask := Word.toNat_sub_one align (by omega)
    have hsum : offset + align - 1 = offset + (align - 1) := by ring
    rw [hsum]
    exact Word.le_add_and_not offset (align - 1) (by omega)
  · exact le_rfl

-- Past the end of the address space a power of two rounds to 0.
theorem alignOffset_wrap {k : ℕ} (hpow : align.toNat = 2 ^ k)
    (h : 2 ^ 64 < offset.toNat + align.toNat) : alignOffset offset align = 0 := by
  have hoffset := offset.isLt
  have hlt : 1 < align := BitVec.lt_def.mpr (show 1 < align.toNat by omega)
  have hmask := Word.toNat_sub_one align (by omega)
  have hsum : offset + align - 1 = offset + (align - 1) := by ring
  have hwhole : 2 ^ k ∣ 2 ^ 64 := by
    have hk : k < 64 := by
      have := align.isLt
      rw [hpow] at this
      exact (Nat.pow_lt_pow_iff_right (by decide)).mp this
    exact pow_dvd_pow 2 hk.le
  have hlow : (offset + (align - 1)).toNat = offset.toNat + align.toNat - 1 - 2 ^ 64 := by
    rw [BitVec.toNat_add, hmask]
    have := align.isLt
    omega
  rw [alignOffset, if_pos hlt, hsum]
  apply BitVec.eq_of_toNat_eq
  rw [Word.toNat_and_not_mask _ _ k (hpow ▸ hmask), hlow]
  have hsmall : offset.toNat + align.toNat - 1 - 2 ^ 64 < 2 ^ k := by omega
  rw [Nat.div_eq_of_lt hsmall, Nat.zero_mul]
  rfl

end Rounding

section Offsets

variable {m : Memory 64} {shdrs : BitVec 64} {n : ℕ}

theorem offsetAt_alloc {i : ℕ} (h : IsAlloc m (shdr shdrs i)) :
    offsetAt m shdrs (i + 1) = startOf m shdrs i + shSize m (shdr shdrs i) := by
  rw [offsetAt, if_pos h]
  rfl

theorem offsetAt_skip {i : ℕ} (h : ¬IsAlloc m (shdr shdrs i)) :
    offsetAt m shdrs (i + 1) = offsetAt m shdrs i := by
  rw [offsetAt, if_neg h]

theorem mem_layout {base : BitVec 64} {p : Placement} :
    p ∈ layout m shdrs base n ↔
      ∃ i < n, IsAlloc m (shdr shdrs i) ∧ p = placement m shdrs base i := by
  induction n with
  | zero => simp [layout]
  | succ n ih =>
      rw [layout]
      split
      · rename_i halloc
        rw [List.mem_cons, ih]
        constructor
        · rintro (rfl | ⟨i, hi, h⟩)
          · exact ⟨n, Nat.lt_succ_self n, halloc, rfl⟩
          · exact ⟨i, Nat.lt_succ_of_lt hi, h⟩
        · rintro ⟨i, hi, h, rfl⟩
          rcases Nat.lt_succ_iff_lt_or_eq.mp hi with hlt | rfl
          · exact Or.inr ⟨i, hlt, h, rfl⟩
          · exact Or.inl rfl
      · rename_i hskip
        rw [ih]
        refine exists_congr fun i => and_congr_left fun h => ⟨Nat.lt_succ_of_lt, fun hi => ?_⟩
        refine (Nat.lt_succ_iff_lt_or_eq.mp hi).resolve_right ?_
        rintro rfl
        exact hskip h.1

theorem layout_pairwise {base : BitVec 64} {R : Placement → Placement → Prop} :
    (layout m shdrs base n).Pairwise R ↔
      ∀ j < n, IsAlloc m (shdr shdrs j) → ∀ i < j, IsAlloc m (shdr shdrs i) →
        R (placement m shdrs base j) (placement m shdrs base i) := by
  induction n with
  | zero => simp [layout]
  | succ n ih =>
      have hsplit (P : ℕ → Prop) : (∀ j < n + 1, P j) ↔ P n ∧ ∀ j < n, P j := by
        rw [Nat.forall_lt_succ_right, and_comm]
      rw [hsplit, layout]
      split
      · rename_i halloc
        rw [List.pairwise_cons, ih]
        refine and_congr_left fun _ => ?_
        constructor
        · intro hall _ i hi h
          exact hall _ (mem_layout.mpr ⟨i, hi, h, rfl⟩)
        · intro hall p hp
          obtain ⟨i, hi, h, rfl⟩ := mem_layout.mp hp
          exact hall halloc i hi h
      · rename_i hskip
        rw [ih]
        exact ⟨fun hall => ⟨fun h => absurd h hskip, hall⟩, And.right⟩

namespace NoWrap

theorem offsetAt_succ (h : NoWrap m shdrs n) {i : ℕ} (hi : i < n)
    (halloc : IsAlloc m (shdr shdrs i)) :
    (offsetAt m shdrs (i + 1)).toNat =
      (startOf m shdrs i).toNat + (shSize m (shdr shdrs i)).toNat := by
  rw [offsetAt_alloc halloc, BitVec.toNat_add_of_lt (h i hi halloc).2]

theorem le_startOf (h : NoWrap m shdrs n) {i : ℕ} (hi : i < n)
    (halloc : IsAlloc m (shdr shdrs i)) :
    (offsetAt m shdrs i).toNat ≤ (startOf m shdrs i).toNat :=
  le_alignOffset (h i hi halloc).1

theorem monotone (h : NoWrap m shdrs n) {i j : ℕ} (hij : i ≤ j) (hj : j ≤ n) :
    (offsetAt m shdrs i).toNat ≤ (offsetAt m shdrs j).toNat := by
  induction j, hij using Nat.le_induction with
  | base => exact le_rfl
  | succ j hij ih =>
      have hlast := ih (by omega)
      by_cases halloc : IsAlloc m (shdr shdrs j)
      · have hstart := h.le_startOf hj halloc
        have hsucc := h.offsetAt_succ hj halloc
        omega
      · rw [offsetAt_skip halloc]
        exact hlast

theorem inside (h : NoWrap m shdrs n) {i : ℕ} (hi : i < n) (halloc : IsAlloc m (shdr shdrs i)) :
    (startOf m shdrs i).toNat + (shSize m (shdr shdrs i)).toNat ≤ (offsetAt m shdrs n).toNat := by
  rw [← h.offsetAt_succ hi halloc]
  exact h.monotone hi le_rfl

theorem ordered (h : NoWrap m shdrs n) {i j : ℕ} (hij : i < j) (hj : j < n)
    (hi : IsAlloc m (shdr shdrs i)) (halloc : IsAlloc m (shdr shdrs j)) :
    (startOf m shdrs i).toNat + (shSize m (shdr shdrs i)).toNat ≤ (startOf m shdrs j).toNat := by
  rw [← h.offsetAt_succ (by omega) hi]
  exact (h.monotone hij hj.le).trans (h.le_startOf hj halloc)

end NoWrap

theorem spans_start {base start size : BitVec 64} {k : ℕ} :
    Spans base size (base + start) k ↔ start.toNat + k ≤ size.toNat := by
  rw [Spans, add_sub_cancel_left]

theorem NoWrap.layout_inside (h : NoWrap m shdrs n) {base : BitVec 64} :
    ∀ p ∈ layout m shdrs base n, Spans base (offsetAt m shdrs n) p.addr p.size.toNat := by
  intro p hp
  obtain ⟨i, hi, halloc, rfl⟩ := mem_layout.mp hp
  exact spans_start.mpr (h.inside hi halloc)

theorem NoWrap.layout_apart (h : NoWrap m shdrs n) {base : BitVec 64} :
    (layout m shdrs base n).Pairwise fun p q =>
      Apart p.addr p.size.toNat q.addr q.size.toNat := by
  refine layout_pairwise.mpr fun j hj halloc i hij hi => ?_
  have hafter := h.ordered hij hj hi halloc
  have hend := (h j hj halloc).2
  have hapart := apart_offsets base hafter hend.le
  rw [BitVec.ofNat_toNat, BitVec.setWidth_eq, BitVec.ofNat_toNat, BitVec.setWidth_eq] at hapart
  exact hapart.symm

-- What moves the offset away from 0 is a section of at least one byte at 0.
theorem exists_first (h : 0 < (offsetAt m shdrs n).toNat) :
    ∃ j < n, IsAlloc m (shdr shdrs j) ∧ startOf m shdrs j = 0 ∧
      0 < (shSize m (shdr shdrs j)).toNat := by
  induction n with
  | zero => exact absurd h (Nat.lt_irrefl 0)
  | succ n ih =>
      by_cases hold : 0 < (offsetAt m shdrs n).toNat
      · obtain ⟨j, hj, hfirst⟩ := ih hold
        exact ⟨j, Nat.lt_succ_of_lt hj, hfirst⟩
      · have hzero : offsetAt m shdrs n = 0 := BitVec.eq_of_toNat_eq (Nat.eq_zero_of_not_pos hold)
        have halloc : IsAlloc m (shdr shdrs n) := by
          by_contra hskip
          rw [offsetAt_skip hskip] at h
          exact hold h
        have hstart : startOf m shdrs n = 0 := by rw [startOf, hzero, alignOffset_zero]
        rw [offsetAt_alloc halloc, hstart, zero_add] at h
        exact ⟨n, Nat.lt_succ_self n, halloc, hstart, h⟩

-- With powers of two, sums that wrap put a section over another or leave the image.
theorem noWrap_of_layout {base : BitVec 64} (hpow : PowerAligned m shdrs n)
    (hinside : ∀ p ∈ layout m shdrs base n, Spans base (offsetAt m shdrs n) p.addr p.size.toNat)
    (hapart : (layout m shdrs base n).Pairwise fun p q =>
      Apart p.addr p.size.toNat q.addr q.size.toNat) : NoWrap m shdrs n := by
  have hend (i : ℕ) (hi : i < n) (halloc : IsAlloc m (shdr shdrs i)) :
      (startOf m shdrs i).toNat + (shSize m (shdr shdrs i)).toNat ≤ (offsetAt m shdrs n).toNat := by
    have hspans : Spans base (offsetAt m shdrs n) (base + startOf m shdrs i)
        (shSize m (shdr shdrs i)).toNat :=
      hinside (placement m shdrs base i) (mem_layout.mpr ⟨i, hi, halloc, rfl⟩)
    exact spans_start.mp hspans
  intro i hi halloc
  have hbound := (offsetAt m shdrs n).isLt
  have hlast := hend i hi halloc
  refine ⟨?_, by omega⟩
  by_contra hwrap
  have halign := (shAddralign m (shdr shdrs i)).isLt
  have hstart : startOf m shdrs i = 0 := by
    rcases hpow i hi halloc with hzero | ⟨k, hk⟩
    · have hoffset := (offsetAt m shdrs i).isLt
      rw [hzero] at hwrap
      exact absurd hoffset.le hwrap
    · exact alignOffset_wrap hk (Nat.lt_of_not_le hwrap)
  have hfar : 0 < (offsetAt m shdrs i).toNat := by omega
  obtain ⟨j, hji, hj, hjstart, hjsize⟩ := exists_first hfar
  have hempty (k : ℕ) (hik : i ≤ k) (hk : k < n) (hkalloc : IsAlloc m (shdr shdrs k))
      (hkstart : startOf m shdrs k = 0) : shSize m (shdr shdrs k) = 0 := by
    by_contra hne
    have hsize : 0 < (shSize m (shdr shdrs k)).toNat :=
      Nat.pos_of_ne_zero fun hz => hne (BitVec.eq_of_toNat_eq hz)
    have hboth : Apart (base + startOf m shdrs k) (shSize m (shdr shdrs k)).toNat
        (base + startOf m shdrs j) (shSize m (shdr shdrs j)).toNat :=
      layout_pairwise.mp hapart k hk hkalloc j (by omega) hj
    rw [hkstart, hjstart] at hboth
    exact hboth _ (inRange_self _ _ hsize) (inRange_self _ _ hjsize)
  have hzero (k : ℕ) (hik : i + 1 ≤ k) : k ≤ n → offsetAt m shdrs k = 0 := by
    induction k, hik using Nat.le_induction with
    | base =>
        intro _
        rw [offsetAt_alloc halloc, hstart, hempty i le_rfl hi halloc hstart, zero_add]
    | succ k hik ih =>
        intro hk
        have hprev := ih (by omega)
        by_cases hkalloc : IsAlloc m (shdr shdrs k)
        · have hkstart : startOf m shdrs k = 0 := by rw [startOf, hprev, alignOffset_zero]
          rw [offsetAt_alloc hkalloc, hkstart, hempty k (by omega) hk hkalloc hkstart, zero_add]
        · rw [offsetAt_skip hkalloc, hprev]
  have htotal := hend j (by omega) hj
  rw [hzero n hi le_rfl, hjstart] at htotal
  exact absurd hjsize (Nat.not_lt_of_le (by simpa using htotal))

end Offsets

section First

variable {m : Memory 64} {ehdr shdrs fileSize total : BitVec 64}

-- The first pass comes to the sum, and each section it counts lies in the file.
theorem totalMemorySize_offsetAt {fuel i : ℕ} (hi : i ≤ (eShnum m ehdr).toNat)
    (hfuel : (eShnum m ehdr).toNat ≤ fuel + i)
    (h : totalMemorySize ehdr shdrs fileSize m fuel i (offsetAt m shdrs i) = some total) :
    total = offsetAt m shdrs (eShnum m ehdr).toNat ∧
      ∀ j, i ≤ j → j < (eShnum m ehdr).toNat → IsAlloc m (shdr shdrs j) →
        shType m (shdr shdrs j) ≠ shtNobits → inFile fileSize m (shdr shdrs j) = true := by
  induction fuel generalizing i with
  | zero =>
      obtain rfl : i = (eShnum m ehdr).toNat := by omega
      rw [totalMemorySize] at h
      exact ⟨(Option.some.inj h).symm, fun j hij hj => by omega⟩
  | succ fuel ih =>
      rw [totalMemorySize] at h
      split at h
      · rename_i hlt
        dsimp only at h
        split at h
        · rename_i halloc
          split at h
          · cases h
          · rename_i hfile
            rw [show alignOffset (offsetAt m shdrs i) (shAddralign m (shdr shdrs i)) +
              shSize m (shdr shdrs i) = _ from (offsetAt_alloc halloc).symm] at h
            obtain ⟨htotal, hrest⟩ := ih hlt (by omega) h
            refine ⟨htotal, fun j hij hj hjalloc htype => ?_⟩
            rcases Nat.lt_or_eq_of_le hij with hlater | rfl
            · exact hrest j hlater hj hjalloc htype
            · rw [inFile, Bool.not_eq_true', Bool.or_eq_false_iff, decide_eq_false_iff_not,
                decide_eq_false_iff_not]
              exact not_or.mp fun hor => hfile ⟨htype, hor⟩
        · rename_i hskip
          rw [← offsetAt_skip hskip] at h
          obtain ⟨htotal, hrest⟩ := ih hlt (by omega) h
          refine ⟨htotal, fun j hij hj hjalloc => ?_⟩
          rcases Nat.lt_or_eq_of_le hij with hlater | rfl
          · exact hrest j hlater hj hjalloc
          · exact absurd hjalloc hskip
      · obtain rfl : i = (eShnum m ehdr).toNat := by omega
        exact ⟨(Option.some.inj h).symm, fun j hij hj => by omega⟩

end First

end Miyabi.Modules
