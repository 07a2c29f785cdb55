import Miyabi.Mm.Vmm.Rights

namespace Miyabi.Mm.Vmm

open Miyabi.Base Miyabi.Base.Memory Miyabi.Base.TableTree

-- The address that turn i of a range function works on.
def turn (x : BitVec 64) (i : ℕ) : BitVec 64 := x + BitVec.ofNat 64 i * pageSize

def rangeEntry (phys flags : BitVec 64) (i : ℕ) : BitVec 64 :=
  (turn phys i &&& ~~~0xFFF) ||| flags ||| ptePresent

-- A page with an address of the interval.
def Meets (virt size : BitVec 64) (page : BitVec 36) : Prop :=
  ∃ a, InRange virt size.toNat a ∧ pageNumber a = page

-- [virt, virt + size) lies in the lower or in the upper half of the address space.
def InHalf (virt size : BitVec 64) : Prop :=
  virt.toNat + size.toNat ≤ 2 ^ 47 ∨
    (2 ^ 64 - 2 ^ 47 ≤ virt.toNat ∧ virt.toNat + size.toNat ≤ 2 ^ 64)

section Pages

variable {virt size : BitVec 64} {i j : ℕ}

theorem toNat_pageNumber (a : BitVec 64) : (pageNumber a).toNat = a.toNat / 4096 % 2 ^ 36 := by
  rw [pageNumber, BitVec.extractLsb'_toNat, Nat.shiftRight_eq_div_pow]

theorem toNat_turn (x : BitVec 64) (i : ℕ) : (turn x i).toNat = (x.toNat + 4096 * i) % 2 ^ 64 := by
  have hpage : (4096 : BitVec 64).toNat = 4096 := rfl
  simp only [turn, pageSize, BitVec.toNat_add, BitVec.toNat_mul, BitVec.toNat_ofNat, hpage]
  omega

theorem pageNumber_turn (virt : BitVec 64) (i : ℕ) :
    (pageNumber (turn virt i)).toNat = (virt.toNat / 4096 + i) % 2 ^ 36 := by
  rw [toNat_pageNumber, toNat_turn]
  omega

theorem turn_injective (hi : i < 2 ^ 36) (hj : j < 2 ^ 36)
    (h : pageNumber (turn virt i) = pageNumber (turn virt j)) : i = j := by
  have hnat := congrArg BitVec.toNat h
  rw [pageNumber_turn, pageNumber_turn] at hnat
  omega

theorem toNat_rangePages (hsize : size.toNat ≤ 2 ^ 47) :
    (rangePages size).toNat = (size.toNat + 4095) / 4096 := by
  have hpage : (4096 : BitVec 64).toNat = 4096 := rfl
  have hsum : (size + 4096 - 1).toNat = size.toNat + 4095 := by bv_omega
  rw [rangePages, pageSize, BitVec.toNat_udiv, hpage, hsum]

theorem InHalf.size_le (h : InHalf virt size) : size.toNat ≤ 2 ^ 47 := by
  unfold InHalf at h
  have := virt.isLt
  omega

-- The pages of the interval are those of the first turns.
theorem meets_iff (hhalf : InHalf virt size) (page : BitVec 36) :
    Meets virt size page ↔ ∃ i, page = pageNumber (turn virt i) ∧ size ≠ 0 ∧
      4096 * i < virt.toNat % 4096 + size.toNat := by
  unfold InHalf at hhalf
  constructor
  · rintro ⟨a, ha, rfl⟩
    rw [inRange_iff virt a _ (by omega)] at ha
    refine ⟨(virt.toNat % 4096 + (a.toNat - virt.toNat)) / 4096, ?_, ?_, by omega⟩
    · apply BitVec.eq_of_toNat_eq
      rw [pageNumber_turn, toNat_pageNumber]
      omega
    · rintro rfl
      simp only [BitVec.ofNat_eq_ofNat, BitVec.toNat_ofNat] at ha
      omega
  · rintro ⟨i, rfl, hne, hi⟩
    have hsize : 0 < size.toNat := by
      rw [Nat.pos_iff_ne_zero]
      exact fun h => hne (BitVec.eq_of_toNat_eq h)
    refine ⟨virt + BitVec.ofNat 64 (4096 * i - virt.toNat % 4096), inRange_add virt _ _ (by omega), ?_⟩
    apply BitVec.eq_of_toNat_eq
    rw [pageNumber_turn, toNat_pageNumber, BitVec.toNat_add, BitVec.toNat_ofNat]
    omega

end Pages

section Turns

variable {σ : Type} {alloc : Memory 64 → σ → BitVec 64 × Memory 64 × σ} {R : Set (BitVec 64)}
variable {hhdm root virt phys flags : BitVec 64} {m0 : Memory 64} {s s' : State σ} {n k : ℕ}

-- n turns of vmm_map_range, against the memory before them.
structure MapTurned (R : Set (BitVec 64)) (hhdm root virt phys flags : BitVec 64) (m0 : Memory 64)
    (n : ℕ) (s : State σ) : Prop where
  offset : s.hhdmOffset = hhdm
  pml4 : s.pml4 = root + hhdm
  wellFormed : WellFormed hhdm root s.mem
  spares : ∀ f ∈ tables everywhere hhdm s.mem root, Spares R hhdm f
  mapped : ∀ i < n, leafEntry hhdm s.mem root (pageNumber (turn virt i)) = rangeEntry phys flags i
  kept : ∀ page, (∀ i < n, page ≠ pageNumber (turn virt i)) →
    leafEntry hhdm s.mem root page = leafEntry hhdm m0 root page
  leaf : ∀ i < n, (tableAt hhdm s.mem root (tablePath (pageNumber (turn virt i)))).isSome = true

-- The frames that pmm_alloc returns during the maps are no tables of the tree and do not
-- hold pmm_alloc's own data.
def RangePermitted (alloc : Memory 64 → σ → BitVec 64 × Memory 64 × σ) (R : Set (BitVec 64))
    (root virt phys flags : BitVec 64) (n : ℕ) (s : State σ) : Prop :=
  ∀ i < n, ∀ si, mapTurns alloc virt phys flags i s = some si →
    Permitted alloc R root si (.map (turn virt i) (turn phys i) flags)

theorem mapTurns_turned (hfoot : Footprint alloc R) (hh : s.hhdmOffset = hhdm)
    (hroot : s.pml4 = root + hhdm) (hwell : WellFormed hhdm root s.mem)
    (hs : ∀ f ∈ tables everywhere hhdm s.mem root, Spares R hhdm f) (hn : n ≤ 2 ^ 36)
    (hp : RangePermitted alloc R root virt phys flags n s)
    (he : mapTurns alloc virt phys flags n s = some s') :
    MapTurned R hhdm root virt phys flags s.mem n s' := by
  induction n generalizing s' with
  | zero =>
      cases he
      exact ⟨hh, hroot, hwell, hs, fun i hi => absurd hi (Nat.not_lt_zero i), fun _ _ => rfl,
        fun i hi => absurd hi (Nat.not_lt_zero i)⟩
  | succ n ih =>
      rw [mapTurns] at he
      cases hfront : mapTurns alloc virt phys flags n s with
      | none => simp [hfront] at he
      | some sn =>
          simp only [hfront] at he
          have h := ih (by omega) (fun i hi => hp i (by omega)) hfront
          obtain ⟨new, hlog, -, hm, hwell', hspares⟩ := vmmMapPage_mapped hfoot h.offset h.pml4
            h.wellFormed h.spares (hp n (by omega) sn hfront) he
          have hentry := fun q => leafEntry_page hm.leaves q trivial
          refine ⟨hlog.hhdm.trans h.offset, hlog.pml4.trans h.pml4, hwell', hspares, ?_, ?_, ?_⟩
          · intro i hi
            rw [hentry]
            by_cases hlast : i = n
            · rw [hlast, if_pos rfl]
              rfl
            · rw [if_neg (fun hpage => hlast (turn_injective (by omega) (by omega) hpage))]
              exact h.mapped i (by omega)
          · intro page hpage
            rw [hentry, if_neg (hpage n (by omega))]
            exact h.kept page (fun i hi => hpage i (by omega))
          · intro i hi
            by_cases hlast : i = n
            · rw [hlast]
              exact hm.leaf
            · exact extends_keeps_leaf hm.toExtends _ (h.leaf i (by omega))

-- While pmm_alloc has three fresh frames for each turn, all turns are permitted and return.
theorem Supplied.turns {l : List (BitVec 64)} (h : Supplied alloc R hhdm root s l)
    (virt phys flags : BitVec 64) (hfoot : Footprint alloc R) (hh : s.hhdmOffset = hhdm) (hroot : s.pml4 = root + hhdm)
    (hwell : WellFormed hhdm root s.mem)
    (hs : ∀ f ∈ tables everywhere hhdm s.mem root, Spares R hhdm f)
    (hptr : ∀ p ∈ l, p + hhdm ≠ 0) (hlen : 3 * n ≤ l.length) (hn : n ≤ 2 ^ 36) :
    RangePermitted alloc R root virt phys flags n s ∧
      ∃ s' front rest, mapTurns alloc virt phys flags n s = some s' ∧ l = front ++ rest ∧
        front.length ≤ 3 * n ∧ Supplied alloc R hhdm root s' rest := by
  induction n with
  | zero => exact ⟨fun i hi => absurd hi (Nat.not_lt_zero i), s, [], l, rfl, rfl, le_rfl, h⟩
  | succ n ih =>
      obtain ⟨hp, sn, front, rest, he, rfl, hfront, hrest⟩ := ih (by omega) (by omega)
      have ht := mapTurns_turned hfoot hh hroot hwell hs (by omega) hp he
      rw [List.length_append] at hlen
      have hthree : 3 ≤ rest.length := by omega
      obtain ⟨s', new, rest', he', -, rfl, hnew, hs'⟩ := hrest.map hfoot ht.offset ht.pml4
        ht.wellFormed ht.spares hthree (turn virt n) (turn phys n) flags
      refine ⟨?_, s', front ++ new, rest', ?_, (List.append_assoc ..).symm, ?_, hs'⟩
      · intro i hi si hsi
        by_cases hlast : i = n
        · subst hlast
          obtain rfl : sn = si := Option.some.inj (he.symm.trans hsi)
          have hoff := ht.offset
          subst hoff
          exact hrest.permits hfoot ht.pml4 ht.wellFormed ht.spares hthree
            (fun p hp => hptr p (List.mem_append_right _ hp)) _ _ _
        · exact hp i (by omega) si hsi
      · simp only [mapTurns, he]
        exact he'
      · rw [List.length_append]
        omega

-- k turns of vmm_unmap_range over the pages of n maps.
structure UnmapTurned (R : Set (BitVec 64)) (hhdm root virt : BitVec 64) (m0 : Memory 64) (n k : ℕ)
    (s : State σ) : Prop where
  offset : s.hhdmOffset = hhdm
  pml4 : s.pml4 = root + hhdm
  wellFormed : WellFormed hhdm root s.mem
  spares : ∀ f ∈ tables everywhere hhdm s.mem root, Spares R hhdm f
  cleared : ∀ i < k, leafEntry hhdm s.mem root (pageNumber (turn virt i)) = 0
  kept : ∀ page, (∀ i < k, page ≠ pageNumber (turn virt i)) →
    leafEntry hhdm s.mem root page = leafEntry hhdm m0 root page
  leaf : ∀ i < n, (tableAt hhdm s.mem root (tablePath (pageNumber (turn virt i)))).isSome = true

theorem unmapTurns_turned (h : MapTurned R hhdm root virt phys flags m0 n s) (hn : n ≤ 2 ^ 36)
    (hk : k ≤ n) : UnmapTurned R hhdm root virt s.mem n k (unmapTurns virt k s) := by
  induction k with
  | zero =>
      exact ⟨h.offset, h.pml4, h.wellFormed, h.spares, fun i hi => absurd hi (Nat.not_lt_zero i),
        fun _ _ => rfl, h.leaf⟩
  | succ k ih =>
      have hu := ih (by omega)
      rw [unmapTurns]
      generalize unmapTurns virt k s = sk at hu ⊢
      obtain ⟨m', hrun, hext, hentry, -⟩ := vmmUnmapPage_unmapped hu.offset hu.pml4 hu.wellFormed
        hu.spares (hu.leaf k (by omega))
      have hturn : vmmUnmapPage (virt + BitVec.ofNat 64 k * pageSize) sk = { sk with mem := m' } := hrun
      rw [hturn]
      refine ⟨hu.offset, hu.pml4, wellFormed_extends hu.wellFormed hext (by simp),
        hext.spares hu.spares ⟨List.nodup_nil, by simp, by simp, by simp⟩, ?_, ?_, ?_⟩
      · intro i hi
        rw [hentry]
        by_cases hlast : i = k
        · rw [hlast, if_pos rfl]
        · rw [if_neg (fun hpage => hlast (turn_injective (by omega) (by omega) hpage))]
          exact hu.cleared i (by omega)
      · intro page hpage
        rw [hentry, if_neg (hpage k (by omega))]
        exact hu.kept page (fun i hi => hpage i (by omega))
      · intro i hi
        exact extends_keeps_leaf hext _ (hu.leaf i hi)

end Turns

section Translation

variable {hhdm root a : BitVec 64} {m : Memory 64}

-- The physical address that a virtual one translates to.
def translate (hhdm : BitVec 64) (m : Memory 64) (root a : BitVec 64) : Option (BitVec 64) :=
  (hardwareWalk hhdm m root a).map (fun frame => frame + (a &&& 0xFFF))

theorem present_of_translate (hwell : WellFormed hhdm root m) {phys : BitVec 64}
    (h : translate hhdm m root a = some phys) : Present (leafEntry hhdm m root (pageNumber a)) := by
  obtain ⟨frame, hframe, -⟩ := Option.map_eq_some_iff.mp h
  rw [hardwareWalk_eq_frame] at hframe
  obtain ⟨access, haccess, -⟩ := Option.map_eq_some_iff.mp hframe
  exact present_of_access (hwell.plainWalk _) haccess

theorem translate_of_leaf (h : Present (leafEntry hhdm m root (pageNumber a))) :
    translate hhdm m root a =
      some (entryFrame (leafEntry hhdm m root (pageNumber a)) + (a &&& 0xFFF)) := by
  rw [translate, hardwareWalk_of_leaf h, Option.map_some]

end Translation

section Covering

variable {σ : Type} {R : Set (BitVec 64)} {hhdm root virt phys size flags : BitVec 64} {s s' : State σ}

-- What a caller of vmm_map_range and then vmm_unmap_range counts on.
structure RangeCovered (hhdm root virt phys size : BitVec 64) (m : Memory 64)
    (s' : State σ) : Prop where
  covers : ∀ a, InRange virt size.toNat a →
    translate hhdm s'.mem root a = some (phys + (a - virt))
  others : ∀ page, ¬Meets virt size page →
    leafEntry hhdm s'.mem root page = leafEntry hhdm m root page
  cleared : ∀ page, Meets virt size page →
    ¬Present (leafEntry hhdm (vmmUnmapRange virt size s').mem root page)
  spared : ∀ page, ¬Meets virt size page →
    leafEntry hhdm (vmmUnmapRange virt size s').mem root page = leafEntry hhdm s'.mem root page

-- The turns of the loops reach the last page of the interval.
def TurnsReach (virt size : BitVec 64) : Prop :=
  virt.toNat % 4096 + size.toNat ≤ 4096 * (rangePages size).toNat

instance (virt size : BitVec 64) : Decidable (TurnsReach virt size) :=
  inferInstanceAs (Decidable (_ ≤ _))

-- The leaf entries name the frames: neither the flags nor the physical addresses
-- have bits where the other belongs.
def FramesFit (phys size flags : BitVec 64) : Prop :=
  ∀ i < (rangePages size).toNat, entryFrame (rangeEntry phys flags i) = turn phys i &&& ~~~0xFFF

theorem rangeEntry_present (phys flags : BitVec 64) (i : ℕ) : Present (rangeEntry phys flags i) := by
  refine and_ne_zero_of_or ?_
  decide

theorem pages_le (hhalf : InHalf virt size) : (rangePages size).toNat ≤ 2 ^ 36 := by
  have hsize := hhalf.size_le
  rw [toNat_rangePages hsize]
  omega

theorem unmapRange_turned (hhalf : InHalf virt size)
    (hm : MapTurned R hhdm root virt phys flags s.mem (rangePages size).toNat s') :
    UnmapTurned R hhdm root virt s'.mem (rangePages size).toNat (rangePages size).toNat
      (vmmUnmapRange virt size s') :=
  unmapTurns_turned hm (pages_le hhalf) le_rfl

-- The first page that the turns do not reach keeps its leaf entry in both functions.
theorem turnsReach_of_covered (hhalf : InHalf virt size) (hne : size ≠ 0)
    (hm : MapTurned R hhdm root virt phys flags s.mem (rangePages size).toNat s')
    (hc : RangeCovered hhdm root virt phys size s.mem s') : TurnsReach virt size := by
  by_contra hreach
  rw [TurnsReach, not_le] at hreach
  have hu := unmapRange_turned hhalf hm
  have hpages := pages_le hhalf
  have hsize := hhalf.size_le
  have hcount := toNat_rangePages hsize
  generalize (rangePages size).toNat = n at *
  have hmeets := (meets_iff hhalf (pageNumber (turn virt n))).mpr ⟨n, rfl, hne, hreach⟩
  obtain ⟨a, ha, hpage⟩ := hmeets
  have hkept := hu.kept (pageNumber (turn virt n)) (fun i hi h => by
    have := turn_injective (by omega) (by omega) h
    omega)
  have hpres := present_of_translate hm.wellFormed (hc.covers a ha)
  rw [hpage, ← hkept] at hpres
  exact hc.cleared _ ⟨a, ha, hpage⟩ hpres

theorem and_not_add_and (x mask : BitVec 64) : (x &&& ~~~mask) + (x &&& mask) = x := by
  apply BitVec.eq_of_toNat_eq
  have h := Word.toNat_and_not_add x mask
  rw [BitVec.toNat_add_of_lt (by have := x.isLt; omega), h]

theorem framesFit_of_covered (hcong : virt.toNat % 4096 = phys.toNat % 4096) (hhalf : InHalf virt size)
    (hm : MapTurned R hhdm root virt phys flags s.mem (rangePages size).toNat s')
    (hc : RangeCovered hhdm root virt phys size s.mem s') : FramesFit phys size flags := by
  intro i hi
  have hsize := hhalf.size_le
  have hcount := toNat_rangePages hsize
  have hin : InRange virt size.toNat (turn virt i) := by
    rw [InRange, turn, add_sub_cancel_left, BitVec.toNat_mul, pageSize, BitVec.toNat_ofNat]
    simp only [BitVec.ofNat_eq_ofNat, BitVec.toNat_ofNat]
    omega
  have hentry := hm.mapped i hi
  have hpres := rangeEntry_present phys flags i
  rw [← hentry] at hpres
  have htrans := hc.covers _ hin
  rw [translate_of_leaf hpres, hentry, Option.some.injEq] at htrans
  have hphys : phys + (turn virt i - virt) = turn phys i := by
    rw [turn, turn, add_sub_cancel_left]
  have hlow : turn virt i &&& 0xFFF = turn phys i &&& 0xFFF := by
    apply BitVec.eq_of_toNat_eq
    rw [Word.toNat_and_mask _ 0xFFF 12 (by decide), Word.toNat_and_mask _ 0xFFF 12 (by decide),
      toNat_turn, toNat_turn]
    omega
  rw [hphys, hlow] at htrans
  exact add_right_cancel (htrans.trans (and_not_add_and _ 0xFFF).symm)

theorem meets_turns (hhalf : InHalf virt size) (hreach : size = 0 ∨ TurnsReach virt size)
    (page : BitVec 36) : Meets virt size page ↔
      ∃ i < (rangePages size).toNat, page = pageNumber (turn virt i) := by
  have hcount := toNat_rangePages hhalf.size_le
  rw [meets_iff hhalf]
  constructor
  · rintro ⟨i, rfl, hne, hi⟩
    have hle := hreach.resolve_left hne
    rw [TurnsReach] at hle
    exact ⟨i, by omega, rfl⟩
  · rintro ⟨i, hi, rfl⟩
    refine ⟨i, rfl, ?_, by omega⟩
    rintro rfl
    rw [hcount] at hi
    simp at hi

theorem covers_of_fit (hcong : virt.toNat % 4096 = phys.toNat % 4096) (hhalf : InHalf virt size)
    (hreach : size = 0 ∨ TurnsReach virt size) (hfit : FramesFit phys size flags)
    (hm : MapTurned R hhdm root virt phys flags s.mem (rangePages size).toNat s') {a : BitVec 64}
    (ha : InRange virt size.toNat a) : translate hhdm s'.mem root a = some (phys + (a - virt)) := by
  obtain ⟨i, hi, hpage⟩ := (meets_turns hhalf hreach _).mp ⟨a, ha, rfl⟩
  have hentry := hm.mapped i hi
  have hpres := rangeEntry_present phys flags i
  rw [← hentry, ← hpage] at hpres
  rw [translate_of_leaf hpres, hpage, hentry, hfit i hi, Option.some.injEq]
  have hnat := congrArg BitVec.toNat hpage
  rw [pageNumber_turn, toNat_pageNumber] at hnat
  have hsize := hhalf.size_le
  have hcount := toNat_rangePages hsize
  unfold InHalf at hhalf
  have hd := (inRange_iff virt a _ (by omega)).mp ha
  have hsub : (a - virt).toNat = a.toNat - virt.toNat := BitVec.toNat_sub_of_le (BitVec.le_def.mpr hd.1)
  apply BitVec.eq_of_toNat_eq
  rw [BitVec.toNat_add, BitVec.toNat_add, Word.toNat_and_not_mask _ 0xFFF 12 (by decide),
    Word.toNat_and_mask _ 0xFFF 12 (by decide), toNat_turn, hsub]
  -- The page of `a` is that of turn i, counted from the page of virt.
  have hturn : a.toNat / 4096 = virt.toNat / 4096 + i := by omega
  omega

theorem covered_of_fit (hcong : virt.toNat % 4096 = phys.toNat % 4096) (hhalf : InHalf virt size)
    (hreach : size = 0 ∨ TurnsReach virt size) (hfit : FramesFit phys size flags)
    (hm : MapTurned R hhdm root virt phys flags s.mem (rangePages size).toNat s') :
    RangeCovered hhdm root virt phys size s.mem s' := by
  have hu := unmapRange_turned hhalf hm
  have hmeets := meets_turns hhalf hreach
  have hout : ∀ page, ¬Meets virt size page →
      ∀ i < (rangePages size).toNat, page ≠ pageNumber (turn virt i) := by
    intro page hpage i hi he
    exact hpage ((hmeets page).mpr ⟨i, hi, he⟩)
  refine ⟨fun a ha => covers_of_fit hcong hhalf hreach hfit hm ha, ?_, ?_, ?_⟩
  · intro page hpage
    exact hm.kept page (hout page hpage)
  · intro page hpage
    obtain ⟨i, hi, rfl⟩ := (hmeets page).mp hpage
    rw [hu.cleared i hi]
    decide
  · intro page hpage
    exact hu.kept page (hout page hpage)

end Covering

-- A range is mapped, and then unmapped, in full exactly if it is empty or the pages
-- counted from its size reach its last one and the entries can name the frames.
theorem range_covered_iff {σ : Type} (alloc : Memory 64 → σ → BitVec 64 × Memory 64 × σ)
    (R : Set (BitVec 64)) (hhdm root virt phys size flags : BitVec 64) (s s' : State σ)
    (hfoot : Footprint alloc R) (hh : s.hhdmOffset = hhdm) (hroot : s.pml4 = root + hhdm)
    (hwell : WellFormed hhdm root s.mem)
    (hs : ∀ f ∈ tables everywhere hhdm s.mem root, Spares R hhdm f)
    (hcong : virt.toNat % 4096 = phys.toNat % 4096) (hhalf : InHalf virt size)
    (hp : RangePermitted alloc R root virt phys flags (rangePages size).toNat s)
    (he : vmmMapRange alloc virt phys size flags s = some s') :
    RangeCovered hhdm root virt phys size s.mem s' ↔
      size = 0 ∨ (TurnsReach virt size ∧ FramesFit phys size flags) := by
  have hm := mapTurns_turned hfoot hh hroot hwell hs (pages_le hhalf) hp he
  constructor
  · intro hc
    by_cases hne : size = 0
    · exact Or.inl hne
    · exact Or.inr ⟨turnsReach_of_covered hhalf hne hm hc, framesFit_of_covered hcong hhalf hm hc⟩
  · rintro (rfl | ⟨hreach, hfit⟩)
    · have hnone : (rangePages 0).toNat = 0 := by decide
      refine covered_of_fit hcong hhalf (Or.inl rfl) (fun i hi => ?_) hm
      rw [hnone] at hi
      exact absurd hi (Nat.not_lt_zero i)
    · exact covered_of_fit hcong hhalf (Or.inr hreach) hfit hm

section Sample

open Miyabi.Mm.Boot

-- There are frames for two pages.
theorem emptyState_mapRange (virt phys size flags : BitVec 64) (hsize : (rangePages size).toNat ≤ 2) :
    RangePermitted (bitmapAlloc lowPmm) (bitmapRegion lowPmm) 0x1000 virt phys flags
      (rangePages size).toNat emptyState ∧
    ∃ s', vmmMapRange (bitmapAlloc lowPmm) virt phys size flags emptyState = some s' := by
  have hlen : 3 * (rangePages size).toNat ≤ (lowFrames 0xFF03).length := by
    rw [lowFrames_length]
    omega
  obtain ⟨hp, s', -, -, he, -⟩ := emptyState_supplied.turns virt phys flags lowPmm_footprint
    rfl rfl emptyState_wellFormed emptyState_spares (fun _ hin => lowFrames_pointer hin) hlen (by omega)
  exact ⟨hp, s', he⟩

-- Two pages, from the middle of the first one on.
theorem range_covered_iff_pages :
    ∃ s', vmmMapRange (bitmapAlloc lowPmm) 0x400800 0x9800 0x1800 3 emptyState = some s' ∧
      RangeCovered emptyState.hhdmOffset 0x1000 0x400800 0x9800 0x1800 emptyState.mem s' := by
  have htwo : (rangePages 0x1800).toNat = 2 := by decide
  obtain ⟨hp, s', he⟩ := emptyState_mapRange 0x400800 0x9800 0x1800 3 htwo.le
  have hfit : FramesFit 0x9800 0x1800 3 := by
    intro i hi
    obtain rfl | rfl : i = 0 ∨ i = 1 := by omega
    · decide
    · decide
  exact ⟨s', he, (range_covered_iff (bitmapAlloc lowPmm) (bitmapRegion lowPmm) emptyState.hhdmOffset 0x1000
    0x400800 0x9800 0x1800 3 emptyState s' lowPmm_footprint rfl rfl emptyState_wellFormed emptyState_spares
    (by decide) (Or.inl (by decide)) hp he).mpr (Or.inr ⟨by decide, hfit⟩)⟩

-- One page of bytes across a page boundary.
theorem range_uncovered :
    ¬∀ (s s' : State (List Returned)) (hhdm root virt phys size flags : BitVec 64),
      s.hhdmOffset = hhdm → s.pml4 = root + hhdm → WellFormed hhdm root s.mem →
      (∀ f ∈ tables everywhere hhdm s.mem root, Spares (bitmapRegion lowPmm) hhdm f) →
      virt.toNat % 4096 = phys.toNat % 4096 → InHalf virt size →
      RangePermitted (bitmapAlloc lowPmm) (bitmapRegion lowPmm) root virt phys flags
        (rangePages size).toNat s →
      vmmMapRange (bitmapAlloc lowPmm) virt phys size flags s = some s' →
      RangeCovered hhdm root virt phys size s.mem s' := by
  intro hall
  obtain ⟨hp, s', he⟩ := emptyState_mapRange 0x400800 0x9800 0x1000 3 (by decide)
  have hhalf : InHalf 0x400800 0x1000 := Or.inl (by decide)
  have hm := mapTurns_turned lowPmm_footprint rfl rfl emptyState_wellFormed emptyState_spares
    (pages_le hhalf) hp he
  have hreach := turnsReach_of_covered hhalf (by decide) hm
    (hall emptyState s' _ 0x1000 0x400800 0x9800 0x1000 3 rfl rfl emptyState_wellFormed emptyState_spares
      (by decide) hhalf hp he)
  exact absurd hreach (by decide)

end Sample

end Miyabi.Mm.Vmm
