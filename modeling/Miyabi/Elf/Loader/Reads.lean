import Miyabi.Elf.Loader.Filled
import Miyabi.Elf.Loader.Traced
import Mathlib.Tactic.Linarith

namespace Miyabi.Elf.Loader

open Miyabi.Base Miyabi.Base.Memory Miyabi.Mm Miyabi.Mm.Vmm

-- The number of bytes of the file that elf_load copies for a segment: those of its
-- pages, save the last page of the address space, and none if p_vaddr + p_filesz wraps.
def Segment.copied (seg : Segment) : ℕ :=
  if seg.vaddr.toNat + seg.filesz.toNat < 2 ^ 64 then
    min seg.filesz.toNat
      (min (seg.vaddr.toNat / 4096 * 4096 + 4096 * seg.numPages.toNat) (2 ^ 64 - 4096) - seg.vaddr.toNat)
  else 0

section Window

variable {seg : Segment} {n : ℕ}

-- The bytes copied into the page at `cur` are bytes of the file.
def Segment.WindowInside (seg : Segment) (n : ℕ) (cur : BitVec 64) : Prop :=
  ∀ dest src amount, seg.window cur = some (dest, src, amount) → src.toNat + amount.toNat ≤ n

-- The window in numbers: it is empty where the page is the last one or where the end of
-- the segment wraps.
theorem windowInside_iff (seg : Segment) (n : ℕ) (cur : BitVec 64) :
    seg.WindowInside n cur ↔
      (cur.toNat + 4096 < 2 ^ 64 → seg.vaddr.toNat + seg.filesz.toNat < 2 ^ 64 →
        max cur.toNat seg.vaddr.toNat <
          min (cur.toNat + 4096) (seg.vaddr.toNat + seg.filesz.toNat) →
        (seg.offset.toNat + (max cur.toNat seg.vaddr.toNat - seg.vaddr.toNat)) % 2 ^ 64 +
          (min (cur.toNat + 4096) (seg.vaddr.toNat + seg.filesz.toNat) -
            max cur.toNat seg.vaddr.toNat) ≤ n) := by
  have hc := cur.isLt
  have hv := seg.vaddr.isLt
  have hf := seg.filesz.isLt
  have hend : (seg.vaddr + seg.filesz).toNat = (seg.vaddr.toNat + seg.filesz.toNat) % 2 ^ 64 :=
    BitVec.toNat_add _ _
  have hnext : (cur + 0x1000).toNat = (cur.toNat + 4096) % 2 ^ 64 := by
    rw [BitVec.toNat_add]
    rfl
  obtain ⟨start, stop, h1, h2, hwindow⟩ := window_bounds seg cur
  rw [hnext, hend] at h2
  unfold Segment.WindowInside
  have hsrc : (seg.offset + (start - seg.vaddr)).toNat =
      (seg.offset.toNat + (max cur.toNat seg.vaddr.toNat - seg.vaddr.toNat)) % 2 ^ 64 := by
    rw [BitVec.toNat_add, BitVec.toNat_sub_of_le (by rw [BitVec.le_def]; omega), h1]
  constructor
  · intro h hin hspace hlt
    have hltb : start < stop := by
      rw [BitVec.lt_def]
      omega
    have hw := h _ _ _ (hwindow.trans (if_pos hltb))
    rwa [hsrc, BitVec.toNat_sub_of_le (BitVec.le_of_lt hltb), h1, h2, Nat.mod_eq_of_lt hin,
      Nat.mod_eq_of_lt hspace] at hw
  · intro h dest src amount hw
    rw [hwindow] at hw
    split at hw
    · rename_i hlt
      simp only [Option.some.injEq, Prod.mk.injEq] at hw
      obtain ⟨-, rfl, rfl⟩ := hw
      have hltn := BitVec.lt_def.mp hlt
      have hin : cur.toNat + 4096 < 2 ^ 64 := by omega
      have hspace : seg.vaddr.toNat + seg.filesz.toNat < 2 ^ 64 := by omega
      rw [h1, h2, Nat.mod_eq_of_lt hin, Nat.mod_eq_of_lt hspace] at hltn
      have hres := h hin hspace hltn
      rwa [hsrc, BitVec.toNat_sub_of_le (BitVec.le_of_lt hlt), h1, h2, Nat.mod_eq_of_lt hin,
        Nat.mod_eq_of_lt hspace]
    · cases hw

theorem numPages_lt (seg : Segment) : seg.numPages.toNat < 2 ^ 52 := by
  have h := ((seg.memsz + (seg.vaddr &&& 0xFFF)) + 0xFFF).isLt
  simp only [Segment.numPages, BitVec.toNat_udiv]
  generalize ((seg.memsz + (seg.vaddr &&& 0xFFF)) + 0xFFF).toNat = total at h ⊢
  have hpage : (0x1000 : BitVec 64).toNat = 4096 := rfl
  rw [hpage]
  omega

theorem page_toNat (seg : Segment) {p : ℕ} (hp : p < 2 ^ 52) :
    (seg.pageVaddr + BitVec.ofNat 64 p * 0x1000).toNat =
      (seg.vaddr.toNat / 4096 * 4096 + 4096 * p) % 2 ^ 64 := by
  have hbase : seg.pageVaddr.toNat = seg.vaddr.toNat / 4096 * 4096 :=
    Word.toNat_and_not_mask seg.vaddr 0xFFF 12 (by decide)
  have hpage : (0x1000 : BitVec 64).toNat = 4096 := rfl
  rw [BitVec.toNat_add, BitVec.toNat_mul, BitVec.toNat_ofNat, hbase, hpage,
    Nat.mod_eq_of_lt (show p < 2 ^ 64 by omega), Nat.mod_eq_of_lt (show p * 4096 < 2 ^ 64 by omega), Nat.mul_comm p]

-- After q pages the copied bytes are the first ones of the segment.
theorem copied_prefix {v f o n N : ℕ} (ho : o < 2 ^ 64) (hn : n < 2 ^ 64)
    (h : ∀ p < N, v / 4096 * 4096 + 4096 * p + 4096 < 2 ^ 64 →
      max (v / 4096 * 4096 + 4096 * p) v < min (v / 4096 * 4096 + 4096 * p + 4096) (v + f) →
      (o + (max (v / 4096 * 4096 + 4096 * p) v - v)) % 2 ^ 64 +
        (min (v / 4096 * 4096 + 4096 * p + 4096) (v + f) - max (v / 4096 * 4096 + 4096 * p) v) ≤ n)
    (q : ℕ) (hq : q ≤ N) (hspace : v / 4096 * 4096 + 4096 * q < 2 ^ 64) :
    min f (v / 4096 * 4096 + 4096 * q - v) = 0 ∨ o + min f (v / 4096 * 4096 + 4096 * q - v) ≤ n := by
  induction q with
  | zero => left; omega
  | succ q ih =>
      have hih := ih (by omega) (by linarith)
      have hpage := h q (by omega) (by linarith)
      by_cases hlt : max (v / 4096 * 4096 + 4096 * q) v < min (v / 4096 * 4096 + 4096 * q + 4096) (v + f)
      · have hwin := hpage hlt
        have hdone : max (v / 4096 * 4096 + 4096 * q) v - v = min f (v / 4096 * 4096 + 4096 * q - v) := by
          omega
        rw [hdone, Nat.mod_eq_of_lt (by omega)] at hwin
        right
        omega
      · have hsame : min f (v / 4096 * 4096 + 4096 * (q + 1) - v) =
            min f (v / 4096 * 4096 + 4096 * q - v) := by
          omega
        rwa [hsame]

-- All windows are inside a file of that size exactly if the copied bytes are.
theorem windows_inside_iff (seg : Segment) (size : BitVec 64) :
    (∀ p < seg.numPages.toNat,
      seg.WindowInside size.toNat (seg.pageVaddr + BitVec.ofNat 64 p * 0x1000)) ↔
      seg.copied = 0 ∨ seg.offset.toNat + seg.copied ≤ size.toNat := by
  have hpages := numPages_lt seg
  have hv := seg.vaddr.isLt
  simp only [windowInside_iff]
  unfold Segment.copied
  by_cases hspace : seg.vaddr.toNat + seg.filesz.toNat < 2 ^ 64
  · rw [if_pos hspace]
    constructor
    · intro h
      have hpre := copied_prefix (N := seg.numPages.toNat) seg.offset.isLt size.isLt (fun p hp hin hlt => by
        have hw := h p hp
        rw [page_toNat seg (by omega), Nat.mod_eq_of_lt ((Nat.le_add_right _ 4096).trans_lt hin)] at hw
        exact hw hin hspace hlt)
      have hlast := hpre (min seg.numPages.toNat ((2 ^ 64 - 4096 - seg.vaddr.toNat / 4096 * 4096) / 4096))
        (by omega) (by omega)
      have hend : seg.vaddr.toNat / 4096 * 4096 +
          4096 * min seg.numPages.toNat ((2 ^ 64 - 4096 - seg.vaddr.toNat / 4096 * 4096) / 4096) =
          min (seg.vaddr.toNat / 4096 * 4096 + 4096 * seg.numPages.toNat) (2 ^ 64 - 4096) := by
        omega
      rwa [hend] at hlast
    · intro h p hp hin hsp hlt
      rw [page_toNat seg (by omega)] at hin hlt ⊢
      have hwrap : (seg.vaddr.toNat / 4096 * 4096 + 4096 * p) % 2 ^ 64 =
          seg.vaddr.toNat / 4096 * 4096 + 4096 * p := by
        omega
      rw [hwrap] at hin hlt ⊢
      have hoff := seg.offset.isLt
      have hsize := size.isLt
      have hle : max (seg.vaddr.toNat / 4096 * 4096 + 4096 * p) seg.vaddr.toNat - seg.vaddr.toNat +
          (min (seg.vaddr.toNat / 4096 * 4096 + 4096 * p + 4096) (seg.vaddr.toNat + seg.filesz.toNat) -
            max (seg.vaddr.toNat / 4096 * 4096 + 4096 * p) seg.vaddr.toNat) ≤
          min seg.filesz.toNat (min (seg.vaddr.toNat / 4096 * 4096 + 4096 * seg.numPages.toNat)
            (2 ^ 64 - 4096) - seg.vaddr.toNat) := by
        omega
      rcases h with hz | hle'
      · omega
      · rw [Nat.mod_eq_of_lt (by omega)]
        omega
  · rw [if_neg hspace]
    exact ⟨fun _ => Or.inl rfl, fun _ p _ _ hsp => absurd hsp hspace⟩

end Window

-- The k bytes at `addr` are bytes of the file.
def Within (elfBinary size addr : BitVec 64) (k : ℕ) : Prop :=
  (addr - elfBinary).toNat + k ≤ size.toNat

instance (elfBinary size addr : BitVec 64) (k : ℕ) : Decidable (Within elfBinary size addr k) :=
  inferInstanceAs (Decidable (_ ≤ _))

def Event.Inside (elfBinary size : BitVec 64) : Event → Prop
  | .read addr k => Within elfBinary size addr k
  | .copied _ src amount => Within elfBinary size src amount
  | _ => True

-- The fields of a PT_LOAD header and the bytes of its segment.
structure LoadInside (file : Memory 64) (elfBinary size header : BitVec 64) : Prop where
  vaddr : Within elfBinary size (header + 16) 8
  memsz : Within elfBinary size (header + 40) 8
  filesz : Within elfBinary size (header + 32) 8
  offset : Within elfBinary size (header + 8) 8
  flags : (readSegment file header).numPages ≠ 0 → Within elfBinary size (header + 4) 4
  data : (readSegment file header).copied = 0 ∨
    (readSegment file header).offset.toNat + (readSegment file header).copied ≤ size.toNat

structure HeaderInside (file : Memory 64) (elfBinary size header : BitVec 64) : Prop where
  type : Within elfBinary size (header + 0) 4
  load : pType file header = ptLoad → LoadInside file elfBinary size header

-- What elf_load needs of a file in order to read nothing but the file.
structure FileInside (file : Memory 64) (elfBinary size : BitVec 64) : Prop where
  magic : Traced.magicCount file elfBinary ≤ size.toNat
  machine : magicOk file elfBinary = true → 20 ≤ size.toNat
  header : magicOk file elfBinary = true → eMachine file elfBinary = emX8664 →
    eType file elfBinary = etExec → 58 ≤ size.toNat
  headers : magicOk file elfBinary = true → eMachine file elfBinary = emX8664 →
    eType file elfBinary = etExec → ∀ i < (ePhnum file elfBinary).toNat,
      HeaderInside file elfBinary size (headerAt file elfBinary i)

section Pages

variable {σ : Type} {alloc : Memory 64 → σ → BitVec 64 × Memory 64 × σ}
variable {elfBinary size : BitVec 64} {events : List Event}

theorem within_add (elfBinary size d : BitVec 64) (k : ℕ) :
    Within elfBinary size (elfBinary + d) k ↔ d.toNat + k ≤ size.toNat := by
  rw [Within, add_sub_cancel_left]

def AllInside (elfBinary size : BitVec 64) (events : List Event) : Prop :=
  ∀ e ∈ events, e.Inside elfBinary size

theorem allInside_append (l l' : List Event) : AllInside elfBinary size (l ++ l') ↔
    AllInside elfBinary size l ∧ AllInside elfBinary size l' := List.forall_mem_append

theorem allInside_cons (e : Event) (l : List Event) : AllInside elfBinary size (e :: l) ↔
    e.Inside elfBinary size ∧ AllInside elfBinary size l := List.forall_mem_cons

theorem allInside_nil : AllInside elfBinary size [] := fun _ he => by cases he

theorem allInside_paging (log : List Vmm.Event) : AllInside elfBinary size (log.map .paging) := by
  intro e he
  obtain ⟨event, -, rfl⟩ := List.mem_map.mp he
  trivial

theorem allInside_writes (virtPage cur frame : BitVec 64) (seg : Segment) :
    AllInside elfBinary size (.mapped frame :: writeEvents elfBinary virtPage cur seg) ↔
      seg.WindowInside size.toNat cur := by
  unfold writeEvents Segment.WindowInside
  cases hw : seg.window cur with
  | none =>
      simp only [allInside_cons, allInside_nil, and_true, Event.Inside, reduceCtorEq,
        false_implies, implies_true]
  | some w =>
      obtain ⟨dest, src, amount⟩ := w
      have hin : Within elfBinary size (elfBinary + src) amount.toNat ↔
          src.toNat + amount.toNat ≤ size.toNat := within_add elfBinary size src _
      simp only [allInside_cons, allInside_nil, and_true, Event.Inside, true_and, hin, Option.some.injEq,
        Prod.mk.injEq]
      constructor
      · rintro h _ _ _ ⟨rfl, rfl, rfl⟩
        exact h
      · exact fun h => h dest src amount ⟨rfl, rfl, rfl⟩

-- A is enough for a run to read nothing but the file, and needed if the run is done.
def Exact (elfBinary size : BitVec 64) (A : Prop) (r : Run σ) : Prop :=
  (A → AllInside elfBinary size r.events) ∧ (r.done = true → AllInside elfBinary size r.events → A)

variable {A B : Prop} {r : Run σ} {next : State σ → Run σ}

theorem exact_of_iff (h : AllInside elfBinary size r.events ↔ A) : Exact elfBinary size A r :=
  ⟨h.mpr, fun _ => h.mp⟩

theorem Exact.congr (h : Exact elfBinary size A r) (hab : A ↔ B) : Exact elfBinary size B r := by
  rwa [← hab]

theorem Exact.after (he : AllInside elfBinary size events ↔ B) (h : B → Exact elfBinary size A r) :
    Exact elfBinary size (B ∧ A) (r.after events) := by
  constructor
  · rintro ⟨hb, ha⟩
    exact (allInside_append _ _).mpr ⟨he.mpr hb, (h hb).1 ha⟩
  · intro hd hall
    obtain ⟨hfirst, hrest⟩ := (allInside_append _ _).mp hall
    have hb := he.mp hfirst
    exact ⟨hb, (h hb).2 hd hrest⟩

theorem Exact.andThen (h : Exact elfBinary size A r)
    (hnext : r.done = true → Exact elfBinary size B (next r.state)) :
    Exact elfBinary size (A ∧ B) (r.andThen next) := by
  unfold Run.andThen
  cases hd : r.done with
  | false => exact ⟨fun hab => h.1 hab.1, fun hdone => by simp [hd] at hdone⟩
  | true =>
      constructor
      · rintro ⟨ha, hb⟩
        exact (allInside_append _ _).mpr ⟨h.1 ha, (hnext hd).1 hb⟩
      · intro hdone hall
        obtain ⟨hfirst, hrest⟩ := (allInside_append _ _).mp hall
        exact ⟨h.2 hd hfirst, (hnext hd).2 hdone hrest⟩

theorem loadPage_exact (phdr : BitVec 64) (seg : Segment) (p : BitVec 64) (s : State σ) :
    Exact elfBinary size (Within elfBinary size (phdr + 4) 4 ∧
      seg.WindowInside size.toNat (seg.pageVaddr + p * 0x1000))
      (Traced.loadPage alloc elfBinary phdr seg p s) := by
  simp only [Traced.loadPage]
  split
  · refine ⟨fun h => ?_, fun hd => by simp at hd⟩
    exact (allInside_cons _ _).mpr ⟨trivial, (allInside_cons _ _).mpr ⟨h.1, allInside_paging _⟩⟩
  · apply exact_of_iff
    rw [allInside_append, allInside_writes]
    simp only [allInside_cons, allInside_paging, and_true, Event.Inside, true_and]

theorem loadPages_exact (phdr : BitVec 64) (seg : Segment) (n : ℕ) (s : State σ) :
    Exact elfBinary size ((n ≠ 0 → Within elfBinary size (phdr + 4) 4) ∧
      ∀ p < n, seg.WindowInside size.toNat (seg.pageVaddr + BitVec.ofNat 64 p * 0x1000))
      (Traced.loadPages alloc elfBinary phdr seg n s) := by
  induction n with
  | zero => exact exact_of_iff (by simp [Traced.loadPages, allInside_nil])
  | succ n ih =>
      refine (ih.andThen (fun _ => loadPage_exact phdr seg _ _)).congr ?_
      constructor
      · rintro ⟨⟨-, hwindows⟩, hflags, hlast⟩
        refine ⟨fun _ => hflags, fun p hp => ?_⟩
        rcases Nat.lt_succ_iff_lt_or_eq.mp hp with hlt | rfl
        · exact hwindows p hlt
        · exact hlast
      · rintro ⟨hflags, hwindows⟩
        have hfirst := hflags (Nat.succ_ne_zero n)
        exact ⟨⟨fun _ => hfirst, fun p hp => hwindows p (by omega)⟩, hfirst, hwindows n (by omega)⟩

end Pages

section Segments

variable {σ : Type} {alloc : Memory 64 → σ → BitVec 64 × Memory 64 × σ} {R : Set (BitVec 64)}
variable {elfBinary size : BitVec 64} {file m : Memory 64}

-- No event changes a byte of the file.
def Unwritten (elfBinary size : BitVec 64) (events : List Event) : Prop :=
  ∀ e ∈ events, ∀ x, InRange elfBinary size.toNat x → ¬e.Writes x

theorem load_within {addr : BitVec 64} {k : ℕ} (h : Agree file m elfBinary size.toNat)
    (hin : Within elfBinary size addr k) : m.load addr k = file.load addr k := by
  have hd := h.inner hin
  rw [add_sub_cancel] at hd
  exact load_congr hd

theorem segmentReads_inside (header : BitVec 64) :
    AllInside elfBinary size (Traced.segmentReads header) ↔
      Within elfBinary size (header + 16) 8 ∧ Within elfBinary size (header + 40) 8 ∧
        Within elfBinary size (header + 32) 8 ∧ Within elfBinary size (header + 8) 8 := by
  simp only [Traced.segmentReads, allInside_cons, allInside_nil, and_true, Event.Inside]

theorem loadInside_iff (header : BitVec 64) : LoadInside file elfBinary size header ↔
    (Within elfBinary size (header + 16) 8 ∧ Within elfBinary size (header + 40) 8 ∧
      Within elfBinary size (header + 32) 8 ∧ Within elfBinary size (header + 8) 8) ∧
    ((readSegment file header).numPages.toNat ≠ 0 → Within elfBinary size (header + 4) 4) ∧
    ∀ p < (readSegment file header).numPages.toNat, (readSegment file header).WindowInside size.toNat
      ((readSegment file header).pageVaddr + BitVec.ofNat 64 p * 0x1000) := by
  have hnone : (readSegment file header).numPages.toNat ≠ 0 ↔ (readSegment file header).numPages ≠ 0 := by
    rw [ne_eq, ne_eq, ← BitVec.toNat_inj]
    rfl
  rw [windows_inside_iff, hnone]
  constructor
  · exact fun h => ⟨⟨h.vaddr, h.memsz, h.filesz, h.offset⟩, h.flags, h.data⟩
  · rintro ⟨⟨h1, h2, h3, h4⟩, h5, h6⟩
    exact ⟨h1, h2, h3, h4, h5, h6⟩

theorem Unwritten.left {l l' : List Event} (h : Unwritten elfBinary size (l ++ l')) :
    Unwritten elfBinary size l := fun e he => h e (List.mem_append_left _ he)

theorem Unwritten.right {l l' : List Event} (h : Unwritten elfBinary size (l ++ l')) :
    Unwritten elfBinary size l' := fun e he => h e (List.mem_append_right _ he)

theorem Unwritten.first {r : Run σ} {next : State σ → Run σ}
    (h : Unwritten elfBinary size (r.andThen next).events) : Unwritten elfBinary size r.events := by
  unfold Run.andThen at h
  split at h
  · exact h.left
  · exact h

theorem Unwritten.next {r : Run σ} {next : State σ → Run σ} (hd : r.done = true)
    (h : Unwritten elfBinary size (r.andThen next).events) :
    Unwritten elfBinary size (next r.state).events := by
  unfold Run.andThen at h
  rw [if_pos hd] at h
  exact h.right

-- One turn of the loop over the headers, and what comes after it.
theorem header_exact {header : BitVec 64} {s : State σ} {A : Prop} {run : Run σ}
    (rest : State σ → Run σ) (hfoot : Footprint alloc R) (hapart : ∀ x, InRange elfBinary size.toNat x → x ∉ R)
    (hagree : Agree file s.mem elfBinary size.toNat)
    (hrun : run = Run.after (if pType s.mem header = ptLoad then
      Run.after ((Traced.loadPages alloc elfBinary header (readSegment s.mem header)
        (readSegment s.mem header).numPages.toNat s).andThen rest) (Traced.segmentReads header)
      else rest s) [.read (header + 0) 4])
    (hkept : Unwritten elfBinary size run.events)
    (hrest : ∀ s', Agree file s'.mem elfBinary size.toNat → Unwritten elfBinary size (rest s').events →
      Exact elfBinary size A (rest s')) :
    Exact elfBinary size (HeaderInside file elfBinary size header ∧ A) run := by
  have htype : AllInside elfBinary size [.read (header + 0) 4] ↔
      Within elfBinary size (header + 0) 4 := by
    simp only [allInside_cons, allInside_nil, and_true, Event.Inside]
  rw [hrun] at hkept ⊢
  refine (Exact.after (A := (pType file header = ptLoad → LoadInside file elfBinary size header) ∧ A)
    htype (fun hin => ?_)).congr ?_
  · have ht : pType s.mem header = pType file header := load_within hagree hin
    rw [ht] at hkept ⊢
    have hkept := hkept.right
    by_cases hload : pType file header = ptLoad
    · rw [if_pos hload] at hkept ⊢
      refine (Exact.after (A := (((readSegment file header).numPages.toNat ≠ 0 →
        Within elfBinary size (header + 4) 4) ∧ ∀ p < (readSegment file header).numPages.toNat,
          (readSegment file header).WindowInside size.toNat
            ((readSegment file header).pageVaddr + BitVec.ofNat 64 p * 0x1000)) ∧ A)
        (segmentReads_inside header) ?_).congr ?_
      · rintro ⟨h1, h2, h3, h4⟩
        have hseg : readSegment s.mem header = readSegment file header := by
          simp only [readSegment, pVaddr, pMemsz, pFilesz, pOffset, load64, load_within hagree h1,
            load_within hagree h2, load_within hagree h3, load_within hagree h4]
        rw [hseg] at hkept ⊢
        have hpages := hkept.right
        refine (loadPages_exact header _ _ s).andThen (fun hd => hrest _ ?_ (hpages.next hd))
        have hkeep := (writes_composes hfoot).loadPages elfBinary header (readSegment file header)
          (readSegment file header).numPages.toNat s
        intro x hx
        rw [hkeep x (hapart x hx) (fun e he => hpages.first e he x hx)]
        exact hagree x hx
      · rw [loadInside_iff]
        constructor
        · rintro ⟨hfields, hpages, ha⟩
          exact ⟨fun _ => ⟨hfields, hpages⟩, ha⟩
        · rintro ⟨h, ha⟩
          exact ⟨(h hload).1, (h hload).2, ha⟩
    · rw [if_neg hload] at hkept ⊢
      refine (hrest s hagree hkept).congr ?_
      exact ⟨fun ha => ⟨fun h => absurd h hload, ha⟩, fun h => h.2⟩
  · constructor
    · rintro ⟨h, hload, ha⟩
      exact ⟨⟨h, hload⟩, ha⟩
    · rintro ⟨h, ha⟩
      exact ⟨h.type, h.load, ha⟩

theorem loadSegments_exact (hfoot : Footprint alloc R)
    (hapart : ∀ x, InRange elfBinary size.toNat x → x ∉ R) (hsize : 58 ≤ size.toNat) (fuel i : ℕ)
    (s : State σ) (hi : i < 2 ^ 16) (hfuel : i + fuel = 2 ^ 16)
    (hagree : Agree file s.mem elfBinary size.toNat)
    (hkept : Unwritten elfBinary size (Traced.loadSegments alloc elfBinary
      (elfBinary + ePhoff file elfBinary) fuel i s).events) :
    Exact elfBinary size (∀ j, i ≤ j → j < (ePhnum file elfBinary).toNat →
      HeaderInside file elfBinary size (headerAt file elfBinary j))
      (Traced.loadSegments alloc elfBinary (elfBinary + ePhoff file elfBinary) fuel i s) := by
  induction fuel generalizing i s with
  | zero => omega
  | succ fuel ih =>
      have hcount := (ePhnum file elfBinary).isLt
      have hphnum : ePhnum s.mem elfBinary = ePhnum file elfBinary :=
        load_within hagree ((within_add elfBinary size 56 2).mpr hsize)
      have hfirst : AllInside elfBinary size [.read (elfBinary + 56) 2] ↔ True := by
        simp only [allInside_cons, allInside_nil, and_true, Event.Inside, iff_true]
        exact (within_add elfBinary size 56 2).mpr hsize
      rw [Traced.loadSegments, hphnum] at hkept ⊢
      by_cases hlt : i < (ePhnum file elfBinary).toNat
      · simp only [hlt, if_true] at hkept ⊢
        have hnext : (∀ j, i ≤ j → j < (ePhnum file elfBinary).toNat →
            HeaderInside file elfBinary size (headerAt file elfBinary j)) ↔
            HeaderInside file elfBinary size (headerAt file elfBinary i) ∧
              ∀ j, i + 1 ≤ j → j < (ePhnum file elfBinary).toNat →
                HeaderInside file elfBinary size (headerAt file elfBinary j) := by
          constructor
          · exact fun h => ⟨h i le_rfl hlt, fun j hj => h j (by omega)⟩
          · rintro ⟨h, hrest⟩ j hj hjn
            rcases Nat.eq_or_lt_of_le hj with rfl | hj
            · exact h
            · exact hrest j hj hjn
        refine (Exact.after hfirst (fun _ => ?_)).congr ((iff_of_eq (true_and _)).trans hnext.symm)
        refine header_exact (Traced.loadSegments alloc elfBinary
          (elfBinary + ePhoff file elfBinary) fuel (i + 1)) hfoot hapart hagree rfl hkept.right ?_
        exact fun s' hagree' hkept' => ih (i + 1) s' (by omega) (by omega) hagree' hkept'
      · simp only [hlt, if_false] at hkept ⊢
        refine (exact_of_iff (A := True) ?_).congr ?_
        · rw [Run.after, List.append_nil]
          exact hfirst
        · exact (iff_true_intro (fun j hj hjn => by omega)).symm

theorem magicCount_bounds (m : Memory 64) (ehdr : BitVec 64) :
    0 < Traced.magicCount m ehdr ∧ Traced.magicCount m ehdr ≤ 4 := by
  unfold Traced.magicCount
  split
  · omega
  · split
    · omega
    · split
      · omega
      · omega

theorem magicReads_inside (m : Memory 64) :
    AllInside elfBinary size (Traced.magicReads m elfBinary) ↔
      Traced.magicCount m elfBinary ≤ size.toNat := by
  obtain ⟨hpos, hfour⟩ := magicCount_bounds m elfBinary
  have hread : ∀ k < Traced.magicCount m elfBinary,
      Within elfBinary size (elfBinary + BitVec.ofNat 64 k) 1 ↔ k + 1 ≤ size.toNat := by
    intro k hk
    rw [within_add, BitVec.toNat_ofNat, Nat.mod_eq_of_lt (by omega)]
  constructor
  · intro h
    have hlast := h (.read (elfBinary + BitVec.ofNat 64 (Traced.magicCount m elfBinary - 1)) 1)
      (List.mem_map.mpr ⟨_, List.mem_range.mpr (by omega), rfl⟩)
    have hle := (hread _ (by omega)).mp hlast
    omega
  · intro h e he
    obtain ⟨k, hk, rfl⟩ := List.mem_map.mp he
    rw [List.mem_range] at hk
    exact (hread k hk).mpr (by omega)

theorem kindReads_inside (m : Memory 64) :
    AllInside elfBinary size (Traced.kindReads m elfBinary) ↔ 20 ≤ size.toNat := by
  have hmachine : Within elfBinary size (elfBinary + 18) 2 ↔ 20 ≤ size.toNat :=
    within_add elfBinary size 18 2
  have htype : Within elfBinary size (elfBinary + 16) 2 ↔ 18 ≤ size.toNat :=
    within_add elfBinary size 16 2
  rw [Traced.kindReads, allInside_cons, Event.Inside, hmachine]
  split
  · simp only [allInside_nil, and_true]
  · rw [allInside_cons, Event.Inside, htype]
    simp only [allInside_nil, and_true]
    omega

theorem entry_andThen (r : Run σ) (e : Event) :
    (if r.done then { r with events := r.events ++ [e] } else r) =
      r.andThen (fun s => ⟨true, s, [e]⟩) := by
  obtain ⟨done, s, events⟩ := r
  cases done with
  | false => rfl
  | true => rfl

theorem phnum_read (alloc : Memory 64 → σ → BitVec 64 × Memory 64 × σ) (elfBinary phdr : BitVec 64)
    (i : ℕ) (s : State σ) : .read (elfBinary + 56) 2 ∈
      (Traced.loadSegments alloc elfBinary phdr (2 ^ 16) i s).events := by
  obtain ⟨fuel, hfuel⟩ : ∃ fuel, 2 ^ 16 = fuel + 1 := ⟨2 ^ 16 - 1, rfl⟩
  rw [hfuel, Traced.loadSegments]
  exact List.mem_append_left _ (List.mem_singleton_self _)

theorem elfLoad_exact (hfoot : Footprint alloc R)
    (hapart : ∀ x, InRange elfBinary size.toNat x → x ∉ R) (userPml4 : BitVec 64) (s : State σ)
    (hkept : Unwritten elfBinary size (Traced.elfLoad alloc elfBinary userPml4 s).2.events) :
    Exact elfBinary size (FileInside s.mem elfBinary size)
      (Traced.elfLoad alloc elfBinary userPml4 s).2 := by
  unfold Traced.elfLoad at hkept ⊢
  by_cases hmagic : magicOk s.mem elfBinary = true
  · simp only [hmagic, Bool.not_true, Bool.false_eq_true, if_false] at hkept ⊢
    by_cases hkind : eMachine s.mem elfBinary ≠ emX8664 ∨ eType s.mem elfBinary ≠ etExec
    · rw [if_pos hkind]
      apply exact_of_iff
      rw [allInside_append, magicReads_inside, kindReads_inside]
      constructor
      · rintro ⟨h1, h2⟩
        exact ⟨h1, fun _ => h2, fun _ hm ht => absurd hkind (by simp [hm, ht]),
          fun _ hm ht => absurd hkind (by simp [hm, ht])⟩
      · exact fun h => ⟨h.magic, h.machine hmagic⟩
    · rw [if_neg hkind] at hkept ⊢
      obtain ⟨hm, ht⟩ := not_or.mp hkind
      rw [not_not] at hm ht
      have hphoff : Within elfBinary size (elfBinary + 32) 8 ↔ 40 ≤ size.toNat :=
        within_add elfBinary size 32 8
      have hfirst : AllInside elfBinary size (Traced.magicReads s.mem elfBinary ++
          Traced.kindReads s.mem elfBinary ++ [.read (elfBinary + 32) 8]) ↔
          Traced.magicCount s.mem elfBinary ≤ size.toNat ∧ 20 ≤ size.toNat ∧ 40 ≤ size.toNat := by
        rw [allInside_append, allInside_append, magicReads_inside, kindReads_inside, allInside_cons,
          Event.Inside, hphoff, and_assoc]
        simp only [allInside_nil, and_true]
      refine (Exact.after (A := 58 ≤ size.toNat ∧ ∀ j < (ePhnum s.mem elfBinary).toNat,
        HeaderInside s.mem elfBinary size (headerAt s.mem elfBinary j)) hfirst (fun _ => ?_)).congr ?_
      · have hkept := hkept.right
        rw [entry_andThen] at hkept ⊢
        by_cases hsize : 58 ≤ size.toNat
        · refine ((loadSegments_exact hfoot hapart hsize (2 ^ 16) 0 s (by omega) (by omega)
            (Agree.refl _ _ _) hkept.first).andThen (B := True) (fun _ => exact_of_iff ?_)).congr ?_
          · rw [allInside_cons, Event.Inside, within_add]
            simp only [allInside_nil, and_true, iff_true]
            exact Nat.le_trans (by decide : (24 : BitVec 64).toNat + 8 ≤ 58) hsize
          · simp only [Nat.zero_le, true_implies, and_true, hsize, true_and]
        · refine ⟨fun h => absurd h.1 hsize, fun _ hall => absurd ?_ hsize⟩
          have hread := hall _ (mem_andThen (phnum_read alloc elfBinary _ 0 s))
          exact (within_add elfBinary size 56 2).mp hread
      · constructor
        · rintro ⟨⟨h1, h2, -⟩, h3, h4⟩
          exact ⟨h1, fun _ => h2, fun _ _ _ => h3, fun _ _ _ => h4⟩
        · intro h
          have hsize := h.header hmagic hm ht
          exact ⟨⟨h.magic, h.machine hmagic, by omega⟩, hsize, h.headers hmagic hm ht⟩
  · have hfalse : magicOk s.mem elfBinary = false := by simpa using hmagic
    simp only [hfalse, Bool.not_false, if_true]
    apply exact_of_iff
    rw [magicReads_inside]
    exact ⟨fun h => ⟨h, fun hm => absurd hm hmagic, fun hm => absurd hm hmagic,
      fun hm => absurd hm hmagic⟩, fun h => h.magic⟩

end Segments

-- elf_load knows no size. It reads nothing but the file if the file's own fields stay
-- inside, and each load that returns needs that.
theorem reads_inside_iff {σ : Type} (alloc : Memory 64 → σ → BitVec 64 × Memory 64 × σ)
    (R : Set (BitVec 64)) (elfBinary size userPml4 : BitVec 64) (s : State σ) (hfoot : Footprint alloc R)
    (hapart : ∀ x, InRange elfBinary size.toNat x → x ∉ R)
    (hkept : Unwritten elfBinary size (Traced.elfLoad alloc elfBinary userPml4 s).2.events) :
    (FileInside s.mem elfBinary size →
      AllInside elfBinary size (Traced.elfLoad alloc elfBinary userPml4 s).2.events) ∧
    ∀ entry s', elfLoad alloc elfBinary userPml4 s = some (entry, s') →
      (AllInside elfBinary size (Traced.elfLoad alloc elfBinary userPml4 s).2.events ↔
        FileInside s.mem elfBinary size) := by
  have hexact := elfLoad_exact hfoot hapart userPml4 s hkept
  have hresult := elfLoad_result alloc elfBinary userPml4 s
  refine ⟨hexact.1, fun entry s' hload => ⟨hexact.2 ?_, hexact.1⟩⟩
  cases hd : (Traced.elfLoad alloc elfBinary userPml4 s).2.done with
  | true => rfl
  | false =>
      rw [Run.result, if_neg (by simp [hd]), hload] at hresult
      cases hresult

section Sample

open Miyabi.Mm.Boot

-- Writes that end below an address.
def Event.low (limit : ℕ) : Event → Bool
  | .paging (.store addr) => addr.toNat + 8 ≤ limit
  | .zeroed addr => addr.toNat + 4096 ≤ limit
  | .copied dest _ amount => dest.toNat + amount ≤ limit
  | _ => true

theorem unwritten_low {elfBinary size : BitVec 64} {l : List Event}
    (hspace : elfBinary.toNat + size.toNat ≤ 2 ^ 64) (h : l.all (Event.low elfBinary.toNat) = true) :
    Unwritten elfBinary size l := by
  have hapart : ∀ (addr x : BitVec 64) (n : ℕ), addr.toNat + n ≤ elfBinary.toNat →
      InRange elfBinary size.toNat x → ¬InRange addr n x := by
    intro addr x n hlow hx hin
    have hlt := elfBinary.isLt
    rw [inRange_iff _ _ _ (by omega)] at hx hin
    omega
  intro e he x hx hw
  have hlow := List.all_eq_true.mp h e he
  cases e with
  | paging event =>
      cases event with
      | store addr => exact hapart addr x 8 (of_decide_eq_true hlow) hx hw
      | obtained page => exact hw
  | zeroed addr => exact hapart addr x 4096 (of_decide_eq_true hlow) hx hw
  | copied dest src amount => exact hapart dest x amount (of_decide_eq_true hlow) hx hw
  | read addr n => exact hw
  | given frame => exact hw
  | mapped frame => exact hw

-- Two program headers, one of a segment with a byte of the file.
theorem reads_inside_single : FileInside singleFile sampleBase 176 ∧
    AllInside sampleBase 176 (Traced.elfLoad (bitmapAlloc lowPmm) sampleBase 0 singleState).2.events := by
  have hkept : Unwritten sampleBase 176
      (Traced.elfLoad (bitmapAlloc lowPmm) sampleBase 0 singleState).2.events :=
    unwritten_low (by decide) (by decide +kernel)
  have hcount : (ePhnum singleFile sampleBase).toNat = 2 := by decide +kernel
  have hheader : headerAt singleFile sampleBase 0 = sampleBase + 64 ∧
      headerAt singleFile sampleBase 1 = sampleBase + 120 := by decide +kernel
  have hseg : readSegment singleFile (sampleBase + 64) = ⟨0x400000, 1, 1, 0⟩ := by decide +kernel
  have hinside : FileInside singleFile sampleBase 176 := by
    refine ⟨by decide +kernel, fun _ => by decide, fun _ _ _ => by decide, fun _ _ _ i hi => ?_⟩
    rw [hcount] at hi
    obtain rfl | rfl : i = 0 ∨ i = 1 := by omega
    · rw [hheader.1]
      refine ⟨by decide, fun _ => ⟨by decide, by decide, by decide, by decide, fun _ => by decide, ?_⟩⟩
      rw [hseg]
      exact Or.inr (by decide)
    · rw [hheader.2]
      exact ⟨by decide, fun ht => absurd ht (by decide +kernel)⟩
  exact ⟨hinside, (reads_inside_iff (bitmapAlloc lowPmm) (bitmapRegion lowPmm) sampleBase 176 0 singleState
    lowPmm_footprint (fun _ hx => sample_apart hx) hkept).1 hinside⟩

-- The first 64 bytes of the sample, its ELF header: the program headers are read behind
-- the end of the file.
theorem header_read_outside : .read (sampleBase + 64 + 0) 4 ∈
    (Traced.elfLoad (bitmapAlloc lowPmm) sampleBase 0 (sampleState 0x401000)).2.events ∧
      ¬Within sampleBase 64 (sampleBase + 64 + 0) 4 := by
  have hmagic : magicOk (sampleFile 0x401000) sampleBase = true := by decide +kernel
  have hkind : ¬(eMachine (sampleFile 0x401000) sampleBase ≠ emX8664 ∨
      eType (sampleFile 0x401000) sampleBase ≠ etExec) := by
    decide +kernel
  have hphoff : ePhoff (sampleFile 0x401000) sampleBase = 64 := by decide +kernel
  have hcount : (ePhnum (sampleFile 0x401000) sampleBase).toNat = 2 := by decide +kernel
  have hmem : (sampleState 0x401000).mem = sampleFile 0x401000 := rfl
  have hzero : BitVec.ofNat 64 (0 * phdrSize) = 0 := rfl
  obtain ⟨fuel, hfuel⟩ : ∃ fuel, 2 ^ 16 = fuel + 1 := ⟨2 ^ 16 - 1, rfl⟩
  have hread : .read (sampleBase + 64 + 0) 4 ∈ (Traced.loadSegments (bitmapAlloc lowPmm) sampleBase
      (sampleBase + 64) (2 ^ 16) 0 (sampleState 0x401000)).events := by
    rw [hfuel, Traced.loadSegments, hmem, hcount, if_pos (by omega : 0 < 2), hzero]
    exact mem_after (List.mem_append_left _ (List.mem_singleton_self _))
  refine ⟨?_, by decide⟩
  simp only [Traced.elfLoad, hmem, hmagic, hphoff, hkind, Bool.not_true, Bool.false_eq_true, if_false]
  rw [entry_andThen]
  exact mem_after (mem_andThen hread)

end Sample

end Miyabi.Elf.Loader
