import Miyabi.Elf.Loader
import Miyabi.Mm.Vmm.Stores

namespace Miyabi.Elf.Loader

open Miyabi.Base Miyabi.Base.Memory Miyabi.Mm Miyabi.Mm.Vmm

-- What elf_load does: it reads n bytes through elf_binary, gets a frame for a page
-- from pmm_alloc, changes page tables, maps a page to a frame, zeroes a page, and
-- copies bytes of the file.
inductive Event where
  | read (addr : BitVec 64) (n : ℕ)
  | given (frame : BitVec 64)
  | paging (event : Vmm.Event)
  | mapped (frame : BitVec 64)
  | zeroed (addr : BitVec 64)
  | copied (dest src : BitVec 64) (amount : ℕ)

-- A part of a run with its events in order; it is not done if it halts.
structure Run (σ : Type) where
  done : Bool
  state : State σ
  events : List Event

variable {σ : Type}

def Run.result (r : Run σ) : Option (State σ) := if r.done then some r.state else none

def Run.andThen (r : Run σ) (next : State σ → Run σ) : Run σ :=
  if r.done then
    let r' := next r.state
    ⟨r'.done, r'.state, r.events ++ r'.events⟩
  else r

def Run.after (r : Run σ) (events : List Event) : Run σ := ⟨r.done, r.state, events ++ r.events⟩

theorem mem_andThen {r : Run σ} {next : State σ → Run σ} {e : Event}
    (he : e ∈ r.events) : e ∈ (r.andThen next).events := by
  unfold Run.andThen
  split
  · exact List.mem_append_left _ he
  · exact he

theorem mem_after {r : Run σ} {events : List Event} {e : Event} (he : e ∈ r.events) :
    e ∈ (r.after events).events := List.mem_append_right _ he

-- The bytes that are copied into a page: their offset in it, their offset in the
-- file, and their number.
def Segment.window (seg : Segment) (currPageVaddr : BitVec 64) :
    Option (BitVec 64 × BitVec 64 × BitVec 64) :=
  let segStart := seg.vaddr
  let segEnd := seg.vaddr + seg.filesz
  let copyStart := if currPageVaddr < segStart then segStart else currPageVaddr
  let copyEnd := if currPageVaddr + 0x1000 > segEnd then segEnd else currPageVaddr + 0x1000
  if copyStart < copyEnd then
    some (copyStart - currPageVaddr, seg.offset + (copyStart - segStart), copyEnd - copyStart)
  else none

def writeEvents (elfBinary virtPage currPageVaddr : BitVec 64) (seg : Segment) : List Event :=
  .zeroed virtPage :: match seg.window currPageVaddr with
    | none => []
    | some (dest, src, amount) => [.copied (virtPage + dest) (elfBinary + src) amount.toNat]

namespace Traced

section Allocating

variable (alloc : Memory 64 → σ → BitVec 64 × Memory 64 × σ) (elfBinary phdr : BitVec 64)

def loadPage (seg : Segment) (p : BitVec 64) (s : State σ) : Run σ :=
  let (physFrame, s) := s.pmmAlloc alloc
  let flags := ptePresent ||| pteUser
  let flags := if pFlags s.mem phdr &&& pfW ≠ 0 then flags ||| pteWrite else flags
  let currPageVaddr := seg.pageVaddr + p * 0x1000
  let (mapped, r) := Recorded.vmmMapPage alloc currPageVaddr physFrame flags ⟨s, []⟩
  let events := .given physFrame :: .read (phdr + 4) 4 :: r.log.reverse.map .paging
  match mapped with
  | none => ⟨false, r.state, events⟩
  | some () =>
      let virtPage := r.state.physToVirt physFrame
      ⟨true, { r.state with mem := writePage r.state.mem elfBinary virtPage currPageVaddr seg },
        events ++ .mapped physFrame :: writeEvents elfBinary virtPage currPageVaddr seg⟩

def loadPages (seg : Segment) : ℕ → State σ → Run σ
  | 0, s => ⟨true, s, []⟩
  | n + 1, s => (loadPages seg n s).andThen (loadPage alloc elfBinary phdr seg (BitVec.ofNat 64 n))

-- The reads of p_vaddr, p_memsz, p_filesz and p_offset.
def segmentReads (header : BitVec 64) : List Event :=
  [.read (header + 16) 8, .read (header + 40) 8, .read (header + 32) 8, .read (header + 8) 8]

def loadSegments : ℕ → ℕ → State σ → Run σ
  | 0, _, s => ⟨false, s, []⟩
  | fuel + 1, i, s => Run.after
      (if i < (ePhnum s.mem elfBinary).toNat then
        let header := phdr + BitVec.ofNat 64 (i * phdrSize)
        Run.after
          (if pType s.mem header = ptLoad then
            let seg := readSegment s.mem header
            Run.after ((loadPages alloc elfBinary header seg seg.numPages.toNat s).andThen
              (loadSegments fuel (i + 1))) (segmentReads header)
          else loadSegments fuel (i + 1) s)
          [.read (header + 0) 4]
      else ⟨true, s, []⟩)
      [.read (elfBinary + 56) 2]

-- The magic bytes that are compared: up to the first one that is wrong.
def magicCount (m : Memory 64) (ehdr : BitVec 64) : ℕ :=
  if eIdent m ehdr 0 ≠ 0x7F then 1
  else if eIdent m ehdr 1 ≠ 0x45 then 2
  else if eIdent m ehdr 2 ≠ 0x4C then 3
  else 4

def magicReads (m : Memory 64) (ehdr : BitVec 64) : List Event :=
  (List.range (magicCount m ehdr)).map (fun k => .read (ehdr + BitVec.ofNat 64 k) 1)

-- e_type is read only if e_machine is right.
def kindReads (m : Memory 64) (ehdr : BitVec 64) : List Event :=
  .read (ehdr + 18) 2 :: if eMachine m ehdr ≠ emX8664 then [] else [.read (ehdr + 16) 2]

def elfLoad (elfBinary _userPml4 : BitVec 64) (s : State σ) : BitVec 64 × Run σ :=
  if !magicOk s.mem elfBinary then (0, ⟨true, s, magicReads s.mem elfBinary⟩)
  else if eMachine s.mem elfBinary ≠ emX8664 ∨ eType s.mem elfBinary ≠ etExec then
    (0, ⟨true, s, magicReads s.mem elfBinary ++ kindReads s.mem elfBinary⟩)
  else
    let phdr := elfBinary + ePhoff s.mem elfBinary
    let r := loadSegments alloc elfBinary phdr (2 ^ 16) 0 s
    let r := if r.done then { r with events := r.events ++ [.read (elfBinary + 24) 8] } else r
    (eEntry r.state.mem elfBinary, r.after (magicReads s.mem elfBinary ++
      kindReads s.mem elfBinary ++ [.read (elfBinary + 32) 8]))

end Allocating

end Traced

section Rule

variable {alloc : Memory 64 → σ → BitVec 64 × Memory 64 × σ}

def OnlyReads (events : List Event) : Prop := ∀ e ∈ events, ∃ addr n, e = .read addr n

theorem onlyReads_magic (m : Memory 64) (ehdr : BitVec 64) : OnlyReads (Traced.magicReads m ehdr) := by
  intro e he
  obtain ⟨k, -, rfl⟩ := List.mem_map.mp he
  exact ⟨_, _, rfl⟩

theorem onlyReads_kind (m : Memory 64) (ehdr : BitVec 64) : OnlyReads (Traced.kindReads m ehdr) := by
  intro e he
  rcases List.mem_cons.mp he with rfl | he
  · exact ⟨_, _, rfl⟩
  · split at he
    · cases he
    · rw [List.mem_singleton.mp he]
      exact ⟨_, _, rfl⟩

theorem onlyReads_one (addr : BitVec 64) (n : ℕ) : OnlyReads [.read addr n] := by
  intro e he
  exact ⟨addr, n, List.mem_singleton.mp he⟩

theorem onlyReads_segment (header : BitVec 64) : OnlyReads (Traced.segmentReads header) := by
  intro e he
  simp only [Traced.segmentReads, List.mem_cons, List.not_mem_nil, or_false] at he
  rcases he with rfl | rfl | rfl | rfl
  all_goals exact ⟨_, _, rfl⟩

theorem OnlyReads.append {l l' : List Event} (h : OnlyReads l) (h' : OnlyReads l') :
    OnlyReads (l ++ l') := by
  intro e he
  exact (List.mem_append.mp he).elim (h e) (h' e)

-- A relation between a state and the run from it that reads do not disturb, that holds
-- of each turn of the loop over the pages, and that composes.
structure Composes (alloc : Memory 64 → σ → BitVec 64 × Memory 64 × σ) (T : State σ → Run σ → Prop) :
    Prop where
  reads : ∀ s events, OnlyReads events → T s ⟨true, s, events⟩
  page : ∀ elfBinary phdr seg p s, T s (Traced.loadPage alloc elfBinary phdr seg p s)
  trans : ∀ s r r', r.done = true → T s r → T r.state r' → T s ⟨r'.done, r'.state, r.events ++ r'.events⟩

variable {T : State σ → Run σ → Prop}

theorem Composes.andThen (h : Composes alloc T) {s : State σ} {r : Run σ} {next : State σ → Run σ}
    (hr : T s r) (hnext : ∀ s', T s' (next s')) : T s (r.andThen next) := by
  unfold Run.andThen
  cases hd : r.done with
  | false => exact hr
  | true => exact h.trans s r (next r.state) hd hr (hnext r.state)

theorem Composes.after (h : Composes alloc T) {s : State σ} {r : Run σ} {events : List Event}
    (he : OnlyReads events) (hr : T s r) : T s (r.after events) :=
  h.trans s ⟨true, s, events⟩ r rfl (h.reads s events he) hr

theorem Composes.loadPages (h : Composes alloc T) (elfBinary phdr : BitVec 64) (seg : Segment) (n : ℕ)
    (s : State σ) : T s (Traced.loadPages alloc elfBinary phdr seg n s) := by
  induction n with
  | zero => exact h.reads s [] (fun e he => by cases he)
  | succ n ih => exact h.andThen ih (fun s' => h.page elfBinary phdr seg _ s')

-- The fuel is there for each i below e_phnum, which is below 2^16.
theorem Composes.loadSegments (h : Composes alloc T) (elfBinary phdr : BitVec 64) (fuel i : ℕ)
    (s : State σ) (hi : i < 2 ^ 16) (hfuel : i + fuel = 2 ^ 16) :
    T s (Traced.loadSegments alloc elfBinary phdr fuel i s) := by
  induction fuel generalizing i s with
  | zero => omega
  | succ fuel ih =>
      have hcount := (ePhnum s.mem elfBinary).isLt
      rw [Traced.loadSegments]
      apply h.after (onlyReads_one _ _)
      split
      · apply h.after (onlyReads_one _ _)
        split
        · apply h.after (onlyReads_segment _)
          apply h.andThen (h.loadPages elfBinary _ _ _ s)
          exact fun s' => ih (i + 1) s' (by omega) (by omega)
        · exact ih (i + 1) s (by omega) (by omega)
      · exact h.reads s [] (fun e he => by cases he)

theorem Composes.elfLoad (h : Composes alloc T) (elfBinary userPml4 : BitVec 64) (s : State σ) :
    T s (Traced.elfLoad alloc elfBinary userPml4 s).2 := by
  unfold Traced.elfLoad
  split
  · exact h.reads s _ (onlyReads_magic _ _)
  · split
    · exact h.reads s _ ((onlyReads_magic _ _).append (onlyReads_kind _ _))
    · apply h.after (((onlyReads_magic _ _).append (onlyReads_kind _ _)).append (onlyReads_one _ _))
      have hsegs := h.loadSegments elfBinary (elfBinary + ePhoff s.mem elfBinary) (2 ^ 16) 0 s
        (by omega) (by omega)
      generalize Traced.loadSegments alloc elfBinary (elfBinary + ePhoff s.mem elfBinary) (2 ^ 16) 0 s = r
        at hsegs ⊢
      cases hd : r.done with
      | false => exact hsegs
      | true =>
          have hentry := h.trans s r _ hd hsegs (h.reads r.state _ (onlyReads_one (elfBinary + 24) 8))
          simpa only [hd, if_true] using hentry

end Rule

section Writes

-- The bytes that an event changes.
def Event.Writes (x : BitVec 64) : Event → Prop
  | .paging (.store addr) => InRange addr 8 x
  | .zeroed addr => InRange addr 4096 x
  | .copied dest _ amount => InRange dest amount x
  | _ => False

theorem writePage_window (m : Memory 64) (elfBinary virtPage cur : BitVec 64) (seg : Segment) :
    writePage m elfBinary virtPage cur seg = match seg.window cur with
      | none => m.fill virtPage 0 4096
      | some (dest, src, amount) =>
          (m.fill virtPage 0 4096).copy (virtPage + dest) (elfBinary + src) amount.toNat := by
  simp only [writePage, Segment.window]
  generalize (if cur < seg.vaddr then seg.vaddr else cur) = copyStart
  generalize (if cur + 0x1000 > seg.vaddr + seg.filesz then seg.vaddr + seg.filesz
    else cur + 0x1000) = copyEnd
  by_cases h : copyStart < copyEnd
  · simp only [h, if_true]
  · simp only [h, if_false]

-- The window is what the page and the segment's part of the file have in common.
theorem window_bounds (seg : Segment) (cur : BitVec 64) : ∃ start stop : BitVec 64,
    start.toNat = max cur.toNat seg.vaddr.toNat ∧
      stop.toNat = min (cur + 0x1000).toNat (seg.vaddr + seg.filesz).toNat ∧
      seg.window cur = if start < stop then
        some (start - cur, seg.offset + (start - seg.vaddr), stop - start) else none := by
  refine ⟨if cur < seg.vaddr then seg.vaddr else cur,
    if cur + 0x1000 > seg.vaddr + seg.filesz then seg.vaddr + seg.filesz else cur + 0x1000, ?_, ?_, ?_⟩
  · split
    · rename_i hlt
      rw [BitVec.lt_def] at hlt
      omega
    · rename_i hlt
      rw [BitVec.lt_def] at hlt
      omega
  · split
    · rename_i hlt
      rw [gt_iff_lt, BitVec.lt_def] at hlt
      omega
    · rename_i hlt
      rw [gt_iff_lt, BitVec.lt_def] at hlt
      omega
  · simp only [Segment.window]

theorem window_fits {seg : Segment} {cur dest src amount : BitVec 64}
    (h : seg.window cur = some (dest, src, amount)) : dest.toNat + amount.toNat ≤ 4096 := by
  obtain ⟨start, stop, h1, h2, hw⟩ := window_bounds seg cur
  have hnext : (cur + 0x1000).toNat ≤ cur.toNat + 4096 := by bv_omega
  rw [hw] at h
  split at h
  · rename_i hlt
    simp only [Option.some.injEq, Prod.mk.injEq] at h
    obtain ⟨rfl, -, rfl⟩ := h
    have hltn := BitVec.lt_def.mp hlt
    rw [BitVec.toNat_sub_of_le (by rw [BitVec.le_def]; omega), BitVec.toNat_sub_of_le (BitVec.le_of_lt hlt)]
    omega
  · cases h

variable {alloc : Memory 64 → σ → BitVec 64 × Memory 64 × σ} {R : Set (BitVec 64)}

theorem writePage_writes {m : Memory 64} {elfBinary virtPage cur x : BitVec 64} {seg : Segment}
    (h : ∀ e ∈ writeEvents elfBinary virtPage cur seg, ¬e.Writes x) :
    writePage m elfBinary virtPage cur seg x = m x := by
  rw [writePage_window]
  unfold writeEvents at h
  have hzero := fill_keeps m virtPage 0 4096 (by omega) x (h _ List.mem_cons_self)
  cases hw : seg.window cur with
  | none => exact hzero
  | some w =>
      obtain ⟨dest, src, amount⟩ := w
      rw [hw] at h
      have hcopy := h _ (List.mem_cons_of_mem _ (List.mem_singleton_self _))
      exact (copy_keeps _ _ _ _ (Nat.le_of_lt amount.isLt) x hcopy).trans hzero

-- Whatever the header says, the bytes of a page stay in its frame.
theorem writePage_keeps (m : Memory 64) (elfBinary virtPage cur : BitVec 64) (seg : Segment) :
    KeepsOutside m (writePage m elfBinary virtPage cur seg) virtPage 4096 := by
  intro x hx
  refine writePage_writes (fun e he => ?_)
  rcases List.mem_cons.mp he with rfl | he
  · exact hx
  · cases hw : seg.window cur with
    | none => simp [hw] at he
    | some w =>
        obtain ⟨dest, src, amount⟩ := w
        simp only [hw, List.mem_singleton] at he
        rw [he]
        exact fun hin => hx (inRange_inner _ _ x (window_fits hw) hin)

theorem loadPage_writes (hfoot : Footprint alloc R) {elfBinary phdr p x : BitVec 64} {seg : Segment}
    {s : State σ} (hx : x ∉ R)
    (h : ∀ e ∈ (Traced.loadPage alloc elfBinary phdr seg p s).events, ¬e.Writes x) :
    (Traced.loadPage alloc elfBinary phdr seg p s).state.mem x = s.mem x := by
  have hcall : (s.pmmAlloc alloc).2.mem x = s.mem x := hfoot s.mem s.frames x hx
  simp only [Traced.loadPage] at h ⊢
  generalize (s.pmmAlloc alloc).2 = s1 at h hcall ⊢
  generalize (s.pmmAlloc alloc).1 = physFrame at h ⊢
  generalize (if pFlags s1.mem phdr &&& pfW ≠ 0 then ptePresent ||| pteUser ||| pteWrite
    else ptePresent ||| pteUser) = flags at h ⊢
  obtain ⟨new, hnew⟩ := Recorded.vmmMapPage_added hfoot (seg.pageVaddr + p * 0x1000) physFrame flags
    ⟨s1, []⟩
  have hstores : ∀ r : Recorded σ, r.log = new ++ [] → ∀ a, .store a ∈ new →
      .paging (.store a) ∈ r.log.reverse.map Event.paging := by
    intro r hr a ha
    refine List.mem_map_of_mem ?_
    rw [hr, List.append_nil, List.mem_reverse]
    exact ha
  rcases hrun : Recorded.vmmMapPage alloc (seg.pageVaddr + p * 0x1000) physFrame flags ⟨s1, []⟩ with
    ⟨_ | _, r⟩
  · simp only [hrun] at h hnew ⊢
    refine (hnew.kept x hx (fun a ha => ?_)).trans hcall
    exact h _ (List.mem_cons_of_mem _ (List.mem_cons_of_mem _ (hstores r hnew.log a ha)))
  · simp only [hrun] at h hnew ⊢
    rw [writePage_writes (fun e he => h e
      (List.mem_append_right _ (List.mem_cons_of_mem _ he)))]
    refine (hnew.kept x hx (fun a ha => ?_)).trans hcall
    exact h _ (List.mem_append_left _
      (List.mem_cons_of_mem _ (List.mem_cons_of_mem _ (hstores r hnew.log a ha))))

-- Every byte that has changed has been written by one of the events, or by pmm_alloc.
theorem writes_composes (hfoot : Footprint alloc R) : Composes alloc (fun s r =>
    ∀ x, x ∉ R → (∀ e ∈ r.events, ¬e.Writes x) → r.state.mem x = s.mem x) := by
  refine ⟨fun _ _ _ _ _ _ => rfl, fun _ _ _ _ _ x hx h => loadPage_writes hfoot hx h, ?_⟩
  intro s r r' _ hr hr' x hx h
  rw [hr' x hx (fun e he => h e (List.mem_append_right _ he)),
    hr x hx (fun e he => h e (List.mem_append_left _ he))]

end Writes

section Erase

variable (alloc : Memory 64 → σ → BitVec 64 × Memory 64 × σ)

theorem andThen_result (r : Run σ) (next : State σ → Run σ) :
    (r.andThen next).result = r.result.bind (fun s => (next s).result) := by
  unfold Run.andThen Run.result
  cases hr : r.done with
  | false => simp [hr]
  | true => rfl

theorem after_result (r : Run σ) (events : List Event) : (r.after events).result = r.result := rfl

theorem loadPage_result (elfBinary phdr : BitVec 64) (seg : Segment) (p : BitVec 64) (s : State σ) :
    (Traced.loadPage alloc elfBinary phdr seg p s).result = loadPage alloc elfBinary phdr seg p s := by
  simp only [Traced.loadPage, loadPage]
  generalize (s.pmmAlloc alloc).2 = s1
  generalize (s.pmmAlloc alloc).1 = physFrame
  generalize (if pFlags s1.mem phdr &&& pfW ≠ 0 then ptePresent ||| pteUser ||| pteWrite
    else ptePresent ||| pteUser) = flags
  generalize seg.pageVaddr + p * 0x1000 = cur
  have hmap := Recorded.vmmMapPage_state alloc cur physFrame flags ⟨s1, []⟩
  rw [← hmap]
  rcases Recorded.vmmMapPage alloc cur physFrame flags ⟨s1, []⟩ with ⟨_ | _, r⟩
  · rfl
  · rfl

theorem loadPages_result (elfBinary phdr : BitVec 64) (seg : Segment) (n : ℕ) (s : State σ) :
    (Traced.loadPages alloc elfBinary phdr seg n s).result = loadPages alloc elfBinary phdr seg n s := by
  induction n with
  | zero => rfl
  | succ n ih =>
      rw [Traced.loadPages, andThen_result, ih, loadPages]
      cases loadPages alloc elfBinary phdr seg n s with
      | none => rfl
      | some s' => exact loadPage_result alloc elfBinary phdr seg _ s'

theorem loadSegments_result (elfBinary phdr : BitVec 64) (fuel i : ℕ) (s : State σ) :
    (Traced.loadSegments alloc elfBinary phdr fuel i s).result =
      loadSegments alloc elfBinary phdr fuel i s := by
  induction fuel generalizing i s with
  | zero => rfl
  | succ fuel ih =>
      rw [Traced.loadSegments, after_result, loadSegments]
      by_cases hi : i < (ePhnum s.mem elfBinary).toNat
      · simp only [hi, if_true, after_result]
        by_cases ht : pType s.mem (phdr + BitVec.ofNat 64 (i * phdrSize)) = ptLoad
        · simp only [ht, if_true, after_result, andThen_result, loadPages_result]
          cases loadPages alloc elfBinary (phdr + BitVec.ofNat 64 (i * phdrSize)) _ _ s with
          | none => rfl
          | some s' => exact ih (i + 1) s'
        · simp only [ht, if_false]
          exact ih (i + 1) s
      · simp only [hi, if_false]
        rfl

-- Without its events the run is that of elf_load.
theorem elfLoad_result (elfBinary userPml4 : BitVec 64) (s : State σ) :
    (Traced.elfLoad alloc elfBinary userPml4 s).2.result.map
      (fun s' => ((Traced.elfLoad alloc elfBinary userPml4 s).1, s')) =
      elfLoad alloc elfBinary userPml4 s := by
  unfold Traced.elfLoad elfLoad
  split
  · rfl
  · split
    · rfl
    · have h := loadSegments_result alloc elfBinary (elfBinary + ePhoff s.mem elfBinary) (2 ^ 16) 0 s
      simp only [after_result, ← h]
      generalize Traced.loadSegments alloc elfBinary (elfBinary + ePhoff s.mem elfBinary) (2 ^ 16) 0 s = r
      cases hr : r.done with
      | false => simp [Run.result, hr]
      | true => simp [Run.result, hr]

end Erase

end Miyabi.Elf.Loader
