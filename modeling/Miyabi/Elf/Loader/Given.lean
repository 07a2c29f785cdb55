import Miyabi.Elf.Loader.Filled
import Miyabi.Elf.Loader.Traced
import Miyabi.Mm.Vmm.Confined

namespace Miyabi.Elf.Loader

open Miyabi.Base Miyabi.Base.Memory Miyabi.Base.TableTree Miyabi.Mm Miyabi.Mm.Vmm

-- The page that an event uses is one that pmm_alloc has returned before, and a page
-- table is never NULL.
def Event.Supported (hhdm : BitVec 64) (before : List Event) : Event → Prop
  | .mapped frame => .given frame ∈ before
  | .zeroed addr => ∃ frame, .given frame ∈ before ∧ addr = frame + hhdm
  | .copied dest _ amount => ∃ frame offset, .given frame ∈ before ∧
      dest = frame + hhdm + offset ∧ offset.toNat + amount ≤ 4096
  | .paging (.obtained page) => page ≠ 0
  | _ => True

def Backed (hhdm : BitVec 64) (before : List Event) : List Event → Prop
  | [] => True
  | e :: events => e.Supported hhdm before ∧ Backed hhdm (before ++ [e]) events

-- The results of the calls of pmm_alloc, save one that makes the machine halt.
def answers (events : List Event) : List (BitVec 64) :=
  events.filterMap (fun
    | .given frame => some frame
    | .paging (.obtained page) => some page
    | _ => none)

section Calls

variable {σ : Type} (alloc : Memory 64 → σ → BitVec 64 × Memory 64 × σ)

-- The memory and what pmm_alloc keeps, before and after an event: it is a call of
-- pmm_alloc, or it changes no bytes but its own.
def Event.Takes (c c' : Memory 64 × σ) : Event → Prop
  | .given frame => alloc c.1 c.2 = (frame, c')
  | .paging (.obtained page) => alloc c.1 c.2 = (page, c')
  | e => c'.2 = c.2 ∧ ∀ x, ¬e.Writes x → c'.1 x = c.1 x

def Replays : List Event → Memory 64 × σ → Memory 64 × σ → Prop
  | [], c, c' => c' = c
  | e :: events, c, c' => ∃ c1, e.Takes alloc c c1 ∧ Replays events c1 c'

-- The end of a run. One that is not ok has called pmm_alloc once more, and got NULL.
def Ends (ok : Bool) (c c' : Memory 64 × σ) : Prop :=
  if ok then c' = c else alloc c.1 c.2 = (0, c')

def Drawn (c : Memory 64 × σ) (ok : Bool) (c' : Memory 64 × σ) (events : List Event) : Prop :=
  ∃ c1, Replays alloc events c c1 ∧ Ends alloc ok c1 c'

end Calls

section Backed

variable {hhdm : BitVec 64} {before : List Event}

theorem backed_append {l l' : List Event} (h : Backed hhdm before l)
    (h' : Backed hhdm (before ++ l) l') : Backed hhdm before (l ++ l') := by
  induction l generalizing before with
  | nil => simpa using h'
  | cons e l ih => exact ⟨h.1, ih h.2 (by simpa using h')⟩

-- Events that are supported whatever came before.
theorem backed_of_forall {l : List Event} (h : ∀ e ∈ l, ∀ before, e.Supported hhdm before) :
    Backed hhdm before l := by
  induction l generalizing before with
  | nil => trivial
  | cons e l ih =>
      exact ⟨h e List.mem_cons_self before, ih (fun e' he => h e' (List.mem_cons_of_mem _ he))⟩

theorem backed_reads {l : List Event} (h : OnlyReads l) : Backed hhdm before l := by
  refine backed_of_forall (fun e he before => ?_)
  obtain ⟨addr, n, rfl⟩ := h e he
  trivial

theorem backed_paging {log : List Vmm.Event} (h : ∀ p, .obtained p ∈ log → p ≠ 0) :
    Backed hhdm before (log.map .paging) := by
  refine backed_of_forall (fun e he before => ?_)
  obtain ⟨event, hin, rfl⟩ := List.mem_map.mp he
  cases event with
  | store addr => trivial
  | obtained page => exact h page hin

theorem backed_writes {elfBinary frame cur : BitVec 64} {seg : Segment}
    (h : .given frame ∈ before) : Backed hhdm before
      (.mapped frame :: writeEvents elfBinary (frame + hhdm) cur seg) := by
  have hlater : ∀ e, .given frame ∈ before ++ [e] := fun e => List.mem_append_left _ h
  refine ⟨h, ⟨frame, hlater _, rfl⟩, ?_⟩
  cases hw : seg.window cur with
  | none => trivial
  | some w =>
      obtain ⟨dest, src, amount⟩ := w
      exact ⟨⟨frame, dest, List.mem_append_left _ (hlater _), rfl, window_fits hw⟩, trivial⟩

end Backed

section Drawn

variable {σ : Type} {alloc : Memory 64 → σ → BitVec 64 × Memory 64 × σ}
variable {c c1 c2 : Memory 64 × σ} {ok : Bool} {l l' : List Event}

theorem replays_append (h : Replays alloc l c c1) (h' : Replays alloc l' c1 c2) :
    Replays alloc (l ++ l') c c2 := by
  induction l generalizing c with
  | nil => exact (show c1 = c from h) ▸ h'
  | cons e l ih =>
      obtain ⟨c', he, hl⟩ := h
      exact ⟨c', he, ih hl⟩

theorem replays_one {e : Event} (h : e.Takes alloc c c1) : Replays alloc [e] c c1 := ⟨c1, h, rfl⟩

theorem Drawn.replays (h : Drawn alloc c true c1 l) : Replays alloc l c c1 := by
  obtain ⟨c', hl, hend⟩ := h
  exact (show c1 = c' from hend) ▸ hl

theorem drawn_of_replays (h : Replays alloc l c c1) : Drawn alloc c true c1 l := ⟨c1, h, rfl⟩

theorem Drawn.trans (h : Drawn alloc c true c1 l) (h' : Drawn alloc c1 ok c2 l') :
    Drawn alloc c ok c2 (l ++ l') := by
  obtain ⟨c', hl, hend⟩ := h'
  exact ⟨c', replays_append h.replays hl, hend⟩

-- Reads change nothing.
theorem replays_reads (c : Memory 64 × σ) (h : OnlyReads l) : Replays alloc l c c := by
  induction l with
  | nil => rfl
  | cons e l ih =>
      obtain ⟨addr, n, rfl⟩ := h e List.mem_cons_self
      exact ⟨c, ⟨rfl, fun _ _ => rfl⟩, ih (fun e' he => h e' (List.mem_cons_of_mem _ he))⟩

theorem replays_writes (elfBinary virtPage cur frame : BitVec 64) (seg : Segment) (m : Memory 64)
    (frames : σ) : Replays alloc (.mapped frame :: writeEvents elfBinary virtPage cur seg)
      (m, frames) (writePage m elfBinary virtPage cur seg, frames) := by
  refine ⟨(m, frames), ⟨rfl, fun _ _ => rfl⟩, ?_⟩
  have hzeroed : Event.Takes alloc (m, frames) (m.fill virtPage 0 4096, frames) (.zeroed virtPage) :=
    ⟨rfl, fill_keeps m virtPage 0 4096 (by omega)⟩
  rw [writePage_window]
  unfold writeEvents
  cases seg.window cur with
  | none => exact replays_one hzeroed
  | some w =>
      obtain ⟨dest, src, amount⟩ := w
      refine ⟨_, hzeroed, replays_one ⟨rfl, ?_⟩⟩
      exact copy_keeps _ _ _ _ (Nat.le_of_lt amount.isLt)

-- A part of vmm.c against pmm_alloc.
def Draws (alloc : Memory 64 → σ → BitVec 64 × Memory 64 × σ) (r : Recorded σ) (ok : Bool)
    (r' : Recorded σ) : Prop :=
  ∃ new, r'.log = new ++ r.log ∧ Drawn alloc (r.state.mem, r.state.frames) ok
    (r'.state.mem, r'.state.frames) (new.reverse.map .paging)

theorem draws_write (r : Recorded σ) (table index value : BitVec 64) :
    Draws alloc r true (r.write table index value) :=
  ⟨[.store (table + 8 * index)], rfl, drawn_of_replays (replays_one ⟨rfl, fun x hx =>
    store_of_not_inRange (n := 8) r.state.mem (table + 8 * index) x value hx⟩)⟩

theorem Draws.trans {r r1 r2 : Recorded σ} (h : Draws alloc r true r1) (h' : Draws alloc r1 ok r2) :
    Draws alloc r ok r2 := by
  obtain ⟨new, hlog, hdrawn⟩ := h
  obtain ⟨new', hlog', hdrawn'⟩ := h'
  refine ⟨new' ++ new, by rw [hlog', hlog, List.append_assoc], ?_⟩
  rw [List.reverse_append, List.map_append]
  exact hdrawn.trans hdrawn'

theorem draws_zeroTable (pt : BitVec 64) (n : ℕ) (r : Recorded σ) :
    Draws alloc r true (Recorded.zeroTable pt n r) := by
  induction n with
  | zero => exact ⟨[], rfl, drawn_of_replays rfl⟩
  | succ n ih => exact ih.trans (draws_write _ pt (BitVec.ofNat 64 n) 0)

theorem draws_allocPageTable (r : Recorded σ) :
    Draws alloc r (r.allocPageTable alloc).1.isSome (r.allocPageTable alloc).2 := by
  obtain ⟨page, hcall⟩ : ∃ page, alloc r.state.mem r.state.frames =
      (page, (r.state.pmmAlloc alloc).2.mem, (r.state.pmmAlloc alloc).2.frames) := ⟨_, rfl⟩
  have hpage : (r.state.pmmAlloc alloc).1 = page := congrArg Prod.fst hcall
  simp only [Recorded.allocPageTable, hpage]
  by_cases hp : page = 0
  · simp only [hp, if_true]
    refine ⟨[], rfl, _, rfl, ?_⟩
    rw [hp] at hcall
    exact hcall
  · simp only [hp, if_false]
    have hcall' : Draws alloc r true ⟨(r.state.pmmAlloc alloc).2, .obtained page :: r.log⟩ :=
      ⟨[.obtained page], rfl, drawn_of_replays (replays_one hcall)⟩
    exact hcall'.trans (draws_zeroTable _ 512 _)

theorem draws_vmmMapPage (alloc : Memory 64 → σ → BitVec 64 × Memory 64 × σ)
    (virt phys flags : BitVec 64) (r : Recorded σ) :
    Draws alloc r (Recorded.vmmMapPage alloc virt phys flags r).1.isSome
      (Recorded.vmmMapPage alloc virt phys flags r).2 :=
  Recorded.vmmMapPage_rule draws_write draws_allocPageTable (fun _ _ _ _ h h' => h.trans h')
    virt phys flags r

end Drawn

section Runs

variable {σ : Type} (alloc : Memory 64 → σ → BitVec 64 × Memory 64 × σ)

-- What a part of elf_load does, against the state before it.
structure GivenRun (s : State σ) (r : Run σ) : Prop where
  hhdm : r.state.hhdmOffset = s.hhdmOffset
  backed : ∀ before, Backed s.hhdmOffset before r.events
  drawn : Drawn alloc (s.mem, s.frames) r.done (r.state.mem, r.state.frames) r.events

theorem footprint_univ : Footprint alloc Set.univ := fun _ _ _ hx => absurd trivial hx

theorem loadPage_given (elfBinary phdr : BitVec 64) (seg : Segment) (p : BitVec 64) (s : State σ) :
    GivenRun alloc s (Traced.loadPage alloc elfBinary phdr seg p s) := by
  have hcall : Event.Takes alloc (s.mem, s.frames)
      ((s.pmmAlloc alloc).2.mem, (s.pmmAlloc alloc).2.frames) (.given (s.pmmAlloc alloc).1) := rfl
  have hhdm : (s.pmmAlloc alloc).2.hhdmOffset = s.hhdmOffset := rfl
  simp only [Traced.loadPage]
  generalize (s.pmmAlloc alloc).2 = s1 at hcall hhdm ⊢
  generalize (s.pmmAlloc alloc).1 = physFrame at hcall ⊢
  generalize (if pFlags s1.mem phdr &&& pfW ≠ 0 then ptePresent ||| pteUser ||| pteWrite
    else ptePresent ||| pteUser) = flags
  generalize seg.pageVaddr + p * 0x1000 = cur
  obtain ⟨new, hnew⟩ :=
    Recorded.vmmMapPage_added (footprint_univ alloc) cur physFrame flags ⟨s1, []⟩
  obtain ⟨new', hlog, hdrawn⟩ := draws_vmmMapPage alloc cur physFrame flags ⟨s1, []⟩
  generalize Recorded.vmmMapPage alloc cur physFrame flags ⟨s1, []⟩ = run at hnew hlog hdrawn ⊢
  rcases run with ⟨mapped, r⟩
  have hoffset : r.state.hhdmOffset = s.hhdmOffset := hnew.hhdm.trans hhdm
  have hpaging : r.log.reverse.map Event.paging = new'.reverse.map Event.paging := by
    rw [hlog, List.append_nil]
  have hobtained : ∀ q, .obtained q ∈ new'.reverse → q ≠ 0 := by
    intro q hq
    refine hnew.obtained q ?_
    have hsame : new ++ [] = new' ++ [] := hnew.log.symm.trans hlog
    rw [List.append_nil, List.append_nil] at hsame
    rw [hsame]
    exact List.mem_reverse.mp hq
  have hfirst : ∀ before, Backed s.hhdmOffset before
      (.given physFrame :: .read (phdr + 4) 4 :: new'.reverse.map .paging) :=
    fun before => ⟨trivial, trivial, backed_paging hobtained⟩
  -- The frame of the page and the read of p_flags, before the mapping.
  have hstart : Drawn alloc (s.mem, s.frames) true (s1.mem, s1.frames)
      [.given physFrame, .read (phdr + 4) 4] :=
    drawn_of_replays ⟨_, hcall, replays_reads _ (onlyReads_one _ _)⟩
  cases mapped with
  | none =>
      refine ⟨hoffset, fun before => ?_, ?_⟩
      · rw [hpaging]
        exact hfirst before
      · rw [hpaging]
        exact hstart.trans hdrawn
  | some u =>
      refine ⟨hoffset, fun before => ?_, ?_⟩
      · dsimp only
        rw [hpaging]
        refine backed_append (hfirst before) ?_
        rw [State.physToVirt, hoffset]
        exact backed_writes (List.mem_append_right _ List.mem_cons_self)
      · dsimp only
        rw [hpaging]
        exact (hstart.trans hdrawn).trans (drawn_of_replays (replays_writes _ _ _ _ _ _ _))

theorem given_composes : Composes alloc (GivenRun alloc) := by
  refine ⟨?_, loadPage_given alloc, ?_⟩
  · intro s events h
    exact ⟨rfl, fun before => backed_reads h, drawn_of_replays (replays_reads _ h)⟩
  · intro s r r' hd h h'
    have hdrawn := h.drawn
    rw [hd] at hdrawn
    refine ⟨h'.hhdm.trans h.hhdm, fun before => ?_, hdrawn.trans h'.drawn⟩
    refine backed_append (h.backed before) ?_
    rw [← h.hhdm]
    exact h'.backed _

theorem Backed.mem {hhdm : BitVec 64} {before l : List Event} {e : Event} (h : Backed hhdm before l)
    (he : e ∈ l) : ∃ earlier, e.Supported hhdm earlier := by
  induction l generalizing before with
  | nil => cases he
  | cons e' l ih =>
      rcases List.mem_cons.mp he with rfl | he
      · exact ⟨before, h.1⟩
      · exact ih h.2 he

end Runs

section Null

variable {σ : Type} {alloc : Memory 64 → σ → BitVec 64 × Memory 64 × σ} {R : Set (BitVec 64)}
variable {elfBinary hhdm root : BitVec 64} {size : ℕ} {s : State σ}

-- Where the leaf table is there, the loop goes on with frame 0.
theorem loadPage_null (phdr : BitVec 64) (seg : Segment) (p cur : BitVec 64)
    (hfoot : Footprint alloc R) (hoffset : s.hhdmOffset = hhdm) (hpml4 : s.pml4 = root + hhdm)
    (hready : Ready R elfBinary size hhdm root s.mem)
    (hnull : (alloc s.mem s.frames).1 = 0) (hcur : cur = seg.pageVaddr + p * 0x1000)
    (hlow : (pageNumber cur).toNat < 2 ^ 35)
    (hleaf : (tableAt hhdm s.mem root (tablePath (pageNumber cur))).isSome = true)
    (hout : 0 ∉ tables lowerHalf hhdm s.mem root) (hspare : Spares (fileBytes elfBinary size) hhdm 0) :
    ∃ s', loadPage alloc elfBinary phdr seg p s = some s' ∧ s'.hhdmOffset = hhdm ∧
      Present (leafEntry hhdm s'.mem root (pageNumber cur)) ∧
      pageFrame hhdm s'.mem root (pageNumber cur) = 0 ∧ Agree s.mem s'.mem elfBinary size := by
  have hcall : s.pmmAlloc alloc = (0, (s.pmmAlloc alloc).2) := by
    rw [← hnull]
    rfl
  have htaken : ∀ x, x ∉ R → (s.pmmAlloc alloc).2.mem x = s.mem x := hfoot s.mem s.frames
  have hoffset1 : (s.pmmAlloc alloc).2.hhdmOffset = hhdm := hoffset
  have hpml41 : (s.pmmAlloc alloc).2.pml4 = root + hhdm := hpml4
  unfold loadPage
  rw [hcall, ← hcur]
  generalize (s.pmmAlloc alloc).2 = s1 at *
  have hready1 := hready.congr htaken
  have hsame := hready.sameTree htaken
  have hw := walk_on_path lowerHalf _ (lower_index hlow) _ (List.prefix_refl _)
  have hplain : PlainWalk hhdm s1.mem root (pageNumber cur) := fun path i f hpre =>
    hready1.plain path i f (walk_on_path lowerHalf _ (lower_index hlow) _ hpre)
  rw [← hsame.lookup _ hw] at hleaf
  -- No frame is needed for a table.
  generalize hflags : (if pFlags s1.mem phdr &&& pfW ≠ 0 then ptePresent ||| pteUser ||| pteWrite
    else ptePresent ||| pteUser) = flags
  have hcases : flags = ptePresent ||| pteUser ∨ flags = ptePresent ||| pteUser ||| pteWrite :=
    hflags ▸ pageFlags_cases s1.mem phdr
  obtain ⟨s2, hmap, hlog⟩ := vmmMapPage_found 0 flags hfoot hoffset1 hpml41 hready1.tree hready1.region
    (lower_index hlow) hplain hleaf
  have hm := vmmMapPage_spec hfoot hoffset1 hpml41 hready1.tree hready1.region (lower_index hlow) hplain
    hmap hlog ⟨List.nodup_nil, by simp, by simp, by simp⟩
  have hvirt : s2.physToVirt 0 = 0 + hhdm := by
    rw [State.physToVirt, hlog.hhdm, hoffset1]
  have hkeeps := writePage_keeps s2.mem elfBinary (0 + hhdm) cur seg
  have hout2 : 0 ∉ tables lowerHalf hhdm s2.mem root := by
    rw [hm.toExtends.tables, hsame.tables]
    exact fun hin => hin.elim hout (List.not_mem_nil)
  have hafter : SameTree lowerHalf hhdm root s2.mem
      (writePage s2.mem elfBinary (0 + hhdm) cur seg) :=
    sameTree hm.tree (fun f hf => hkeeps.agree
      (pages_apart (hm.tree.mem_aligned hf) (by simp [Aligned]) (fun he => hout2 (he ▸ hf))))
  have hfile : Agree s.mem s2.mem elfBinary size :=
    hready1.agree hm.toExtends (by simp) (fun x hx => htaken x (hready.apart x hx))
  have hentry : leafEntry hhdm (writePage s2.mem elfBinary (0 + hhdm) cur seg) root (pageNumber cur) =
      (0 &&& ~~~0xFFF) ||| flags ||| ptePresent := by
    rw [leafEntry, hafter.leafAt hw]
    exact (leafEntry_page hm.leaves (pageNumber cur) (lower_index hlow)).trans (if_pos rfl)
  obtain ⟨hpres, hframe⟩ := entry_of_frame (p := 0) (by decide) hcases
  simp only [hflags, hmap, hvirt]
  refine ⟨_, rfl, hlog.hhdm.trans hoffset1, ?_, ?_, ?_⟩
  · dsimp only
    rw [hentry]
    exact hpres
  · dsimp only
    rw [pageFrame, hentry]
    exact hframe
  · dsimp only
    intro x hx
    rw [hkeeps x (fun hin => hspare x hin hx)]
    exact hfile x hx

end Null

section Sample

open Miyabi.Mm.Boot

-- The executable with a segment of two pages; `used` are the bits of the frames.
def tightState (used : BitVec 16) : State (List Returned) :=
  let m := singleFile.store64 (sampleBase + 104) 0x1001
  let m := store8 (store8 m 0xFFFF800000000001 ((used >>> 8).setWidth 8)) 0xFFFF800000000000
    (used.setWidth 8)
  { singleState with mem := m }

variable {used : BitVec 16}

theorem tightState_outside {x : BitVec 64} (hx : ¬InRange sampleBase 176 x) :
    (tightState used).mem x = lowBitmap used x := by
  have hout := fun h => hx (inRange_inner sampleBase 104 x (by decide : (104 : BitVec 64).toNat + 8 ≤ 176) h)
  have hfile : singleFile.store64 (sampleBase + 104) 0x1001 x = lowBitmap 0xFC03 x := by
    rw [store64, store_of_not_inRange _ _ _ _ hout, singleFile_outside hx]
  simp only [tightState, lowBitmap, store8]
  split_ifs with h0 h1
  · rfl
  · rfl
  · rw [hfile, lowBitmap, store8_ne _ _ _ _ h0, store8_ne _ _ _ _ h1]

theorem tightState_lists : ptLoads (tightState 0xFFC3).mem sampleBase = [⟨0x400000, 0x1001, 1, 0⟩] := by
  decide +kernel

theorem tightState_executable : Executable (tightState 0xFFC3).mem sampleBase 176 := by
  refine ⟨by decide +kernel, by decide +kernel, by decide +kernel, by omega, by decide, by decide +kernel,
    ?_, ?_, ?_⟩
  · rw [tightState_lists]
    intro seg hseg
    rw [List.mem_singleton.mp hseg]
    exact ⟨by decide, by decide⟩
  · rw [tightState_lists]
    intro seg hseg
    rw [List.mem_singleton.mp hseg]
    decide
  · rw [tightState_lists]
    exact List.pairwise_singleton _ _

theorem tightState_only : OnlyLoad (tightState 0xFFC3).mem sampleBase 0 := by
  have hcount : (ePhnum (tightState 0xFFC3).mem sampleBase).toNat = 2 := by decide +kernel
  have hsecond : pType (tightState 0xFFC3).mem (headerAt (tightState 0xFFC3).mem sampleBase 1) ≠ ptLoad := by
    decide +kernel
  refine ⟨by rw [hcount]; decide, by decide +kernel, ?_⟩
  intro j hj ht
  rw [hcount] at hj
  by_contra hne
  obtain rfl : j = 1 := by omega
  exact hsecond ht

-- After the first page pmm_alloc has no frame left.
theorem lowBitmap_full {m : Memory 64} (hm : (m 0xFFFF800000000000, m 0xFFFF800000000001) = (0xFF, 0xFF))
    (calls : List Returned) : (bitmapAlloc lowPmm m calls).1 = 0 := by
  have hsame : ∀ x ∈ bitmapRegion lowPmm, m x = lowBitmap 0xFFFF x := by
    intro x hx
    have hbit : (x - 0xFFFF800000000000).toNat < 2 := hx
    obtain rfl | rfl : x = 0xFFFF800000000000 ∨ x = 0xFFFF800000000001 := by bv_omega
    · exact congrArg Prod.fst hm
    · exact congrArg Prod.snd hm
  have hnone : freeList lowPmm (lowBitmap 0xFFFF) = [] := by decide +kernel
  rcases Pmm.pmmAlloc_spec lowPmm_wellSized (m := m) with ⟨-, he⟩ | ⟨f, m', hleast, -⟩
  · exact congrArg Prod.fst he
  · have hfree := hleast.1
    rw [freeFrames_congr lowPmm_wellSized hsame, ← mem_freeList lowPmm_wellSized, hnone] at hfree
    cases hfree

end Sample

end Miyabi.Elf.Loader
