import Miyabi.Modules.Loader.Entry

namespace Miyabi.Modules

open Miyabi.Base Miyabi.Base.Memory Miyabi.Base.Tiling Miyabi.Elf Miyabi.Mm Miyabi.Mm.Heap

-- The n bytes at a lie in the `size` bytes from `base` on.
def Spans (base size a : BitVec 64) (n : ℕ) : Prop := (a - base).toNat + n ≤ size.toNat

theorem Spans.inRange {base size a x : BitVec 64} {n : ℕ} (h : Spans base size a n)
    (hx : InRange a n x) : InRange base size.toNat x := by
  have ha : base + (a - base) = a := by ring
  exact inRange_inner base (a - base) x h (ha.symm ▸ hx)

-- Only the bytes of the stores between two states differ.
def Traced (w w' : Work) : Prop :=
  ∃ new, w'.stores = new ++ w.stores ∧
    ∀ x, (∀ s ∈ new, ¬InRange s.1 s.2 x) → w'.mem x = w.mem x

section Traced

theorem traced_one {w w' : Work} {a : BitVec 64} {n : ℕ} (hs : w'.stores = (a, n) :: w.stores)
    (hm : KeepsOutside w.mem w'.mem a n) : Traced w w' :=
  ⟨[(a, n)], hs, fun x hx => hm x (hx _ List.mem_cons_self)⟩

theorem traced_store32 (w : Work) (a : BitVec 64) (v : BitVec 32) : Traced w (w.store32 a v) :=
  traced_one rfl fun x hx => store_of_not_inRange (n := 4) w.mem a x v hx

theorem traced_store64 (w : Work) (a v : BitVec 64) : Traced w (w.store64 a v) :=
  traced_one rfl fun x hx => store_of_not_inRange (n := 8) w.mem a x v hx

theorem traced_stepwise : Stepwise Traced where
  refl w := ⟨[], rfl, fun _ _ => rfl⟩
  trans w w1 w2 := by
    rintro ⟨new, hs, hm⟩ ⟨new', hs', hm'⟩
    refine ⟨new' ++ new, by rw [hs', hs, List.append_assoc], fun x hx => ?_⟩
    rw [hm' x fun s h => hx s (List.mem_append_left _ h),
      hm x fun s h => hx s (List.mem_append_right _ h)]
  store8 w a v := by
    refine traced_one (a := a) (n := 1) rfl fun x hx => store8_ne w.mem a x v fun he => hx ?_
    rw [he]
    exact inRange_self a 1 (by decide)
  store64 := traced_store64
  patch relType symVal addend place w := by
    unfold patch
    dsimp only
    split
    · exact ⟨[], rfl, fun _ _ => rfl⟩
    · split
      · exact traced_store64 w place _
      · split
        · exact traced_store32 w place _
        · split
          · exact traced_store32 w place _
          · exact ⟨[], rfl, fun _ _ => rfl⟩

end Traced

-- Every store so far is one to the file or to the image.
def Bounded (fileBuffer fileSize moduleMemory total : BitVec 64) (w : Work) : Prop :=
  ∀ s ∈ w.stores, Spans fileBuffer fileSize s.1 s.2 ∨ Spans moduleMemory total s.1 s.2

-- Then what lies outside both is kept.
theorem Traced.agree {fileBuffer fileSize moduleMemory total b : BitVec 64} {n : ℕ} {w w' : Work}
    (h : Traced w w') (hb : Bounded fileBuffer fileSize moduleMemory total w')
    (hfile : Apart fileBuffer fileSize.toNat b n) (himage : Apart moduleMemory total.toNat b n) :
    Agree w.mem w'.mem b n := by
  obtain ⟨new, hs, hm⟩ := h
  intro x hx
  refine hm x fun s hnew hin => ?_
  have hmem : s ∈ w'.stores := by
    rw [hs]
    exact List.mem_append_left _ hnew
  rcases hb s hmem with hspan | hspan
  · exact hfile x (hspan.inRange hin) hx
  · exact himage x (hspan.inRange hin) hx

-- A buffer of the caller: inside a live allocation or below the heap.
def Buffer (system : Heap.System) (fileBuffer fileSize : BitVec 64) : Prop :=
  (∃ a ∈ system.live, a.ptr = fileBuffer ∧ fileSize ≤ a.size) ∨
    fileBuffer.toNat + fileSize.toNat ≤ heapStart.toNat

theorem Buffer.apart {system : Heap.System} {bs : List Block} {fileBuffer fileSize : BitVec 64}
    (hf : Buffer system fileBuffer fileSize) (h : Tidy system bs) :
    ∀ b ∈ bs, Apart fileBuffer fileSize.toNat b.addr 24 := by
  intro b hb
  rcases hf with ⟨a, ha, rfl, hsize⟩ | hlow
  · exact (h.payload_apart ha b hb).mono hsize le_rfl
  · have hbounds := tiles_bounds h.layout.tiles hb
    have hend := system.heap.heapEnd.isLt
    simp only [Block.start, Block.len] at hbounds
    exact apart_of_le fileBuffer b.addr fileSize.toNat 24 (by omega) (by omega)

section Record

variable (t : Tables) (mod : BitVec 64)

theorem inRange_offset (ofs n : ℕ) (h : ofs + n ≤ 96) (x : BitVec 64)
    (hx : InRange (mod + BitVec.ofNat 64 ofs) n x) : InRange mod 96 x := by
  refine inRange_inner mod (BitVec.ofNat 64 ofs) x ?_ hx
  rw [BitVec.toNat_ofNat, Nat.mod_eq_of_lt (by omega)]
  exact h

theorem keepsOutside_field (w : Work) (ofs : ℕ) (h : ofs + 8 ≤ 96) (v : BitVec 64) :
    KeepsOutside w.mem (w.store64 (mod + BitVec.ofNat 64 ofs) v).mem mod 96 :=
  fun x hx => store_of_not_inRange (n := 8) w.mem _ x v
    fun hin => hx (inRange_offset mod ofs 8 h x hin)

theorem copyName_keeps (name : BitVec 64) (fuel i : ℕ) (hi : fuel + i ≤ 63) (w : Work) :
    KeepsOutside w.mem (copyName name mod fuel i w).mem mod 96 := by
  induction fuel generalizing i w with
  | zero => exact fun _ _ => rfl
  | succ fuel ih =>
      rw [copyName]
      split
      · have hfirst := keepsOutside_store8 w.mem mod (mod + BitVec.ofNat 64 i) 96
          (w.mem (name + BitVec.ofNat 64 i))
          (inRange_offset mod i 1 (by omega) _ (inRange_self _ 1 (by decide)))
        have hsecond := keepsOutside_store8
          (w.store8 (mod + BitVec.ofNat 64 i) (w.mem (name + BitVec.ofNat 64 i))).mem mod
          (mod + BitVec.ofNat 64 (i + 1)) 96 0
          (inRange_offset mod (i + 1) 1 (by omega) _ (inRange_self _ 1 (by decide)))
        exact (hfirst.trans hsecond).trans (ih (i + 1) (by omega) _)
      · exact fun _ _ => rfl

theorem scanSymbols_keeps (n : ℕ) (w : Work) :
    KeepsOutside w.mem (scanSymbols t mod n w).mem (mod + 80) 16 := by
  induction n with
  | zero => exact fun _ _ => rfl
  | succ n ih =>
      refine ih.trans ?_
      rw [scanSymbols, scanSymbol_eq]
      split
      · refine fun x hx => store_of_not_inRange (n := 8) _ _ x _ fun hin => hx ?_
        exact inRange_mono (mod + 80) x (by decide) hin
      · split
        · refine fun x hx => store_of_not_inRange (n := 8) _ _ x _ fun hin => hx ?_
          have h88 : mod + 88 = mod + 80 + 8 := by ring
          rw [h88] at hin
          exact inRange_inner (mod + 80) 8 x (by decide) hin
        · exact fun _ _ => rfl

theorem recordModule_keeps (name moduleMemory total : BitVec 64) (w : Work) :
    KeepsOutside w.mem (recordModule name mod moduleMemory total w).mem mod 96 := by
  unfold recordModule
  have h1 := copyName_keeps mod name 63 0 (by decide) w
  have h2 := h1.trans (keepsOutside_field mod _ 64 (by decide) moduleMemory)
  have h3 := h2.trans (keepsOutside_field mod _ 72 (by decide) total)
  have h4 := h3.trans (keepsOutside_field mod _ 80 (by decide) 0)
  exact h4.trans (keepsOutside_field mod _ 88 (by decide) 0)

-- Neither the fields nor the search, however far it has come, writes outside the record.
theorem searched_keeps (name moduleMemory total : BitVec 64) (n : ℕ) (w : Work) :
    KeepsOutside w.mem (scanSymbols t mod n (recordModule name mod moduleMemory total w)).mem mod 96 := by
  refine (recordModule_keeps mod name moduleMemory total w).trans ?_
  refine (scanSymbols_keeps t mod n _).mono fun x hx => ?_
  exact inRange_inner mod 80 x (by decide) hx

theorem fillModule_keeps (name moduleMemory total : BitVec 64) (w : Work) :
    KeepsOutside w.mem (fillModule t name mod moduleMemory total w).mem mod 96 :=
  searched_keeps t mod name moduleMemory total _ w

-- A word of the record that a later store to a word behind it leaves alone.
theorem load64_before (a b : BitVec 64) (h : a.toNat + 8 ≤ b.toNat) (hb : b.toNat ≤ 96) (w : Work)
    (v : BitVec 64) : (w.store64 (mod + b) v).mem.load64 (mod + a) = w.mem.load64 (mod + a) := by
  refine load_store_apart (k := 8) w.mem (mod + a) (mod + b) v fun x hx hy => ?_
  simp only [InRange] at hx hy
  bv_omega

theorem load64_same (a v : BitVec 64) (w : Work) : (w.store64 a v).mem.load64 a = v :=
  load_store_same (n := 8) w.mem a v (by decide)

-- memory_base and memory_size of the record.
theorem fillModule_fields (name moduleMemory total : BitVec 64) (w : Work) :
    (fillModule t name mod moduleMemory total w).mem.load64 (mod + 64) = moduleMemory ∧
      (fillModule t name mod moduleMemory total w).mem.load64 (mod + 72) = total := by
  have hscan : ∀ a : BitVec 64, a.toNat + 8 ≤ 80 →
      (fillModule t name mod moduleMemory total w).mem.load64 (mod + a) =
        (recordModule name mod moduleMemory total w).mem.load64 (mod + a) := by
    intro a ha
    refine load_congr ((scanSymbols_keeps t mod _ _).agree fun x hx hy => ?_)
    simp only [InRange] at hx hy
    bv_omega
  rw [hscan 64 (by decide), hscan 72 (by decide)]
  unfold recordModule
  dsimp only
  constructor
  · rw [load64_before mod 64 88 (by decide) (by decide), load64_before mod 64 80 (by decide) (by decide),
      load64_before mod 64 72 (by decide) (by decide), load64_same]
  · rw [load64_before mod 72 88 (by decide) (by decide), load64_before mod 72 80 (by decide) (by decide),
      load64_same]

end Record

section Ledger

variable {ksymtab : KernelSymbols} {name fileBuffer fileSize : BitVec 64}
variable {system : Heap.System} {bs : List Block}

theorem image_live {shdrs total moduleMemory : BitVec 64} {system1 : Heap.System}
    (h : Imaged fileBuffer fileSize system shdrs total moduleMemory system1) :
    system1.live = ⟨moduleMemory, total⟩ :: system.live := by
  rw [System.kmalloc_live h.image, if_neg h.image_ne]

theorem image_fresh {shdrs total moduleMemory : BitVec 64} {system1 : Heap.System}
    (ht : Tidy system bs)
    (h : Imaged fileBuffer fileSize system shdrs total moduleMemory system1) :
    ∀ a ∈ system.live, a.ptr ≠ moduleMemory := by
  obtain ⟨b, hserves, rfl⟩ := kmalloc_serves h.image h.image_ne
  exact ht.fresh hserves

-- Giving up releases the image.
theorem giveUp_live {moduleMemory total : BitVec 64} {system1 system' : Heap.System} {w w' : Work}
    {live : List Alloc} (hlive : system1.live = ⟨moduleMemory, total⟩ :: live)
    (hfresh : ∀ a ∈ live, a.ptr ≠ moduleMemory)
    (h : giveUp moduleMemory system1 w = some (.failed system' w')) : system'.live = live := by
  obtain ⟨system2, hk, he⟩ := giveUp_failed h
  injection he with hsystem
  rw [hsystem, System.kfree_live hk]
  show (system1.live).filter _ = live
  rw [hlive]
  exact filter_fresh hfresh

theorem failed_live (ht : Tidy system bs) {system' : Heap.System} {w : Work}
    (h : prepareModule ksymtab name fileBuffer fileSize system = some (.failed system' w)) :
    system'.live = system.live := by
  rcases prepareModule_cases h with he | ⟨total, system1, hk, he⟩ |
    ⟨shdrs, total, moduleMemory, system1, himage, hlink⟩
  · injection he with hsystem
    rw [hsystem]
  · injection he with hsystem
    rw [hsystem, System.kmalloc_live hk, if_pos rfl]
  · have hlive := image_live himage
    have hfresh := image_fresh ht himage
    rcases linkModule_cases hlink with ⟨w', _, hg⟩ | ⟨t, w1, system2, _, _, hk, hg⟩ |
      ⟨t, w1, mod, system2, _, he⟩
    · exact giveUp_live hlive hfresh hg
    · have hlive2 : system2.live = ⟨moduleMemory, total⟩ :: system.live := by
        rw [System.kmalloc_live hk, if_pos rfl]
        exact hlive
      exact giveUp_live hlive2 hfresh hg
    · cases he

theorem ready_live {mod moduleMemory total : BitVec 64} {system' : Heap.System} {w : Work}
    (h : prepareModule ksymtab name fileBuffer fileSize system =
      some (.ready mod moduleMemory total system' w)) :
    system'.live = ⟨mod, moduleSize⟩ :: ⟨moduleMemory, total⟩ :: system.live := by
  obtain ⟨shdrs, system1, t, w1, system2, himage, hlinked, -, rfl⟩ := prepareModule_ready h
  have hlive := image_live himage
  show system2.live = _
  rw [System.kmalloc_live hlinked.record, if_neg hlinked.record_ne]
  show _ :: system1.live = _
  rw [hlive]

end Ledger

-- The accesses of load_module stay in bounds: the file is a buffer of the caller, the two
-- passes and the relocations store into the file and the image alone, and the heap has room
-- for both requests.
structure InBounds (ksymtab : KernelSymbols) (fileBuffer fileSize : BitVec 64)
    (system : Heap.System) : Prop where
  buffer : Buffer system fileBuffer fileSize
  image : ∀ shdrs total moduleMemory system1,
    Imaged fileBuffer fileSize system shdrs total moduleMemory system1 →
      Permitted system (.kmalloc total)
  placed : ∀ shdrs total moduleMemory system1,
    Imaged fileBuffer fileSize system shdrs total moduleMemory system1 →
      Bounded fileBuffer fileSize moduleMemory total (placedWork fileBuffer shdrs moduleMemory system1)
  relocated : ∀ shdrs total moduleMemory system1 t,
    Imaged fileBuffer fileSize system shdrs total moduleMemory system1 →
      findTables fileBuffer fileSize (placedWork fileBuffer shdrs moduleMemory system1).mem fileBuffer
        shdrs = some t →
      Bounded fileBuffer fileSize moduleMemory total (resultOf (relocateSections ksymtab t fileBuffer
        fileSize (2 ^ 16) 0 (placedWork fileBuffer shdrs moduleMemory system1)))
  record : ∀ shdrs total moduleMemory system1 t w1,
    Imaged fileBuffer fileSize system shdrs total moduleMemory system1 →
      findTables fileBuffer fileSize (placedWork fileBuffer shdrs moduleMemory system1).mem fileBuffer
        shdrs = some t →
      relocateSections ksymtab t fileBuffer fileSize (2 ^ 16) 0
        (placedWork fileBuffer shdrs moduleMemory system1) = .ok w1 →
      Permitted (system1.setMem w1.mem) (.kmalloc moduleSize)

section InOrder

variable {ksymtab : KernelSymbols} {name fileBuffer fileSize : BitVec 64}
variable {system system1 : Heap.System} {bs : List Block} {shdrs total moduleMemory : BitVec 64}

theorem placedWork_traced :
    Traced ⟨system1.mem, [], [], []⟩ (placedWork fileBuffer shdrs moduleMemory system1) :=
  traced_stepwise.placeSections (fun w sh addr => traced_store64 w (sh + 16) addr) fileBuffer shdrs
    fileBuffer moduleMemory _ 0 0 _

theorem relocated_traced (t : Tables) :
    Traced ⟨system1.mem, [], [], []⟩ (resultOf (relocateSections ksymtab t fileBuffer fileSize
      (2 ^ 16) 0 (placedWork fileBuffer shdrs moduleMemory system1))) :=
  traced_stepwise.trans _ _ _ placedWork_traced
    (traced_stepwise.relocateSections ksymtab t fileBuffer fileSize _ 0 _)

-- The heap stays in order while load_module works on the file and the image.
theorem work_tidy (hb : InBounds ksymtab fileBuffer fileSize system) (ht : Tidy system bs)
    (himage : Imaged fileBuffer fileSize system shdrs total moduleMemory system1) :
    ∃ bs1, Tidy system1 bs1 ∧ ∀ w, Traced ⟨system1.mem, [], [], []⟩ w →
      Bounded fileBuffer fileSize moduleMemory total w → Tidy (system1.setMem w.mem) bs1 := by
  obtain ⟨bs1, ht1⟩ := kmalloc_tidy ht total (hb.image _ _ _ _ himage)
    (System.kmalloc_step himage.image)
  have hlive := image_live himage
  have hmem : (⟨moduleMemory, total⟩ : Alloc) ∈ system1.live := hlive ▸ List.mem_cons_self
  have hbuffer : Buffer system1 fileBuffer fileSize := by
    rcases hb.buffer with ⟨a, ha, he⟩ | hlow
    · exact Or.inl ⟨a, hlive ▸ List.mem_cons_of_mem _ ha, he⟩
    · exact Or.inr hlow
  refine ⟨bs1, ht1, fun w hw hbounded => ht1.setMem fun b hbs => ?_⟩
  exact hw.agree hbounded (hbuffer.apart ht1 b hbs) (ht1.payload_apart hmem b hbs)

theorem giveUp_tidy {system' : Heap.System} {w w' : Work} (ht : Tidy (system1.setMem w.mem) bs)
    (hmem : (⟨moduleMemory, total⟩ : Alloc) ∈ system1.live)
    (h : giveUp moduleMemory system1 w = some (.failed system' w')) : ∃ bs', Tidy system' bs' := by
  obtain ⟨system2, hk, he⟩ := giveUp_failed h
  injection he with hsystem
  rw [hsystem]
  exact step_tidy ht (.kfree moduleMemory) (Or.inr ⟨_, hmem, rfl⟩) hk

theorem failed_tidy (hb : InBounds ksymtab fileBuffer fileSize system) (ht : Tidy system bs)
    {system' : Heap.System} {w : Work}
    (h : prepareModule ksymtab name fileBuffer fileSize system = some (.failed system' w)) :
    ∃ bs', Tidy system' bs' := by
  rcases prepareModule_cases h with he | ⟨total, system1, hk, he⟩ |
    ⟨shdrs, total, moduleMemory, system1, himage, hlink⟩
  · injection he with hsystem
    exact ⟨bs, hsystem ▸ ht⟩
  · injection he with hsystem
    exact ⟨bs, (hsystem.trans (ht.kmalloc_null hk).2) ▸ ht⟩
  · obtain ⟨bs1, ht1, hwork⟩ := work_tidy hb ht himage
    have hmem : (⟨moduleMemory, total⟩ : Alloc) ∈ system1.live :=
      image_live himage ▸ List.mem_cons_self
    rcases linkModule_cases hlink with ⟨w', hw', hg⟩ | ⟨t, w1, system2, htables, hr, hk, hg⟩ |
      ⟨t, w1, mod, system2, _, he⟩
    · refine giveUp_tidy (hwork w' ?_ ?_) hmem hg
      · rcases hw' with rfl | ⟨t, -, rfl⟩
        · exact placedWork_traced
        · exact relocated_traced t
      · rcases hw' with rfl | ⟨t, htables, rfl⟩
        · exact hb.placed _ _ _ _ himage
        · exact hb.relocated _ _ _ _ t himage htables
    · have htidy := hwork _ (relocated_traced t) (hb.relocated _ _ _ _ t himage htables)
      rw [hr] at htidy
      exact absurd (htidy.kmalloc_null hk).1 (by decide)
    · cases he

theorem ready_tidy (hb : InBounds ksymtab fileBuffer fileSize system) (ht : Tidy system bs)
    {mod : BitVec 64} {system' : Heap.System} {w : Work}
    (h : prepareModule ksymtab name fileBuffer fileSize system =
      some (.ready mod moduleMemory total system' w)) : ∃ bs', Tidy system' bs' := by
  obtain ⟨shdrs, system1, t, w1, system2, himage, hlinked, rfl, rfl⟩ := prepareModule_ready h
  obtain ⟨bs1, -, hwork⟩ := work_tidy hb ht himage
  have htidy := hwork _ (relocated_traced t) (hb.relocated _ _ _ _ t himage hlinked.tables)
  rw [hlinked.relocated] at htidy
  have hpermitted := hb.record _ _ _ _ t w1 himage hlinked.tables hlinked.relocated
  obtain ⟨bs2, ht2⟩ := kmalloc_tidy htidy moduleSize hpermitted (System.kmalloc_step hlinked.record)
  have hmem : (⟨mod, moduleSize⟩ : Alloc) ∈ system2.live := by
    rw [System.kmalloc_live hlinked.record, if_neg hlinked.record_ne]
    exact List.mem_cons_self
  refine ⟨bs2, ht2.setMem fun b hbs => ?_⟩
  exact (fillModule_keeps t mod name moduleMemory total _).agree
    (ht2.payload_apart hmem b hbs).symm

end InOrder

section Returned

variable (ksymtab : KernelSymbols) (name fileBuffer fileSize : BitVec 64)
variable (call : BitVec 64 → Heap.System → Option Heap.System) (system : Heap.System) (l : Loaded)
variable (bs : List Block)

-- load_module returns NULL with the allocations as they were and without a call into the
-- module, or adds the image and the record before it calls. In bounds, the used blocks of
-- the heap are these allocations.
theorem load_leaks_nothing (ht : Tidy system bs)
    (h : loadModule ksymtab name fileBuffer fileSize call system = some l) :
    (l.mod = 0 → l.system.live = system.live ∧ l.called = [] ∧
      (InBounds ksymtab fileBuffer fileSize system → ∃ bs', Tidy l.system bs')) ∧
    (l.mod ≠ 0 → ∃ moduleMemory total before w, prepareModule ksymtab name fileBuffer fileSize system =
        some (.ready l.mod moduleMemory total before w) ∧
      before.live = ⟨l.mod, moduleSize⟩ :: ⟨moduleMemory, total⟩ :: system.live ∧
      before.mem.load64 (l.mod + 64) = moduleMemory ∧ before.mem.load64 (l.mod + 72) = total ∧
      (l.called = [] ∧ l.system = before ∨
        ∃ init, l.called = [init] ∧ call init before = some l.system) ∧
      (InBounds ksymtab fileBuffer fileSize system →
        (before.live.map Alloc.ptr).Nodup ∧ ∃ bs', Tidy before bs')) := by
  rcases loadModule_cases h with ⟨system', w, hp, rfl⟩ |
    ⟨mod, moduleMemory, total, before, w, hp, hcall⟩
  · refine ⟨fun _ => ⟨failed_live ht hp, rfl, fun hb => failed_tidy hb ht hp⟩, fun hmod => ?_⟩
    exact absurd rfl hmod
  · obtain ⟨_, _, _, _, system2, -, hlinked, hw, hbefore⟩ := prepareModule_ready hp
    have hmod : l.mod = mod := by
      rcases hcall with ⟨-, rfl⟩ | ⟨-, _, -, rfl⟩ <;> rfl
    have hfields : before.mem.load64 (mod + 64) = moduleMemory ∧
        before.mem.load64 (mod + 72) = total := by
      have hmem : before.mem = w.mem := by
        rw [hbefore]
        rfl
      rw [hmem, hw]
      exact fillModule_fields _ mod name moduleMemory total _
    rw [hmod]
    refine ⟨fun hz => absurd hz hlinked.record_ne, fun _ => ?_⟩
    refine ⟨moduleMemory, total, before, w, hp, ready_live hp, hfields.1, hfields.2, ?_, fun hb => ?_⟩
    · rcases hcall with ⟨-, rfl⟩ | ⟨-, after, hafter, rfl⟩
      · exact Or.inl ⟨rfl, rfl⟩
      · exact Or.inr ⟨_, rfl, hafter⟩
    · obtain ⟨bs', htidy⟩ := ready_tidy hb ht hp
      exact ⟨htidy.nodup, bs', htidy⟩

end Returned

theorem Imaged.unique {fileBuffer fileSize shdrs shdrs' total total' moduleMemory moduleMemory' :
    BitVec 64} {system system1 system1' : Heap.System}
    (h : Imaged fileBuffer fileSize system shdrs total moduleMemory system1)
    (h' : Imaged fileBuffer fileSize system shdrs' total' moduleMemory' system1') :
    shdrs = shdrs' ∧ total = total' ∧ moduleMemory = moduleMemory' ∧ system1 = system1' := by
  have hshdrs := h.shdrs_eq.trans h'.shdrs_eq.symm
  subst hshdrs
  have htotal := Option.some.inj (h.total_eq.symm.trans h'.total_eq)
  subst htotal
  have himage := Prod.mk.inj (Option.some.inj (h.image.symm.trans h'.image))
  exact ⟨rfl, rfl, himage.1, himage.2⟩

section Sample

variable {frames : FrameSupply} {s0 : Heap.System}

instance (fileBuffer fileSize moduleMemory total : BitVec 64) (w : Work) :
    Decidable (Bounded fileBuffer fileSize moduleMemory total w) :=
  inferInstanceAs (Decidable (∀ s ∈ w.stores, (s.1 - fileBuffer).toNat + s.2 ≤ fileSize.toNat ∨
    (s.1 - moduleMemory).toNat + s.2 ≤ total.toNat))

theorem sample_bounded : Bounded sampleFile 404 sampleImage 8 samplePlaced ∧
    Bounded sampleFile 404 sampleImage 8 sampleLinked := by decide +kernel

theorem sample_inBounds (hb : boot sampleMemory frames = some s0) :
    InBounds [] sampleFile 404 s0 := by
  have hplaced := sample_placedWork s0
  refine ⟨Or.inr (by decide), ?_, ?_, ?_, ?_⟩
  · intro shdrs total moduleMemory system1 himage
    have hsample := sample_imaged hb
    obtain ⟨rfl, rfl, rfl, rfl⟩ := himage.unique hsample
    exact System.permitted_search ⟨by decide, by decide⟩ hsample.image rfl
  · intro shdrs total moduleMemory system1 himage
    obtain ⟨rfl, rfl, rfl, rfl⟩ := himage.unique (sample_imaged hb)
    rw [hplaced]
    exact sample_bounded.1
  · intro shdrs total moduleMemory system1 t himage htables
    obtain ⟨rfl, rfl, rfl, rfl⟩ := himage.unique (sample_imaged hb)
    rw [hplaced] at htables ⊢
    cases sample_tables.symm.trans htables
    rw [sample_relocated]
    exact sample_bounded.2
  · intro shdrs total moduleMemory system1 t w1 himage htables hrelocated
    obtain ⟨rfl, rfl, rfl, rfl⟩ := himage.unique (sample_imaged hb)
    rw [hplaced] at htables hrelocated
    cases sample_tables.symm.trans htables
    cases sample_relocated.symm.trans hrelocated
    exact System.permitted_search ⟨by decide, by decide⟩ (sample_recorded hb) rfl

end Sample

theorem load_leaks_nothing_sample :
    ∃ s0 total before w, boot sampleMemory sampleFrames = some s0 ∧
      prepareModule [] sampleName sampleFile 404 s0 =
        some (.ready sampleMod sampleImage total before w) ∧
      before.live = [⟨sampleMod, moduleSize⟩, ⟨sampleImage, total⟩] ∧
      (before.live.map Alloc.ptr).Nodup ∧ ∃ bs', Tidy before bs' := by
  obtain ⟨s0, hb, -⟩ := boot_invariant sampleMemory sampleFrames sampleFrames_ne
  obtain ⟨ht, hempty, -⟩ := boot_returned hb
  obtain ⟨moduleMemory, total, before, w, hp, hlive, -, -, -, htidy⟩ := (load_leaks_nothing []
    sampleName sampleFile 404 (fun _ s => some s) s0 _ [initialBlock] ht (sample_loaded hb)).2
    sampleMod_ne
  have heq := (sample_prepared hb).symm.trans hp
  injection heq with heq
  injection heq with _ hmm _ _ _
  subst hmm
  rw [hempty] at hlive
  exact ⟨s0, total, before, w, hb, hp, hlive, htidy (sample_inBounds hb)⟩

end Miyabi.Modules
