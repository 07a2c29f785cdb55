import Miyabi.Mm.Vmm.Spaces

namespace Miyabi.Mm.Vmm.Spaces.Sharing

open Miyabi.Base Miyabi.Base.Memory Miyabi.Base.Transition

-- The PML4s there are, as far as the kernel half goes: whether an entry lets user
-- mode in or writes through is not part of what they share.
def Same (e e' : BitVec 64) : Prop := e ||| (pteUser ||| pteWrite) = e' ||| (pteUser ||| pteWrite)

section Runs

variable {σ : Type} (alloc : Memory 64 → σ → BitVec 64 × Memory 64 × σ) (R : Set (BitVec 64))

-- pmm_alloc returns aligned frames, none of which is a PML4 or a table of the walk,
-- and none twice, and for a PML4 none that holds its own data, which lies in R; the
-- switches are among the PML4s there are, the maps in the upper half.
def Permitted (s : Spaces σ) : Op → Prop
  | .create => s.next alloc ≠ 0 →
      Aligned (s.next alloc) ∧ s.next alloc ∉ s.roots ∧ Spares R s.hhdm (s.next alloc)
  | .switch pml4Phys => pml4Phys &&& ~~~0xFFF ∈ s.roots
  | .map virt phys flags => UpperHalf virt ∧ ∀ s', step alloc s (.map virt phys flags) = some s' →
      ∀ new, s'.vmm.handed = s.vmm.handed ++ new → new.Nodup ∧ ∀ p ∈ new, Aligned p ∧
        p ∉ s.roots ∧ ¬Visits s.hhdm s.mem s.current (pageNumber virt) p

-- A map finds the root entry of its page present, unless there is no other PML4
-- yet, and goes through no PML4 as a lower table.
def Shared (s : Spaces σ) : Op → Prop
  | .map virt _ _ =>
      (Present (pml4Entry s.hhdm s.mem s.current virt) ∨ s.created = []) ∧
        ∀ root ∈ s.roots, ¬Visits s.hhdm s.mem s.current (pageNumber virt) root
  | _ => True

-- Every PML4 shows the kernel's leaf entries in the upper half.
def SameKernel (s : Spaces σ) : Prop :=
  ∀ root ∈ s.roots, ∀ virt, UpperHalf virt →
    pageLeaf s.hhdm s.mem root virt = pageLeaf s.hhdm s.mem s.kernel virt

-- The upper entries of all PML4s are the same but for their flags, and pmm_alloc
-- keeps its data elsewhere.
structure Joined (s : Spaces σ) : Prop where
  switched : s.Switched
  aligned : ∀ root ∈ s.roots, Aligned root
  spares : ∀ root ∈ s.roots, Spares R s.hhdm root
  upper : ∀ root ∈ s.roots, ∀ root' ∈ s.roots, ∀ i : BitVec 9, 256 ≤ i.toNat →
    Same (slot s.hhdm s.mem root i) (slot s.hhdm s.mem root' i)

end Runs

section Entries

variable {e e' : BitVec 64}

theorem Same.flags (h : Same e e') : Same (e ||| (pteUser ||| pteWrite)) e' := by
  unfold Same at *
  rw [BitVec.or_assoc, BitVec.or_self]
  exact h

theorem Same.masked (h : Same e e') {mask : BitVec 64} (hm : (pteUser ||| pteWrite) &&& mask = 0) :
    e &&& mask = e' &&& mask := by
  have hboth := congrArg (· &&& mask) (show _ = _ from h)
  simp only [or_and_of_zero hm] at hboth
  exact hboth

theorem Same.present (h : Same e e') : Present e ↔ Present e' := by
  rw [Present, Present, h.masked (by decide)]

theorem Same.frame (h : Same e e') : entryFrame e = entryFrame e' := h.masked (by decide)

end Entries

section Steps

variable {σ : Type} {alloc : Memory 64 → σ → BitVec 64 × Memory 64 × σ} {R : Set (BitVec 64)}
variable {s s' : Spaces σ}

theorem Joined.sameKernel (h : Joined R s) : SameKernel s := by
  intro root hin virt hv
  have hsame := h.upper root hin s.kernel (List.mem_cons_self) _ ((upperHalf_iff virt).mp hv)
  exact pageLeaf_congr hsame.present hsame.frame

-- pmm_alloc writes into no PML4.
theorem afterNext_slot (hfoot : Footprint alloc R) (hs : Joined R s) {r : BitVec 64} (hr : r ∈ s.roots)
    (i : BitVec 9) : slot s.hhdm (s.afterNext alloc) r i = slot s.hhdm s.mem r i :=
  slot_congr (hs.aligned r hr) (fun x hx => afterNext_keeps hfoot s x (hs.spares r hr x hx)) i

theorem create_joined (hfoot : Footprint alloc R) (hs : Joined R s)
    (hp : Permitted alloc R s .create) : Joined R (s.create alloc) := by
  by_cases hnext : s.next alloc = 0
  · obtain ⟨hroot, hcreated, hmem⟩ := create_none hnext
    have hroots : (s.create alloc).roots = s.roots := by
      rw [roots, hcreated, hroot.kernel, roots]
    refine ⟨hs.switched.kept hroot (fun r hr => hroots ▸ hr), ?_, ?_, ?_⟩
    · rw [hroots]
      exact hs.aligned
    · rw [hroots, hroot.hhdm]
      exact hs.spares
    · rw [hroots, hroot.hhdm, hmem]
      intro r hr r' hr' i hi
      rw [afterNext_slot hfoot hs hr, afterNext_slot hfoot hs hr']
      exact hs.upper r hr r' hr' i hi
  · obtain ⟨hal, hout, hspare⟩ := hp hnext
    have hne : s.next alloc ≠ s.current := fun he => hout (he ▸ hs.switched.current)
    obtain ⟨hroot, hcreated, hnew, -⟩ := create_some alloc hs.switched hnext hal hne
    have hroots : (s.create alloc).roots = s.roots ++ [s.next alloc] := by
      rw [roots, hcreated, hroot.kernel, roots]
      rfl
    -- Each PML4 has the upper entries that some PML4 had before.
    have hold : ∀ r ∈ (s.create alloc).roots, (Aligned r ∧ Spares R s.hhdm r) ∧
        ∃ r' ∈ s.roots, ∀ i : BitVec 9, 256 ≤ i.toNat →
          slot (s.create alloc).hhdm (s.create alloc).mem r i = slot s.hhdm s.mem r' i := by
      intro r hr
      rw [hroots, List.mem_append, List.mem_singleton] at hr
      rw [hroot.hhdm]
      rcases hr with hr | rfl
      · have hr' := hs.aligned r hr
        have hne' : r ≠ s.next alloc := fun he => hout (he ▸ hr)
        refine ⟨⟨hr', hs.spares r hr⟩, r, hr, fun i _ => ?_⟩
        rw [slot_congr hr' (hnew.outside.agree (pages_apart hr' hal hne')), afterNext_slot hfoot hs hr]
      · refine ⟨⟨hal, hspare⟩, s.current, hs.switched.current, fun i hi => ?_⟩
        rw [hnew.upper i hi, afterNext_slot hfoot hs hs.switched.current]
    refine ⟨hs.switched.kept hroot ?_, fun r hr => (hold r hr).1.1, ?_, ?_⟩
    · intro r hr
      rw [hroots]
      exact List.mem_append_left _ hr
    · intro r hr
      rw [hroot.hhdm]
      exact (hold r hr).1.2
    · intro r hr r' hr' i hi
      obtain ⟨-, t, ht, hslot⟩ := hold r hr
      obtain ⟨-, t', ht', hslot'⟩ := hold r' hr'
      rw [hslot i hi, hslot' i hi]
      exact hs.upper t ht t' ht' i hi

theorem map_joined {virt phys flags : BitVec 64} (hfoot : Footprint alloc R) (hs : Joined R s)
    (hp : Permitted alloc R s (.map virt phys flags)) (hshared : Shared s (.map virt phys flags))
    (hstep : step alloc s (.map virt phys flags) = some s') : Joined R s' := by
  obtain ⟨-, hframes⟩ := hp
  obtain ⟨hentry, hvisit⟩ := hshared
  have hframes' := hframes s' hstep
  obtain ⟨vmm, new, hmap, hlog, rfl⟩ := map_cases hstep
  obtain ⟨hnd, hnew⟩ := hframes' new hlog.handed
  have hcur := hs.switched.current
  have hoffset : vmm.hhdmOffset = s.hhdm := hlog.hhdm
  have hhanded : Handed s.hhdm s.mem s.current (pageNumber virt) new :=
    ⟨hnd, fun p hin => (hnew p hin).1, fun p hin he => (hnew p hin).2.1 (he ▸ hcur),
      fun p hin => (hnew p hin).2.2⟩
  obtain ⟨houtside, hothers, hfirst⟩ := vmmMapPage_writes hfoot rfl s.current_aligned
    (hs.spares _ hcur) hs.switched.pml4 hmap hlog (hvisit _ hcur) hhanded
  have hswitched : Switched { s with vmm } := by
    refine ⟨?_, hcur⟩
    show vmm.pml4 = s.current + vmm.hhdmOffset
    rw [hlog.pml4, hoffset, hs.switched.pml4]
  have hspares : ∀ r ∈ s.roots, Spares R vmm.hhdmOffset r := by
    rw [hoffset]
    exact hs.spares
  refine ⟨hswitched, hs.aligned, hspares, ?_⟩
  rcases hentry with hpres | hnone
  · -- Only one entry of the current PML4 has changed, and only in its flags.
    have hflags : ∀ r ∈ s.roots, ∀ i, slot s.hhdm vmm.mem r i = slot s.hhdm s.mem r i ∨
        slot s.hhdm vmm.mem r i = slot s.hhdm s.mem r i ||| (pteUser ||| pteWrite) := by
      intro r hr i
      by_cases hne : r = s.current
      · subst hne
        by_cases hi : i = (pageNumber virt).extractLsb' 27 9
        · subst hi
          exact Or.inr (hfirst hpres)
        · exact Or.inl (hothers i hi)
      · have hal := hs.aligned r hr
        refine Or.inl (slot_congr hal (fun x hx => houtside x (hs.spares r hr x hx) ?_ ?_ ?_) i)
        · exact pages_apart hal s.current_aligned hne x hx
        · intro f hf
          exact pages_apart hal hf.aligned (fun he => hvisit r hr (he ▸ hf)) x hx
        · intro p hin
          exact pages_apart hal (hnew p hin).1 (fun he => (hnew p hin).2.1 (he ▸ hr)) x hx
    intro r hr r' hr' i hi
    show Same (slot vmm.hhdmOffset vmm.mem r i) (slot vmm.hhdmOffset vmm.mem r' i)
    rw [hoffset]
    have hold := hs.upper r hr r' hr' i hi
    have hleft : Same (slot s.hhdm vmm.mem r i) (slot s.hhdm s.mem r' i) := by
      rcases hflags r hr i with he | he
      · rw [he]
        exact hold
      · rw [he]
        exact hold.flags
    rcases hflags r' hr' i with he | he
    · rw [he]
      exact hleft
    · rw [he]
      exact (Eq.symm (Same.flags (Eq.symm hleft)))
  · have honly : ∀ r ∈ s.roots, r = s.kernel := by
      intro r hr
      rw [roots, hnone] at hr
      exact List.mem_singleton.mp hr
    intro r hr r' hr' i _
    rw [honly r hr, honly r' hr']
    rfl

theorem step_joined {op : Op} (hfoot : Footprint alloc R) (hs : Joined R s)
    (hp : Permitted alloc R s op ∧ Shared s op) (hstep : step alloc s op = some s') : Joined R s' := by
  cases op with
  | create =>
      obtain rfl : s.create alloc = s' := Option.some.inj hstep
      exact create_joined hfoot hs hp.1
  | switch pml4Phys =>
      obtain rfl : s.vmmSwitchPml4 pml4Phys = s' := Option.some.inj hstep
      exact ⟨switch_switched hp.1, hs.aligned, hs.spares, hs.upper⟩
  | map virt phys flags => exact map_joined hfoot hs hp.1 hp.2 hstep

theorem booted_joined (h : Booted s) (hspare : Spares R s.hhdm s.current) : Joined R s := by
  refine ⟨h.switched, fun r hr => h.roots_eq hr ▸ s.current_aligned,
    fun r hr => h.roots_eq hr ▸ hspare, fun r hr r' hr' i _ => ?_⟩
  rw [h.roots_eq hr, h.roots_eq hr']
  rfl

end Steps

-- In a run whose maps all go through an entry that is shared, the PML4s show one
-- kernel half.
theorem kernel_half_shared {σ : Type} (alloc : Memory 64 → σ → BitVec 64 × Memory 64 × σ)
    (R : Set (BitVec 64)) (s0 s : Spaces σ) (ops : List Op) (hfoot : Footprint alloc R)
    (hboot : Booted s0) (hspare : Spares R s0.hhdm s0.current)
    (hp : PermittedRun (step alloc) (fun s op => Permitted alloc R s op ∧ Shared s op) s0 ops)
    (hrun : run (step alloc) s0 ops = some s) : SameKernel s :=
  (run_of_preservation (Joined R) (fun _ _ _ hs hp he => step_joined hfoot hs hp he) s0 s ops
    (booted_joined hboot hspare) hp hrun).sameKernel

section Sample

open Miyabi.Mm.Boot Miyabi.Mm.Pmm

theorem quietKernel_spares : Spares (bitmapRegion lowPmm) quietKernel.hhdm quietKernel.current :=
  lowPmm_spares quietKernel.current_aligned (by decide)

theorem quietKernel_late : PermittedRun (step (bitmapAlloc lowPmm))
    (Permitted (bitmapAlloc lowPmm) (bitmapRegion lowPmm)) quietKernel
    [.create, .map 0xFFFF900000000000 0x9000 3] := by
  have huser : Aligned (0x2000 : BitVec 64) := show (0x2000 : BitVec 64).toNat % 4096 = 0 by decide
  refine ⟨fun _ => ?_, fun s1 h1 => ⟨⟨by decide, ?_⟩, fun _ _ => trivial⟩⟩
  · rw [quietKernel_next]
    exact ⟨huser, by decide, lowPmm_spares huser (by decide)⟩
  · obtain rfl : quietSpaces = s1 := Option.some.inj h1
    intro s' hstep new hnew
    obtain ⟨vmm, new', rest, he, hlog, hl⟩ := quietSpaces_maps 0xFFFF900000000000 0x9000 3
    have hs' : step (bitmapAlloc lowPmm) quietSpaces (.map 0xFFFF900000000000 0x9000 3) =
        some { quietSpaces with vmm } := by
      rw [step, he]
    obtain rfl := Option.some.inj (hs'.symm.trans hstep)
    obtain rfl := List.append_cancel_left (hnew.symm.trans hlog.handed)
    have hnodup := lowFrames_nodup 0xFF07
    rw [hl] at hnodup
    refine ⟨(List.nodup_append.mp hnodup).1, fun p hp => ?_⟩
    have hfree : p ∈ lowFrames 0xFF07 := hl ▸ List.mem_append_left _ hp
    have hcur : quietSpaces.current ∈ quietSpaces.roots := by
      rw [quietSpaces_roots, quietKernel_created.1.current]
      decide
    refine ⟨(lowFrames_cases hfree).1.aligned, quietSpaces_free hfree, not_visits ?_⟩
    rw [quietSpaces_slot hcur]
    exact fun h => h (by decide)

theorem quietKernel_plain (i : BitVec 9) :
    slot quietKernel.hhdm quietKernel.mem quietKernel.current i = 0 :=
  quietKernel_slot quietKernel.current_aligned (by decide) i

-- A mapping made first, a new PML4, and a mapping next to the first one.
def earlyOps : List Op :=
  [.map 0xFFFF900000000000 0x9000 3, .create, .map 0xFFFF900000001000 0xA000 3]

theorem earlyOps_first : (step (bitmapAlloc lowPmm) quietKernel (.map 0xFFFF900000000000 0x9000 3)).map
    (fun s => (s.next (bitmapAlloc lowPmm), s.roots, s.vmm.handed, s.hhdm)) =
      some (0x5000, [0x1000], [0x2000, 0x3000, 0x4000], 0xFFFF800000000000) := by
  decide +kernel

theorem earlyOps_second : (run (step (bitmapAlloc lowPmm)) quietKernel
    [.map 0xFFFF900000000000 0x9000 3, .create]).map (fun s => (s.roots, s.vmm.handed,
      [[288], [288, 0], [288, 0, 0]].map (codeTable s.hhdm s.mem s.current))) =
      some ([0x1000, 0x5000], [0x2000, 0x3000, 0x4000, 0x5000],
        [some 0x2000, some 0x3000, some 0x4000]) := by
  decide +kernel

theorem earlyOps_third : (run (step (bitmapAlloc lowPmm)) quietKernel earlyOps).map
    (fun s => (s.roots, s.vmm.handed)) =
      some ([0x1000, 0x5000], [0x2000, 0x3000, 0x4000, 0x5000]) := by
  decide +kernel

theorem earlyOps_permitted : PermittedRun (step (bitmapAlloc lowPmm))
    (fun s op => Permitted (bitmapAlloc lowPmm) (bitmapRegion lowPmm) s op ∧ Shared s op) quietKernel
    earlyOps := by
  refine ⟨⟨⟨by decide, fun s' hs' new hnew => ?_⟩, Or.inr rfl, fun _ _ => ?_⟩, fun s1 h1 => ⟨⟨?_, trivial⟩,
    fun s2 h2 => ⟨⟨⟨by decide, fun s' hs' new hnew => ?_⟩, Or.inl ?_, ?_⟩, fun _ _ => trivial⟩⟩⟩
  · have hfirst := earlyOps_first
    rw [hs', Option.map_some, Option.some.injEq, Prod.mk.injEq, Prod.mk.injEq, Prod.mk.injEq] at hfirst
    obtain rfl : new = [0x2000, 0x3000, 0x4000] := hnew.symm.trans hfirst.2.2.1
    have hal : ∀ p ∈ [(0x2000 : BitVec 64), 0x3000, 0x4000], p.toNat % 4096 = 0 ∧
        p ∉ [(0x1000 : BitVec 64)] := by simp
    refine ⟨by decide, fun p hp => ⟨(hal p hp).1, (hal p hp).2, not_visits ?_⟩⟩
    rw [quietKernel_plain]
    exact fun h => h (by decide)
  · refine not_visits ?_
    rw [quietKernel_plain]
    exact fun h => h (by decide)
  · have hfirst := earlyOps_first
    rw [h1, Option.map_some, Option.some.injEq, Prod.mk.injEq, Prod.mk.injEq, Prod.mk.injEq] at hfirst
    obtain ⟨hnext, hroots, -, hoffset⟩ := hfirst
    have huser : Aligned (0x5000 : BitVec 64) := show (0x5000 : BitVec 64).toNat % 4096 = 0 by decide
    intro _
    rw [hnext, hroots, hoffset]
    exact ⟨huser, by decide, lowPmm_spares huser (by decide)⟩
  all_goals
    have hrun : run (step (bitmapAlloc lowPmm)) quietKernel [.map 0xFFFF900000000000 0x9000 3, .create] =
        some s2 := by
      simp only [run, h1, h2]
    have hsecond := earlyOps_second
    rw [hrun, Option.map_some, Option.some.injEq, Prod.mk.injEq, Prod.mk.injEq] at hsecond
    obtain ⟨hroots, hhanded, htables⟩ := hsecond
  · have hthird := earlyOps_third
    have hend : run (step (bitmapAlloc lowPmm)) quietKernel earlyOps = some s' := by
      simp only [earlyOps, run, h1, h2, hs']
    rw [hend, Option.map_some, Option.some.injEq, Prod.mk.injEq, hnew, hhanded] at hthird
    obtain rfl := List.append_right_eq_self.mp hthird.2
    exact ⟨List.nodup_nil, by simp⟩
  · simp only [List.map_cons, List.map_nil, List.cons.injEq] at htables
    by_contra habs
    exact not_visits habs ⟨[288], by simp, by decide, htables.1⟩
  · rw [hroots]
    simp only [List.map_cons, List.map_nil, List.cons.injEq] at htables
    rintro root hin ⟨path, hne, hpre, hf⟩
    have hpath : tablePath (pageNumber 0xFFFF900000001000) = [288, 0, 0] := by decide
    rw [hpath] at hpre
    have hlen := hpre.length_le
    have htake := List.prefix_iff_eq_take.mp hpre
    have hshort : path.length = 1 ∨ path.length = 2 ∨ path.length = 3 := by
      have hpos := List.length_pos_iff.mpr hne
      simp only [List.length_cons, List.length_nil] at hlen
      omega
    have hroot : some root ≠ some 0x2000 ∧ some root ≠ some 0x3000 ∧ some root ≠ some 0x4000 := by
      rcases List.mem_pair.mp hin with rfl | rfl <;> decide
    rcases hshort with hlen | hlen | hlen <;> rw [hlen] at htake <;> subst htake
    · exact hroot.1 (hf.symm.trans htables.1)
    · exact hroot.2.1 (hf.symm.trans htables.2.1)
    · exact hroot.2.2 (hf.symm.trans htables.2.2.1)

-- The two mappings that follow the first are shared.
theorem kernel_half_shared_quiet :
    ∃ s, run (step (bitmapAlloc lowPmm)) quietKernel earlyOps = some s ∧ ∀ virt, UpperHalf virt →
      pageLeaf s.hhdm s.mem 0x5000 virt = pageLeaf s.hhdm s.mem s.kernel virt := by
  obtain ⟨s, hs, hshown⟩ := Option.map_eq_some_iff.mp earlyOps_third
  have hroots : s.roots = [0x1000, 0x5000] := (Prod.mk.inj hshown).1
  refine ⟨s, hs, ?_⟩
  exact kernel_half_shared (bitmapAlloc lowPmm) (bitmapRegion lowPmm) quietKernel s _ lowPmm_footprint
    quietKernel_booted quietKernel_spares earlyOps_permitted hs 0x5000 (by rw [hroots]; decide)

theorem lateOps_end : (run (step (bitmapAlloc lowPmm)) quietKernel
    [.create, .map 0xFFFF900000000000 0x9000 3]).map
      (fun s => (s.roots, slot s.hhdm s.mem 0x2000 288, slot s.hhdm s.mem 0x1000 288,
        slot s.hhdm s.mem 0x3000 0, slot s.hhdm s.mem 0x4000 0, slot s.hhdm s.mem 0x5000 0)) =
      some ([0x1000, 0x2000], 0, 0x3007, 0x4007, 0x5007, 0x9003) := by
  decide +kernel

-- The mapping made last is not.
theorem late_mapping_unshared :
    ¬∀ (s0 s : Spaces (List Returned)) (ops : List Op), Booted s0 →
      Spares (bitmapRegion lowPmm) s0.hhdm s0.current →
      PermittedRun (step (bitmapAlloc lowPmm))
        (Permitted (bitmapAlloc lowPmm) (bitmapRegion lowPmm)) s0 ops →
      run (step (bitmapAlloc lowPmm)) s0 ops = some s → SameKernel s := by
  intro hall
  obtain ⟨s, hs, hshown⟩ := Option.map_eq_some_iff.mp lateOps_end
  simp only [Prod.mk.injEq] at hshown
  obtain ⟨hroots, hnew, h4, h3, h2, h1⟩ := hshown
  have hkernel : s.kernel = 0x1000 := (List.cons.inj hroots).1
  have hempty : pml4Entry s.hhdm s.mem 0x2000 0xFFFF900000000000 = 0 := hnew
  have hpml4e : pml4Entry s.hhdm s.mem 0x1000 0xFFFF900000000000 = 0x3007 := h4
  have hpdpte : pdptEntry s.hhdm s.mem 0x1000 0xFFFF900000000000 = 0x4007 := by
    rw [pdptEntry, hpml4e]
    exact h3
  have hpde : pdEntry s.hhdm s.mem 0x1000 0xFFFF900000000000 = 0x5007 := by
    rw [pdEntry, hpdpte]
    exact h2
  have hpte : ptEntry s.hhdm s.mem 0x1000 0xFFFF900000000000 = 0x9003 := by
    rw [ptEntry, hpde]
    exact h1
  have hsame := hall quietKernel s _ quietKernel_booted quietKernel_spares quietKernel_late hs 0x2000
    (by rw [hroots]; decide) 0xFFFF900000000000 (by decide)
  have hwalk : walkEntries s.hhdm s.mem 0x1000 0xFFFF900000000000 =
      [0x3007, 0x4007, 0x5007, 0x9003] := by
    simp only [walkEntries, hpml4e, hpdpte, hpde, hpte]
    rw [if_neg (by decide), if_neg (by decide), if_neg (by decide)]
  have hleaf : (accessOf [0x3007, 0x4007, 0x5007, 0x9003]).isSome = true := by decide
  obtain ⟨a, ha⟩ := Option.isSome_iff_exists.mp hleaf
  rw [hkernel, pageLeaf_absent (by rw [hempty]; decide), pageLeaf, pageAccess, hwalk, ha] at hsame
  cases hsame

end Sample

end Miyabi.Mm.Vmm.Spaces.Sharing
