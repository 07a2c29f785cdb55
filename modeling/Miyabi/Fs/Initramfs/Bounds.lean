import Miyabi.Fs.Devfs.Theorems
import Miyabi.Fs.Initramfs.Names

namespace Miyabi.Fs

open Miyabi.Base

-- A path of 256 characters at most with every slash among the first 128.
theorem fits_of_short {path : CString} (hlen : path.length ≤ pathSize)
    (hslash : ∀ front back, path = front ++ slash :: back → front.length < VfsNode.nameSize)
    (names : List CString) : Fits names path := by
  refine ⟨hlen, ?_⟩
  have hshort : ∀ dir ∈ parents path, dir.length < VfsNode.nameSize := by
    intro dir hdir
    obtain ⟨-, back, hpath⟩ := mem_parents.mp hdir
    exact hslash dir back hpath
  generalize parents path = dirs at hshort
  induction dirs generalizing names with
  | nil => trivial
  | cons dir dirs ih =>
    refine ⟨fun hlong => ?_, ih _ fun d hd => hshort d (List.mem_cons_of_mem _ hd)⟩
    exact absurd (hshort dir List.mem_cons_self) (by omega)

-- So does a filename that ends within its field.
theorem fits_of_length {filename : CString} (hlen : filename.length < VfsNode.nameSize)
    (names : List CString) : Fits names (sanitizePath filename) := by
  have hclean := sanitizePath_length filename
  have hsize : VfsNode.nameSize ≤ pathSize := by decide
  refine fits_of_short (by omega) (fun front back hpath => ?_) names
  rw [hpath, List.length_append] at hclean
  omega

theorem cString_error {m : Memory 64} {fuel : Nat} {fault : Fault} :
    ∀ {a : BitVec 64}, cString m fuel a = .error fault → fault = .endless := by
  induction fuel with
  | zero =>
    intro a h
    cases h
    rfl
  | succ fuel ih =>
    intro a h
    rw [cString] at h
    split at h
    · cases h
    · cases hrest : cString m fuel (a + 1) with
      | error fault' =>
        rw [hrest] at h
        cases h
        exact ih hrest
      | ok rest =>
        rw [hrest] at h
        cases h

namespace State

variable {blocks : Nat → BitVec 64} {m : Memory 64} {fuel : Nat} {s s' : State}

-- The sanitized filename is sanitized once more.
theorem ensureParentDirsExist_sanitized (s : State) (filename : CString) :
    s.ensureParentDirsExist blocks (sanitizePath filename) =
      s.ensureDirs blocks [] (sanitizePath filename) := by
  rw [ensureParentDirsExist, sanitizePath_of_clean (sanitizePath_clean filename)]

section Ensure

variable (hfresh : Fresh blocks) (h : Tabled blocks s) {filename : CString}

include hfresh h

theorem ensure_fits (hfits : Fits s.names (sanitizePath filename)) :
    s.ensureParentDirsExist blocks (sanitizePath filename) ≠ .error .overrun := by
  intro hover
  rw [ensureParentDirsExist_sanitized] at hover
  have hnot := ensureDirs_fault hfresh h (sanitizePath_clean filename) hover
  rw [List.length_nil, Nat.zero_add] at hnot
  exact hnot hfits

theorem ensure_overrun_iff
    (hroom : HasRoom blocks s (parents (sanitizePath filename)).length) :
    s.ensureParentDirsExist blocks (sanitizePath filename) = .error .overrun ↔
      ¬Fits s.names (sanitizePath filename) := by
  constructor
  · exact fun hover hfits => ensure_fits hfresh h hfits hover
  · intro hnot
    rw [ensureParentDirsExist_sanitized]
    apply ensureDirs_misfit hfresh h (sanitizePath_clean filename) (Nat.zero_le _) hroom
    rw [List.length_nil, Nat.zero_add]
    exact hnot

end Ensure

-- The loop comes to the entry at `header` in the state `s₁`.
structure AtEntry (blocks : Nat → BitVec 64) (m : Memory 64) (fuel : Nat) (s : State)
    (ramfsAddr header : BitVec 64) (filename : CString) (s₁ : State) : Prop where
  turn : AtTurn blocks m fuel s ramfsAddr (header, s₁)
  ne_zero : m header ≠ 0
  entry : ¬IsExtension m header
  name : cString m fuel header = .ok filename

-- Only a path of an entry can go over the end of a buffer.
theorem turn_overrun {header : BitVec 64}
    (h : turn blocks m fuel (header, s) = .inl (.error .overrun)) :
    m header ≠ 0 ∧ ¬IsExtension m header ∧ ∃ filename, cString m fuel header = .ok filename ∧
      s.ensureParentDirsExist blocks (sanitizePath filename) = .error .overrun := by
  obtain ⟨hne, hentry, hname | hensure⟩ := turn_failed h
  · cases cString_error hname
  · exact ⟨hne, hentry, hensure⟩

-- Every name ends within the 128 bytes of its node.
def NamesFit (s : State) : Prop :=
  ∀ p ∈ s.ramfsRoot :: s.ramfsNodes, (s.nodes p).name.length < VfsNode.nameSize

theorem namesFit_kept : Kept blocks NamesFit where
  kmalloc _ h := h
  plant s node h hnode _ := by
    intro p hp
    by_cases hnew : p = blocks s.kmallocs
    · rw [hnew, plant_nodes_self]
      exact hnode.short
    · rw [plant_nodes_of_ne hnew]
      have hp : p ∈ (s.ramfsRoot :: s.ramfsNodes) ++ [blocks s.kmallocs] := hp
      rcases List.mem_append.mp hp with hold | hlast
      · exact h p hold
      · exact absurd (List.mem_singleton.mp hlast) hnew

section Start

variable (hnone : s.ramfsNodes = [])

include hnone

theorem loopStart_nodes : (loopStart blocks s).ramfsNodes = [] := hnone

theorem loopStart_tabled : Tabled blocks (loopStart blocks s) := by
  intro p hp
  rw [loopStart_nodes hnone] at hp
  cases hp

theorem loopStart_namesFit : NamesFit (loopStart blocks s) := by
  intro p hp
  rw [loopStart_nodes hnone] at hp
  obtain rfl := List.mem_singleton.mp hp
  have hroot : (loopStart blocks s).nodes (loopStart blocks s).ramfsRoot = dirNode [slash] :=
    Function.update_self _ _ _
  rw [hroot]
  decide

end Start

-- Archives whose names fit in the buffers leave every store inside them, and where there is
-- room for the directories of a name that does not fit, a store goes over.
theorem names_bounded_iff (m : Memory 64) (fuel : Nat) (ramfsAddr : BitVec 64)
    (hfresh : Fresh blocks) (hnone : s.ramfsNodes = []) :
    ((∀ header filename s₁, AtEntry blocks m fuel s ramfsAddr header filename s₁ →
        Fits s₁.names (sanitizePath filename)) →
      s.initInitramfs blocks m fuel ramfsAddr ≠ .error .overrun ∧
      ∀ s', s.initInitramfs blocks m fuel ramfsAddr = .ok s' → s'.fsRoot ≠ 0 → NamesFit s') ∧
    ∀ header filename s₁, AtEntry blocks m fuel s ramfsAddr header filename s₁ →
      NamesFit s₁ ∧ (HasRoom blocks s₁ (parents (sanitizePath filename)).length →
        (turn blocks m fuel (header, s₁) = .inl (.error .overrun) ↔
          ¬Fits s₁.names (sanitizePath filename))) := by
  have htabled : Tabled blocks (loopStart blocks s) := loopStart_tabled hnone
  have hnames : NamesFit (loopStart blocks s) := loopStart_namesFit hnone
  refine ⟨fun hfits => ?_, fun header filename s₁ hat => ?_⟩
  · by_cases hroot : blocks s.kmallocs = 0
    · rw [initInitramfs_null hroot]
      constructor
      · intro hover
        cases hover
      · intro s' hrun hne
        cases hrun
        exact absurd rfl hne
    constructor
    · intro hover
      obtain ⟨⟨header, s₁⟩, hreach, hend⟩ := entriesFrom_overrun (initInitramfs_fault hroot hover)
      obtain ⟨hne, hentry, filename, hname, hensure⟩ := turn_overrun hend
      have hfit := hfits header filename s₁ ⟨⟨hroot, hreach⟩, hne, hentry, hname⟩
      exact ensure_fits hfresh ((tabled_kept hfresh).reaches htabled hreach) hfit hensure
    · intro s' hrun _
      obtain ⟨s₁, hentries, rfl⟩ := initInitramfs_run hroot hrun
      have hfit := namesFit_kept.entriesFrom hnames hentries
      exact hfit
  · refine ⟨namesFit_kept.reaches hnames hat.turn.reached, fun hroom => ?_⟩
    have hs₁ := (tabled_kept hfresh).reaches htabled hat.turn.reached
    rw [← ensure_overrun_iff hfresh hs₁ hroom]
    constructor
    · intro hover
      obtain ⟨-, -, filename', hname, hensure⟩ := turn_overrun hover
      cases hat.name.symm.trans hname
      exact hensure
    · exact fun hensure => turn_fault hat.ne_zero hat.entry hat.name hensure

-- Every string in an archive of one short entry fits.
theorem sampleArchive_fits {a : BitVec 64} (hne : sampleArchive a ≠ 0) {filename : CString}
    (hname : cString sampleArchive fuel a = .ok filename) (hfuel : 8 ≤ fuel)
    (names : List CString) : Fits names (sanitizePath filename) := by
  have hbytes : a = 0x1000 ∨ a = 0x1001 ∨ a = 0x1002 ∨ a = 0x1003 ∨ a = 0x109C := by
    by_contra hnot
    push Not at hnot
    obtain ⟨h0, h1, h2, h3, h4⟩ := hnot
    apply hne
    rw [sampleArchive, if_neg h0, if_neg h1, if_neg h2, if_neg h3, if_neg h4]
  have hends : Terminated sampleArchive a 8 := by
    rcases hbytes with rfl | rfl | rfl | rfl | rfl
    · exact ⟨4, by decide, by decide⟩
    · exact ⟨3, by decide, by decide⟩
    · exact ⟨2, by decide, by decide⟩
    · exact ⟨1, by decide, by decide⟩
    · exact ⟨1, by decide, by decide⟩
  obtain ⟨string, hstring, hlen⟩ := cString_ok hends hfuel
  cases hname.symm.trans hstring
  have h128 : VfsNode.nameSize = 128 := rfl
  exact fits_of_length (by omega) names

theorem names_bounded_sample :
    sampleState.initInitramfs sampleBlocks sampleArchive 101 0x1000 ≠ .error .overrun :=
  ((names_bounded_iff sampleArchive 101 0x1000 sampleBlocks_fresh
    (rfl : sampleState.ramfsNodes = [])).1
      fun _ _ _ hat => sampleArchive_fits hat.ne_zero hat.name (by decide) _).1

-- A header whose first 128 bytes are 'a', with a slash and an 'a' behind them.
def longName : Memory 64 := fun a =>
  if 0x1000 ≤ a ∧ a < 0x1080 then 0x61
  else if a = 0x1080 then 0x2F
  else if a = 0x1081 then 0x61
  else 0

theorem longName_overrun :
    sampleState.initInitramfs sampleBlocks longName 200 0x1000 = .error .overrun := by
  have hfault : (sampleState.initInitramfs sampleBlocks longName 200 0x1000).map (fun _ => ()) =
      .error .overrun := by
    decide +kernel
  cases hrun : sampleState.initInitramfs sampleBlocks longName 200 0x1000 with
  | ok s =>
    rw [hrun] at hfault
    cases hfault
  | error fault =>
    rw [hrun] at hfault
    cases hfault
    rfl

end State

end Miyabi.Fs
