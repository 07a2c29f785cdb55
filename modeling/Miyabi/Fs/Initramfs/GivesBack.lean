import Miyabi.Fs.Blocks
import Miyabi.Fs.Initramfs.Contents

namespace Miyabi.Fs

open Miyabi.Base Miyabi.Base.Memory

-- A read returned these bytes and changed nothing outside the buffer.
structure Delivers (m : Memory 64) (buffer : BitVec 64) (data : List (BitVec 8))
    (r : BitVec 64 × CopyRun) : Prop where
  count : r.1 = BitVec.ofNat 64 data.length
  bytes : ∀ i, (h : i < data.length) →
    r.2.mem (buffer + BitVec.ofNat 64 i) = data.get ⟨i, h⟩
  frame : KeepsOutside m r.2.mem buffer data.length

-- The files with their bytes, the directories, and nothing else.
structure GivesBack (m : Memory 64) (es : List TarEntry) (s : State) : Prop where
  file : ∀ e ∈ es, e.IsFile → ∃ p, s.vfsGetNodeByPath (slash :: e.path) = .ok p ∧ p ≠ 0 ∧
    (s.nodes p).flags = FS_FILE ∧ ∀ other buffer, buffer ≠ 0 →
      Apart buffer e.data.length (s.nodes p).ptr e.data.length →
      Delivers m buffer e.data
        (s.vfsRead other m p buffer (BitVec.ofNat 64 e.data.length) 0)
  directory : ∀ path, Under es (components path) →
    ∃ p, s.vfsGetNodeByPath (slash :: path) = .ok p ∧ p ≠ 0 ∧ (s.nodes p).flags = FS_DIRECTORY
  other : ∀ path, NormalForm path → ¬Listed es (components path) →
    s.vfsGetNodeByPath (slash :: path) = .ok 0

namespace State

variable {blocks : Nat → BitVec 64} {m : Memory 64} {es : List TarEntry} {s : State}

theorem joinPath_pathOf {names : List CString} {name : CString}
    (h : Proper (names ++ [name])) : joinPath (pathOf names) name = pathOf (names ++ [name]) := by
  rw [← h.foldl_joinPath, ← h.of_append.foldl_joinPath, List.foldl_append]
  rfl

-- A directory is searched by its finddir.
theorem Rooted.descend_at (h : Rooted blocks s) {token : CString}
    (htoken : token.length < tokenSize) {dir : CString} (hkey : IsKey dir) {p : BitVec 64}
    (hp : s.At dir p) (hflags : (s.nodes p).flags = FS_DIRECTORY)
    (hfinddir : (s.nodes p).finddir = some .ramfs) :
    s.vfs.descend p token = (s.ramfsFind (joinPath dir token)).getD 0 := by
  rcases hp with ⟨rfl, rfl⟩ | hp
  · rw [descend_root h.root_ne_zero h.root, root_search s htoken]
  · obtain ⟨-, hne, -⟩ := ramfsFind_some hp
    have hunmounted : (s.nodes p).flags &&& FS_MOUNTPOINT = 0 := by
      rw [hflags]
      exact directory_not_mountpoint
    rw [descend_ramfs hne (Or.inr hfinddir) hunmounted, if_neg, h.node_search htoken hkey hp]
    rw [hflags, hfinddir]
    rintro (hzero | hnone)
    · exact absurd hzero (by decide)
    · cases hnone

theorem short_name {path : CString} (hpath : path.length ≤ 99) {name : CString}
    (hname : name ∈ components path) : name.length < tokenSize := by
  rw [components_eq] at hname
  have hlen := words_length hname
  have h128 : tokenSize = 128 := rfl
  omega

section Walk

variable (hrooted : Rooted blocks s) (h : Holds blocks m es s) (hproper : ProperEntries es)

include hproper

omit hrooted h in
theorem listed_short {names : List CString} (hlisted : Listed es names) :
    ∀ name ∈ names, name.length < tokenSize := by
  obtain ⟨e, he, hext, hpre⟩ := hlisted
  exact fun name hname =>
    short_name (hproper.entry e he hext).length_le (hpre.subset hname)

include hrooted h

-- The walk through a directory comes to the node found under its path.
theorem walk_under {names : List CString} (hunder : Under es names) :
    ∃ p, s.vfs.walkWords s.ramfsRoot names = .ok p ∧ s.At (pathOf names) p ∧
      (s.nodes p).flags = FS_DIRECTORY ∧ (s.nodes p).finddir = some .ramfs := by
  induction names using List.reverseRecOn with
  | nil =>
    refine ⟨s.ramfsRoot, rfl, Or.inl ⟨rfl, rfl⟩, ?_, ?_⟩
    · rw [hrooted.root]
      rfl
    · rw [hrooted.root]
      rfl
  | append_singleton names name ih =>
    have hnames := listed_proper hproper hunder.listed
    have hshort := listed_short hproper hunder.listed name (by simp)
    obtain ⟨p, hwalk, hat, hflags, hfinddir⟩ := ih (hunder.of_front (List.prefix_append _ _))
    obtain ⟨q, hfind, hnode⟩ := h.find_directory hproper (by simp) hunder
    refine ⟨q, ?_, Or.inr hfind, hnode.flags, hnode.finddir⟩
    rw [Vfs.walkWords_concat _ hshort hwalk,
      hrooted.descend_at hshort hnames.of_append.isKey hat hflags hfinddir,
      joinPath_pathOf hnames, hfind, Option.getD_some]

-- So does one more step.
theorem walk_below {names : List CString} {name : CString} (hunder : Under es names)
    (hnames : Proper (names ++ [name])) (hshort : name.length < tokenSize) :
    s.vfs.walkWords s.ramfsRoot (names ++ [name]) =
      .ok ((s.ramfsFind (pathOf (names ++ [name]))).getD 0) := by
  obtain ⟨p, hwalk, hat, hflags, hfinddir⟩ := walk_under hrooted h hproper hunder
  rw [Vfs.walkWords_concat _ hshort hwalk,
    hrooted.descend_at hshort hnames.of_append.isKey hat hflags hfinddir, joinPath_pathOf hnames]

end Walk

-- A walk that ends at a node that is not mounted on is the lookup.
theorem lookup_walk (hfs : s.fsRoot = s.ramfsRoot) {path : CString} {p : BitVec 64}
    (hwalk : s.vfs.walkWords s.ramfsRoot (components path) = .ok p)
    (hunmounted : (s.nodes p).flags &&& FS_MOUNTPOINT = 0) :
    s.vfsGetNodeByPath (slash :: path) = .ok p := by
  rw [components_eq] at hwalk
  rw [vfsGetNodeByPath, Vfs.vfsGetNodeByPath_eq, Vfs.lookupWords, vfs_fsRoot, hfs, hwalk]
  exact congrArg Except.ok (Vfs.finish_of_not_mountpoint _ fun hmount => hmount hunmounted)

-- A file is read whole.
theorem read_whole {e : TarEntry} {p : BitVec 64} (hne : p ≠ 0)
    (hnode : FileNode m e (s.nodes p)) (other) {buffer : BitVec 64} (hbuffer : buffer ≠ 0)
    (hapart : Apart buffer e.data.length (s.nodes p).ptr e.data.length) :
    Delivers m buffer e.data
      (s.vfsRead other m p buffer (BitVec.ofNat 64 e.data.length) 0) := by
  have hlt := (s.nodes p).length.isLt
  rw [hnode.length] at hlt
  have hsize : (BitVec.ofNat 64 e.data.length).toNat = e.data.length := by
    rw [BitVec.toNat_ofNat]
    omega
  have hslice : sliceLength (s.nodes p) (BitVec.ofNat 64 e.data.length) 0 = e.data.length := by
    rw [sliceLength, hsize, hnode.length]
    exact Nat.min_self _
  have hreadable : Readable (s.nodes p) buffer (BitVec.ofNat 64 e.data.length) 0 := by
    refine Or.inr (Or.inr ⟨hbuffer, ?_⟩)
    have hzero : (0 : BitVec 64).toNat = 0 := rfl
    rw [hsize, hzero]
    omega
  have hexact : ExactSlice (s.nodes p) buffer (BitVec.ofNat 64 e.data.length) 0 m _ _ :=
    slice_exact m (s.nodes p)
  rw [vfsRead_eq m hne hnode.read, ramfsRead_slice m hne hreadable]
  rw [hslice] at hexact ⊢
  constructor
  case count => rfl
  case bytes =>
    intro i hi
    have hbytes := hexact.bytes
    rw [hsize, hnode.length] at hbytes
    rw [hbytes hapart i hi, zero_add]
    exact hnode.data i hi
  case frame =>
    have hframe := hexact.frame
    rwa [hsize] at hframe

theorem holds_givesBack (hrooted : Rooted blocks s) (hfs : s.fsRoot = s.ramfsRoot)
    (h : Holds blocks m es s) (hproper : ProperEntries es) : GivesBack m es s := by
  constructor
  case file =>
    intro e he hfile
    have hext := TarEntry.file_not_extension hfile
    have hentry := hproper.entry e he hext
    have hnames : e.names ≠ [] := (hentry.file hfile).1.proper.2
    obtain ⟨p, hfind, hnode⟩ := h.find_file hproper he hfile
    obtain ⟨-, hne, -⟩ := ramfsFind_some hfind
    obtain ⟨front, last, hsplit⟩ := (List.eq_nil_or_concat' e.names).resolve_left hnames
    have hunder : Under es front := by
      refine ⟨e, he, hext, ⟨[last], hsplit.symm⟩, fun _ heq => ?_⟩
      rw [heq] at hsplit
      exact absurd hsplit (by simp)
    have hwalk := walk_below hrooted h hproper hunder (hsplit ▸ hentry.proper)
      (short_name hentry.length_le (by
        show last ∈ e.names
        rw [hsplit]
        simp))
    rw [← hsplit, hfind, Option.getD_some] at hwalk
    have hunmounted : (s.nodes p).flags &&& FS_MOUNTPOINT = 0 := by
      rw [hnode.flags]
      exact file_not_mountpoint
    refine ⟨p, lookup_walk hfs hwalk hunmounted, hne, hnode.flags, ?_⟩
    exact fun other buffer hbuffer hapart => read_whole hne hnode other hbuffer hapart
  case directory =>
    intro path hunder
    obtain ⟨p, hwalk, hat, hflags, -⟩ := walk_under hrooted h hproper hunder
    have hunmounted : (s.nodes p).flags &&& FS_MOUNTPOINT = 0 := by
      rw [hflags]
      exact directory_not_mountpoint
    refine ⟨p, lookup_walk hfs hwalk hunmounted, ?_, hflags⟩
    rcases hat with ⟨rfl, -⟩ | hfind
    · exact hrooted.root_ne_zero
    · exact (ramfsFind_some hfind).2.1
  case other =>
    intro path hform hnot
    obtain ⟨hnames, hne⟩ := hform.proper
    have hfits : ∀ k, ∀ name ∈ (components (slash :: path))[k]?, tokenSize ≤ name.length →
        k ≠ 0 ∧ s.vfs.reachFrom s.vfs.fsRoot ((components (slash :: path)).take k) = none := by
      intro k name hname hlong
      have hmem := List.mem_of_getElem? hname
      rw [components_eq, words_sep, ← components_eq] at hmem
      have hshort := short_name hform.short hmem
      omega
    obtain ⟨p, hp⟩ := (Vfs.lookupWords_ok_iff s.vfs _).mpr hfits
    have hlookup : s.vfsGetNodeByPath (slash :: path) = .ok p :=
      (Vfs.lookup_eq s.vfs rfl).trans hp
    rw [hlookup]
    by_contra hp
    have hpne : p ≠ 0 := fun hzero => hp (congrArg Except.ok hzero)
    rcases hrooted.lookup hfs hlookup hpne with ⟨hkey, -⟩ | ⟨-, hfind⟩
    · rw [lookupKey, ← components_eq, if_neg hne] at hkey
      cases hkey
    · rw [searchKey, ← components_eq, hnames.foldl_joinPath] at hfind
      rcases h.found_cases hproper hnames hfind with ⟨e, he, hfile, hsame, -⟩ | ⟨hunder, -⟩
      · exact hnot ⟨e, he, TarEntry.file_not_extension hfile, hsame ▸ List.prefix_refl _⟩
      · exact hnot hunder.listed

-- Fresh blocks and no NULL among them are enough.
theorem initInitramfs_givesBack (hfresh : Fresh blocks) (hnone : s.ramfsNodes = [])
    {ramfsAddr : BitVec 64} (harchive : TarArchive m ramfsAddr es) (hproper : ProperEntries es)
    {fuel : ℕ} (hfuel : es.length + 100 ≤ fuel) :
    ∃ s', s.initInitramfs blocks m fuel ramfsAddr = .ok s' ∧
      (s'.ramfsNodes.length < MAX_RAMFS_NODES →
        (∀ i, s.kmallocs ≤ i → i < s'.kmallocs → blocks i ≠ 0) → GivesBack m es s') := by
  obtain ⟨headers, hlen, hheaders⟩ := harchive.archive
  obtain ⟨s', hrun⟩ := initInitramfs_ok blocks hheaders (by omega : headers.length + 100 ≤ fuel) s
  refine ⟨s', hrun, fun hroom hgiven => ?_⟩
  have hroot : blocks s.kmallocs ≠ 0 := by
    intro hnull
    have hrun' := hrun
    rw [initInitramfs_null hnull] at hrun'
    cases hrun'
    exact hgiven s.kmallocs (le_refl _) (Nat.lt_succ_self _) hnull
  obtain ⟨hrooted, hfs⟩ := initInitramfs_rooted hfresh hnone hrun hroot
  obtain ⟨s₁, hentries, rfl⟩ := initInitramfs_run hroot hrun
  have hstart : Holds blocks m [] (loopStart blocks s) := by
    constructor
    case tabled => exact loopStart_tabled hnone
    case explained =>
      intro p hp
      rw [loopStart_nodes hnone] at hp
      cases hp
    case found =>
      rintro names - ⟨e, he, -⟩
      cases he
  have hgoes : ¬Halted blocks s.kmallocs s₁ := by
    rintro (hfull | ⟨i, hki, hi, hnull⟩)
    · have hlt : s₁.ramfsNodes.length < MAX_RAMFS_NODES := hroom
      omega
    · exact hgiven i hki hi hnull
  have hholds := entriesFrom_holds hfresh (by omega) harchive hproper.entry hstart
    (Nat.le_succ _) hentries hgoes
  rw [List.nil_append] at hholds
  have hnodes : Holds blocks m es { s₁ with fsRoot := blocks s.kmallocs } :=
    ⟨hholds.tabled, hholds.explained, hholds.found⟩
  exact holds_givesBack hrooted hfs hnodes hproper

section Heap

open Miyabi.Base.Transition Miyabi.Mm.Heap

-- After init_initramfs, with a heap in order that has room for `k` nodes and serves each of its
-- calls, and with a table that does not fill, lookups give back what the archive was made of.
theorem archive_given_back {system : System} {bs : List Block} (hheap : Mm.Heap.Tidy system bs) {k : ℕ}
    (hroom : PermittedRun System.step Mm.Heap.HasRoom system (nodeCalls k)) (hnone : s.ramfsNodes = [])
    {ramfsAddr : BitVec 64} (harchive : TarArchive m ramfsAddr es) (hproper : ProperEntries es)
    {fuel : ℕ} (hfuel : es.length + 100 ≤ fuel) :
    ∃ s', s.initInitramfs (blocksFrom s.kmallocs (nodeAnswers k system)) m fuel ramfsAddr = .ok s' ∧
      (s'.ramfsNodes.length < MAX_RAMFS_NODES →
        s'.kmallocs ≤ s.kmallocs + (nodeAnswers k system).length → GivesBack m es s') := by
  obtain ⟨s', hrun, hback⟩ := initInitramfs_givesBack
    (nodeAnswers_fresh hheap hroom s.kmallocs) hnone harchive hproper hfuel
  refine ⟨s', hrun, fun hfill hserved => hback hfill fun i hlo hhi => ?_⟩
  exact blocksFrom_ne_zero (nodeAnswers_ne_zero hheap hroom) hlo (hhi.trans_le hserved)

-- The file "a/b" with the bytes "xyz".
def tarFile : TarEntry where
  filename := chars [0x61, 0x2F, 0x62]
  typeflag := 0x30
  data := [0x78, 0x79, 0x7A]

def tarMemory : Memory 64 := fun a =>
  if a = 0x1000 then 0x61
  else if a = 0x1001 then 0x2F
  else if a = 0x1002 then 0x62
  else if 0x107C ≤ a ∧ a < 0x1086 then 0x30
  else if a = 0x1086 then 0x33
  else if a = 0x109C then 0x30
  else if a = 0x1200 then 0x78
  else if a = 0x1201 then 0x79
  else if a = 0x1202 then 0x7A
  else 0

theorem tarMemory_archive : TarArchive tarMemory 0x1000 [tarFile] := by
  refine .entry (by decide) ?_ (.zero (by decide +kernel))
  constructor
  case ends => decide
  case filename => decide +kernel
  case terminator => decide +kernel
  case size =>
    refine ⟨[], [0x30, 0x30, 0x30, 0x30, 0x30, 0x30, 0x30, 0x30, 0x30, 0x30, 0x33], [0], ?_⟩
    decide +kernel
  case typeflag => decide +kernel
  case data => decide +kernel

theorem tarFile_proper : ProperEntries [tarFile] := by
  constructor
  case entry =>
    intro e he _
    obtain rfl := List.mem_singleton.mp he
    refine ⟨by decide, fun _ => ⟨⟨by decide, by decide +kernel, by decide⟩, by decide⟩, fun hdir => ?_⟩
    exact absurd hdir (by decide)
  case distinct => decide +kernel
  case below =>
    intro f hf _ e he _ _
    rw [List.mem_singleton.mp hf, List.mem_singleton.mp he]

-- Each is carved from the rest of the heap's one block.
theorem boot_nodes {system : System} (hboot : boot (fun _ => 0) sampleFrames = some system) :
    nodeAnswers 3 system = [0xFFFFFFFFC0000018, 0xFFFFFFFFC0000110, 0xFFFFFFFFC0000208] := by
  obtain ⟨hmem, hhead, -, -⟩ := boot_state hboot
  have first : findFit system.heap.mem (alignUp vfsNodeSize 16) (2 ^ 64) system.heap.head 0 =
      some (heapStart, 0) := by
    rw [hmem, hhead]
    decide +kernel
  obtain ⟨s₁, heq₁, hmem₁, hhead₁⟩ := nodeAnswers_found (k := 2) first (by decide) (by decide)
  rw [hmem] at hmem₁
  rw [hhead] at hhead₁
  have second : findFit s₁.heap.mem (alignUp vfsNodeSize 16) (2 ^ 64) s₁.heap.head 0 =
      some (heapStart + 248, heapStart) := by
    rw [hmem₁, hhead₁]
    decide +kernel
  obtain ⟨s₂, heq₂, hmem₂, hhead₂⟩ := nodeAnswers_found (k := 1) second (by decide) (by decide)
  rw [hmem₁] at hmem₂
  rw [hhead₁] at hhead₂
  have third : findFit s₂.heap.mem (alignUp vfsNodeSize 16) (2 ^ 64) s₂.heap.head 0 =
      some (heapStart + 496, heapStart + 248) := by
    rw [hmem₂, hhead₂]
    decide +kernel
  obtain ⟨s₃, heq₃, -, -⟩ := nodeAnswers_found (k := 0) third (by decide) (by decide)
  rw [heq₁, heq₂, heq₃]
  rfl

theorem archive_given_back_file :
    ∃ system s', boot (fun _ => 0) sampleFrames = some system ∧
      sampleState.initInitramfs (blocksFrom 0 (nodeAnswers 3 system)) tarMemory 101 0x1000 = .ok s' ∧
      GivesBack tarMemory [tarFile] s' := by
  obtain ⟨system, hboot, -⟩ := boot_invariant (fun _ => 0) sampleFrames sampleFrames_ne
  obtain ⟨hheap, -, -⟩ := boot_returned hboot
  obtain ⟨-, -, hend, -⟩ := boot_state hboot
  have hroom : PermittedRun System.step Mm.Heap.HasRoom system (nodeCalls 3) := by
    refine nodeCalls_room ?_
    rw [hend]
    decide
  have hanswers := boot_nodes hboot
  obtain ⟨s', hrun, hback⟩ := archive_given_back hheap hroom
    (rfl : sampleState.ramfsNodes = []) tarMemory_archive tarFile_proper
    (by decide : [tarFile].length + 100 ≤ 101)
  have hcounts : (sampleState.initInitramfs (blocksFrom sampleState.kmallocs (nodeAnswers 3 system))
      tarMemory 101 0x1000).map (fun s => (s.ramfsNodes.length, s.kmallocs)) = .ok (2, 3) := by
    rw [hanswers]
    decide +kernel
  rw [hrun] at hcounts
  obtain ⟨hlen, hcalls⟩ := Prod.mk.inj (Except.ok.inj hcounts)
  refine ⟨system, s', hboot, hrun, hback (by rw [hlen]; decide) ?_⟩
  rw [hcalls, hanswers]
  decide

end Heap

end State

end Miyabi.Fs
