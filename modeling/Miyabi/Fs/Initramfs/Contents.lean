import Miyabi.Fs.Initramfs.Components
import Miyabi.Fs.Initramfs.Read
import Miyabi.Fs.Initramfs.Single

namespace Miyabi.Fs

open Miyabi.Base Miyabi.Base.Memory

section Nodes

variable (m : Memory 64) (es : List TarEntry)

-- The path is that of an entry or of a directory on the way to one.
def Listed (names : List CString) : Prop :=
  ∃ e ∈ es, ¬e.IsExtension ∧ names <+: e.names

-- As a directory.
def Under (names : List CString) : Prop :=
  ∃ e ∈ es, ¬e.IsExtension ∧ names <+: e.names ∧ (e.IsFile → names ≠ e.names)

structure FileNode (e : TarEntry) (node : VfsNode) : Prop where
  name : node.name = e.path
  flags : node.flags = FS_FILE
  read : node.read = some .ramfs
  length : node.length.toNat = e.data.length
  data : ∀ i, (h : i < e.data.length) → m (node.ptr + BitVec.ofNat 64 i) = e.data.get ⟨i, h⟩

structure DirNode (names : List CString) (node : VfsNode) : Prop where
  name : node.name = pathOf names ∨ node.name = pathOf names ++ [slash]
  flags : node.flags = FS_DIRECTORY
  finddir : node.finddir = some .ramfs

-- A node that stands for a part of the archive.
inductive Explained (node : VfsNode) : Prop
  | file (e : TarEntry) : e ∈ es → e.IsFile → FileNode m e node → Explained node
  | directory (names : List CString) : Under es names → DirNode names node → Explained node

end Nodes

variable {m : Memory 64} {es more : List TarEntry}

theorem Under.mono {names : List CString} (h : Under es names) : Under (es ++ more) names := by
  obtain ⟨e, he, hrest⟩ := h
  exact ⟨e, List.mem_append_left _ he, hrest⟩

theorem Under.listed {names : List CString} (h : Under es names) : Listed es names := by
  obtain ⟨e, he, hext, hpre, -⟩ := h
  exact ⟨e, he, hext, hpre⟩

theorem Under.of_front {names more : List CString} (h : Under es more) (hpre : names <+: more) :
    Under es names := by
  obtain ⟨e, he, hext, hmore, hfile⟩ := h
  refine ⟨e, he, hext, hpre.trans hmore, fun hf heq => hfile hf ?_⟩
  exact hmore.eq_of_length_le (heq ▸ hpre.length_le)

theorem Explained.mono {node : VfsNode} (h : Explained m es node) :
    Explained m (es ++ more) node := by
  cases h with
  | file e he hfile hnode => exact .file e (List.mem_append_left _ he) hfile hnode
  | directory names hunder hnode => exact .directory names hunder.mono hnode

theorem dirNode_is (names : List CString) : DirNode names (State.dirNode (pathOf names)) where
  name := Or.inl rfl
  flags := rfl
  finddir := rfl

-- What an entry is made into.
theorem entryNode_explained {e : TarEntry} {header : BitVec 64} (h : ProperEntry e)
    (hat : e.At m header) (he : e ∈ es) : Explained m es (entryNode m header e.path) := by
  have htake : e.path.take 99 = e.path := h.stored
  rcases h.typeflag with hfile | hdir
  · have hnot : ¬IsDirEntry m header := by
      rw [hat.directory]
      exact fun hdir => TarEntry.directory_not_file hdir hfile
    have hlength := (h.file hfile).2
    rw [entryNode, if_neg hnot, htake]
    refine .file e he hfile ⟨rfl, rfl, rfl, ?_, hat.data⟩
    show ((entrySize m header).setWidth 32).toNat = e.data.length
    rw [hat.entrySize, BitVec.toNat_setWidth, BitVec.toNat_ofNat]
    omega
  · have hnames := h.path_cases.2
    rw [entryNode, if_pos (hat.directory.mpr hdir), htake]
    have hunder : Under es e.names :=
      ⟨e, he, TarEntry.directory_not_extension hdir, List.prefix_refl _,
        fun hfile => absurd hfile (TarEntry.directory_not_file hdir)⟩
    refine .directory e.names hunder ⟨?_, rfl, rfl⟩
    rcases hnames with hpath | ⟨-, -, hpath⟩
    · exact Or.inl hpath
    · exact Or.inr hpath

namespace State

variable {blocks : Nat → BitVec 64} {fuel : ℕ} {s s' s₁ : State}

-- No node goes or changes, and the new nodes are of a kind.
structure Grown (P : VfsNode → Prop) (s s' : State) : Prop where
  kept : ∀ p ∈ s.ramfsNodes, p ∈ s'.ramfsNodes ∧ s'.nodes p = s.nodes p
  new : ∀ p ∈ s'.ramfsNodes, p ∈ s.ramfsNodes ∨ P (s'.nodes p)

namespace Grown

variable {P Q : VfsNode → Prop}

theorem refl (P : VfsNode → Prop) (s : State) : Grown P s s :=
  ⟨fun _ hp => ⟨hp, rfl⟩, fun _ hp => Or.inl hp⟩

theorem trans (h : Grown P s s₁) (h' : Grown P s₁ s') : Grown P s s' where
  kept p hp := by
    obtain ⟨hp₁, hnode⟩ := h.kept p hp
    obtain ⟨hp', hnode'⟩ := h'.kept p hp₁
    exact ⟨hp', hnode'.trans hnode⟩
  new p hp := by
    rcases h'.new p hp with hp₁ | hnew
    · rcases h.new p hp₁ with hold | hnew
      · exact Or.inl hold
      · rw [← (h'.kept p hp₁).2] at hnew
        exact Or.inr hnew
    · exact Or.inr hnew

theorem imp (h : Grown P s s') (himp : ∀ node, P node → Q node) : Grown Q s s' :=
  ⟨h.kept, fun p hp => (h.new p hp).imp_right (himp _)⟩

theorem plant (hfresh : Fresh blocks) (h : Tabled blocks s) {node : VfsNode} (hnode : P node) :
    Grown P s (s.plant blocks node) where
  kept p hp := by
    obtain ⟨hne, -, hgiven⟩ := h p hp
    exact ⟨List.mem_append_left _ hp, plant_nodes_of_ne (given_ne_next hfresh hgiven hne)⟩
  new p hp := by
    rcases List.mem_append.mp hp with hp | hp
    · exact Or.inl hp
    · obtain rfl := List.mem_singleton.mp hp
      rw [plant_nodes_self]
      exact Or.inr hnode

theorem full {node : VfsNode} (h : s.addNode blocks node = (false, s')) : Grown P s s' := by
  obtain ⟨-, hnodes, hramfs, -⟩ := addNode_full h
  exact ⟨fun p hp => ⟨hramfs ▸ hp, congrFun hnodes p⟩, fun p hp => Or.inl (hramfs ▸ hp)⟩

theorem found (h : Grown P s s') {path : CString} (hfound : ¬Missing s.names path) :
    ¬Missing s'.names path := by
  rw [not_missing] at hfound ⊢
  obtain ⟨name, hname, hmatch⟩ := hfound
  obtain ⟨p, hp, rfl⟩ := List.mem_map.mp hname
  obtain ⟨hp', hnode⟩ := h.kept p hp
  exact ⟨(s.nodes p).name, List.mem_map.mpr ⟨p, hp', congrArg VfsNode.name hnode⟩, hmatch⟩

end Grown

-- The table is full, or kmalloc gave NULL from the k-th call on.
def Halted (blocks : Nat → BitVec 64) (k : ℕ) (s : State) : Prop :=
  MAX_RAMFS_NODES ≤ s.ramfsNodes.length ∨ ∃ i, k ≤ i ∧ i < s.kmallocs ∧ blocks i = 0

theorem addNode_halted {node : VfsNode} {k : ℕ} (hk : k ≤ s.kmallocs)
    (h : s.addNode blocks node = (false, s')) : Halted blocks k s' := by
  by_cases hroom : MAX_RAMFS_NODES ≤ s.ramfsNodes.length
  · rw [Halted, (addNode_full h).2.2.1]
    exact Or.inl hroom
  rw [addNode, if_neg hroom, kmalloc_eq] at h
  by_cases hblock : blocks s.kmallocs = 0
  · simp only [if_pos hblock] at h
    cases h
    exact Or.inr ⟨s.kmallocs, hk, Nat.lt_succ_self _, hblock⟩
  · simp only [if_neg hblock] at h
    cases h

-- ensure_parent_dirs_exist makes directory nodes only, and unless it is
-- halted every directory of the path is found then.
theorem ensureDirs_grown (hfresh : Fresh blocks) {k : ℕ} {rest : CString} :
    ∀ {s : State} {dirPath : CString}, Tabled blocks s → k ≤ s.kmallocs →
      Clean (dirPath ++ rest) → s.ensureDirs blocks dirPath rest = .ok s' →
      Grown (fun node => ∃ dir ∈ parentsFrom dirPath rest, node = dirNode dir) s s' ∧
        (Halted blocks k s' ∨ ∀ dir ∈ parentsFrom dirPath rest, ¬Missing s'.names dir) := by
  induction rest with
  | nil =>
    intro s dirPath _ _ _ hrun
    cases hrun
    exact ⟨Grown.refl _ _, Or.inr fun _ hdir => absurd hdir List.not_mem_nil⟩
  | cons c rest ih =>
    intro s dirPath h hk hclean hrun
    have hnext : Clean (dirPath ++ [c] ++ rest) := by simpa using hclean
    by_cases hlen : pathSize ≤ dirPath.length
    · rw [ensureDirs, if_pos hlen] at hrun
      cases hrun
    cases ensureDirs_turn blocks h c rest (Nat.lt_of_not_le hlen) with
    | letter hparents hsame =>
      rw [hparents]
      exact ih h hk hnext (hsame ▸ hrun)
    | found hparents hfound hsame =>
      obtain ⟨hgrown, hend⟩ := ih h hk hnext (hsame ▸ hrun)
      rw [hparents]
      have hmore := hgrown.imp fun _ => Exists.imp fun _ =>
        And.imp_left (List.mem_cons_of_mem dirPath)
      refine ⟨hmore, hend.imp_right fun hall dir hdir => ?_⟩
      rcases List.mem_cons.mp hdir with rfl | hdir
      · exact hgrown.found hfound
      · exact hall dir hdir
    | full s₁ hparents hadd hstop =>
      rw [hstop] at hrun
      cases hrun
      exact ⟨Grown.full hadd, Or.inl (addNode_halted hk hadd)⟩
    | long hparents hmissing hlong hover =>
      rw [hover] at hrun
      cases hrun
    | made hparents hmissing hshort hblock hsame =>
      obtain ⟨h₁, hnames₁⟩ := h.made hfresh hclean.of_append hmissing hshort hblock
      obtain ⟨hgrown, hend⟩ := ih h₁ (Nat.le_succ_of_le hk) hnext (hsame ▸ hrun)
      rw [hparents]
      have hplant : Grown (fun node => ∃ dir ∈ dirPath :: parentsFrom (dirPath ++ [c]) rest,
          node = dirNode dir) s (s.plant blocks (dirNode dirPath)) :=
        Grown.plant hfresh h ⟨dirPath, List.mem_cons_self, rfl⟩
      have hfound : ¬Missing (s.plant blocks (dirNode dirPath)).names dirPath := by
        rw [not_missing, hnames₁, imply_missing hmissing]
        exact ⟨dirPath, List.mem_append_right _ List.mem_cons_self, tarMatchName_self dirPath⟩
      have hmore := hgrown.imp fun _ => Exists.imp fun _ =>
        And.imp_left (List.mem_cons_of_mem dirPath)
      refine ⟨hplant.trans hmore, hend.imp_right fun hall dir hdir => ?_⟩
      rcases List.mem_cons.mp hdir with rfl | hdir
      · exact hgrown.found hfound
      · exact hall dir hdir

-- The nodes are those of the entries so far and of the directories on the way to them.
structure Holds (blocks : Nat → BitVec 64) (m : Memory 64) (es : List TarEntry) (s : State) :
    Prop where
  tabled : Tabled blocks s
  explained : ∀ p ∈ s.ramfsNodes, Explained m es (s.nodes p)
  found : ∀ names, names ≠ [] → Listed es names → ¬Missing s.names (pathOf names)

theorem Holds.extension (h : Holds blocks m es s) {e : TarEntry} (hext : e.IsExtension) :
    Holds blocks m (es ++ [e]) s where
  tabled := h.tabled
  explained p hp := (h.explained p hp).mono
  found names hne hlisted := by
    obtain ⟨e', he', hnot, hpre⟩ := hlisted
    rcases List.mem_append.mp he' with he' | he'
    · exact h.found names hne ⟨e', he', hnot, hpre⟩
    · exact absurd hext (List.mem_singleton.mp he' ▸ hnot)

-- An entry adds its own node and those of the directories that were missing.
theorem Holds.entry (hfresh : Fresh blocks) (h : Holds blocks m es s) {e : TarEntry}
    {header : BitVec 64} (hproper : ProperEntry e) (hat : e.At m header) {k : ℕ}
    (hk : k ≤ s.kmallocs) (hensure : s.ensureParentDirsExist blocks e.path = .ok s₁)
    (hgoes : ¬Halted blocks k s₁)
    (hadd : s₁.addNode blocks (entryNode m header e.path) = (true, s')) :
    Holds blocks m (es ++ [e]) s' := by
  have hclean : Clean ([] ++ e.path) := hproper.clean
  rw [ensureParentDirsExist, sanitizePath_of_clean hproper.clean] at hensure
  have htabled : Tabled blocks s₁ := (tabled_kept hfresh).ensureDirs h.tabled hclean hensure
  obtain ⟨hgrown, hend⟩ := ensureDirs_grown hfresh h.tabled hk hclean hensure
  have hdirs := hend.resolve_left hgoes
  have he : e ∈ es ++ [e] := List.mem_append_right _ List.mem_cons_self
  have hexplained : Grown (Explained m (es ++ [e])) s s₁ := by
    refine hgrown.imp fun node hnode => ?_
    obtain ⟨dir, hdir, rfl⟩ := hnode
    obtain ⟨names, -, hpre, hfile, rfl⟩ := hproper.parents_names hdir
    have hext : ¬e.IsExtension := by
      rcases hproper.typeflag with hf | hd
      · exact TarEntry.file_not_extension hf
      · exact TarEntry.directory_not_extension hd
    exact .directory names ⟨e, he, hext, hpre, hfile⟩ (dirNode_is names)
  obtain ⟨-, hblock, rfl⟩ := addNode_made hadd
  have hnode := entryNode_isRamfs m header hproper.clean
  have hplant : Grown (Explained m (es ++ [e])) s₁ _ :=
    Grown.plant hfresh htabled (entryNode_explained hproper hat he)
  have hall := hexplained.trans hplant
  constructor
  case tabled => exact htabled.plant hfresh hnode hblock
  case explained =>
    intro p hp
    rcases hall.new p hp with hold | hnew
    · rw [(hall.kept p hold).2]
      exact (h.explained p hold).mono
    · exact hnew
  case found =>
    rintro names hne ⟨e', he', hext, hpre⟩
    rcases List.mem_append.mp he' with he' | he'
    · exact hall.found (h.found names hne ⟨e', he', hext, hpre⟩)
    obtain rfl := List.mem_singleton.mp he'
    by_cases hwhole : names = e'.names
    · rw [hwhole, not_missing, htabled.names_plant hfresh, entryNode_name, hproper.stored]
      exact ⟨e'.path, List.mem_append_right _ List.mem_cons_self, hproper.name_matches⟩
    · exact hplant.found (hdirs _ (hproper.names_parents hne hpre hwhole))

theorem kmallocs_kept (k : ℕ) : Kept blocks fun s => k ≤ s.kmallocs where
  kmalloc _ h := Nat.le_succ_of_le h
  plant _ _ h _ _ := Nat.le_succ_of_le h

-- A run that is not halted comes to hold every entry.
theorem entriesFrom_holds (hfresh : Fresh blocks) (hfuel : 100 ≤ fuel) {k : ℕ}
    {header : BitVec 64} {rest : List TarEntry} (harchive : TarArchive m header rest) :
    ∀ {turns : ℕ} {s : State} {es : List TarEntry},
      (∀ e ∈ rest, ¬e.IsExtension → ProperEntry e) → Holds blocks m es s → k ≤ s.kmallocs →
      s.entriesFrom blocks m fuel turns header = .ok s' → ¬Halted blocks k s' →
      Holds blocks m (es ++ rest) s' := by
  induction harchive with
  | @zero header hzero =>
    intro turns s es _ h _ hrun _
    have hfirst := hzero 0 (by decide)
    rw [BitVec.add_zero] at hfirst
    cases turns with
    | zero => cases hrun
    | succ turns =>
      rw [entriesFrom, if_pos hfirst] at hrun
      cases hrun
      rwa [List.append_nil]
  | @entry header e rest hne hat _ ih =>
    intro turns s es hproper h hk hrun hgoes
    have hrestProper : ∀ e' ∈ rest, ¬e'.IsExtension → ProperEntry e' :=
      fun e' he' => hproper e' (List.mem_cons_of_mem _ he')
    rw [List.append_cons]
    cases turns with
    | zero => cases hrun
    | succ turns =>
      rw [entriesFrom, if_neg (hat.ne_zero hne)] at hrun
      by_cases hext : e.IsExtension
      · rw [if_pos (hat.extension.mpr hext), hat.nextHeader] at hrun
        exact ih hrestProper (h.extension hext) hk hrun hgoes
      have hentry := hproper e List.mem_cons_self hext
      rw [if_neg (fun hnot => hext (hat.extension.mp hnot)), hat.cString hfuel] at hrun
      simp only [hentry.sanitized] at hrun
      split at hrun
      · cases hrun
      next s₁ hensure =>
      split at hrun
      · next s₂ hadd =>
        cases hrun
        exact absurd (addNode_halted ((kmallocs_kept k).ensureParentDirsExist hk hensure) hadd) hgoes
      next s₂ hadd =>
      obtain ⟨hroom, hblock, hs₂⟩ := addNode_made hadd
      have hkmallocs : s₂.kmallocs = s₁.kmallocs + 1 := by rw [hs₂, plant]
      have hk₁ : k ≤ s₁.kmallocs := (kmallocs_kept k).ensureParentDirsExist hk hensure
      have hgoes₁ : ¬Halted blocks k s₁ := by
        rintro (hfull | ⟨i, hki, hi, hnull⟩)
        · omega
        · have hlater := (kmallocs_kept s₂.kmallocs).entriesFrom (le_refl _) hrun
          exact hgoes (Or.inr ⟨i, hki, by omega, hnull⟩)
      rw [hat.nextHeader] at hrun
      exact ih hrestProper (h.entry hfresh hentry hat hk hensure hgoes₁ hadd) (by omega) hrun hgoes

theorem Holds.find (h : Holds blocks m es s) {names : List CString} (hne : names ≠ []) (hlisted : Listed es names) :
    ∃ p, s.ramfsFind (pathOf names) = some p := by
  have hfound := h.found names hne hlisted
  rw [← ramfsFind_eq_none h.tabled] at hfound
  exact Option.ne_none_iff_exists'.mp hfound

section Lookup

variable (h : Holds blocks m es s) (hproper : ProperEntries es)

include hproper

omit h in
-- Entries with the same components are the same.
theorem same_entry {e e' : TarEntry} (he : e ∈ es) (he' : e' ∈ es) (hext : ¬e.IsExtension)
    (hext' : ¬e'.IsExtension) (hnames : e.names = e'.names) : e = e' := by
  have hmem : ∀ e ∈ es, ¬e.IsExtension → e ∈ es.filter fun e => ¬e.IsExtension :=
    fun e he hext => List.mem_filter.mpr ⟨he, decide_eq_true hext⟩
  apply List.inj_on_of_nodup_map hproper.distinct (hmem e he hext) (hmem e' he' hext')
  show normal e.filename = normal e'.filename
  rw [(hproper.entry e he hext).normal_eq, (hproper.entry e' he' hext').normal_eq, hnames]

omit h in
theorem file_not_under {e : TarEntry} (he : e ∈ es) (hfile : e.IsFile) : ¬Under es e.names := by
  rintro ⟨e', he', hext', hpre, hnot⟩
  have hsame : e.names = e'.names := hproper.below e he hfile e' he' hext' hpre
  obtain rfl := same_entry hproper he he' (TarEntry.file_not_extension hfile) hext' hsame
  exact hnot hfile rfl

omit h in
theorem listed_proper {names : List CString} (hlisted : Listed es names) : Proper names := by
  obtain ⟨e, he, hext, hpre⟩ := hlisted
  exact (hproper.entry e he hext).proper.of_front hpre

include h

-- What is found under a path is the node of that path.
theorem Holds.found_cases {names : List CString} (hnames : Proper names) {p : BitVec 64}
    (hfind : s.ramfsFind (pathOf names) = some p) :
    (∃ e ∈ es, e.IsFile ∧ names = e.names ∧ FileNode m e (s.nodes p)) ∨
      Under es names ∧ DirNode names (s.nodes p) := by
  obtain ⟨hmem, -, hmatch⟩ := ramfsFind_some hfind
  have htrim := trimSlash_of_match (h.tabled p hmem).2.1.clean hnames.isKey hmatch
  cases h.explained p hmem with
  | file e he hfile hnode =>
    have hentry := hproper.entry e he (TarEntry.file_not_extension hfile)
    have hpath : pathOf e.names = pathOf names := by
      rw [← hentry.normal_eq, ← htrim, hnode.name]
      rfl
    exact Or.inl ⟨e, he, hfile, (hentry.proper.injective hnames hpath).symm, hnode⟩
  | directory names' hunder hnode =>
    have hnames' := listed_proper hproper hunder.listed
    have hpath : pathOf names' = pathOf names := by
      rw [← htrim]
      rcases hnode.name with hname | hname
      · rw [hname, trimSlash_of_last hnames'.isKey.last]
      · rw [hname, trimSlash, if_pos List.getLast?_concat, List.dropLast_concat]
    obtain rfl := hnames'.injective hnames hpath
    exact Or.inr ⟨hunder, hnode⟩

theorem Holds.find_file {e : TarEntry} (he : e ∈ es) (hfile : e.IsFile) :
    ∃ p, s.ramfsFind (pathOf e.names) = some p ∧ FileNode m e (s.nodes p) := by
  have hext := TarEntry.file_not_extension hfile
  have hentry := hproper.entry e he hext
  have hne : e.names ≠ [] := (hentry.file hfile).1.proper.2
  have hlisted : Listed es e.names := ⟨e, he, hext, List.prefix_refl _⟩
  obtain ⟨p, hp⟩ := h.find hne hlisted
  refine ⟨p, hp, ?_⟩
  rcases h.found_cases hproper hentry.proper hp with ⟨e', he', hfile', hnames, hnode⟩ | ⟨hunder, -⟩
  · rwa [same_entry hproper he he' hext (TarEntry.file_not_extension hfile') hnames]
  · exact absurd hunder (file_not_under hproper he hfile)

theorem Holds.find_directory {names : List CString} (hne : names ≠ []) (hunder : Under es names) :
    ∃ p, s.ramfsFind (pathOf names) = some p ∧ DirNode names (s.nodes p) := by
  obtain ⟨p, hp⟩ := h.find hne hunder.listed
  refine ⟨p, hp, ?_⟩
  rcases h.found_cases hproper (listed_proper hproper hunder.listed) hp with
    ⟨e, he, hfile, hnames, -⟩ | ⟨-, hnode⟩
  · exact absurd (hnames ▸ hunder) (file_not_under hproper he hfile)
  · exact hnode

end Lookup

end State

end Miyabi.Fs
