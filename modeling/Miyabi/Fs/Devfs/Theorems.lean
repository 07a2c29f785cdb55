import Miyabi.Fs.Vfs.Lookup
import Miyabi.Fs.Initramfs.Archive

namespace Miyabi.Fs

open Miyabi.Base

namespace State

def registerAll (devices : List (BitVec 64)) (s : State) : State :=
  devices.foldl (fun s device => s.devfsRegister device) s

theorem registerAll_eq {new : List (BitVec 64)} : ∀ {s : State},
    s.devices.length + new.length ≤ MAX_DEVFS_DEVICES →
    s.registerAll new = { s with devices := s.devices ++ new } := by
  induction new with
  | nil =>
    intro s _
    rw [List.append_nil]
    rfl
  | cons device new ih =>
    intro s hroom
    rw [List.length_cons] at hroom
    have hstep : s.devfsRegister device = { s with devices := s.devices ++ [device] } := by
      rw [devfsRegister, if_neg (by omega)]
    have hrest := @ih { s with devices := s.devices ++ [device] }
      (by rw [List.length_append, List.length_singleton]; omega)
    rw [registerAll, List.foldl_cons, hstep]
    rw [List.append_assoc, List.singleton_append] at hrest
    exact hrest

variable {blocks : Nat → BitVec 64} {s s' : State}

-- The answers of ramfs_finddir depend on the names of the nodes.
section SameNames

variable (hname : ∀ p, (s'.nodes p).name = (s.nodes p).name)
  (hnodes : s'.ramfsNodes = s.ramfsNodes) (hroot : s'.ramfsRoot = s.ramfsRoot)

include hname hnodes hroot

theorem ramfsFinddir_congr (node : BitVec 64) (name : CString) :
    s'.ramfsFinddir node name = s.ramfsFinddir node name := by
  have hfront : s'.ramfsPrefix node = s.ramfsPrefix node := by
    rw [ramfsPrefix, ramfsPrefix, hname, hroot]
  have hfind : ∀ path, s'.ramfsFind path = s.ramfsFind path := by
    intro path
    rw [ramfsFind, ramfsFind, hnodes]
    simp only [hname]
  rw [ramfsFinddir, ramfsFinddir, hfront, hfind]

end SameNames

-- The answer is a node whose name matches the path, or NULL.
theorem ramfsFinddir_cases (node : BitVec 64) (name : CString) :
    s.ramfsFinddir node name = 0 ∨
    s.ramfsFinddir node name ∈ s.ramfsNodes ∧
      tarMatchName (s.nodes (s.ramfsFinddir node name)).name
        (s.ramfsPrefix node ++ name.take (pathSize - 1 - (s.ramfsPrefix node).length)) = true := by
  rw [ramfsFinddir]
  cases hfind : s.ramfsFind
      (s.ramfsPrefix node ++ name.take (pathSize - 1 - (s.ramfsPrefix node).length)) with
  | none => exact Or.inl rfl
  | some p =>
    have hmem := List.mem_of_find?_eq_some hfind
    have hmatch := List.find?_some hfind
    rw [Bool.and_eq_true] at hmatch
    exact Or.inr ⟨hmem, hmatch.2⟩

-- The nodes whose path begins with the component `first`.
def Below (s : State) (first : CString) (p : BitVec 64) : Prop :=
  p ∈ s.ramfsNodes ∧ firstComponent (s.nodes p).name = first

-- In the root directory.
theorem Planted.root_finds (h : Planted blocks s) {first : CString} (hclean : Clean first)
    (hslash : slash ∉ first) (hlen : first.length < tokenSize)
    (hfound : s.ramfsFinddir s.ramfsRoot first ≠ 0) :
    s.Below first (s.ramfsFinddir s.ramfsRoot first) := by
  have hfront : s.ramfsPrefix s.ramfsRoot = [] := if_pos rfl
  obtain ⟨hmem, hmatch⟩ := (ramfsFinddir_cases s.ramfsRoot first).resolve_left hfound
  refine ⟨hmem, ?_⟩
  have htake : first.take (pathSize - 1 - ([] : CString).length) = first := by
    have h128 : tokenSize ≤ pathSize - 1 - ([] : CString).length := by decide
    exact List.take_of_length_le (by omega)
  rw [hfront, htake, List.nil_append,
    tarMatchName_clean (h.node _ hmem).2.2.2.1.clean hclean] at hmatch
  rw [matchClean_firstComponent hmatch, firstComponent_of_not_mem hslash]

-- The path of a directory with its slash.
theorem ramfsPrefix_eq {p : BitVec 64} (hroot : p ≠ s.ramfsRoot)
    (hshort : (s.nodes p).name.length < VfsNode.nameSize) (hne : (s.nodes p).name ≠ []) :
    ∃ path, s.ramfsPrefix p = path ++ [slash] ∧
      firstComponent path = firstComponent (s.nodes p).name ∧
      (path ≠ [] → path.head? = (s.nodes p).name.head?) := by
  have htake : (s.nodes p).name.take (pathSize - 1) = (s.nodes p).name := by
    have h128 : VfsNode.nameSize ≤ pathSize - 1 := by decide
    exact List.take_of_length_le (by omega)
  rw [ramfsPrefix, if_neg hroot]
  simp only [htake]
  by_cases hlast : (s.nodes p).name.getLast? = some slash
  · obtain ⟨path, hpath⟩ := List.getLast?_eq_some_iff.mp hlast
    refine ⟨path, by rw [if_neg (by simp [hlast]), hpath], ?_, ?_⟩
    · rw [hpath, firstComponent_append_slash]
    · intro hne
      rw [hpath, List.head?_append_of_ne_nil _ hne]
  · exact ⟨(s.nodes p).name, if_pos ⟨hne, hlast⟩, rfl, fun _ => rfl⟩

-- Below the root a lookup stays below the same component.
theorem Planted.below_finds (h : Planted blocks s) {first : CString} (hfirst : first ≠ [])
    {p : BitVec 64} (hp : s.Below first p) {token : CString}
    (hfound : s.ramfsFinddir p token ≠ 0) : s.Below first (s.ramfsFinddir p token) := by
  obtain ⟨hmem, hcomponent⟩ := hp
  obtain ⟨-, hroot, -, hram, -⟩ := h.node p hmem
  have hname : (s.nodes p).name ≠ [] := by
    intro hnil
    rw [hnil] at hcomponent
    exact hfirst hcomponent.symm
  obtain ⟨path, hfront, hpath, hhead⟩ := ramfsPrefix_eq hroot hram.short hname
  have hpathNe : path ≠ [] := by
    rintro rfl
    exact hfirst (hcomponent.symm.trans hpath.symm)
  have hclean : Clean path := fun c hc => hram.clean c (hhead hpathNe ▸ hc)
  obtain ⟨hmem', hmatch⟩ := (ramfsFinddir_cases p token).resolve_left hfound
  refine ⟨hmem', ?_⟩
  have hsearch : Clean (path ++ slash :: token.take (pathSize - 1 - (path ++ [slash]).length)) :=
    hclean.append hpathNe _
  rw [hfront, List.append_assoc, List.singleton_append,
    tarMatchName_clean (h.node _ hmem').2.2.2.1.clean hsearch] at hmatch
  rw [matchClean_firstComponent hmatch, firstComponent_append_slash, hpath, hcomponent]

-- At a node that is not mounted on, the walk goes by ramfs_finddir or ends.
theorem descend_ramfs {p : BitVec 64} (hne : p ≠ 0)
    (hfinddir : (s.nodes p).finddir = none ∨ (s.nodes p).finddir = some .ramfs)
    (hunmounted : (s.nodes p).flags &&& FS_MOUNTPOINT = 0) (token : CString) :
    s.vfs.descend p token =
      if (s.nodes p).flags &&& FS_DIRECTORY = 0 ∨ (s.nodes p).finddir = none then 0
      else s.ramfsFinddir p token := by
  have hfollow : s.vfs.follow p = p :=
    Vfs.follow_of_not_mountpoint s.vfs fun hmount => hmount hunmounted
  rw [Vfs.descend, if_neg hne, hfollow, if_neg hne]
  by_cases hdir : (s.nodes p).flags &&& FS_DIRECTORY = 0
  · rw [if_pos (fun h => h hdir), if_pos (Or.inl hdir)]
  · rw [if_neg (fun h => h hdir)]
    rcases hfinddir with hnone | hsome
    · rw [vfs_finddir, hnone, if_pos (Or.inr rfl)]
      rfl
    · rw [vfs_finddir, hsome, if_neg (not_or.mpr ⟨hdir, Option.some_ne_none _⟩)]
      rfl

theorem descend_root (hne : s.ramfsRoot ≠ 0) (hroot : s.nodes s.ramfsRoot = dirNode [slash])
    (token : CString) :
    s.vfs.descend s.ramfsRoot token = s.ramfsFinddir s.ramfsRoot token := by
  have hdir : dirNode [slash] = s.nodes s.ramfsRoot := hroot.symm
  rw [descend_ramfs hne (Or.inr (by rw [hroot]; rfl)) (by rw [hroot]; exact directory_not_mountpoint),
    if_neg]
  rw [hroot]
  rintro (h | h)
  · exact absurd h (by decide)
  · cases h

-- "/dev" and "/dev/" with a name.
def devPath : CString := slash :: devName

def devicePath (name : CString) : CString := slash :: (devName ++ slash :: name)

-- After devfs is mounted on `dev` and with the device table `devices`.
def mounted (s : State) (dev : BitVec 64) (devices : List (BitVec 64)) : State :=
  { s.vfsMount dev s.devfsRoot with devices := devices }

section Mounted

variable {dev : BitVec 64} {devices : List (BitVec 64)}

theorem mounted_nodes (hdev : dev ≠ 0) :
    (s.mounted dev devices).nodes = Function.update s.nodes dev
      { s.nodes dev with flags := (s.nodes dev).flags ||| FS_MOUNTPOINT, ptr := s.devfsRoot } := by
  rw [mounted, vfsMount, if_neg hdev]
  rfl

theorem mounted_node_of_ne (hdev : dev ≠ 0) {p : BitVec 64} (hp : p ≠ dev) :
    (s.mounted dev devices).nodes p = s.nodes p := by
  rw [mounted_nodes hdev, Function.update_of_ne hp]

theorem mounted_name (hdev : dev ≠ 0) (p : BitVec 64) :
    ((s.mounted dev devices).nodes p).name = (s.nodes p).name := by
  by_cases hp : p = dev
  · rw [hp, mounted_nodes hdev, Function.update_self]
  · rw [mounted_node_of_ne hdev hp]

theorem mounted_ramfsFinddir (hdev : dev ≠ 0) (node : BitVec 64) (name : CString) :
    (s.mounted dev devices).ramfsFinddir node name = s.ramfsFinddir node name := by
  have hnodes : (s.mounted dev devices).ramfsNodes = s.ramfsNodes := by
    rw [mounted, vfsMount, if_neg hdev]
    rfl
  have hroot : (s.mounted dev devices).ramfsRoot = s.ramfsRoot := by
    rw [mounted, vfsMount, if_neg hdev]
    rfl
  exact ramfsFinddir_congr (mounted_name hdev) hnodes hroot node name

theorem mounted_follow (hdev : dev ≠ 0) : (s.mounted dev devices).vfs.follow dev = s.devfsRoot := by
  have hmount : (s.mounted dev devices).vfs.IsMountpoint dev := by
    rw [Vfs.IsMountpoint, vfs_flags, mounted_nodes hdev, Function.update_self]
    exact Vfs.mountpoint_or _
  rw [Vfs.follow, if_pos hmount, vfs_ptr, mounted_nodes hdev, Function.update_self]

theorem mounted_finish (hdev : dev ≠ 0) {p : BitVec 64} (hp : p ≠ dev)
    (hunmounted : (s.nodes p).flags &&& FS_MOUNTPOINT = 0) :
    (s.mounted dev devices).vfs.finish p = s.vfs.finish p := by
  rw [Vfs.finish_of_not_mountpoint s.vfs fun hmount => hmount hunmounted,
    Vfs.finish_of_not_mountpoint]
  rw [Vfs.IsMountpoint, vfs_flags, mounted_node_of_ne hdev hp]
  exact not_not.mpr hunmounted

end Mounted

theorem devName_clean : Clean devName := by
  intro c hc
  cases hc
  decide

-- The node found for /dev is the first of the initramfs with that path.
theorem Planted.dev_found (h : Planted blocks s) (hroot : s.fsRoot = s.ramfsRoot)
    {dev : BitVec 64} (hne : dev ≠ 0) (hlookup : s.vfsGetNodeByPath devPath = .ok dev) :
    dev = s.ramfsFinddir s.ramfsRoot devName ∧ s.Below devName dev := by
  have hwords : words slash devName = [devName] := words_word (by decide) (by decide)
  have hlen : devName.length < tokenSize := by decide
  rw [vfsGetNodeByPath, devPath, Vfs.vfsGetNodeByPath_eq, hwords, Vfs.lookupWords,
    Vfs.walkWords_cons _ hlen, vfs_fsRoot, hroot, descend_root h.root_ne_zero h.root] at hlookup
  by_cases hzero : s.ramfsFinddir s.ramfsRoot devName = 0
  · rw [if_pos hzero] at hlookup
    cases hlookup
    exact absurd rfl hne
  have hbelow := h.root_finds devName_clean (by decide) hlen hzero
  have hunmounted : ¬s.vfs.IsMountpoint (s.ramfsFinddir s.ramfsRoot devName) :=
    fun hmount => hmount (h.node _ hbelow.1).2.2.2.1.unmounted
  rw [if_neg hzero, Vfs.walkWords, Except.map, Vfs.finish_of_not_mountpoint _ hunmounted] at hlookup
  cases hlookup
  exact ⟨rfl, hbelow⟩

section Lookup

variable {dev : BitVec 64} (devices : List (BitVec 64)) (h : Planted blocks s)
  (hroot : s.fsRoot = s.ramfsRoot) (hne : dev ≠ 0)

include h hroot hne

theorem Planted.mounted_root (hdev : dev ≠ s.ramfsRoot) (token : CString) :
    (s.mounted dev devices).vfs.descend (s.mounted dev devices).vfs.fsRoot token =
      s.ramfsFinddir s.ramfsRoot token := by
  have hfsRoot : (s.mounted dev devices).vfs.fsRoot = (s.mounted dev devices).ramfsRoot := by
    rw [vfs_fsRoot, mounted, vfsMount, if_neg hne]
    exact hroot
  have hramfs : (s.mounted dev devices).ramfsRoot = s.ramfsRoot := by
    rw [mounted, vfsMount, if_neg hne]
    rfl
  have hnode : (s.mounted dev devices).nodes (s.mounted dev devices).ramfsRoot = dirNode [slash] := by
    rw [hramfs, mounted_node_of_ne hne hdev.symm]
    exact h.root
  rw [hfsRoot, descend_root (by rw [hramfs]; exact h.root_ne_zero) hnode,
    mounted_ramfsFinddir hne, hramfs]

variable (hlookup : s.vfsGetNodeByPath devPath = .ok dev)

include hlookup

-- A path below /dev is looked up in the device table.
theorem Planted.lookup_device {name : CString} (hname : name ≠ []) (hslash : slash ∉ name)
    (hlen : name.length < tokenSize) :
    (s.mounted dev devices).vfsGetNodeByPath (devicePath name) =
      .ok ((s.mounted dev devices).vfs.finish ((s.mounted dev devices).devfsFinddir name)) := by
  obtain ⟨hfound, hbelow⟩ := h.dev_found hroot hne hlookup
  obtain ⟨-, hdevRoot, hdevDevfs, -, -⟩ := h.node dev hbelow.1
  have hwords : words slash (devName ++ slash :: name) = [devName, name] := by
    rw [words_append (by decide) (by decide) (by simp), words_sep, words_word hname hslash]
  have hdevLen : devName.length < tokenSize := by decide
  have hnode : (s.mounted dev devices).nodes s.devfsRoot = devfsNode := by
    rw [mounted_node_of_ne hne hdevDevfs.symm]
    exact h.devfs.node
  have hdescend : (s.mounted dev devices).vfs.descend dev name =
      (s.mounted dev devices).devfsFinddir name := by
    have hdir : (s.mounted dev devices).vfs.IsDirectory s.devfsRoot := by
      rw [Vfs.IsDirectory, vfs_flags, hnode]
      decide
    rw [Vfs.descend, if_neg hne, mounted_follow hne, if_neg h.devfs.ne_zero,
      if_neg (not_not.mpr hdir), vfs_finddir, hnode]
    rfl
  rw [vfsGetNodeByPath, devicePath, Vfs.vfsGetNodeByPath_eq, hwords, Vfs.lookupWords,
    Vfs.walkWords_cons _ hdevLen, h.mounted_root devices hroot hne hdevRoot, ← hfound, if_neg hne,
    Vfs.walkWords_cons _ hlen, hdescend]
  by_cases hzero : (s.mounted dev devices).devfsFinddir name = 0
  · rw [if_pos hzero, hzero]
    rfl
  · rw [if_neg hzero]
    rfl

-- The nodes below another component are not the one mounted on.
theorem Planted.below_ne_dev {first : CString} (hdev : first ≠ devName) {p : BitVec 64}
    (hp : s.Below first p) : p ≠ dev := by
  rintro rfl
  exact hdev (hp.2.symm.trans (h.dev_found hroot hne hlookup).2.2)

theorem Planted.descend_elsewhere {first : CString} (hfirst : first ≠ []) (hdev : first ≠ devName)
    {p : BitVec 64} (hp : s.Below first p) (token : CString) :
    (s.mounted dev devices).vfs.descend p token = s.vfs.descend p token ∧
      (s.vfs.descend p token ≠ 0 → s.Below first (s.vfs.descend p token)) := by
  obtain ⟨hpNe, -, -, hram, -⟩ := h.node p hp.1
  have hnode : (s.mounted dev devices).nodes p = s.nodes p :=
    mounted_node_of_ne hne (h.below_ne_dev hroot hne hlookup hdev hp)
  have hold := descend_ramfs hpNe hram.finddir hram.unmounted token
  have hnew := descend_ramfs (s := s.mounted dev devices) hpNe (by rw [hnode]; exact hram.finddir)
    (by rw [hnode]; exact hram.unmounted) token
  rw [hnode, mounted_ramfsFinddir hne, ← hold] at hnew
  refine ⟨hnew, fun hfound => ?_⟩
  rw [hold] at hfound ⊢
  split at hfound
  · exact absurd rfl hfound
  · next hdir =>
    rw [if_neg hdir]
    exact h.below_finds hfirst hp hfound

-- A walk from below another component goes as before.
theorem Planted.walk_elsewhere {first : CString} (hfirst : first ≠ []) (hdev : first ≠ devName)
    {p : BitVec 64} (hp : s.Below first p) (tail : List CString) :
    ((s.mounted dev devices).vfs.walkWords p tail).map (s.mounted dev devices).vfs.finish =
      (s.vfs.walkWords p tail).map s.vfs.finish := by
  obtain ⟨hsame, hlast⟩ := Vfs.walkWords_congr
    (fun p hp token (_ : token ∈ tail) _ =>
      h.descend_elsewhere devices hroot hne hlookup hfirst hdev hp token) hp
  rw [hsame]
  cases hwalk : s.vfs.walkWords p tail with
  | error fault => rfl
  | ok last =>
    rw [Except.map, Except.map]
    rcases hlast last hwalk with rfl | hbelow
    · rfl
    · rw [mounted_finish hne (h.below_ne_dev hroot hne hlookup hdev hbelow)
        (h.node last hbelow.1).2.2.2.1.unmounted]

-- A path with another first component does not come to the node for /dev.
theorem Planted.lookup_elsewhere {path : CString}
    (hpath : ∀ first ∈ (words slash path).head?, first ≠ devName ∧ first.head? ≠ some dot) :
    (s.mounted dev devices).vfsGetNodeByPath path = s.vfsGetNodeByPath path := by
  obtain ⟨-, hbelow⟩ := h.dev_found hroot hne hlookup
  obtain ⟨-, hdevRoot, -, -, -⟩ := h.node dev hbelow.1
  by_cases hslash : path.head? = some slash
  case neg =>
    rw [vfsGetNodeByPath, vfsGetNodeByPath, Vfs.vfsGetNodeByPath_relative _ hslash,
      Vfs.vfsGetNodeByPath_relative _ hslash]
  obtain ⟨rest, rfl⟩ := List.head?_eq_some_iff.mp hslash
  rw [words_sep] at hpath
  rw [vfsGetNodeByPath, vfsGetNodeByPath, Vfs.vfsGetNodeByPath_eq, Vfs.vfsGetNodeByPath_eq,
    Vfs.lookupWords, Vfs.lookupWords]
  cases hwords : words slash rest with
  | nil =>
    have hfsRoot : (s.mounted dev devices).fsRoot = s.fsRoot := by
      rw [mounted, vfsMount, if_neg hne]
      rfl
    have hunmounted : (s.nodes s.ramfsRoot).flags &&& FS_MOUNTPOINT = 0 := by
      rw [h.root]
      exact directory_not_mountpoint
    rw [Vfs.walkWords, Vfs.walkWords, vfs_fsRoot, vfs_fsRoot, hfsRoot, hroot, Except.map, Except.map,
      mounted_finish hne hdevRoot.symm hunmounted]
  | cons first tail =>
    have hmem : first ∈ words slash rest := hwords ▸ List.mem_cons_self
    obtain ⟨hfirst, hfirstSlash⟩ := words_spec hmem
    obtain ⟨hdev, hdot⟩ := hpath first (by rw [hwords]; rfl)
    by_cases hlong : tokenSize ≤ first.length
    · rw [Vfs.walkWords, Vfs.walkWords, if_pos hlong, if_pos hlong]
      rfl
    have hclean : Clean first := by
      intro c hc
      refine ⟨fun hcdot => hdot (hcdot ▸ hc), fun hcslash => hfirstSlash ?_⟩
      exact hcslash ▸ List.mem_of_mem_head? hc
    rw [Vfs.walkWords_cons _ (by omega), Vfs.walkWords_cons _ (by omega),
      h.mounted_root devices hroot hne hdevRoot, vfs_fsRoot, hroot,
      descend_root h.root_ne_zero h.root]
    by_cases hzero : s.ramfsFinddir s.ramfsRoot first = 0
    · rw [if_pos hzero, if_pos hzero]
      rfl
    · rw [if_neg hzero, if_neg hzero]
      have hstart := h.root_finds hclean hfirstSlash (by omega) hzero
      exact h.walk_elsewhere devices hroot hne hlookup hfirst hdev hstart tail

end Lookup

-- The first device with a name, if the names are distinct.
theorem devfsFinddir_registered {devices : List (BitVec 64)}
    (hdistinct : (devices.map fun d => (s.nodes d).name).Nodup) {d : BitVec 64} (hd : d ∈ devices)
    (hdevices : s.devices = devices) : s.devfsFinddir (s.nodes d).name = d := by
  rw [devfsFinddir, hdevices]
  clear hdevices
  induction devices with
  | nil => cases hd
  | cons e rest ih =>
    rw [List.map_cons, List.nodup_cons] at hdistinct
    rcases List.mem_cons.mp hd with rfl | hd
    · rw [List.find?_cons_of_pos (by simp [devfsStrcmp_eq_zero_iff])]
      rfl
    · have hne : ¬devfsStrcmp (s.nodes e).name (s.nodes d).name = 0 := by
        rw [devfsStrcmp_eq_zero_iff]
        intro heq
        exact hdistinct.1 (List.mem_map.mpr ⟨d, hd, heq.symm⟩)
      rw [List.find?_cons_of_neg (by simpa using hne)]
      exact ih hdistinct.2 hd

theorem devfsFinddir_unknown {name : CString}
    (hname : name ∉ s.devices.map fun d => (s.nodes d).name) : s.devfsFinddir name = 0 := by
  have hnone : (s.devices.find? fun d => devfsStrcmp (s.nodes d).name name = 0) = none := by
    rw [List.find?_eq_none]
    intro d hd hequal
    rw [decide_eq_true_eq, devfsStrcmp_eq_zero_iff] at hequal
    exact hname (List.mem_map.mpr ⟨d, hd, hequal⟩)
  rw [devfsFinddir, hnone]
  rfl

-- A component for which the lookup has room.
def IsComponent (name : CString) : Prop := name ≠ [] ∧ slash ∉ name ∧ name.length < tokenSize

-- Nodes that can be registered: their names are distinct components.
structure Registrable (s : State) (devices : List (BitVec 64)) : Prop where
  ne_zero : ∀ d ∈ devices, d ≠ 0
  component : ∀ d ∈ devices, IsComponent (s.nodes d).name
  distinct : (devices.map fun d => (s.nodes d).name).Nodup

-- `t` is `s` with devfs mounted on /dev.
structure DevicesAppear (s t : State) (devices : List (BitVec 64)) : Prop where
  registered : ∀ d ∈ devices, ¬t.vfs.IsMountpoint d →
    t.vfsGetNodeByPath (devicePath (t.nodes d).name) = .ok d
  unknown : ∀ name, IsComponent name → name ∉ devices.map (fun d => (t.nodes d).name) →
    t.vfsGetNodeByPath (devicePath name) = .ok 0
  elsewhere : ∀ path : CString,
    (∀ first ∈ (words slash path).head?, first ≠ devName ∧ first.head? ≠ some dot) →
    t.vfsGetNodeByPath path = s.vfsGetNodeByPath path

theorem Planted.devicesAppear (h : Planted blocks s) (hroot : s.fsRoot = s.ramfsRoot)
    {dev : BitVec 64} (hne : dev ≠ 0) (hlookup : s.vfsGetNodeByPath devPath = .ok dev)
    {devices : List (BitVec 64)} (hdevices : Registrable (s.mounted dev devices) devices) :
    DevicesAppear s (s.mounted dev devices) devices where
  registered d hd hunmounted := by
    obtain ⟨hname, hslash, hlen⟩ := hdevices.component d hd
    have hfound := devfsFinddir_registered hdevices.distinct hd rfl
    rw [h.lookup_device devices hroot hne hlookup hname hslash hlen, hfound,
      Vfs.finish_of_not_mountpoint _ hunmounted]
  unknown name hname hother := by
    obtain ⟨hne', hslash, hlen⟩ := hname
    rw [h.lookup_device devices hroot hne hlookup hne' hslash hlen, devfsFinddir_unknown hother]
    rfl
  elsewhere _ hpath := h.lookup_elsewhere devices hroot hne hlookup hpath

-- Without a root nothing is found.
theorem lookup_without_root (hroot : s.fsRoot = 0) : s.vfsGetNodeByPath devPath = .ok 0 := by
  have hwords : words slash devName = [devName] := words_word (by decide) (by decide)
  rw [vfsGetNodeByPath, devPath, Vfs.vfsGetNodeByPath_eq, hwords, Vfs.lookupWords,
    Vfs.walkWords_cons _ (by decide), vfs_fsRoot, hroot, Vfs.descend_zero, if_pos rfl]
  rfl

theorem initDevfs_ready (hrun : s.initDevfs blocks = .ok s') :
    DevfsReady blocks s' ∧ s'.ramfsNodes = s.ramfsNodes ∧
      s'.devices = s.devices.map fun _ => 0 := by
  rw [initDevfs, kmalloc_eq] at hrun
  by_cases hroot : blocks s.kmallocs = 0
  · simp only [if_pos hroot] at hrun
    cases hrun
  simp only [if_neg hroot] at hrun
  cases hrun
  have hready : DevfsReady blocks
      { State.setNode { s with kmallocs := s.kmallocs + 1 } (blocks s.kmallocs) devfsNode with
        devfsRoot := blocks s.kmallocs
        devices := s.devices.map fun _ => 0 } :=
    ⟨hroot, Function.update_self _ _ _, s.kmallocs, Nat.lt_succ_self _, rfl⟩
  exact ⟨hready, rfl, rfl⟩

-- Whatever the archive holds: if /dev is found, then the registered nodes
-- appear in it and nothing else changes. They may be registered before
-- init_initramfs, before the mount and after it.
theorem devices_under_dev (hfresh : Fresh blocks) {m : Memory 64} {ramfsAddr : BitVec 64}
    {headers : List (BitVec 64)} (harchive : Archive m ramfsAddr headers) {fuel : Nat}
    (hfuel : headers.length + 100 ≤ fuel) {s₀ s₁ : State} (hnodes : s₀.ramfsNodes = [])
    (hnone : s₀.devices = []) (hdevfs : s₀.initDevfs blocks = .ok s₁)
    (early before after : List (BitVec 64))
    (hroom : (early ++ before ++ after).length ≤ MAX_DEVFS_DEVICES) :
    ∃ s₂, (s₁.registerAll early).initInitramfs blocks m fuel ramfsAddr = .ok s₂ ∧
      ∀ dev, dev ≠ 0 → (s₂.registerAll before).vfsGetNodeByPath devPath = .ok dev →
        ∀ t, t = ((s₂.registerAll before).vfsMount dev s₂.devfsRoot).registerAll after →
          Registrable t (early ++ before ++ after) →
          DevicesAppear (s₂.registerAll before) t (early ++ before ++ after) := by
  obtain ⟨hready, hnodes₁, hdevices₁⟩ := initDevfs_ready hdevfs
  rw [hnone, List.map_nil] at hdevices₁
  rw [List.append_assoc, List.length_append, List.length_append] at hroom
  have hearly : s₁.registerAll early = { s₁ with devices := early } := by
    rw [registerAll_eq (by rw [hdevices₁, List.length_nil]; omega), hdevices₁, List.nil_append]
  obtain ⟨s₂, hrun⟩ := initInitramfs_ok blocks harchive hfuel (s₁.registerAll early)
  refine ⟨s₂, hrun, ?_⟩
  rw [hearly] at hrun
  have hready' : DevfsReady blocks { s₁ with devices := early } :=
    ⟨hready.ne_zero, hready.node, hready.given⟩
  obtain ⟨hdevices₂, hplanted⟩ :=
    initInitramfs_planted (s := { s₁ with devices := early }) hfresh (hnodes₁.trans hnodes) hready' hrun
  have hdevices₂ : s₂.devices = early := hdevices₂
  have hbefore : s₂.registerAll before = { s₂ with devices := early ++ before } := by
    rw [registerAll_eq (by rw [hdevices₂]; omega), hdevices₂]
  rintro dev hne hlookup t rfl hdevices
  rw [hbefore] at hlookup hdevices ⊢
  have hfsRoot : s₂.fsRoot ≠ 0 := by
    intro hzero
    have hnull := lookup_without_root (s := { s₂ with devices := early ++ before }) hzero
    cases hlookup.symm.trans hnull
    exact hne rfl
  obtain ⟨hplanted, hroot⟩ := hplanted hfsRoot
  have hmounted : (vfsMount { s₂ with devices := early ++ before } dev s₂.devfsRoot).registerAll after =
      mounted { s₂ with devices := early ++ before } dev (early ++ before ++ after) := by
    have hsame : (vfsMount { s₂ with devices := early ++ before } dev s₂.devfsRoot).devices =
        early ++ before := by
      rw [vfsMount, if_neg hne]
      rfl
    rw [registerAll_eq (by rw [hsame, List.length_append]; omega), hsame]
    rfl
  rw [hmounted] at hdevices ⊢
  exact (hplanted.statics s₂.fsRoot (early ++ before)).devicesAppear hroot hne hlookup hdevices

section Sample

-- An archive with the one entry "dev/".
def sampleArchive : Memory 64 := fun a =>
  if a = 0x1000 then 0x64
  else if a = 0x1001 then 0x65
  else if a = 0x1002 then 0x76
  else if a = 0x1003 then 0x2F
  else if a = 0x109C then 0x35
  else 0

def sampleLetter : Char8 := ⟨0x6D, by decide⟩

def sampleName : CString := [sampleLetter]

-- Two character devices, of which the second is a mount point.
def sampleState : State where
  nodes p :=
    { VfsNode.zero with
      name := sampleName
      flags := if p = 0x300 then FS_CHARDEVICE ||| FS_MOUNTPOINT else FS_CHARDEVICE }
  kmallocs := 0
  fsRoot := 0
  ramfsNodes := []
  ramfsRoot := 0
  devfsRoot := 0
  devices := []

def sampleBlocks (n : Nat) : BitVec 64 := if n < 16 then BitVec.ofNat 64 (0x10000 + 0x100 * n) else 0

-- init_devfs, init_initramfs, the mount and one devfs_register.
def sampleMounted (device : BitVec 64) : Except Fault State := do
  let s ← sampleState.initDevfs sampleBlocks
  let s ← s.initInitramfs sampleBlocks sampleArchive 101 0x1000
  let dev ← s.vfsGetNodeByPath devPath
  return (s.vfsMount dev s.devfsRoot).devfsRegister device

theorem sampleBlocks_fresh : Fresh sampleBlocks := by
  intro i j hne heq
  rw [sampleBlocks] at hne
  rw [sampleBlocks, sampleBlocks] at heq
  split at hne
  · next hi =>
    rw [if_pos hi] at heq
    split at heq
    · next hj =>
      have hnat := congrArg BitVec.toNat heq
      rw [BitVec.toNat_ofNat, BitVec.toNat_ofNat] at hnat
      omega
    · exact absurd heq hne
  · exact absurd rfl hne

theorem sampleArchive_headers : Archive sampleArchive 0x1000 [0x1000] := by
  refine .entry (by decide) (fun _ => ⟨4, by decide, by decide⟩) (.zero ?_)
  decide +kernel

def sampleReady : State :=
  { sampleState.setNode 0x10000 devfsNode with kmallocs := 1, devfsRoot := 0x10000, devices := [] }

theorem sampleState_initDevfs : sampleState.initDevfs sampleBlocks = .ok sampleReady := rfl

theorem devices_under_dev_sample : ∃ s t,
    (sampleReady.registerAll []).initInitramfs sampleBlocks sampleArchive 101 0x1000 = .ok s ∧
      t = ((s.registerAll [0x200]).vfsMount 0x10200 s.devfsRoot).registerAll [] ∧
      DevicesAppear (s.registerAll [0x200]) t [0x200] := by
  obtain ⟨s, hrun, hall⟩ := devices_under_dev sampleBlocks_fresh sampleArchive_headers
    (by decide : [0x1000].length + 100 ≤ 101) (rfl : sampleState.ramfsNodes = []) rfl
    sampleState_initDevfs [] [0x200] [] (by decide)
  have hdev : ((sampleReady.registerAll []).initInitramfs sampleBlocks sampleArchive 101 0x1000).bind
      (fun s => (s.registerAll [0x200]).vfsGetNodeByPath devPath) = .ok 0x10200 := by
    decide +kernel
  have hname : ((sampleReady.registerAll []).initInitramfs sampleBlocks sampleArchive 101 0x1000).map
      (fun s => ((((s.registerAll [0x200]).vfsMount 0x10200 s.devfsRoot).registerAll []).nodes
        0x200).name) = .ok sampleName := by
    decide +kernel
  rw [hrun] at hdev hname
  have hname : ((((s.registerAll [0x200]).vfsMount 0x10200 s.devfsRoot).registerAll []).nodes
      0x200).name = sampleName := Except.ok.inj hname
  refine ⟨s, _, hrun, rfl, hall 0x10200 (by decide) hdev _ rfl ⟨?_, ?_, List.nodup_singleton _⟩⟩
  · intro d hd
    obtain rfl := List.mem_singleton.mp hd
    decide
  · intro d hd
    obtain rfl := List.mem_singleton.mp hd
    rw [hname]
    exact ⟨by decide, by decide, by decide⟩

-- A registered node that is a mount point is not what the lookup returns, and
-- the lookup has no room for a name of 128 characters.
theorem devices_under_dev_limits :
    (sampleState.nodes 0x300).name = sampleName ∧
      (sampleMounted 0x300).bind (fun t => t.vfsGetNodeByPath (devicePath sampleName)) = .ok 0 ∧
      (sampleMounted 0x200).bind (fun t =>
        t.vfsGetNodeByPath (devicePath (List.replicate 128 sampleLetter))) = .error .overrun := by
  refine ⟨rfl, ?_, ?_⟩
  · decide +kernel
  · decide +kernel

end Sample

end State

end Miyabi.Fs
