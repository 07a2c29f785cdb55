import Miyabi.Fs.Initramfs.Bounds

namespace Miyabi.Fs

open Miyabi.Base

-- The path under which ramfs_finddir searches for `token` in the directory `dir`.
def joinPath (dir token : CString) : CString :=
  if dir = [] then sanitizePath token else dir ++ slash :: token

-- The path under which the node of a looked-up path is searched.
def searchKey (path : CString) : CString := (words slash path).foldl joinPath []

-- Without its last slash.
def trimSlash (path : CString) : CString :=
  if path.getLast? = some slash then path.dropLast else path

-- Without the "./" or "/" at the front.
def trimFront : CString → CString
  | c :: d :: rest =>
      if c = dot ∧ d = slash then rest else if c = slash then d :: rest else c :: d :: rest
  | [c] => if c = slash then [] else [c]
  | [] => []

def normal (path : CString) : CString := trimSlash (trimFront path)

-- A path as it is searched for.
structure IsKey (path : CString) : Prop where
  clean : Clean path
  last : path.getLast? ≠ some slash

theorem isKey_nil : IsKey [] := ⟨fun _ hc => (nomatch hc), fun h => (nomatch h)⟩

theorem tarMatchName_sanitize (name path : CString) :
    tarMatchName name (sanitizePath path) = tarMatchName name path := by
  rw [tarMatchName, tarMatchName, sanitizePath_of_clean (sanitizePath_clean path)]

theorem sanitizePath_suffix (path : CString) : sanitizePath path <:+ path :=
  List.dropWhile_suffix _

theorem last_ne_slash {word : CString} (hslash : slash ∉ word) : word.getLast? ≠ some slash :=
  fun hlast => hslash (List.mem_of_getLast? hlast)

theorem IsKey.join {dir token : CString} (h : IsKey dir) (hne : token ≠ []) (hslash : slash ∉ token) :
    IsKey (joinPath dir token) := by
  rw [joinPath]
  by_cases hdir : dir = []
  · rw [if_pos hdir]
    exact ⟨sanitizePath_clean token,
      last_ne_slash fun hmem => hslash ((sanitizePath_suffix token).mem hmem)⟩
  · rw [if_neg hdir]
    refine ⟨h.clean.append hdir _, ?_⟩
    have htoken : slash :: token ≠ [] := List.cons_ne_nil _ _
    rw [List.getLast?_append_of_ne_nil _ htoken, List.getLast?_cons_of_ne_nil hne]
    exact last_ne_slash hslash

theorem isKey_foldl {tokens : List CString} (htokens : ∀ w ∈ tokens, w ≠ [] ∧ slash ∉ w) :
    ∀ {dir : CString}, IsKey dir → IsKey (tokens.foldl joinPath dir) := by
  induction tokens with
  | nil => exact fun h => h
  | cons token tokens ih =>
    intro dir h
    obtain ⟨hne, hslash⟩ := htokens token List.mem_cons_self
    exact ih (fun w hw => htokens w (List.mem_cons_of_mem _ hw)) (h.join hne hslash)

theorem searchKey_isKey (path : CString) : IsKey (searchKey path) :=
  isKey_foldl (fun _ hw => words_spec hw) isKey_nil

-- The names that a key matches are the key and the key with a slash.
theorem match_key {name path : CString} (hname : Clean name) (h : IsKey path) :
    tarMatchName name path = true ↔ name = path ∨ name = path ++ [slash] := by
  rw [tarMatchName_clean hname h.clean, matchClean_iff]
  constructor
  · rintro (heq | heq | heq)
    · exact Or.inl heq
    · exact Or.inr heq
    · have hlast := h.last
      rw [heq, List.getLast?_concat] at hlast
      exact absurd rfl hlast
  · rintro (heq | heq)
    · exact Or.inl heq
    · exact Or.inr (Or.inl heq)

-- A name belongs to one key only, which is the name without its last slash.
theorem trimSlash_of_match {name path : CString} (hname : Clean name) (h : IsKey path)
    (hmatch : tarMatchName name path = true) : trimSlash name = path := by
  rcases (match_key hname h).mp hmatch with rfl | rfl
  · exact if_neg h.last
  · rw [trimSlash, if_pos List.getLast?_concat, List.dropLast_concat]

namespace State

variable {blocks : Nat → BitVec 64} {m : Memory 64} {fuel : ℕ} {s s' : State}

-- The root lies in a block of its own beside the nodes of the table.
structure Rooted (blocks : Nat → BitVec 64) (s : State) : Prop where
  tabled : Tabled blocks s
  root : s.nodes s.ramfsRoot = dirNode [slash]
  root_ne_zero : s.ramfsRoot ≠ 0
  root_given : ∃ i < s.kmallocs, blocks i = s.ramfsRoot
  apart : ∀ p ∈ s.ramfsNodes, p ≠ s.ramfsRoot

theorem rooted_kept (hfresh : Fresh blocks) : Kept blocks (Rooted blocks) where
  kmalloc s h := ⟨h.tabled.kmalloc, h.root, h.root_ne_zero, given_succ h.root_given, h.apart⟩
  plant s node h hnode hblock := by
    have hroot := given_ne_next hfresh h.root_given h.root_ne_zero
    constructor
    case tabled => exact h.tabled.plant hfresh hnode hblock
    case root => exact (plant_nodes_of_ne hroot).trans h.root
    case root_ne_zero => exact h.root_ne_zero
    case root_given => exact given_succ h.root_given
    case apart =>
      intro p hp
      rcases List.mem_append.mp hp with hp | hp
      · exact h.apart p hp
      · rw [List.mem_singleton.mp hp]
        exact hroot.symm

theorem loopStart_rooted (hroot : blocks s.kmallocs ≠ 0) (hnone : s.ramfsNodes = []) :
    Rooted blocks (loopStart blocks s) where
  tabled := loopStart_tabled hnone
  root := Function.update_self _ _ _
  root_ne_zero := hroot
  root_given := ⟨s.kmallocs, Nat.lt_succ_self _, rfl⟩
  apart p hp := by
    rw [loopStart_nodes hnone] at hp
    cases hp

theorem ramfsFind_sanitize (s : State) (path : CString) :
    s.ramfsFind (sanitizePath path) = s.ramfsFind path := by
  simp only [ramfsFind, tarMatchName_sanitize]

theorem ramfsFind_some {path : CString} {p : BitVec 64} (h : s.ramfsFind path = some p) :
    p ∈ s.ramfsNodes ∧ p ≠ 0 ∧ tarMatchName (s.nodes p).name path = true := by
  have hfound := List.find?_some h
  rw [Bool.and_eq_true, decide_eq_true_eq] at hfound
  exact ⟨List.mem_of_find?_eq_some h, hfound.1, hfound.2⟩

-- In the root directory.
theorem root_search (s : State) {token : CString} (htoken : token.length < tokenSize) :
    s.ramfsFinddir s.ramfsRoot token = (s.ramfsFind (joinPath [] token)).getD 0 := by
  have hfront : s.ramfsPrefix s.ramfsRoot = [] := if_pos rfl
  have hlen : token.length ≤ pathSize - 1 - ([] : CString).length := by
    have h128 : tokenSize ≤ pathSize - 1 - ([] : CString).length := by decide
    omega
  rw [ramfsFinddir, hfront, List.take_of_length_le hlen, List.nil_append, joinPath, if_pos rfl,
    ramfsFind_sanitize]

-- The walk is at the root or at the node found under `dir`.
def At (s : State) (dir : CString) (p : BitVec 64) : Prop :=
  p = s.ramfsRoot ∧ dir = [] ∨ s.ramfsFind dir = some p

section Walk

variable (h : Rooted blocks s)

include h

-- In a directory that was found under `dir`.
theorem Rooted.node_search {token : CString} (htoken : token.length < tokenSize) {dir : CString}
    (hkey : IsKey dir) {p : BitVec 64} (hp : s.ramfsFind dir = some p) :
    s.ramfsFinddir p token = (s.ramfsFind (joinPath dir token)).getD 0 := by
  obtain ⟨hmem, -, hmatch⟩ := ramfsFind_some hp
  obtain ⟨-, hram, -⟩ := h.tabled p hmem
  have hname := (match_key hram.clean hkey).mp hmatch
  have hshort : (s.nodes p).name.length < VfsNode.nameSize := hram.short
  have h128 : VfsNode.nameSize = 128 ∧ tokenSize = 128 ∧ pathSize = 256 := ⟨rfl, rfl, rfl⟩
  have htake : (s.nodes p).name.take (pathSize - 1) = (s.nodes p).name :=
    List.take_of_length_le (by omega)
  have hfront : s.ramfsPrefix p = if dir = [] then [] else dir ++ [slash] := by
    rw [ramfsPrefix, if_neg (h.apart p hmem)]
    simp only [htake]
    by_cases hdir : dir = []
    · subst hdir
      have hnil : (s.nodes p).name = [] := by
        rcases hname with hname | hname
        · exact hname
        · have hclean := hram.clean
          rw [hname] at hclean
          exact absurd rfl (hclean slash rfl).2
      rw [hnil, if_pos rfl, if_neg]
      exact fun hnot => hnot.1 rfl
    · rw [if_neg hdir]
      rcases hname with hname | hname
      · rw [hname, if_pos ⟨hdir, hkey.last⟩]
      · rw [hname, if_neg]
        exact fun hnot => hnot.2 List.getLast?_concat
  have hdirLen : dir.length < VfsNode.nameSize := by
    rcases hname with hname | hname
    · rwa [hname] at hshort
    · rw [hname, List.length_append] at hshort
      omega
  rw [ramfsFinddir, hfront, joinPath]
  by_cases hdir : dir = []
  · have hlen : token.length ≤ pathSize - 1 - ([] : CString).length := by
      rw [List.length_nil]
      omega
    rw [if_pos hdir, if_pos hdir, List.take_of_length_le hlen, List.nil_append, ramfsFind_sanitize]
  · have hlen : token.length ≤ pathSize - 1 - (dir ++ [slash]).length := by
      rw [List.length_append, List.length_singleton]
      omega
    rw [if_neg hdir, if_neg hdir, List.take_of_length_le hlen, List.append_assoc,
      List.singleton_append]

theorem Rooted.descend {token : CString} (htoken : token.length < tokenSize) {dir : CString}
    (hkey : IsKey dir) {p : BitVec 64} (hp : s.At dir p) (hfound : s.vfs.descend p token ≠ 0) :
    s.ramfsFind (joinPath dir token) = some (s.vfs.descend p token) := by
  have hsearch : s.vfs.descend p token = (s.ramfsFind (joinPath dir token)).getD 0 := by
    rcases hp with ⟨rfl, rfl⟩ | hp
    · rw [descend_root h.root_ne_zero h.root, root_search s htoken]
    · obtain ⟨hmem, hne, -⟩ := ramfsFind_some hp
      obtain ⟨-, hram, -⟩ := h.tabled p hmem
      rw [descend_ramfs hne hram.finddir hram.unmounted, h.node_search htoken hkey hp] at hfound ⊢
      rw [if_neg fun hnot => hfound (if_pos hnot)]
  rw [hsearch] at hfound ⊢
  cases hfind : s.ramfsFind (joinPath dir token) with
  | none =>
    rw [hfind] at hfound
    exact absurd rfl hfound
  | some q => rfl

-- A walk ends where it starts or at the node found under the joined path.
theorem Rooted.walk {tokens : List CString} (htokens : ∀ w ∈ tokens, w ≠ [] ∧ slash ∉ w) :
    ∀ {dir : CString} {p last : BitVec 64}, IsKey dir → s.At dir p →
      s.vfs.walkWords p tokens = .ok last → last ≠ 0 →
      tokens = [] ∧ last = p ∨ tokens ≠ [] ∧ s.ramfsFind (tokens.foldl joinPath dir) = some last := by
  induction tokens with
  | nil =>
    intro dir p last _ _ hwalk _
    cases hwalk
    exact Or.inl ⟨rfl, rfl⟩
  | cons token tokens ih =>
    intro dir p last hkey hp hwalk hne
    obtain ⟨htokenNe, hslash⟩ := htokens token List.mem_cons_self
    refine Or.inr ⟨List.cons_ne_nil _ _, ?_⟩
    by_cases hlen : tokenSize ≤ token.length
    · rw [Vfs.walkWords, if_pos hlen] at hwalk
      cases hwalk
    rw [Vfs.walkWords_cons _ (Nat.lt_of_not_le hlen)] at hwalk
    by_cases hzero : s.vfs.descend p token = 0
    · rw [if_pos hzero] at hwalk
      cases hwalk
      exact absurd rfl hne
    rw [if_neg hzero] at hwalk
    have hnext := h.descend (Nat.lt_of_not_le hlen) hkey hp hzero
    have hrest := ih (fun w hw => htokens w (List.mem_cons_of_mem _ hw))
      (hkey.join htokenNe hslash) (Or.inr hnext) hwalk hne
    rw [List.foldl_cons]
    rcases hrest with ⟨rfl, rfl⟩ | ⟨-, hfind⟩
    · exact hnext
    · exact hfind

end Walk

-- What a path is searched under, unless it is that of the root.
def lookupKey (path : CString) : Option CString :=
  if words slash path = [] then none else some (searchKey path)

theorem Rooted.lookup (h : Rooted blocks s) (hfs : s.fsRoot = s.ramfsRoot) {path : CString}
    {p : BitVec 64} (hlookup : s.vfsGetNodeByPath (slash :: path) = .ok p) (hne : p ≠ 0) :
    lookupKey path = none ∧ p = s.ramfsRoot ∨
      lookupKey path = some (searchKey path) ∧ s.ramfsFind (searchKey path) = some p := by
  rw [vfsGetNodeByPath, Vfs.vfsGetNodeByPath_eq, Vfs.lookupWords] at hlookup
  cases hwalk : s.vfs.walkWords s.vfs.fsRoot (words slash path) with
  | error fault =>
    rw [hwalk] at hlookup
    cases hlookup
  | ok last =>
    rw [hwalk] at hlookup
    have hlookup : s.vfs.finish last = p := Except.ok.inj hlookup
    have hlast : last ≠ 0 := by
      rintro rfl
      exact hne hlookup.symm
    have hstart : s.At [] s.vfs.fsRoot := Or.inl ⟨hfs, rfl⟩
    have hend := h.walk (fun _ hw => words_spec hw) isKey_nil hstart hwalk hlast
    have hunmounted : (s.nodes last).flags &&& FS_MOUNTPOINT = 0 := by
      rcases hend with ⟨-, rfl⟩ | ⟨-, hfind⟩
      · rw [vfs_fsRoot, hfs, h.root]
        exact directory_not_mountpoint
      · exact (h.tabled last (ramfsFind_some hfind).1).2.1.unmounted
    rw [Vfs.finish_of_not_mountpoint _ fun hmount => hmount hunmounted] at hlookup
    subst hlookup
    rcases hend with ⟨hnil, hroot⟩ | ⟨hwords, hfind⟩
    · exact Or.inl ⟨if_pos hnil, hroot.trans hfs⟩
    · exact Or.inr ⟨if_neg hwords, hfind⟩

-- A node is found under one key only.
theorem Rooted.find_injective (h : Rooted blocks s) {a b : CString} (ha : IsKey a) (hb : IsKey b)
    {p : BitVec 64} (hfindA : s.ramfsFind a = some p) (hfindB : s.ramfsFind b = some p) : a = b := by
  obtain ⟨hmem, -, hmatchA⟩ := ramfsFind_some hfindA
  obtain ⟨-, -, hmatchB⟩ := ramfsFind_some hfindB
  have hclean := (h.tabled p hmem).2.1.clean
  exact (trimSlash_of_match hclean ha hmatchA).symm.trans (trimSlash_of_match hclean hb hmatchB)

-- Two paths lead to the same node if and only if they are searched under the same key.
theorem Rooted.same_node_iff (h : Rooted blocks s) (hfs : s.fsRoot = s.ramfsRoot)
    {a b : CString} {p q : BitVec 64} (ha : s.vfsGetNodeByPath (slash :: a) = .ok p)
    (hb : s.vfsGetNodeByPath (slash :: b) = .ok q) (hp : p ≠ 0) (hq : q ≠ 0) :
    p = q ↔ lookupKey a = lookupKey b := by
  rcases h.lookup hfs ha hp with ⟨hkeyA, rfl⟩ | ⟨hkeyA, hfindA⟩
  · rcases h.lookup hfs hb hq with ⟨hkeyB, rfl⟩ | ⟨hkeyB, hfindB⟩
    · rw [hkeyA, hkeyB]
      exact iff_of_true rfl rfl
    · rw [hkeyA, hkeyB]
      refine iff_of_false (fun heq => ?_) (fun heq => nomatch heq)
      exact h.apart q (ramfsFind_some hfindB).1 heq.symm
  · rcases h.lookup hfs hb hq with ⟨hkeyB, rfl⟩ | ⟨hkeyB, hfindB⟩
    · rw [hkeyA, hkeyB]
      refine iff_of_false (fun heq => ?_) (fun heq => nomatch heq)
      exact h.apart p (ramfsFind_some hfindA).1 heq
    · rw [hkeyA, hkeyB, Option.some.injEq]
      constructor
      · rintro rfl
        exact h.find_injective (searchKey_isKey a) (searchKey_isKey b) hfindA hfindB
      · intro heq
        rw [heq, hfindB] at hfindA
        exact (Option.some.inj hfindA).symm

-- Without a root nothing is found.
theorem lookup_rootless (hfs : s.fsRoot = 0) {path : CString} {p : BitVec 64}
    (hlookup : s.vfsGetNodeByPath (slash :: path) = .ok p) : p = 0 := by
  rw [vfsGetNodeByPath, Vfs.vfsGetNodeByPath_eq, Vfs.lookupWords, vfs_fsRoot, hfs] at hlookup
  cases hwords : words slash path with
  | nil =>
    rw [hwords] at hlookup
    cases hlookup
    rfl
  | cons token rest =>
    rw [hwords] at hlookup
    by_cases hlen : tokenSize ≤ token.length
    · rw [Vfs.walkWords, if_pos hlen] at hlookup
      cases hlookup
    · rw [Vfs.walkWords_cons _ (Nat.lt_of_not_le hlen), if_pos (Vfs.descend_zero _ token)] at hlookup
      cases hlookup
      rfl

-- The node `n` is made from the entry `filename`.
def MadeFrom (blocks : Nat → BitVec 64) (m : Memory 64) (fuel : ℕ) (s : State)
    (ramfsAddr : BitVec 64) (filename : CString) (n : BitVec 64) : Prop :=
  ∃ header s₁ s₂ s₃, AtTurn blocks m fuel s ramfsAddr (header, s₁) ∧
    Entry blocks m fuel header filename s₁ s₂ s₃ ∧ blocks s₂.kmallocs = n

-- A node keeps its name.
theorem name_kept (hfresh : Fresh blocks) (n : BitVec 64) (name : CString) :
    Kept blocks fun s => Tabled blocks s ∧ n ∈ s.ramfsNodes ∧ (s.nodes n).name = name where
  kmalloc _ h := ⟨h.1.kmalloc, h.2⟩
  plant s node h hnode hblock := by
    obtain ⟨htabled, hmem, hname⟩ := h
    obtain ⟨hne, -, hgiven⟩ := htabled n hmem
    refine ⟨htabled.plant hfresh hnode hblock, List.mem_append_left _ hmem, ?_⟩
    rw [plant_nodes_of_ne (given_ne_next hfresh hgiven hne)]
    exact hname

section Run

variable (hfresh : Fresh blocks) (hnone : s.ramfsNodes = []) {ramfsAddr : BitVec 64}
  (hrun : s.initInitramfs blocks m fuel ramfsAddr = .ok s')

include hfresh hnone hrun

theorem initInitramfs_rooted (hroot : blocks s.kmallocs ≠ 0) :
    Rooted blocks s' ∧ s'.fsRoot = s'.ramfsRoot := by
  obtain ⟨s₁, hentries, rfl⟩ := initInitramfs_run hroot hrun
  have hrooted := (rooted_kept hfresh).entriesFrom (loopStart_rooted hroot hnone) hentries
  have hframe := (frame_kept (loopStart blocks s)).entriesFrom ⟨rfl, rfl, rfl⟩ hentries
  exact ⟨⟨hrooted.tabled, hrooted.root, hrooted.root_ne_zero, hrooted.root_given, hrooted.apart⟩,
    hframe.1.symm⟩

theorem madeFrom_name {filename : CString} {n : BitVec 64}
    (hmade : MadeFrom blocks m fuel s ramfsAddr filename n) :
    n ∈ s'.ramfsNodes ∧ (s'.nodes n).name = stored (sanitizePath filename) := by
  obtain ⟨header, s₁, s₂, s₃, ⟨hroot, hreach⟩, hentry, rfl⟩ := hmade
  have htabled := (tabled_kept hfresh).reaches (loopStart_tabled hnone) hreach
  have htabled₂ := (tabled_kept hfresh).ensureParentDirsExist htabled hentry.ensure
  have hturn := turn_entry hentry.ne_zero hentry.entry hentry.name hentry.ensure hentry.add
  obtain ⟨-, hblock, rfl⟩ := addNode_made hentry.add
  have hnode := entryNode_isRamfs m header (sanitizePath_clean filename)
  have hname : ((s₂.plant blocks (entryNode m header (sanitizePath filename))).nodes
      (blocks s₂.kmallocs)).name = stored (sanitizePath filename) := by
    rw [plant_nodes_self, entryNode_name]
  have hmade : blocks s₂.kmallocs ∈ s₂.ramfsNodes ++ [blocks s₂.kmallocs] :=
    List.mem_append_right _ (List.mem_singleton_self _)
  obtain ⟨s₄, hentries, rfl⟩ := initInitramfs_run hroot hrun
  rw [entriesFrom_eq_loop] at hentries
  obtain ⟨⟨last, s₅⟩, hlast, hend⟩ := loop_reaches
    (show loop (turn blocks m fuel) (.error .endless) fuel (ramfsAddr, loopStart blocks s) ≠
      .error .endless from hentries ▸ fun h => nomatch h)
  rw [hentries] at hend
  have hrest := Reaches.to_end (hreach.tail hturn) hlast hend
  have hkept := name_kept hfresh (blocks s₂.kmallocs) (stored (sanitizePath filename))
  have hlater := hkept.reaches ⟨htabled₂.plant hfresh hnode hblock, hmade, hname⟩ hrest
  obtain ⟨-, hmem, hname'⟩ := hkept.done hlater hend
  exact ⟨hmem, hname'⟩

end Run

-- Lookups tell files apart if and only if the paths that are searched under the same key are
-- equal in the normal form, and so do the names of the nodes that lookups find.
theorem lookup_distinct_iff (hfresh : Fresh blocks) (hnone : s.ramfsNodes = [])
    {ramfsAddr : BitVec 64} (hrun : s.initInitramfs blocks m fuel ramfsAddr = .ok s')
    {a b : CString} {p q : BitVec 64} (ha : s'.vfsGetNodeByPath (slash :: a) = .ok p)
    (hb : s'.vfsGetNodeByPath (slash :: b) = .ok q) (hp : p ≠ 0) (hq : q ≠ 0) :
    ((normal a ≠ normal b → p ≠ q) ↔ (lookupKey a = lookupKey b → normal a = normal b)) ∧
    ∀ filename n, MadeFrom blocks m fuel s ramfsAddr filename n →
      let name := trimSlash (stored (sanitizePath filename))
      (p = n → normal filename = normal a) ↔
        (lookupKey a = some name → s'.ramfsFind name = some n → normal filename = normal a) := by
  have hroot : blocks s.kmallocs ≠ 0 := by
    intro hnull
    rw [initInitramfs_null hnull] at hrun
    cases hrun
    exact hp (lookup_rootless rfl ha)
  obtain ⟨hrooted, hfs⟩ := initInitramfs_rooted hfresh hnone hrun hroot
  refine ⟨?_, fun filename n hmade => ?_⟩
  · rw [← hrooted.same_node_iff hfs ha hb hp hq]
    exact not_imp_not
  · obtain ⟨hmem, hname⟩ := madeFrom_name hfresh hnone hrun hmade
    have hfound : p = n ↔
        lookupKey a = some (trimSlash (stored (sanitizePath filename))) ∧
          s'.ramfsFind (trimSlash (stored (sanitizePath filename))) = some n := by
      rcases hrooted.lookup hfs ha hp with ⟨hkey, rfl⟩ | ⟨hkey, hfind⟩
      · rw [hkey]
        refine iff_of_false (fun heq => ?_) (fun hnot => nomatch hnot.1)
        exact hrooted.apart n hmem heq.symm
      · rw [hkey, Option.some.injEq]
        constructor
        · rintro rfl
          have hmatch := (ramfsFind_some hfind).2.2
          have hclean := (hrooted.tabled p hmem).2.1.clean
          rw [← hname, trimSlash_of_match hclean (searchKey_isKey a) hmatch]
          exact ⟨rfl, hfind⟩
        · rintro ⟨heq, hfind'⟩
          rw [heq, hfind'] at hfind
          exact (Option.some.inj hfind).symm
    rw [hfound, and_imp]

-- Two files, with a name of two characters and one of one.
def twoFiles (c d e : BitVec 8) : Memory 64 := fun a =>
  if a = 0x1000 then c
  else if a = 0x1001 then d
  else if a = 0x1200 then e
  else 0

def initTwoFiles (c d e : BitVec 8) : Except Fault State :=
  sampleState.initInitramfs sampleBlocks (twoFiles c d e) 102 0x1000

-- "ab" and "a".
theorem lookup_distinct_files : ∃ s' p q, initTwoFiles 0x61 0x62 0x61 = .ok s' ∧
    s'.vfsGetNodeByPath (slash :: chars [0x61, 0x62]) = .ok p ∧
    s'.vfsGetNodeByPath (slash :: chars [0x61]) = .ok q ∧ p ≠ q := by
  have hlong : (initTwoFiles 0x61 0x62 0x61).bind
      (fun s => s.vfsGetNodeByPath (slash :: chars [0x61, 0x62])) = .ok 0x10100 := by
    decide +kernel
  have hshort : (initTwoFiles 0x61 0x62 0x61).bind
      (fun s => s.vfsGetNodeByPath (slash :: chars [0x61])) = .ok 0x10200 := by
    decide +kernel
  have hkeys : lookupKey (chars [0x61, 0x62]) ≠ lookupKey (chars [0x61]) := by decide +kernel
  have hnormal : normal (chars [0x61, 0x62]) ≠ normal (chars [0x61]) := by decide +kernel
  cases hrun : initTwoFiles 0x61 0x62 0x61 with
  | error fault =>
    rw [hrun] at hlong
    cases hlong
  | ok s' =>
    rw [hrun] at hlong hshort
    have hiff := (lookup_distinct_iff sampleBlocks_fresh (rfl : sampleState.ramfsNodes = []) hrun
      hlong hshort (by decide) (by decide)).1
    exact ⟨s', 0x10100, 0x10200, rfl, hlong, hshort,
      hiff.mpr (fun heq => absurd heq hkeys) hnormal⟩

-- ".a" and "a" are both found at the first of the two nodes.
theorem lookup_dot_files : ∃ s', initTwoFiles 0x2E 0x61 0x61 = .ok s' ∧
    cString (twoFiles 0x2E 0x61 0x61) 102 0x1000 = .ok (chars [0x2E, 0x61]) ∧
    cString (twoFiles 0x2E 0x61 0x61) 102 0x1200 = .ok (chars [0x61]) ∧
    normal (chars [0x2E, 0x61]) ≠ normal (chars [0x61]) ∧
    s'.ramfsNodes = [0x10100, 0x10200] ∧
    s'.vfsGetNodeByPath (slash :: chars [0x2E, 0x61]) = .ok 0x10100 ∧
    s'.vfsGetNodeByPath (slash :: chars [0x61]) = .ok 0x10100 := by
  have hnodes : (initTwoFiles 0x2E 0x61 0x61).map (fun s => s.ramfsNodes) =
      .ok [0x10100, 0x10200] := by
    decide +kernel
  have hdot : (initTwoFiles 0x2E 0x61 0x61).bind
      (fun s => s.vfsGetNodeByPath (slash :: chars [0x2E, 0x61])) = .ok 0x10100 := by
    decide +kernel
  have hplain : (initTwoFiles 0x2E 0x61 0x61).bind
      (fun s => s.vfsGetNodeByPath (slash :: chars [0x61])) = .ok 0x10100 := by
    decide +kernel
  have hfirst : cString (twoFiles 0x2E 0x61 0x61) 102 0x1000 = .ok (chars [0x2E, 0x61]) := by
    decide +kernel
  have hsecond : cString (twoFiles 0x2E 0x61 0x61) 102 0x1200 = .ok (chars [0x61]) := by
    decide +kernel
  have hnormal : normal (chars [0x2E, 0x61]) ≠ normal (chars [0x61]) := by decide +kernel
  cases hrun : initTwoFiles 0x2E 0x61 0x61 with
  | error fault =>
    rw [hrun] at hdot
    cases hdot
  | ok s' =>
    rw [hrun] at hnodes hdot hplain
    exact ⟨s', rfl, hfirst, hsecond, hnormal, Except.ok.inj hnodes, hdot, hplain⟩

end State

end Miyabi.Fs
