import Miyabi.Fs.Initramfs.Bounds

namespace Miyabi.Fs

open Miyabi.Base Miyabi.Base.Memory

variable {m : Memory 64}

-- What sanitize_path reads from `a` on.
def sanitizeReads (m : Memory 64) : Nat → BitVec 64 → List (BitVec 64)
  | 0, _ => []
  | fuel + 1, a =>
      a :: if m a = dot.val ∨ m a = slash.val then sanitizeReads m fuel (a + 1) else []

-- What oct2bin reads of the size field: the blanks, the digits and one byte more.
def sizeReads (m : Memory 64) (header : BitVec 64) : List (BitVec 64) :=
  let blank := (sizeField m header).takeWhile fun c => c = 0x20 ∨ c = 0
  let rest := (sizeField m header).dropWhile fun c => c = 0x20 ∨ c = 0
  let digits := rest.takeWhile fun c => 0x30 ≤ c ∧ c ≤ 0x37
  (List.range (min 11 (blank.length + digits.length + 1))).map fun i =>
    header + 124 + BitVec.ofNat 64 i

def bytesFrom (a : BitVec 64) (n : Nat) : List (BitVec 64) :=
  (List.range n).map fun i => a + BitVec.ofNat 64 i

namespace State

variable (blocks : Nat → BitVec 64)

-- How many characters the loop of ensure_parent_dirs_exist looks at.
def ensureReads (s : State) (dirPath : CString) : CString → Nat
  | [] => 1
  | c :: rest =>
      if pathSize ≤ dirPath.length then 1
      else if c = slash ∧ s.ramfsFind dirPath = none ∧ dirPath ≠ [] then
        match s.addNode blocks (dirNode dirPath) with
        | (false, _) => 1
        | (true, s) =>
            if VfsNode.nameSize ≤ dirPath.length then 1
            else s.ensureReads (dirPath ++ [c]) rest + 1
      else s.ensureReads (dirPath ++ [c]) rest + 1

variable (m : Memory 64)

-- How many characters of the filename a turn looks at: those that are
-- sanitized away, those of ensure_parent_dirs_exist and those of the copy.
def filenameReads (s : State) (header : BitVec 64) (filename : CString) : Nat :=
  let clean := sanitizePath filename
  let skipped := filename.length - clean.length
  let ensure := skipped + s.ensureReads blocks [] clean
  match s.ensureParentDirsExist blocks clean with
  | .error _ => ensure
  | .ok s =>
      match s.addNode blocks (entryNode m header clean) with
      | (false, _) => ensure
      | (true, _) => max ensure (skipped + min clean.length 99 + 1)

-- The addresses that a turn reads. A string without an end is read as far as
-- the fuel goes.
def turnReads (fuel : Nat) : BitVec 64 × State → List (BitVec 64)
  | (header, s) =>
      if m header = 0 then [header]
      else
        header :: (header + 156) :: sizeReads m header ++
          if IsExtension m header then sanitizeReads m fuel header
          else
            match cString m fuel header with
            | .error _ => bytesFrom header fuel
            | .ok filename => bytesFrom header (s.filenameReads blocks m header filename)

end State

-- The size field has eleven octal digits at most.
theorem octal_lt {digits : List (BitVec 8)} (hdigits : ∀ c ∈ digits, 0x30 ≤ c ∧ c ≤ 0x37) :
    ∀ {n : BitVec 64} {k : Nat}, n.toNat < 8 ^ k → k + digits.length ≤ 21 →
      (digits.foldl (fun (n : BitVec 64) c => (n <<< 3) + (c - 0x30).setWidth 64) n).toNat <
        8 ^ (k + digits.length) := by
  induction digits with
  | nil => exact fun hn _ => hn
  | cons c digits ih =>
    intro n k hn hk
    rw [List.length_cons] at hk ⊢
    obtain ⟨hlo, hhi⟩ := hdigits c List.mem_cons_self
    have hc : (c - 0x30).toNat ≤ 7 := by
      rw [BitVec.le_def] at hlo hhi
      rw [BitVec.toNat_sub_of_le (BitVec.le_def.mpr hlo)]
      have h30 : (0x30 : BitVec 8).toNat = 48 := rfl
      have h37 : (0x37 : BitVec 8).toNat = 55 := rfl
      omega
    have hpow : 8 ^ (k + 1) ≤ 8 ^ 21 := Nat.pow_le_pow_right (by decide) (by omega)
    have hstep : ((n <<< 3) + (c - 0x30).setWidth 64).toNat < 8 ^ (k + 1) := by
      rw [pow_succ] at hpow ⊢
      rw [BitVec.toNat_add, BitVec.toNat_shiftLeft, BitVec.toNat_setWidth, Nat.shiftLeft_eq]
      omega
    have hrest := ih (fun d hd => hdigits d (List.mem_cons_of_mem _ hd)) hstep (by omega)
    rw [List.foldl_cons]
    have hassoc : k + 1 + digits.length = k + (digits.length + 1) := by omega
    rwa [hassoc] at hrest

theorem entrySize_lt (m : Memory 64) (header : BitVec 64) :
    (entrySize m header).toNat < 2 ^ 33 := by
  have hfield : (sizeField m header).length = 11 := by simp [sizeField]
  generalize hrest : (sizeField m header).dropWhile (fun c => c = 0x20 ∨ c = 0) = rest
  have hlen : rest.length ≤ 11 := by
    rw [← hfield, ← hrest]
    exact (List.dropWhile_sublist _).length_le
  have htake : (rest.takeWhile fun c => 0x30 ≤ c ∧ c ≤ 0x37).length ≤ rest.length :=
    (List.takeWhile_sublist _).length_le
  have hdigits : ∀ c ∈ rest.takeWhile (fun c => 0x30 ≤ c ∧ c ≤ 0x37), 0x30 ≤ c ∧ c ≤ 0x37 := by
    intro c hc
    simpa using List.mem_takeWhile_imp hc
  have h0 : (0 : BitVec 64).toNat < 8 ^ 0 := by decide
  have hlt := octal_lt hdigits h0 (by omega)
  have hpow : 8 ^ (0 + (rest.takeWhile fun c => 0x30 ≤ c ∧ c ≤ 0x37).length) ≤ 8 ^ 11 :=
    Nat.pow_le_pow_right (by decide) (by omega)
  rw [entrySize, oct2bin, hrest]
  exact hlt.trans_le hpow

-- The header after one lies behind its data.
theorem nextHeader_eq (m : Memory 64) (header : BitVec 64) :
    ∃ k, (entrySize m header).toNat ≤ k ∧ k < 2 ^ 34 ∧
      nextHeader m header = header + BitVec.ofNat 64 (512 + k) := by
  have hsize := entrySize_lt m header
  let rounded : BitVec 64 :=
    (entrySize m header / 512 + (if entrySize m header % 512 = 0 then 0 else 1)) * 512
  have h512 : (512 : BitVec 64).toNat = 512 := rfl
  have hdiv : (entrySize m header / 512).toNat = (entrySize m header).toNat / 512 := by
    rw [BitVec.toNat_udiv, h512]
  have hmod : (entrySize m header % 512).toNat = (entrySize m header).toNat % 512 := by
    rw [BitVec.toNat_umod, h512]
  have hrounded : (entrySize m header).toNat ≤ rounded.toNat ∧ rounded.toNat < 2 ^ 34 := by
    by_cases hzero : entrySize m header % 512 = 0
    · have hwhole : (entrySize m header).toNat % 512 = 0 := by
        rw [← hmod, hzero]
        rfl
      simp only [rounded, if_pos hzero, add_zero]
      rw [BitVec.toNat_mul, hdiv, h512]
      omega
    · have h1 : (1 : BitVec 64).toNat = 1 := rfl
      simp only [rounded, if_neg hzero]
      rw [BitVec.toNat_mul, BitVec.toNat_add, hdiv, h512, h1]
      omega
  refine ⟨rounded.toNat, hrounded.1, hrounded.2, ?_⟩
  rw [BitVec.ofNat_add, BitVec.ofNat_toNat, BitVec.setWidth_eq, ← add_assoc]
  rfl

-- An image in memory. No object is larger than half of the address space.
structure Image where
  addr : BitVec 64
  size : Nat
  size_lt : size < 2 ^ 63

namespace Image

variable (image : Image)

def offset (a : BitVec 64) : Nat := (a - image.addr).toNat

theorem offset_add {a : BitVec 64} {k : Nat} (h : image.offset a + k < 2 ^ 64) :
    image.offset (a + BitVec.ofNat 64 k) = image.offset a + k := by
  rw [offset] at h
  rw [offset, offset, add_sub_right_comm, BitVec.toNat_add, BitVec.toNat_ofNat, Nat.add_mod_mod,
    Nat.mod_eq_of_lt h]

-- Of consecutive bytes all lie inside if and only if the last one does.
theorem bytesFrom_inside {a : BitVec 64} {n : Nat} (ha : image.offset a < image.size) :
    (∀ b ∈ bytesFrom a n, image.offset b < image.size) ↔ image.offset a + n ≤ image.size := by
  have hsize := image.size_lt
  constructor
  · intro hall
    induction n with
    | zero => omega
    | succ n ih =>
      have hmem : ∀ b ∈ bytesFrom a n, b ∈ bytesFrom a (n + 1) := by
        intro b hb
        obtain ⟨i, hi, rfl⟩ := List.mem_map.mp hb
        have hlt := List.mem_range.mp hi
        exact List.mem_map_of_mem (List.mem_range.mpr (by omega))
      have hfront := ih fun b hb => hall b (hmem b hb)
      have hlast := hall _ (List.mem_map_of_mem (List.mem_range.mpr (Nat.lt_succ_self n)))
      rw [image.offset_add (by omega)] at hlast
      omega
  · intro hend b hb
    obtain ⟨i, hi, rfl⟩ := List.mem_map.mp hb
    have hlt := List.mem_range.mp hi
    rw [image.offset_add (by omega)]
    omega

end Image

-- What sanitize_path reads ends at the first character that it keeps.
theorem sanitizeReads_bound {fuel : Nat} {k : Nat} :
    ∀ {a : BitVec 64}, ¬(m (a + BitVec.ofNat 64 k) = dot.val ∨ m (a + BitVec.ofNat 64 k) = slash.val) →
      ∀ b ∈ sanitizeReads m fuel a, b ∈ bytesFrom a (k + 1) := by
  induction fuel generalizing k with
  | zero =>
    intro a _ b hb
    cases hb
  | succ fuel ih =>
    intro a hkept b hb
    rw [sanitizeReads] at hb
    rcases List.mem_cons.mp hb with rfl | hb
    · refine List.mem_map.mpr ⟨0, List.mem_range.mpr (Nat.succ_pos k), ?_⟩
      exact BitVec.add_zero b
    · split at hb
      · next hskip =>
        cases k with
        | zero =>
          rw [BitVec.add_zero] at hkept
          exact absurd hskip hkept
        | succ k =>
          have hone : BitVec.ofNat 64 (k + 1) = 1 + BitVec.ofNat 64 k := by
            rw [Nat.add_comm, BitVec.ofNat_add]
            rfl
          rw [hone, ← add_assoc] at hkept
          obtain ⟨i, hi, rfl⟩ := List.mem_map.mp (ih hkept b hb)
          refine List.mem_map.mpr ⟨i + 1, ?_, ?_⟩
          · exact List.mem_range.mpr (Nat.succ_lt_succ (List.mem_range.mp hi))
          · rw [Nat.add_comm i 1, BitVec.ofNat_add, ← add_assoc]
            rfl
      · cases hb

namespace State

variable {blocks : Nat → BitVec 64} {s s' : State} {fuel : Nat}

-- The header starts inside the image. Unless it is the zero block, so do its
-- type flag and the characters of its filename that are looked at.
structure HeaderInside (image : Image) (blocks : Nat → BitVec 64) (m : Memory 64) (fuel : Nat)
    (header : BitVec 64) (s : State) : Prop where
  start : image.offset header < image.size
  typeflag : m header ≠ 0 → image.offset header + 156 < image.size
  filename : m header ≠ 0 → ¬IsExtension m header → ∃ filename,
    cString m fuel header = .ok filename ∧
      image.offset header + s.filenameReads blocks m header filename ≤ image.size

-- The data range of a file lies inside the image.
def FileInside (image : Image) (node : VfsNode) : Prop :=
  node.flags = FS_FILE → image.offset node.ptr + node.length.toNat ≤ image.size

structure StaysInside (image : Image) (blocks : Nat → BitVec 64) (m : Memory 64) (fuel : Nat)
    (s : State) : Prop where
  ends : s.initInitramfs blocks m fuel image.addr ≠ .error .endless
  reads : ∀ c, AtTurn blocks m fuel s image.addr c →
    ∀ a ∈ turnReads blocks m fuel c, image.offset a < image.size
  files : ∀ s', s.initInitramfs blocks m fuel image.addr = .ok s' →
    ∀ p ∈ s'.ramfsNodes, FileInside image (s'.nodes p)

theorem typeflag_mem {header : BitVec 64} (hne : m header ≠ 0) (s : State) :
    header + 156 ∈ turnReads blocks m fuel (header, s) := by
  rw [turnReads, if_neg hne]
  exact List.mem_cons_of_mem _ List.mem_cons_self

theorem header_mem (header : BitVec 64) (s : State) :
    header ∈ turnReads blocks m fuel (header, s) := by
  rw [turnReads]
  split
  · exact List.mem_singleton_self header
  · exact List.mem_cons_self

-- A turn that reads inside the image and does not run on is one of a header inside.
theorem reads_headerInside {image : Image} {header : BitVec 64}
    (hends : turn blocks m fuel (header, s) ≠ .inl (.error .endless))
    (hreads : ∀ a ∈ turnReads blocks m fuel (header, s), image.offset a < image.size) :
    HeaderInside image blocks m fuel header s := by
  have hsize := image.size_lt
  have hstart := hreads header (header_mem header s)
  constructor
  case start => exact hstart
  case typeflag =>
    intro hne
    have hflag := hreads _ (typeflag_mem hne s)
    have hadd := image.offset_add (a := header) (k := 156) (by omega)
    exact hadd ▸ hflag
  case filename =>
    intro hne hentry
    cases hname : cString m fuel header with
    | error fault =>
      cases cString_error hname
      exact absurd (turn_endless hne hentry hname s) hends
    | ok filename =>
      refine ⟨filename, rfl, (image.bytesFrom_inside hstart).mp fun a ha => hreads a ?_⟩
      rw [turnReads, if_neg hne, if_neg hentry, hname]
      exact List.mem_append_right _ ha

theorem headerInside_reads {image : Image} {header : BitVec 64}
    (h : HeaderInside image blocks m fuel header s) :
    ∀ a ∈ turnReads blocks m fuel (header, s), image.offset a < image.size := by
  have hsize := image.size_lt
  intro a ha
  rw [turnReads] at ha
  by_cases hne : m header = 0
  · rw [if_pos hne] at ha
    obtain rfl := List.mem_singleton.mp ha
    exact h.start
  rw [if_neg hne] at ha
  have hflag := h.typeflag hne
  rcases List.mem_append.mp ha with ha | ha
  · rcases List.mem_cons.mp ha with rfl | ha
    · exact h.start
    rcases List.mem_cons.mp ha with rfl | ha
    · have hadd := image.offset_add (a := header) (k := 156) (by omega)
      exact hadd ▸ hflag
    · -- the size field lies before the type flag
      obtain ⟨i, hi, rfl⟩ := List.mem_map.mp ha
      have hlt := List.mem_range.mp hi
      have hofs : header + 124 + BitVec.ofNat 64 i = header + BitVec.ofNat 64 (124 + i) := by
        rw [BitVec.ofNat_add, ← add_assoc]
        rfl
      rw [hofs, image.offset_add (by omega)]
      omega
  by_cases hext : IsExtension m header
  · rw [if_pos hext] at ha
    have hkept : ¬(m (header + BitVec.ofNat 64 156) = dot.val ∨
        m (header + BitVec.ofNat 64 156) = slash.val) := by
      intro hskip
      have hmem : m (header + BitVec.ofNat 64 156) ∈ [0x78, 0x67, 0x4B, 0x4C] := hext
      rcases hskip with hskip | hskip
      · rw [hskip] at hmem
        exact absurd hmem (by decide)
      · rw [hskip] at hmem
        exact absurd hmem (by decide)
    exact (image.bytesFrom_inside h.start).mpr (by omega) a (sanitizeReads_bound hkept a ha)
  · rw [if_neg hext] at ha
    obtain ⟨filename, hname, hend⟩ := h.filename hne hext
    rw [hname] at ha
    exact (image.bytesFrom_inside h.start).mpr hend a ha

-- What holds of every directory and of the new nodes holds of all nodes.
section Nodes

variable (Good : VfsNode → Prop)

theorem addNode_nodes {node : VfsNode} {made : Bool} (h : ∀ p ∈ s.ramfsNodes, Good (s.nodes p))
    (hnode : made = true → Good node) (hadd : s.addNode blocks node = (made, s')) :
    ∀ p ∈ s'.ramfsNodes, Good (s'.nodes p) := by
  rcases addNode_cases hadd with ⟨-, rfl | rfl⟩ | ⟨hmade, -, -, rfl⟩
  · exact h
  · exact h
  · intro p hp
    by_cases hnew : p = blocks s.kmallocs
    · rw [hnew, plant_nodes_self]
      exact hnode hmade
    · rw [plant_nodes_of_ne hnew]
      rcases List.mem_append.mp hp with hold | hlast
      · exact h p hold
      · exact absurd (List.mem_singleton.mp hlast) hnew

theorem ensureDirs_nodes (hdir : ∀ name, Good (dirNode name)) {rest : CString} :
    ∀ {s : State} {dirPath : CString}, (∀ p ∈ s.ramfsNodes, Good (s.nodes p)) →
      s.ensureDirs blocks dirPath rest = .ok s' → ∀ p ∈ s'.ramfsNodes, Good (s'.nodes p) := by
  induction rest with
  | nil =>
    intro s dirPath h hrun
    cases hrun
    exact h
  | cons c rest ih =>
    intro s dirPath h hrun
    rw [ensureDirs] at hrun
    split at hrun
    · cases hrun
    split at hrun
    · split at hrun
      · next s₁ hfull =>
        cases hrun
        exact addNode_nodes Good h (fun _ => hdir dirPath) hfull
      · next s₁ hmade =>
        split at hrun
        · cases hrun
        · exact ih (addNode_nodes Good h (fun _ => hdir dirPath) hmade) hrun
    · exact ih h hrun

end Nodes

section Files

variable {image : Image} {header : BitVec 64}

theorem dirNode_inside (name : CString) : FileInside image (dirNode name) :=
  fun hfile => absurd hfile (show FS_DIRECTORY ≠ FS_FILE by decide)

-- The data of an entry lies before the next header.
theorem entryNode_inside (hstart : image.offset header < image.size)
    (hnext : image.offset (nextHeader m header) < image.size) (name : CString) :
    FileInside image (entryNode m header name) := by
  have hsize := image.size_lt
  obtain ⟨k, hk, hlt, heq⟩ := nextHeader_eq m header
  rw [heq, image.offset_add (by omega)] at hnext
  by_cases hdir : IsDirEntry m header
  · rw [entryNode, if_pos hdir]
    exact dirNode_inside _
  rw [entryNode, if_neg hdir]
  intro _
  show image.offset (header + BitVec.ofNat 64 512) + ((entrySize m header).setWidth 32).toNat ≤
    image.size
  have hlow := Nat.mod_le (entrySize m header).toNat (2 ^ 32)
  rw [image.offset_add (by omega), BitVec.toNat_setWidth]
  omega

variable (h : ∀ p ∈ s.ramfsNodes, FileInside image (s.nodes p))

include h

theorem turn_inside {next : BitVec 64} (hstart : image.offset header < image.size)
    (hnext : image.offset next < image.size)
    (hturn : turn blocks m fuel (header, s) = .inr (next, s')) :
    ∀ p ∈ s'.ramfsNodes, FileInside image (s'.nodes p) := by
  obtain ⟨rfl, ⟨-, -, rfl⟩ | ⟨filename, s₁, hentry⟩⟩ := turn_next hturn
  · exact h
  · have hnode := entryNode_inside hstart hnext (sanitizePath filename)
    exact addNode_nodes _ (ensureDirs_nodes _ dirNode_inside h hentry.ensure) (fun _ => hnode)
      hentry.add

theorem turn_done_inside (hturn : turn blocks m fuel (header, s) = .inl (.ok s')) :
    ∀ p ∈ s'.ramfsNodes, FileInside image (s'.nodes p) := by
  rcases turn_done hturn with ⟨-, rfl⟩ | ⟨-, -, filename, s₁, -, hensure, hadd⟩
  · exact h
  · have hnone : false = true → FileInside image (entryNode m header (sanitizePath filename)) :=
      Bool.noConfusion
    exact addNode_nodes _ (ensureDirs_nodes _ dirNode_inside h hensure) hnone hadd

end Files

-- The header after one inside lies behind it.
theorem nextHeader_offset {image : Image} {header : BitVec 64}
    (h : image.offset header < image.size) :
    image.offset header < image.offset (nextHeader m header) := by
  have hsize := image.size_lt
  obtain ⟨k, -, hlt, heq⟩ := nextHeader_eq m header
  rw [heq, image.offset_add (by omega)]
  omega

-- A turn runs on only in a filename.
theorem turn_runs_on {header : BitVec 64}
    (h : turn blocks m fuel (header, s) = .inl (.error .endless)) :
    m header ≠ 0 ∧ ¬IsExtension m header ∧ cString m fuel header = .error .endless := by
  obtain ⟨hne, hentry, hname | ⟨filename, -, hensure⟩⟩ := turn_failed h
  · exact ⟨hne, hentry, hname⟩
  · cases ensureDirs_error hensure

section Run

variable (image : Image)
  (hall : ∀ header s₁, AtTurn blocks m fuel s image.addr (header, s₁) →
    HeaderInside image blocks m fuel header s₁)

include hall

-- The loop comes to its end, and no string runs on.
theorem loop_inside (hroot : blocks s.kmallocs ≠ 0) (hfuel : 2 ^ 64 ≤ fuel) :
    (loopStart blocks s).entriesFrom blocks m fuel fuel image.addr ≠ .error .endless := by
  have hsize := image.size_lt
  let left : BitVec 64 × State → ℕ := fun c => image.size - image.offset c.1
  have hless : ∀ b c, Reaches (turn blocks m fuel) (image.addr, loopStart blocks s) b →
      turn blocks m fuel b = .inr c → left c < left b := by
    rintro ⟨header, s₁⟩ ⟨next, s₂⟩ hreach hturn
    have hstart := (hall header s₁ ⟨hroot, hreach⟩).start
    obtain ⟨rfl, -⟩ := turn_next hturn
    have hlater := nextHeader_offset (m := m) hstart
    show image.size - image.offset (nextHeader m header) < image.size - image.offset header
    omega
  have hleft : left (image.addr, loopStart blocks s) < fuel := by
    show image.size - image.offset image.addr < fuel
    omega
  obtain ⟨⟨header, s₁⟩, result, hreach, hend, heq⟩ :=
    loop_ends (Except.error .endless) left hless hleft
  rw [entriesFrom_eq_loop, heq]
  rintro rfl
  obtain ⟨hne, hentry, hname⟩ := turn_runs_on hend
  obtain ⟨filename, hfilename, -⟩ := (hall header s₁ ⟨hroot, hreach⟩).filename hne hentry
  cases hname.symm.trans hfilename

-- At every turn all files lie inside.
theorem files_inside (hnone : s.ramfsNodes = []) {c : BitVec 64 × State}
    (hat : AtTurn blocks m fuel s image.addr c) :
    ∀ p ∈ c.2.ramfsNodes, FileInside image (c.2.nodes p) := by
  obtain ⟨hroot, hreach⟩ := hat
  induction hreach with
  | refl =>
    intro p hp
    rw [loopStart_nodes hnone] at hp
    cases hp
  | @tail b c hreach hturn ih =>
    have hstart := (hall b.1 b.2 ⟨hroot, hreach⟩).start
    have hnext := (hall c.1 c.2 ⟨hroot, hreach.tail hturn⟩).start
    exact turn_inside ih hstart hnext hturn

end Run

theorem ensureReads_le {rest : CString} : ∀ {s : State} {dirPath : CString},
    s.ensureReads blocks dirPath rest ≤ rest.length + 1 := by
  induction rest with
  | nil => exact le_refl _
  | cons c rest ih =>
    intro s dirPath
    rw [ensureReads, List.length_cons]
    split
    · omega
    split
    · split
      · omega
      · split
        · omega
        · exact Nat.succ_le_succ ih
    · exact Nat.succ_le_succ ih

-- No turn looks behind the end of the filename.
theorem filenameReads_le (s : State) (header : BitVec 64) (filename : CString) :
    s.filenameReads blocks m header filename ≤ filename.length + 1 := by
  have hclean := sanitizePath_length filename
  have hensure : s.ensureReads blocks [] (sanitizePath filename) ≤
      (sanitizePath filename).length + 1 := ensureReads_le
  rw [filenameReads]
  split
  · omega
  · split
    · omega
    · omega

-- A header all of whose filename lies inside.
theorem headerInside_of_name {image : Image} {header : BitVec 64} {n : ℕ}
    (hflag : image.offset header + 156 < image.size) (hends : Terminated m header n)
    (hn : image.offset header + n ≤ image.size) (hfuel : n ≤ fuel) :
    HeaderInside image blocks m fuel header s := by
  constructor
  case start => omega
  case typeflag => exact fun _ => hflag
  case filename =>
    intro _ _
    obtain ⟨filename, hname, hlen⟩ := cString_ok hends hfuel
    have hreads : s.filenameReads blocks m header filename ≤ filename.length + 1 :=
      filenameReads_le s header filename
    exact ⟨filename, hname, by omega⟩

-- The archive is read inside its image, the loop ends and all data lies inside if and only
-- if every header that the loop comes to does.
theorem stays_inside_iff (image : Image) (m : Memory 64) (hfuel : 2 ^ 64 ≤ fuel)
    (hnone : s.ramfsNodes = []) :
    StaysInside image blocks m fuel s ↔
      ∀ header s₁, AtTurn blocks m fuel s image.addr (header, s₁) →
        HeaderInside image blocks m fuel header s₁ := by
  constructor
  · intro hinside header s₁ hat
    refine reads_headerInside (fun hend => ?_) (hinside.reads _ hat)
    apply hinside.ends
    have hloop := loop_of_reaches (.error .endless) hat.reached hend fuel
    rw [initInitramfs_eq hat.root, entriesFrom_eq_loop, hloop.elim id id]
    rfl
  · intro hall
    by_cases hroot : blocks s.kmallocs = 0
    · have hnull : s.initInitramfs blocks m fuel image.addr = _ :=
        initInitramfs_null hroot image.addr
      constructor
      case ends =>
        rw [hnull]
        exact fun h => nomatch h
      case reads => exact fun c hat => absurd hroot hat.root
      case files =>
        intro s' hrun p hp
        rw [hnull] at hrun
        cases hrun
        rw [hnone] at hp
        cases hp
    have hends := loop_inside image hall hroot hfuel
    constructor
    case ends => exact fun hrun => hends (initInitramfs_fault hroot hrun)
    case reads => exact fun c hat => headerInside_reads (hall c.1 c.2 hat)
    case files =>
      intro s' hrun
      obtain ⟨s₁, hentries, rfl⟩ := initInitramfs_run hroot hrun
      rw [entriesFrom_eq_loop] at hentries hends
      obtain ⟨⟨header, s₂⟩, hreach, hend⟩ := loop_reaches hends
      rw [hentries] at hend
      have hfiles := turn_done_inside (files_inside image hall hnone ⟨hroot, hreach⟩) hend
      exact hfiles

theorem sampleArchive_next : nextHeader sampleArchive 0x1000 = 0x1200 := by decide +kernel

-- One entry and the zero block.
def sampleImage : Image where
  addr := 0x1000
  size := 1024
  size_lt := by decide

theorem stays_inside_sample :
    StaysInside sampleImage sampleBlocks sampleArchive (2 ^ 64) sampleState := by
  apply (stays_inside_iff sampleImage sampleArchive (le_refl _) rfl).mpr
  intro header s₁ hat
  have hheader : header = 0x1000 ∨ header = 0x1200 := by
    refine hat.reached.invariant (fun c => c.1 = 0x1000 ∨ c.1 = 0x1200) ?_ (Or.inl rfl)
    rintro ⟨a, t⟩ ⟨b, u⟩ ha hturn
    rcases ha with rfl | rfl
    · exact Or.inr ((turn_next hturn).1.trans sampleArchive_next)
    · rw [turn_zero (show sampleArchive 0x1200 = 0 by decide)] at hturn
      cases hturn
  rcases hheader with rfl | rfl
  · apply headerInside_of_name (n := 5)
    · decide
    · exact ⟨4, by decide, by decide⟩
    · decide
    · decide
  · have hzero : sampleArchive 0x1200 = 0 := by decide
    exact ⟨by decide, fun hne => absurd hzero hne, fun hne => absurd hzero hne⟩

-- The same archive without the zero block.
def cutImage : Image where
  addr := 0x1000
  size := 512
  size_lt := by decide

theorem reads_past_image :
    ¬StaysInside cutImage sampleBlocks sampleArchive (2 ^ 64) sampleState := by
  intro hinside
  have hentry : (turn sampleBlocks sampleArchive (2 ^ 64)
      (0x1000, loopStart sampleBlocks sampleState)).isRight = true := by
    decide +kernel
  obtain ⟨⟨next, s₁⟩, hturn⟩ := Sum.isRight_iff.mp hentry
  obtain ⟨rfl, -⟩ := turn_next hturn
  have hat : AtTurn sampleBlocks sampleArchive (2 ^ 64) sampleState 0x1000
      (nextHeader sampleArchive 0x1000, s₁) :=
    ⟨by decide, (Reaches.refl _).tail hturn⟩
  have hread := hinside.reads _ hat _ (header_mem _ _)
  rw [sampleArchive_next] at hread
  exact absurd hread (by decide)

end State

end Miyabi.Fs
