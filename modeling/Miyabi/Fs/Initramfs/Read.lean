import Miyabi.Base.Copy
import Miyabi.Fs.Initramfs

namespace Miyabi.Fs

open Miyabi.Base Miyabi.Base.Memory

-- The loop of ramfs_read, with the addresses it reads and writes in order.
structure CopyRun where
  mem : Memory 64
  reads : List (BitVec 64)
  writes : List (BitVec 64)

def readLoop (m : Memory 64) (buffer fileData offset : BitVec 64) : ℕ → CopyRun
  | 0 => ⟨m, [], []⟩
  | n + 1 =>
      let r := readLoop m buffer fileData offset n
      let src := fileData + (offset + BitVec.ofNat 64 n)
      let dst := buffer + BitVec.ofNat 64 n
      ⟨r.mem.store8 dst (r.mem src), r.reads ++ [src], r.writes ++ [dst]⟩

namespace State

-- What it returns, and the loop.
def ramfsRead (s : State) (m : Memory 64) (node buffer size offset : BitVec 64) :
    BitVec 64 × CopyRun :=
  if node = 0 ∨ buffer = 0 then (0, ⟨m, [], []⟩)
  else
    let length := (s.nodes node).length.setWidth 64
    if length ≤ offset then (0, ⟨m, [], []⟩)
    else
      let size := if length < offset + size then length - offset else size
      (size, readLoop m buffer (s.nodes node).ptr offset size.toNat)

-- `other` is a read that belongs to another file system.
variable (other : Memory 64 → BitVec 64 → BitVec 64 → BitVec 64 → BitVec 64 → BitVec 64 × CopyRun)

def vfsRead (s : State) (m : Memory 64) (node buffer size offset : BitVec 64) :
    BitVec 64 × CopyRun :=
  if node = 0 then (0, ⟨m, [], []⟩)
  else
    match (s.nodes node).read with
    | none => (0, ⟨m, [], []⟩)
    | some .ramfs => s.ramfsRead m node buffer size offset
    | some .other => other m node buffer size offset

-- Reads of the given sizes, one after the other in the file and in the buffer.
def readChunks (s : State) (node : BitVec 64) :
    Memory 64 → BitVec 64 → BitVec 64 → List (BitVec 64) → BitVec 64 × Memory 64
  | m, _, _, [] => (0, m)
  | m, buffer, offset, size :: rest =>
      let (n, r) := s.vfsRead other m node buffer size offset
      let (total, m) := readChunks s node r.mem (buffer + n) (offset + n) rest
      (n + total, m)

end State

section Slice

variable (node : VfsNode) (buffer size offset : BitVec 64)

def sliceLength : ℕ := min size.toNat (node.length.toNat - offset.toNat)

theorem sliceLength_le : sliceLength node size offset ≤ node.length.toNat - offset.toNat :=
  Nat.min_le_right _ _

-- The bytes of the file from `offset` on and no others, in the buffer and nowhere else.
structure ExactSlice (m : Memory 64) (n : BitVec 64) (r : CopyRun) : Prop where
  delivered : n.toNat = sliceLength node size offset
  bytes : Apart buffer n.toNat node.ptr node.length.toNat → ∀ i < n.toNat,
    r.mem (buffer + BitVec.ofNat 64 i) = m (node.ptr + (offset + BitVec.ofNat 64 i))
  frame : KeepsOutside m r.mem buffer n.toNat
  reads : ∀ a ∈ r.reads, InRange node.ptr node.length.toNat a
  writes : ∀ a ∈ r.writes, InRange buffer size.toNat a

-- There is nothing to read, or a buffer to read into and a sum that does not wrap.
def Readable : Prop :=
  node.length.toNat ≤ offset.toNat ∨ size = 0 ∨ buffer ≠ 0 ∧ offset.toNat + size.toNat < 2 ^ 64

-- Every chunk's sum is one that does not wrap.
def ChunksFit (length : ℕ) : ℕ → List (BitVec 64) → Prop
  | _, [] => True
  | offset, size :: rest =>
      (offset < length → offset + size.toNat < 2 ^ 64) ∧
        ChunksFit length (min (offset + size.toNat) (max offset length)) rest

end Slice

section Loop

variable (m : Memory 64) (buffer fileData offset : BitVec 64)

theorem readLoop_mem (n : ℕ) :
    (readLoop m buffer fileData offset n).mem = m.copy buffer (fileData + offset) n := by
  induction n with
  | zero => rfl
  | succ n ih => rw [readLoop, copy, ih, add_assoc]

theorem readLoop_reads (n : ℕ) :
    (readLoop m buffer fileData offset n).reads =
      (List.range n).map fun i => fileData + (offset + BitVec.ofNat 64 i) := by
  induction n with
  | zero => rfl
  | succ n ih => rw [readLoop, ih, List.range_succ, List.map_append, List.map_singleton]

theorem readLoop_writes (n : ℕ) :
    (readLoop m buffer fileData offset n).writes =
      (List.range n).map fun i => buffer + BitVec.ofNat 64 i := by
  induction n with
  | zero => rfl
  | succ n ih => rw [readLoop, ih, List.range_succ, List.map_append, List.map_singleton]

end Loop

namespace State

variable {s : State} {node buffer size offset : BitVec 64}

theorem vfsRead_eq {other} (m : Memory 64) (hnode : node ≠ 0)
    (hread : (s.nodes node).read = some .ramfs) :
    s.vfsRead other m node buffer size offset = s.ramfsRead m node buffer size offset := by
  rw [vfsRead, if_neg hnode, hread]

theorem length_toNat (length : BitVec 32) : (length.setWidth 64).toNat = length.toNat := by
  rw [BitVec.toNat_setWidth]
  have := length.isLt
  omega

-- A read that fits delivers the slice.
theorem ramfsRead_slice (m : Memory 64) (hnode : node ≠ 0)
    (hread : Readable (s.nodes node) buffer size offset) :
    s.ramfsRead m node buffer size offset =
      (BitVec.ofNat 64 (sliceLength (s.nodes node) size offset),
        readLoop m buffer (s.nodes node).ptr offset
          (sliceLength (s.nodes node) size offset)) := by
  have hlength := length_toNat (s.nodes node).length
  have hlt := (s.nodes node).length.isLt
  have hsize := size.isLt
  by_cases hend : (s.nodes node).length.toNat ≤ offset.toNat
  · -- nothing is left of the file
    have hzero : sliceLength (s.nodes node) size offset = 0 := by
      rw [sliceLength]
      omega
    have hle : (s.nodes node).length.setWidth 64 ≤ offset := by
      rw [BitVec.le_def, hlength]
      exact hend
    rw [ramfsRead, hzero]
    simp only [if_pos hle, ite_self]
    rfl
  have hle : ¬(s.nodes node).length.setWidth 64 ≤ offset := by
    rw [BitVec.le_def, hlength]
    exact hend
  by_cases hbuffer : buffer = 0
  · have hempty : size = 0 := by
      rcases hread with h | h | ⟨h, -⟩
      · exact absurd h hend
      · exact h
      · exact absurd hbuffer h
    have hzero : sliceLength (s.nodes node) size offset = 0 := by
      rw [sliceLength, hempty]
      exact Nat.zero_min _
    rw [ramfsRead, hzero, if_pos (Or.inr hbuffer)]
    rfl
  have hwrap : offset.toNat + size.toNat < 2 ^ 64 := by
    rcases hread with h | h | ⟨-, h⟩
    · exact absurd h hend
    · rw [h]
      exact offset.isLt
    · exact h
  have hsum : (offset + size).toNat = offset.toNat + size.toNat := by
    rw [BitVec.toNat_add, Nat.mod_eq_of_lt hwrap]
  have hclamp : (if (s.nodes node).length.setWidth 64 < offset + size then
      (s.nodes node).length.setWidth 64 - offset else size) =
      BitVec.ofNat 64 (sliceLength (s.nodes node) size offset) := by
    apply BitVec.eq_of_toNat_eq
    rw [BitVec.toNat_ofNat, sliceLength]
    by_cases hlong : (s.nodes node).length.setWidth 64 < offset + size
    · rw [if_pos hlong]
      rw [BitVec.lt_def, hlength, hsum] at hlong
      rw [BitVec.toNat_sub_of_le (by rw [BitVec.le_def, hlength]; omega), hlength]
      omega
    · rw [if_neg hlong]
      rw [BitVec.lt_def, hlength, hsum] at hlong
      omega
  have hcount : (BitVec.ofNat 64 (sliceLength (s.nodes node) size offset)).toNat =
      sliceLength (s.nodes node) size offset := by
    rw [BitVec.toNat_ofNat, sliceLength]
    omega
  rw [ramfsRead, if_neg (not_or.mpr ⟨hnode, hbuffer⟩)]
  simp only [if_neg hle, hclamp, hcount]

theorem slice_exact (m : Memory 64) (file : VfsNode) :
    ExactSlice file buffer size offset m (BitVec.ofNat 64 (sliceLength file size offset))
      (readLoop m buffer file.ptr offset (sliceLength file size offset)) := by
  have hsize := size.isLt
  have hle : sliceLength file size offset ≤ size.toNat := Nat.min_le_left _ _
  have hcount : (BitVec.ofNat 64 (sliceLength file size offset)).toNat =
      sliceLength file size offset := by
    rw [BitVec.toNat_ofNat, Nat.mod_eq_of_lt (by omega)]
  have hinside : ∀ i < sliceLength file size offset,
      InRange file.ptr file.length.toNat (file.ptr + (offset + BitVec.ofNat 64 i)) := by
    intro i hi
    have hfile := file.length.isLt
    rw [sliceLength] at hi
    rw [InRange, add_sub_cancel_left, BitVec.toNat_add, BitVec.toNat_ofNat]
    omega
  constructor
  case delivered => exact hcount
  case bytes =>
    rw [hcount]
    intro hapart i hi
    have hsource : Apart buffer (sliceLength file size offset) (file.ptr + offset)
        (sliceLength file size offset) := by
      intro x hx hsrc
      obtain ⟨j, hj, rfl⟩ := exists_offset _ x _ hsrc
      rw [add_assoc] at hx
      exact hapart _ hx (hinside j hj)
    rw [readLoop_mem, copy_eq m _ _ _ (by omega) hsource, if_pos (inRange_add _ _ _ hi),
      add_sub_cancel_left, add_assoc]
  case frame =>
    rw [hcount, readLoop_mem]
    exact copy_keeps m _ _ _ (by omega)
  case reads =>
    intro a ha
    rw [readLoop_reads] at ha
    obtain ⟨i, hi, rfl⟩ := List.mem_map.mp ha
    exact hinside i (List.mem_range.mp hi)
  case writes =>
    intro a ha
    rw [readLoop_writes] at ha
    obtain ⟨i, hi, rfl⟩ := List.mem_map.mp ha
    exact inRange_add _ _ _ ((List.mem_range.mp hi).trans_le hle)

-- A read that does not fit delivers another number of bytes.
theorem delivered_ne (m : Memory 64) (hnode : node ≠ 0)
    (hread : ¬Readable (s.nodes node) buffer size offset) :
    (s.ramfsRead m node buffer size offset).1.toNat ≠
      sliceLength (s.nodes node) size offset := by
  have hlength := length_toNat (s.nodes node).length
  have hlt := (s.nodes node).length.isLt
  have hsize := size.isLt
  simp only [Readable, not_or, not_and, not_lt] at hread
  obtain ⟨hend, hempty, hwrap⟩ := hread
  have hpos : 0 < size.toNat := by
    rw [Nat.pos_iff_ne_zero]
    exact fun h => hempty (BitVec.eq_of_toNat_eq h)
  rw [sliceLength, ramfsRead]
  by_cases hbuffer : buffer = 0
  · rw [if_pos (Or.inr hbuffer)]
    show (0 : ℕ) ≠ _
    omega
  have hover := hwrap hbuffer
  have hle : ¬(s.nodes node).length.setWidth 64 ≤ offset := by
    rw [BitVec.le_def, hlength]
    exact hend
  have hsmall : ¬(s.nodes node).length.setWidth 64 < offset + size := by
    rw [BitVec.lt_def, hlength, BitVec.toNat_add]
    omega
  rw [if_neg (not_or.mpr ⟨hnode, hbuffer⟩)]
  simp only [if_neg hle, if_neg hsmall]
  omega

def sumOf (sizes : List (BitVec 64)) : ℕ := (sizes.map BitVec.toNat).sum

-- The chunks together copy what one read of their sum does.
theorem readChunks_copy (other) (hnode : node ≠ 0) (hread : (s.nodes node).read = some .ramfs)
    {sizes : List (BitVec 64)} : ∀ {m : Memory 64} {buffer offset : BitVec 64},
    (offset.toNat < (s.nodes node).length.toNat → buffer ≠ 0) →
    buffer.toNat + ((s.nodes node).length.toNat - offset.toNat) ≤ 2 ^ 64 →
    ChunksFit (s.nodes node).length.toNat offset.toNat sizes →
    s.readChunks other node m buffer offset sizes =
      (BitVec.ofNat 64 (min (sumOf sizes) ((s.nodes node).length.toNat - offset.toNat)),
        m.copy buffer ((s.nodes node).ptr + offset)
          (min (sumOf sizes) ((s.nodes node).length.toNat - offset.toNat))) := by
  induction sizes with
  | nil =>
    intro m buffer offset _ _ _
    rw [sumOf, List.map_nil, List.sum_nil, Nat.zero_min]
    rfl
  | cons size rest ih =>
    intro m buffer offset hbuffer hroom hfit
    obtain ⟨hfirst, hrest⟩ := hfit
    have hlt := (s.nodes node).length.isLt
    have hoffset := offset.isLt
    have hreadable : Readable (s.nodes node) buffer size offset := by
      by_cases hend : (s.nodes node).length.toNat ≤ offset.toNat
      · exact Or.inl hend
      · exact Or.inr (Or.inr ⟨hbuffer (by omega), hfirst (by omega)⟩)
    have hrun : s.vfsRead other m node buffer size offset = _ :=
      (vfsRead_eq m hnode hread).trans (ramfsRead_slice m hnode hreadable)
    have hn := sliceLength_le (s.nodes node) size offset
    have hsum : sumOf (size :: rest) = size.toNat + sumOf rest := by
      rw [sumOf, sumOf, List.map_cons, List.sum_cons]
    have hslice : sliceLength (s.nodes node) size offset =
        min size.toNat ((s.nodes node).length.toNat - offset.toNat) := rfl
    generalize sliceLength (s.nodes node) size offset = n at *
    have hoffset' : (offset + BitVec.ofNat 64 n).toNat = offset.toNat + n := by
      rw [BitVec.toNat_add, BitVec.toNat_ofNat]
      omega
    have hbuffer' : (buffer + BitVec.ofNat 64 n).toNat = (buffer.toNat + n) % 2 ^ 64 := by
      rw [BitVec.toNat_add, BitVec.toNat_ofNat, Nat.add_mod_mod]
    have hnonzero : (offset + BitVec.ofNat 64 n).toNat < (s.nodes node).length.toNat →
        buffer + BitVec.ofNat 64 n ≠ 0 := by
      intro hmore hzero
      rw [hoffset'] at hmore
      rw [hzero, Nat.mod_eq_of_lt (by omega)] at hbuffer'
      have h0 : (0 : BitVec 64).toNat = 0 := rfl
      have hsource : buffer.toNat = 0 := by omega
      exact hbuffer (by omega) (BitVec.eq_of_toNat_eq hsource)
    have hroom' : (buffer + BitVec.ofNat 64 n).toNat +
        ((s.nodes node).length.toNat - (offset + BitVec.ofNat 64 n).toNat) ≤ 2 ^ 64 := by
      rw [hbuffer', hoffset']
      omega
    have hfit' : ChunksFit (s.nodes node).length.toNat (offset + BitVec.ofNat 64 n).toNat rest := by
      have hsame : min (offset.toNat + size.toNat)
          (max offset.toNat (s.nodes node).length.toNat) = offset.toNat + n := by omega
      rw [hoffset', ← hsame]
      exact hrest
    have htotal : n + min (sumOf rest) ((s.nodes node).length.toNat - (offset.toNat + n)) =
        min (size.toNat + sumOf rest) ((s.nodes node).length.toNat - offset.toNat) := by omega
    rw [readChunks, hrun, hsum, ← htotal, copy_add, BitVec.ofNat_add, add_assoc]
    simp only [ih hnonzero hroom' hfit', hoffset', readLoop_mem]

-- Read by vfs_read, a file is an exact slice if and only if the sum does not wrap, and then
-- reads of consecutive chunks are one read.
theorem read_slice_iff (s : State) (other) (m : Memory 64) (node buffer size offset : BitVec 64)
    (hnode : node ≠ 0) (hread : (s.nodes node).read = some .ramfs) :
    (ExactSlice (s.nodes node) buffer size offset m (s.vfsRead other m node buffer size offset).1
        (s.vfsRead other m node buffer size offset).2 ↔
      Readable (s.nodes node) buffer size offset) ∧
    ∀ sizes, buffer ≠ 0 → buffer.toNat + (s.nodes node).length.toNat ≤ 2 ^ 64 →
      ChunksFit (s.nodes node).length.toNat offset.toNat sizes →
      s.readChunks other node m buffer offset sizes =
        let whole := BitVec.ofNat 64
          (min (sumOf sizes) ((s.nodes node).length.toNat - offset.toNat))
        ((s.vfsRead other m node buffer whole offset).1,
          (s.vfsRead other m node buffer whole offset).2.mem) := by
  simp only [vfsRead_eq m hnode hread]
  constructor
  · constructor
    · intro hexact
      by_contra hnot
      exact delivered_ne m hnode hnot hexact.delivered
    · intro hreadable
      rw [ramfsRead_slice m hnode hreadable]
      exact slice_exact m (s.nodes node)
  · intro sizes hbuffer hroom hfit
    have hlt := (s.nodes node).length.isLt
    have hends : buffer.toNat + ((s.nodes node).length.toNat - offset.toNat) ≤ 2 ^ 64 := by omega
    have hchunks := readChunks_copy other hnode hread (m := m) (fun _ => hbuffer) hends hfit
    have hwhole : (BitVec.ofNat 64
        (min (sumOf sizes) ((s.nodes node).length.toNat - offset.toNat))).toNat =
        min (sumOf sizes) ((s.nodes node).length.toNat - offset.toNat) := by
      rw [BitVec.toNat_ofNat]
      omega
    generalize BitVec.ofNat 64
      (min (sumOf sizes) ((s.nodes node).length.toNat - offset.toNat)) = whole at *
    have hreadable : Readable (s.nodes node) buffer whole offset := by
      by_cases hend : (s.nodes node).length.toNat ≤ offset.toNat
      · exact Or.inl hend
      · exact Or.inr (Or.inr ⟨hbuffer, by omega⟩)
    have hslice : sliceLength (s.nodes node) whole offset = whole.toNat := by
      rw [sliceLength]
      omega
    rw [hchunks, ramfsRead_slice m hnode hreadable, hslice, ← hwhole]
    simp only [readLoop_mem, BitVec.ofNat_toNat, BitVec.setWidth_eq]

def fourBytes : VfsNode :=
  { VfsNode.zero with flags := FS_FILE, length := 4, read := some .ramfs, ptr := 0x2000 }

def everywhereFour : State where
  nodes _ := fourBytes
  kmallocs := 0
  fsRoot := 0
  ramfsNodes := []
  ramfsRoot := 0
  devfsRoot := 0
  devices := []

def readNothing (m : Memory 64) (_ _ _ _ : BitVec 64) : BitVec 64 × CopyRun := (0, ⟨m, [], []⟩)

def zeros : Memory 64 := fun _ => 0

-- Two bytes from the second on.
theorem read_slice_fourBytes :
    let r := everywhereFour.vfsRead readNothing zeros 0x1000 0x3000 2 1
    ExactSlice fourBytes 0x3000 2 1 zeros r.1 r.2 :=
  (read_slice_iff everywhereFour readNothing zeros 0x1000 0x3000 2 1 (by decide) rfl).1.mpr
    (Or.inr (Or.inr ⟨by decide, by decide⟩))

-- As many bytes as there are numbers, from the second on.
theorem read_unbounded :
    let r := everywhereFour.vfsRead readNothing zeros 0x1000 0x3000 0xFFFFFFFFFFFFFFFF 1
    ¬ExactSlice fourBytes 0x3000 0xFFFFFFFFFFFFFFFF 1 zeros r.1 r.2 := by
  intro r hexact
  have hnot : ¬Readable fourBytes 0x3000 0xFFFFFFFFFFFFFFFF 1 := by
    rintro (h | h | ⟨-, h⟩)
    · exact absurd h (by decide)
    · exact absurd h (by decide)
    · exact absurd h (by decide)
  have hnode : (0x1000 : BitVec 64) ≠ 0 := by decide
  apply delivered_ne (s := everywhereFour) zeros hnode hnot
  exact hexact.delivered

end State

end Miyabi.Fs
