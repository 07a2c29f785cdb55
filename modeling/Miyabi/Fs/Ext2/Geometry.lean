import Mathlib.Algebra.Order.Floor.Div
import Miyabi.Drivers.Storage.Sectors
import Miyabi.Fs.Ext2

namespace Miyabi.Fs

open Miyabi.Base Miyabi.Base.Memory Miyabi.Mm Miyabi.Drivers.Storage

-- The exact geometry of a superblock.
def exactBlockSize (m : Memory 64) (sb : BitVec 64) : ℕ := 1024 * 2 ^ (logBlockSize m sb).toNat

def exactGroupCount (m : Memory 64) (sb : BitVec 64) : ℕ :=
  (blocksCount m sb).toNat ⌈/⌉ (blocksPerGroup m sb).toNat

-- The arithmetic on it is defined, and does not wrap.
structure Sound (m : Memory 64) (sb : BitVec 64) : Prop where
  shift : (logBlockSize m sb).toNat ≤ 21
  divisor : blocksPerGroup m sb ≠ 0
  sum : (blocksCount m sb).toNat + (blocksPerGroup m sb).toNat ≤ 2 ^ 32

-- ext2_mount comes to the block `fs` for its state: the superblock is read into the buffer
-- and has the magic number.
def Allocates (buf : BitVec 64) (dev : BlockDev) (h : Host) (fs : BitVec 64) (heap : Heap.System) :
    Prop :=
  ∃ s, blockRead (some dev) 2 2 buf h.machine = (true, s) ∧ superMagic s.mem buf = ext2Magic ∧
    (h.heap.setMem s.mem).kmalloc ext2FsSize = some (fs, heap) ∧ fs ≠ 0

-- With a state, no division by zero and no shift by the width of the word, and the recorded
-- geometry is exact; without the exact geometry, no state.
structure Exact (buf ptr : BitVec 64) (dev : BlockDev) (h : Host) : Prop where
  total : ∀ fs heap, Allocates buf dev h fs heap →
    blocksPerGroup heap.mem buf ≠ 0 ∧ (logBlockSize heap.mem buf).toNat < 32
  recorded : ∀ fs heap, Allocates buf dev h fs heap →
    ∃ h', ext2Mount buf (some (ptr, dev)) h = some (0, h') ∧
      (h'.heap.mem.load32 (fs + 8)).toNat = exactBlockSize heap.mem buf ∧
      (h'.heap.mem.load32 (fs + 32)).toNat = exactGroupCount heap.mem buf
  rejected : ∀ fs heap, Allocates buf dev h fs heap → exactBlockSize heap.mem buf < 2 ^ 32

section Arithmetic

variable (m : Memory 64) (sb dev : BitVec 64)

theorem blockSize_iff :
    ((logBlockSize m sb).toNat < 32 ∧ (ext2FsOf m sb dev).blockSize.toNat = exactBlockSize m sb) ↔
      (logBlockSize m sb).toNat ≤ 21 := by
  have hsize : (ext2FsOf m sb dev).blockSize.toNat =
      1024 * 2 ^ ((logBlockSize m sb).toNat % 32) % 2 ^ 32 := by
    simp only [ext2FsOf, Nat.shiftLeft_eq]
    rfl
  rw [hsize, exactBlockSize]
  generalize (logBlockSize m sb).toNat = n
  have hten : ∀ k, 1024 * 2 ^ k = 2 ^ (10 + k) := by
    intro k
    have hkilo : 1024 = 2 ^ 10 := rfl
    rw [hkilo, pow_add]
  rw [hten, hten]
  constructor
  · rintro ⟨hn, h⟩
    by_contra hlarge
    have hpow : 2 ^ 32 ≤ 2 ^ (10 + n) := Nat.pow_le_pow_right (by omega) (by omega)
    have hlt : 2 ^ (10 + n % 32) % 2 ^ 32 < 2 ^ 32 := Nat.mod_lt _ (by omega)
    omega
  · intro hn
    refine ⟨by omega, ?_⟩
    rw [Nat.mod_eq_of_lt (a := n) (by omega)]
    exact Nat.mod_eq_of_lt (Nat.pow_lt_pow_right (by omega) (by omega))

theorem groupCount_iff (hdivisor : blocksPerGroup m sb ≠ 0) :
    (ext2FsOf m sb dev).groupCount.toNat = exactGroupCount m sb ↔
      (blocksCount m sb).toNat + (blocksPerGroup m sb).toNat ≤ 2 ^ 32 := by
  have hpos : 0 < (blocksPerGroup m sb).toNat := by
    rw [Nat.pos_iff_ne_zero]
    exact fun h => hdivisor (BitVec.eq_of_toNat_eq h)
  have hone : (1 : BitVec 32).toNat = 1 := rfl
  have hcount : (ext2FsOf m sb dev).groupCount.toNat =
      (2 ^ 32 - 1 + ((blocksCount m sb).toNat + (blocksPerGroup m sb).toNat) % 2 ^ 32) % 2 ^ 32 /
        (blocksPerGroup m sb).toNat := by
    simp only [ext2FsOf, BitVec.toNat_udiv, BitVec.toNat_sub, BitVec.toNat_add, hone]
  have hblocks := (blocksCount m sb).isLt
  have hgroup := (blocksPerGroup m sb).isLt
  rw [hcount, exactGroupCount, Nat.ceilDiv_eq_add_pred_div]
  generalize (blocksCount m sb).toNat = blocks at *
  generalize (blocksPerGroup m sb).toNat = group at *
  constructor
  · intro h
    by_contra hwrap
    have hsum : (2 ^ 32 - 1 + (blocks + group) % 2 ^ 32) % 2 ^ 32 = blocks + group - 1 - 2 ^ 32 := by
      omega
    have hless : (blocks + group - 1 - 2 ^ 32) / group + 1 ≤ (blocks + group - 1) / group := by
      rw [← Nat.add_div_right _ hpos]
      exact Nat.div_le_div_right (by omega)
    rw [hsum] at h
    omega
  · intro hsum
    congr 1
    omega

end Arithmetic

theorem apart_fields (p : BitVec 64) {a b : BitVec 64} {n : ℕ} (hab : a.toNat + n ≤ b.toNat)
    (hb : b.toNat + 4 ≤ 2 ^ 64) : Apart (p + a) n (p + b) 4 := by
  intro x hx hy
  simp only [InRange] at hx hy
  bv_omega

section Recorded

variable (fs : Ext2Fs) (p : BitVec 64) (m : Memory 64)

-- The fields that are stored behind a field leave it as it is.
theorem store_blockSize : (fs.store p m).load32 (p + 8) = fs.blockSize := by
  rw [Ext2Fs.store]
  simp only [load32, store32]
  rw [load_store_apart _ _ _ _ (apart_fields p (by decide) (by decide)),
    load_store_apart _ _ _ _ (apart_fields p (by decide) (by decide)),
    load_store_apart _ _ _ _ (apart_fields p (by decide) (by decide)),
    load_store_apart _ _ _ _ (apart_fields p (by decide) (by decide)),
    load_store_apart _ _ _ _ (apart_fields p (by decide) (by decide)),
    load_store_apart _ _ _ _ (apart_fields p (by decide) (by decide)),
    load_store_same _ _ _ (by decide)]

theorem store_groupCount : (fs.store p m).load32 (p + 32) = fs.groupCount := by
  rw [Ext2Fs.store]
  exact load_store_same _ _ _ (by decide)

end Recorded

section Mount

variable {buf : BitVec 64} {dev : BlockDev} {h : Host}

-- A mount that comes to a state.
theorem ext2Mount_allocates (ptr : BitVec 64) {fs : BitVec 64} {heap : Heap.System}
    (ha : Allocates buf dev h fs heap) :
    (blocksPerGroup heap.mem buf = 0 ∧ ext2Mount buf (some (ptr, dev)) h = none) ∨
      (blocksPerGroup heap.mem buf ≠ 0 ∧
        ∃ h', ext2Mount buf (some (ptr, dev)) h = some (0, h') ∧
          h'.heap.mem = (ext2FsOf heap.mem buf ptr).store fs heap.mem) := by
  obtain ⟨s, hread, hmagic, hk, hfs⟩ := ha
  have hk' : (h.setMachine s).heap.kmalloc ext2FsSize = some (fs, heap) := hk
  have hmagic' : superMagic (h.setMachine s).heap.mem buf = ext2Magic := hmagic
  simp only [ext2Mount, hread, hk', if_neg (not_not.mpr hmagic'), if_neg hfs]
  by_cases hzero : blocksPerGroup heap.mem buf = 0
  · exact Or.inl ⟨hzero, if_pos hzero⟩
  · exact Or.inr ⟨hzero, _, if_neg hzero, rfl⟩

-- The mount is exact on the superblocks on which its arithmetic is.
theorem superblock_exact_iff (buf ptr : BitVec 64) (dev : BlockDev) (h : Host) :
    Exact buf ptr dev h ↔ ∀ fs heap, Allocates buf dev h fs heap → Sound heap.mem buf := by
  constructor
  · intro hexact fs heap ha
    obtain ⟨hdivisor, hshift⟩ := hexact.total fs heap ha
    obtain ⟨h', hmount, hsize, hgroups⟩ := hexact.recorded fs heap ha
    obtain ⟨hzero, -⟩ | ⟨-, h'', hmount', hmem⟩ := ext2Mount_allocates ptr ha
    · exact absurd hzero hdivisor
    · cases hmount.symm.trans hmount'
      rw [hmem, store_blockSize] at hsize
      rw [hmem, store_groupCount] at hgroups
      exact ⟨(blockSize_iff _ _ _).mp ⟨hshift, hsize⟩, hdivisor,
        (groupCount_iff _ _ _ hdivisor).mp hgroups⟩
  · intro hsound
    constructor
    case total =>
      intro fs heap ha
      obtain ⟨hshift, hdivisor, -⟩ := hsound fs heap ha
      exact ⟨hdivisor, by omega⟩
    case recorded =>
      intro fs heap ha
      obtain ⟨hshift, hdivisor, hsum⟩ := hsound fs heap ha
      obtain ⟨hzero, -⟩ | ⟨-, h', hmount, hmem⟩ := ext2Mount_allocates ptr ha
      · exact absurd hzero hdivisor
      · refine ⟨h', hmount, ?_, ?_⟩
        · rw [hmem, store_blockSize]
          exact ((blockSize_iff _ _ ptr).mpr hshift).2
        · rw [hmem, store_groupCount]
          exact (groupCount_iff _ _ ptr hdivisor).mpr hsum
    case rejected =>
      intro fs heap ha
      have hshift := (hsound fs heap ha).shift
      have hpow : 2 ^ (logBlockSize heap.mem buf).toNat ≤ 2 ^ 21 :=
        Nat.pow_le_pow_right (by omega) hshift
      rw [exactBlockSize]
      omega

end Mount

section Patterned

open Miyabi.Mm.Heap

variable {sector : Sector}

-- A memory that holds a sector at every multiple of 512.
def patterned (sector : Sector) : Memory 64 := fun x => sector (x.setWidth 9)

theorem firstHeader_below (mem : Memory 64) {x : BitVec 64} (hx : x.toNat < heapStart.toNat) :
    firstHeader mem x = mem x := by
  have hh : heapStart.toNat = 0xFFFFFFFFC0000000 := rfl
  have hout (ofs : BitVec 64) (hofs : ofs.toNat ≤ 16) : ¬InRange (heapStart + ofs) 8 x := by
    simp only [InRange]
    bv_omega
  have hstart : ¬InRange heapStart 8 x := by
    simp only [InRange]
    bv_omega
  have hfree : x ≠ heapStart + 8 := fun h => hout 8 (by decide) (h ▸ inRange_self _ 8 (by decide))
  rw [firstHeader, setNext, store64, store_of_not_inRange (n := 8) _ _ x _ (hout 16 (by decide)),
    setIsFree, store8_ne _ _ x _ hfree, setSize, store64,
    store_of_not_inRange (n := 8) _ _ x _ hstart]

-- The sector read into it again changes nothing.
theorem patterned_same {buffer : BitVec 64} (haligned : buffer.toNat % 512 = 0) {n : ℕ}
    (hbelow : buffer.toNat + 512 * n ≤ heapStart.toNat) (lba : ℕ) :
    withSectors (firstHeader (patterned sector)) buffer (fun _ => sector) lba n =
      firstHeader (patterned sector) := by
  have hh : heapStart.toNat = 0xFFFFFFFFC0000000 := rfl
  funext x
  by_cases hin : InRange buffer (512 * n) x
  · obtain ⟨i, hi, rfl⟩ := exists_offset buffer x (512 * n) hin
    have hx : (buffer + BitVec.ofNat 64 i).toNat = buffer.toNat + i := by
      rw [BitVec.toNat_add, BitVec.toNat_ofNat]
      omega
    rw [withSectors, if_pos hin, firstHeader_below _ (by omega), patterned, add_sub_cancel_left]
    congr 1
    apply BitVec.eq_of_toNat_eq
    rw [BitVec.toNat_setWidth, hx, BitVec.toNat_ofNat, BitVec.toNat_ofNat]
    omega
  · exact if_neg hin

-- The read of a superblock that is in memory already.
theorem patterned_read {s : Machine} (hmem : s.mem = firstHeader (patterned sector))
    (himage : s.drive.image = fun _ => sector) (hready : s.drive.Ready) {buffer : BitVec 64}
    (hpos : 0 < buffer.toNat) (haligned : buffer.toNat % 512 = 0)
    (hend : buffer.toNat + 2 ^ 32 ≤ 2 ^ 64) :
    ∃ s', blockRead (some sda) 2 2 buffer s = (true, s') ∧
      s'.mem = firstHeader (patterned sector) := by
  have hh : heapStart.toNat = 0xFFFFFFFFC0000000 := rfl
  have htwo : (2 : BitVec 32).toNat = 2 := rfl
  obtain ⟨s', hs'⟩ : ∃ s', ataBlockReadFrom (0 + 2) buffer 2 0 s = (true, s') :=
    ataBlockReadFrom_ready (0 + 2) buffer hpos hend 2 0 hready
  have hread : ataBlockRead (0 + 2) 2 buffer s = (true, s') := hs'
  have hsectors := ataBlockRead_sectors (by omega) hread
  rw [hmem, himage, htwo, patterned_same haligned (by omega)] at hsectors
  exact ⟨s', hs', hsectors⟩

end Patterned

-- A superblock with the magic number and zeros.
def zeroSuperSector : Sector := fun i => if i = 56 then 0x53 else if i = 57 then 0xEF else 0

-- There are no blocks in a group.
theorem superblock_divides_by_zero :
    ∃ heap, Heap.boot (patterned zeroSuperSector) Heap.sampleFrames = some heap ∧
      ¬Exact 0x4000 0x2000 sda ⟨heap, (readyMachine zeroSuperSector 0).drive⟩ := by
  obtain ⟨heap, hb, -⟩ :=
    Heap.boot_invariant (patterned zeroSuperSector) Heap.sampleFrames Heap.sampleFrames_ne
  refine ⟨heap, hb, fun hexact => ?_⟩
  have hmem : heap.heap.mem = Heap.firstHeader (patterned zeroSuperSector) := (Heap.boot_state hb).1
  obtain ⟨s, hs, hsame⟩ := patterned_read
    (s := ⟨heap.heap.mem, (readyMachine zeroSuperSector 0).drive⟩) hmem rfl (fun _ => rfl)
    (show 0 < (0x4000 : BitVec 64).toNat by decide) (by decide) (by decide)
  have hk := Heap.first_kmalloc hb (show ext2FsSize ≠ 0 by decide) (by decide)
  have hheap : heap.setMem s.mem = heap := by
    rw [hsame, ← hmem]
    rfl
  have hmagic : superMagic s.mem 0x4000 = ext2Magic := by
    rw [hsame]
    decide +kernel
  rw [← hheap] at hk
  have hblocks : blocksPerGroup (Heap.carved (Heap.firstHeader (patterned zeroSuperSector))
      Heap.heapStart (Heap.alignUp ext2FsSize 16)) 0x4000 = 0 := by
    decide +kernel
  have hsound := (superblock_exact_iff 0x4000 0x2000 sda _).mp hexact _ _ ⟨s, hs, hmagic, hk, by decide⟩
  exact hsound.divisor hblocks

end Miyabi.Fs
