import Miyabi.Drivers.Storage.Block

namespace Miyabi.Drivers.Storage

open Miyabi.Base Miyabi.Base.Memory

-- Memory with the n sectors from `lba` on at the buffer.
def withSectors (m : Memory 64) (buf : BitVec 64) (image : BitVec 28 → Sector) (lba n : ℕ) :
    Memory 64 := fun x =>
  if InRange buf (512 * n) x then
    image (BitVec.ofNat 28 (lba + (x - buf).toNat / 512)) (BitVec.ofNat 9 (x - buf).toNat)
  else m x

-- What a call of ata_block_read owes: with 1, the sectors in the buffer and nothing else
-- written; 0 for a sector whose number has more than 28 bits.
structure Delivers (lba : BitVec 64) (count : BitVec 32) (buf : BitVec 64) (s : Machine) : Prop where
  sectors : ∀ s', ataBlockRead lba count buf s = (true, s') → ∀ i < count.toNat, ∀ j < 512,
    s'.mem (buf + BitVec.ofNat 64 (512 * i + j)) =
      s.drive.image (BitVec.ofNat 28 (lba.toNat + i)) (BitVec.ofNat 9 j)
  frame : ∀ s', ataBlockRead lba count buf s = (true, s') →
    KeepsOutside s.mem s'.mem buf (512 * count.toNat)
  reach : ∀ i < count.toNat, 2 ^ 28 ≤ lba.toNat + i → (ataBlockRead lba count buf s).1 = false

-- No sector, or sectors with 28-bit numbers and less than 2^32 bytes of them.
def Addressable (lba : BitVec 64) (count : BitVec 32) : Prop :=
  count.toNat = 0 ∨ lba.toNat + count.toNat ≤ 2 ^ 28 ∧ count.toNat ≤ 2 ^ 23

section Sectors

variable {lba buf : BitVec 64}

theorem withSectors_zero (m : Memory 64) (image : BitVec 28 → Sector) (lba : ℕ) :
    withSectors m buf image lba 0 = m := by
  funext x
  exact if_neg (Nat.not_lt_zero _)

-- One sector more.
theorem withSectors_succ (m : Memory 64) (image : BitVec 28 → Sector) (lba : ℕ) {n : ℕ}
    (hn : n < 2 ^ 23) :
    withBytes (withSectors m buf image lba n) (buf + BitVec.ofNat 64 (512 * n))
        (image (BitVec.ofNat 28 (lba + n))) 512 =
      withSectors m buf image lba (n + 1) := by
  funext x
  have hofs : (BitVec.ofNat 64 (512 * n)).toNat = 512 * n := by
    rw [BitVec.toNat_ofNat, Nat.mod_eq_of_lt (by omega)]
  have hlt := (x - buf).isLt
  have hsector : (x - (buf + BitVec.ofNat 64 (512 * n))).toNat =
      (2 ^ 64 - 512 * n + (x - buf).toNat) % 2 ^ 64 := by
    rw [← sub_sub, BitVec.toNat_sub, hofs]
  by_cases hin : InRange (buf + BitVec.ofNat 64 (512 * n)) 512 x
  · have hi := hin
    rw [InRange, hsector] at hi
    have hall : InRange buf (512 * (n + 1)) x := by
      rw [InRange]
      omega
    have hnumber : (x - buf).toNat / 512 = n := by omega
    have hbyte : BitVec.ofNat 9 ((2 ^ 64 - 512 * n + (x - buf).toNat) % 2 ^ 64) =
        BitVec.ofNat 9 (x - buf).toNat := by
      apply BitVec.eq_of_toNat_eq
      rw [BitVec.toNat_ofNat, BitVec.toNat_ofNat]
      omega
    rw [withBytes, if_pos hin, withSectors, if_pos hall, hnumber, hsector, hbyte]
  · have hsame : InRange buf (512 * (n + 1)) x ↔ InRange buf (512 * n) x := by
      rw [InRange, hsector] at hin
      rw [InRange, InRange]
      omega
    rw [withBytes, if_neg hin]
    simp only [withSectors, hsame]

theorem sector_number (i : ℕ) :
    ((lba + BitVec.ofNat 64 i).setWidth 32).setWidth 28 = BitVec.ofNat 28 (lba.toNat + i) := by
  apply BitVec.eq_of_toNat_eq
  simp only [BitVec.toNat_setWidth, BitVec.toNat_add, BitVec.toNat_ofNat]
  omega

-- The turn that reads sector number `start` of the request.
theorem ataBlockReadFrom_turn {turns start : ℕ} (hstart : start < 2 ^ 32) {s s' : Machine}
    (h : ataBlockReadFrom lba buf (turns + 1) (BitVec.ofNat 32 start) s = (true, s')) :
    ∃ mid, mid.mem = withBytes s.mem (buf + (BitVec.ofNat 32 (512 * start)).setWidth 64)
        (s.drive.image (BitVec.ofNat 28 (lba.toNat + start))) 512 ∧
      mid.drive.image = s.drive.image ∧
      ataBlockReadFrom lba buf turns (BitVec.ofNat 32 (start + 1)) mid = (true, s') := by
  have hwide : (BitVec.ofNat 32 start).setWidth 64 = BitVec.ofNat 64 start := by
    apply BitVec.eq_of_toNat_eq
    simp only [BitVec.toNat_setWidth, BitVec.toNat_ofNat]
    omega
  have hnext : BitVec.ofNat 32 start + 1 = BitVec.ofNat 32 (start + 1) := by
    rw [BitVec.ofNat_add]
    rfl
  have hofs : BitVec.ofNat 32 start * 512 = BitVec.ofNat 32 (512 * start) := by
    rw [mul_comm 512 start, BitVec.ofNat_mul]
    rfl
  rw [ataBlockReadFrom, hwide, hnext, hofs] at h
  rcases hr : ataReadSector28 ((lba + BitVec.ofNat 64 start).setWidth 32)
    (buf + (BitVec.ofNat 32 (512 * start)).setWidth 64) s with ⟨_ | _, mid⟩
  · simp only [hr] at h
    cases h
  · simp only [hr] at h
    have hdone := ataReadSector28_done hr
    refine ⟨mid, ?_, hdone.image, h⟩
    rw [hdone.mem, sector_number]

-- With offsets below 2^32 the sectors fill the buffer in order.
theorem ataBlockReadFrom_sectors {m : Memory 64} {image : BitVec 28 → Sector} (turns : ℕ) :
    ∀ {start : ℕ} {s s' : Machine}, start + turns ≤ 2 ^ 23 → s.drive.image = image →
      s.mem = withSectors m buf image lba.toNat start →
      ataBlockReadFrom lba buf turns (BitVec.ofNat 32 start) s = (true, s') →
      s'.mem = withSectors m buf image lba.toNat (start + turns) := by
  induction turns with
  | zero =>
    intro start s s' _ _ hmem h
    cases h
    exact hmem
  | succ turns ih =>
    intro start s s' hturns himage hmem h
    obtain ⟨mid, hmid, himage', hrest⟩ := ataBlockReadFrom_turn (by omega) h
    have hofs : (BitVec.ofNat 32 (512 * start)).setWidth 64 = BitVec.ofNat 64 (512 * start) := by
      apply BitVec.eq_of_toNat_eq
      simp only [BitVec.toNat_setWidth, BitVec.toNat_ofNat]
      omega
    rw [hofs, hmem, himage, withSectors_succ _ _ _ (by omega)] at hmid
    have hend := ih (by omega) (himage'.trans himage) hmid hrest
    rw [hend]
    congr 1
    omega

-- No call writes further than 2^32 bytes.
theorem ataBlockReadFrom_keeps (turns : ℕ) : ∀ {start : ℕ} {s s' : Machine}, start + turns ≤ 2 ^ 32 →
    ataBlockReadFrom lba buf turns (BitVec.ofNat 32 start) s = (true, s') →
    KeepsOutside s.mem s'.mem buf (2 ^ 32) ∧ s'.drive.image = s.drive.image := by
  induction turns with
  | zero =>
    intro start s s' _ h
    cases h
    exact ⟨fun _ _ => rfl, rfl⟩
  | succ turns ih =>
    intro start s s' hturns h
    obtain ⟨mid, hmid, himage, hrest⟩ := ataBlockReadFrom_turn (by omega) h
    obtain ⟨hkeeps, himage'⟩ := ih (by omega) hrest
    have hturn : KeepsOutside s.mem mid.mem buf (2 ^ 32) := by
      intro x hx
      rw [hmid]
      refine if_neg fun hin => hx (inRange_inner buf _ x ?_ hin)
      simp only [BitVec.toNat_setWidth, BitVec.toNat_ofNat]
      omega
    exact ⟨hturn.trans hkeeps, himage'.trans himage⟩

theorem ataBlockRead_sectors {count : BitVec 32} (hcount : count.toNat ≤ 2 ^ 23) {s s' : Machine}
    (h : ataBlockRead lba count buf s = (true, s')) :
    s'.mem = withSectors s.mem buf s.drive.image lba.toNat count.toNat := by
  have hturns : 0 + count.toNat ≤ 2 ^ 23 := by omega
  have hend := ataBlockReadFrom_sectors count.toNat hturns rfl (withSectors_zero _ _ _).symm h
  rwa [Nat.zero_add] at hend

theorem delivers_addressable {count : BitVec 32} (h : Addressable lba count) (s : Machine) :
    Delivers lba count buf s := by
  have hcount : count.toNat ≤ 2 ^ 23 := by
    rcases h with h | h
    · omega
    · omega
  have hmem : ∀ s', ataBlockRead lba count buf s = (true, s') →
      s'.mem = withSectors s.mem buf s.drive.image lba.toNat count.toNat :=
    fun _ => ataBlockRead_sectors hcount
  constructor
  case sectors =>
    intro s' hs' i hi j hj
    have hofs : (BitVec.ofNat 64 (512 * i + j)).toNat = 512 * i + j := by
      rw [BitVec.toNat_ofNat, Nat.mod_eq_of_lt (by omega)]
    have hin : InRange buf (512 * count.toNat) (buf + BitVec.ofNat 64 (512 * i + j)) :=
      inRange_add _ _ _ (by omega)
    have hsector : (512 * i + j) / 512 = i := by omega
    have hbyte : BitVec.ofNat 9 (512 * i + j) = BitVec.ofNat 9 j := by
      apply BitVec.eq_of_toNat_eq
      rw [BitVec.toNat_ofNat, BitVec.toNat_ofNat]
      omega
    rw [hmem s' hs', withSectors, if_pos hin, add_sub_cancel_left, hofs, hsector, hbyte]
  case frame =>
    intro s' hs' x hx
    rw [hmem s' hs']
    exact if_neg hx
  case reach =>
    intro i hi hfar
    rcases h with h | h
    · omega
    · omega

end Sectors

-- A drive that is always ready, with the same sector everywhere, and a memory of one byte.
def readyMachine (sector : Sector) (byte : BitVec 8) : Machine :=
  ⟨fun _ => byte, readyDrive fun _ => sector⟩

theorem readyMachine_reads (lba : BitVec 64) (count : BitVec 32) (sector : Sector) (byte : BitVec 8) :
    ∃ s', ataBlockRead lba count 1 (readyMachine sector byte) = (true, s') :=
  ataBlockReadFrom_ready lba 1 (by decide) (by decide) _ _ fun _ => rfl

-- Every call does what it owes exactly when the request is addressable.
theorem block_read_iff (lba : BitVec 64) (count : BitVec 32) :
    (∀ buf s, Delivers lba count buf s) ↔ Addressable lba count := by
  constructor
  · intro h
    by_contra hnot
    rw [Addressable, not_or, not_and_or, not_le, not_le] at hnot
    obtain ⟨hcount, hfar⟩ := hnot
    have hall := h 1 (readyMachine (fun _ => 0) 1)
    obtain ⟨s', hs'⟩ := readyMachine_reads lba count (fun _ => 0) 1
    by_cases hreach : 2 ^ 28 < lba.toNat + count.toNat
    · have hfail := hall.reach (count.toNat - 1) (by omega) (by omega)
      rw [hs'] at hfail
      cases hfail
    · -- The sector after 2^23 others is stored at the start of the buffer again.
      have hmany : 2 ^ 23 < count.toNat := by
        rcases hfar with hfar | hfar
        · exact absurd hfar hreach
        · exact hfar
      have hbyte := hall.sectors s' hs' (2 ^ 23) hmany 0 (by omega)
      have hcount : 0 + count.toNat ≤ 2 ^ 32 := by
        have := count.isLt
        omega
      have hkeeps := (ataBlockReadFrom_keeps count.toNat hcount hs').1
      rw [hkeeps _ (by decide)] at hbyte
      have hone : (1 : BitVec 8) = 0 := hbyte
      exact absurd hone (by decide)
  · intro h buf s
    exact delivers_addressable h s

-- One sector behind the last that 28 bits can number.
theorem block_read_wraps : ¬∀ buf s, Delivers 0x10000000 1 buf s := by
  intro h
  obtain ⟨s', hs'⟩ := readyMachine_reads 0x10000000 1 (fun _ => 0) 1
  have hfail := (h 1 (readyMachine (fun _ => 0) 1)).reach 0 (by decide) (by decide)
  rw [hs'] at hfail
  cases hfail

end Miyabi.Drivers.Storage
