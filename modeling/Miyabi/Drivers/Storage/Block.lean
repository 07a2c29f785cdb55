import Miyabi.Drivers.Storage.Ata

namespace Miyabi.Drivers.Storage

open Miyabi.Base Miyabi.Base.Memory

-- The values that the read pointer of a device takes besides NULL.
inductive BlockReader where
  | ataBlockRead
  deriving DecidableEq

structure BlockDev where
  name : String
  sectorSize : BitVec 32
  totalSectors : BitVec 64
  startLba : BitVec 64
  read : Option BlockReader
  deriving DecidableEq

def maxBlockDevices : Nat := 16

-- The first num_block_devices slots of the table.
abbrev BlockDevices := List BlockDev

def registerBlockDevice (dev : BlockDev) (devices : BlockDevices) : Int × BlockDevices :=
  if maxBlockDevices ≤ devices.length then (-1, devices)
  else (devices.length, devices ++ [dev])

def blockRead (dev : Option BlockDev) (lba : BitVec 64) (count : BitVec 32) (buf : BitVec 64)
    (s : Machine) : Bool × Machine :=
  match dev with
  | none => (false, s)
  | some dev =>
      match dev.read with
      | none => (false, s)
      | some .ataBlockRead => ataBlockRead (dev.startLba + lba) count buf s

-- The raw drive, as ata_init registers it.
def sda : BlockDev := ⟨"sda", 512, 131072, 0, some .ataBlockRead⟩

def ataInit (devices : BlockDevices) : BlockDevices := (registerBlockDevice sda devices).2

section BlockRead

variable (lba buf : BitVec 64) {s s' : Machine}

-- After `done` sectors the loop asks for those that are left, one a turn.
theorem ataBlockReadFrom_commanded (turns start : Nat) (hturns : start + turns < 2 ^ 32)
    (h : ataBlockReadFrom lba buf turns (BitVec.ofNat 32 start) s = (true, s')) :
    s'.drive.commanded = s.drive.commanded ++
      (List.range' start turns).map (fun i => (lba + BitVec.ofNat 64 i).setWidth 28) := by
  induction turns generalizing start s with
  | zero =>
      cases h
      simp
  | succ turns ih =>
      have hwide : (BitVec.ofNat 32 start).setWidth 64 = BitVec.ofNat 64 start := by
        apply BitVec.eq_of_toNat_eq
        simp only [BitVec.toNat_setWidth, BitVec.toNat_ofNat]
        omega
      have hnext : BitVec.ofNat 32 start + 1 = BitVec.ofNat 32 (start + 1) := by
        rw [BitVec.ofNat_add]
        rfl
      rw [ataBlockReadFrom, hwide, hnext] at h
      rcases hr : ataReadSector28 ((lba + BitVec.ofNat 64 start).setWidth 32)
        (buf + (BitVec.ofNat 32 start * 512).setWidth 64) s with ⟨_ | _, mid⟩
      · simp only [hr] at h
        cases h
      · simp only [hr] at h
        rw [ih (start + 1) (by omega) h, (ataReadSector28_done hr).commanded,
          BitVec.setWidth_setWidth_of_le _ (by omega), List.range'_succ, List.map_cons,
          List.append_assoc, List.singleton_append]

theorem ataBlockRead_commanded (count : BitVec 32) (h : ataBlockRead lba count buf s = (true, s')) :
    s'.drive.commanded = s.drive.commanded ++
      (List.range count.toNat).map (fun i => (lba + BitVec.ofNat 64 i).setWidth 28) := by
  rw [List.range_eq_range']
  exact ataBlockReadFrom_commanded lba buf count.toNat 0 (by omega) h

-- On a drive that is always ready, and a buffer that does not come to NULL, every read
-- succeeds.
theorem ataBlockReadFrom_ready (hbuf : 0 < buf.toNat) (hend : buf.toNat + 2 ^ 32 ≤ 2 ^ 64)
    (turns : Nat) (i : BitVec 32) (hready : s.drive.Ready) :
    ∃ s', ataBlockReadFrom lba buf turns i s = (true, s') := by
  induction turns generalizing i s with
  | zero => exact ⟨s, rfl⟩
  | succ turns ih =>
      have hbuffer : buf + (i * 512).setWidth 64 ≠ (0 : BitVec 64) := by
        intro h
        have hlt := (i * 512).isLt
        have hzero : (0 : BitVec 64).toNat = 0 := rfl
        have hnat := congrArg BitVec.toNat h
        rw [BitVec.toNat_add, BitVec.toNat_setWidth, hzero] at hnat
        omega
      obtain ⟨mid, hmid⟩ : ∃ mid, ataReadSector28 ((lba + i.setWidth 64).setWidth 32)
          (buf + (i * 512).setWidth 64) s = (true, mid) := ataReadSector28_ready hbuffer hready
      have hstatus := (ataReadSector28_done hmid).status
      obtain ⟨s', hs'⟩ := ih (s := mid) (i + 1) (fun n => by rw [hstatus]; exact hready n)
      refine ⟨s', ?_⟩
      simp only [ataBlockReadFrom, hmid]
      exact hs'

end BlockRead

-- The sectors whose reads were commanded between two states.
def sectorsRead (s s' : Machine) : List (BitVec 28) :=
  s'.drive.commanded.drop s.drive.commanded.length

-- A successful call commands the reads of consecutive sectors from
-- start_lba + lba on, in 64 bits, of which the drive gets the low 28.
theorem blockRead_sectorsRead {dev : BlockDev} (hread : dev.read = some .ataBlockRead)
    {lba buf : BitVec 64} {count : BitVec 32} {s s' : Machine}
    (h : blockRead (some dev) lba count buf s = (true, s')) :
    sectorsRead s s' = (List.range count.toNat).map
      (fun i => (dev.startLba + lba + BitVec.ofNat 64 i).setWidth 28) := by
  simp only [blockRead, hread] at h
  rw [sectorsRead, ataBlockRead_commanded _ _ _ h, List.drop_left]

end Miyabi.Drivers.Storage
