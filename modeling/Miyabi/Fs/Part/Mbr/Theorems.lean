import Miyabi.Fs.Part.Mbr

namespace Miyabi.Fs.Part

open Miyabi.Base Miyabi.Base.Memory Miyabi.Drivers.Storage

section Devices

variable {sector : Sector} {stack : BitVec 64}

theorem registerBlockDevice_devices (dev : BlockDev) (devices : BlockDevices) :
    ∃ new, (registerBlockDevice dev devices).2 = devices ++ new ∧ ∀ d ∈ new, d = dev := by
  rw [registerBlockDevice]
  split
  · exact ⟨[], (List.append_nil _).symm, fun d hd => absurd hd List.not_mem_nil⟩
  · exact ⟨[dev], rfl, fun d hd => List.mem_singleton.mp hd⟩

variable (sector stack) in
theorem mbrEntries_devices (turns i : Nat) (st : Storage) :
    ∃ new, (mbrEntries sector stack turns i st).devices = st.devices ++ new ∧
      ∀ dev ∈ new, ∃ j, dev = partDev sector j := by
  induction turns generalizing i st with
  | zero => exact ⟨[], (List.append_nil _).symm, fun d hd => absurd hd List.not_mem_nil⟩
  | succ turns ih =>
      simp only [mbrEntries]
      by_cases hunused : partitionType sector (mbrPartition i) = 0
      · rw [if_pos hunused]
        exact ih (i + 1) st
      · rw [if_neg hunused]
        by_cases hgpt : partitionType sector (mbrPartition i) = gptProtective
        · rw [if_pos hgpt]
          refine ⟨[], ?_, fun d hd => absurd hd List.not_mem_nil⟩
          cases gptParse stack st.machine <;> exact (List.append_nil _).symm
        · rw [if_neg hgpt]
          obtain ⟨first, hfirst, hdev⟩ := registerBlockDevice_devices (partDev sector i) st.devices
          obtain ⟨rest, hrest, hdevs⟩ := ih (i + 1)
            { st with devices := (registerBlockDevice (partDev sector i) st.devices).2 }
          refine ⟨first ++ rest, ?_, fun d hd => ?_⟩
          · rw [hrest, hfirst, List.append_assoc]
          · rcases List.mem_append.mp hd with h | h
            · exact ⟨i, hdev d h⟩
            · exact hdevs d h

-- The devices that mbr_parse adds to the table.
def registered (sector : Sector) (stack : BitVec 64) (st : Storage) : List BlockDev :=
  (mbrParse sector stack st).devices.drop st.devices.length

-- Each of them is that of an entry.
theorem registered_partDev {st : Storage} {dev : BlockDev} (h : dev ∈ registered sector stack st) :
    ∃ i, dev = partDev sector i := by
  rw [registered, mbrParse] at h
  split at h
  · rw [List.drop_length] at h
    cases h
  · obtain ⟨new, hnew, hdevs⟩ := mbrEntries_devices sector stack 4 0 st
    rw [hnew, List.drop_left] at h
    exact hdevs dev h

end Devices

-- The sectors of a device, as absolute numbers.
def HasSector (dev : BlockDev) (sector : Nat) : Prop :=
  dev.startLba.toNat ≤ sector ∧ sector < dev.startLba.toNat + dev.totalSectors.toNat

-- The call returned 0, or read sectors of the device only.
def ReadConfined (dev : BlockDev) (s : Machine) (r : Bool × Machine) : Prop :=
  r.1 = false ∨ ∀ sector ∈ sectorsRead s r.2, HasSector dev sector.toNat

theorem sector_inside_iff (dev : BlockDev) :
    (∀ sector, HasSector dev sector → sector < sda.totalSectors.toNat) ↔
      dev.totalSectors.toNat = 0 ∨ dev.startLba.toNat + dev.totalSectors.toNat ≤ sda.totalSectors.toNat := by
  constructor
  · intro h
    have hlast := h (dev.startLba.toNat + dev.totalSectors.toNat - 1)
    simp only [HasSector] at hlast
    omega
  · intro h sector hs
    simp only [HasSector] at hs
    omega

-- The sector that the drive is asked for in the i-th turn.
theorem sector_toNat (start lba : BitVec 64) (i : Nat) :
    ((start + lba + BitVec.ofNat 64 i).setWidth 28).toNat =
      (start.toNat + lba.toNat % 2 ^ 28 + i) % 2 ^ 28 := by
  simp only [BitVec.toNat_setWidth, BitVec.toNat_add, BitVec.toNat_ofNat]
  omega

theorem readConfined_iff {dev : BlockDev} (hread : dev.read = some .ataBlockRead)
    (hinside : dev.totalSectors.toNat = 0 ∨
      dev.startLba.toNat + dev.totalSectors.toNat ≤ sda.totalSectors.toNat)
    (lba : BitVec 64) (count : BitVec 32) :
    (∀ buf s, ReadConfined dev s (blockRead (some dev) lba count buf s)) ↔
      count.toNat = 0 ∨ lba.toNat % 2 ^ 28 + count.toNat ≤ dev.totalSectors.toNat := by
  have hsda : sda.totalSectors.toNat = 131072 := rfl
  rw [hsda] at hinside
  constructor
  · intro hall
    let s := sampleMachine 0 (fun _ => 0)
    obtain ⟨s', hs'⟩ : ∃ s', blockRead (some dev) lba count 1 s = (true, s') := by
      simp only [blockRead, hread]
      exact ataBlockReadFrom_ready _ _ (by decide) (by decide) _ _ (fun _ => rfl)
    have hconfined := hall 1 s
    rw [ReadConfined, hs'] at hconfined
    rcases hconfined with hfail | hsectors
    · cases hfail
    · rw [blockRead_sectorsRead hread hs'] at hsectors
      have hturn : ∀ i < count.toNat,
          HasSector dev ((dev.startLba.toNat + lba.toNat % 2 ^ 28 + i) % 2 ^ 28) := by
        intro i hi
        rw [← sector_toNat]
        exact hsectors _ (List.mem_map.mpr ⟨i, List.mem_range.mpr hi, rfl⟩)
      by_contra hout
      rw [not_or, not_le] at hout
      -- the first turn behind the last sector of the device
      have hfirst := hturn 0 (by omega)
      have hbehind := hturn (dev.totalSectors.toNat - lba.toNat % 2 ^ 28)
      simp only [HasSector] at hfirst hbehind
      omega
  · intro hcount buf s
    rcases hr : blockRead (some dev) lba count buf s with ⟨_ | _, s'⟩
    · exact Or.inl rfl
    · refine Or.inr fun sector hs => ?_
      rw [blockRead_sectorsRead hread hr] at hs
      obtain ⟨i, hi, rfl⟩ := List.mem_map.mp hs
      have hlt := List.mem_range.mp hi
      rw [sector_toNat, HasSector]
      omega

-- A partition stays inside its range, and its range inside the disk, exactly
-- under these conditions on its entry and on the call.
theorem partition_confined_iff (sector : Sector) (stack : BitVec 64) (st : Storage) (dev : BlockDev)
    (hdev : dev ∈ registered sector stack st) (lba : BitVec 64) (count : BitVec 32) :
    ((∀ buf s, ReadConfined dev s (blockRead (some dev) lba count buf s)) ∧
        ∀ sector, HasSector dev sector → sector < sda.totalSectors.toNat) ↔
      (dev.totalSectors.toNat = 0 ∨
        dev.startLba.toNat + dev.totalSectors.toNat ≤ sda.totalSectors.toNat) ∧
      (count.toNat = 0 ∨ lba.toNat % 2 ^ 28 + count.toNat ≤ dev.totalSectors.toNat) := by
  obtain ⟨i, rfl⟩ := registered_partDev hdev
  rw [sector_inside_iff, and_comm]
  exact and_congr_right fun hinside => readConfined_iff rfl hinside lba count

section Samples

-- One Linux partition, of 1024 sectors from sector 2048 on.
def sampleMbr : Sector :=
  let sector : Sector := Memory.store16 (fun _ => 0) 510 mbrMagic
  ((sector.store8 450 0x83).store32 454 2048).store32 458 1024

theorem sampleMbr_registered (machine : Machine) :
    partDev sampleMbr 0 ∈ registered sampleMbr 0 ⟨[], machine⟩ := by
  have hmagic : mbrSignature sampleMbr = mbrMagic := by decide +kernel
  have hkind : partitionType sampleMbr (mbrPartition 0) = 0x83 := by decide +kernel
  have hunused : ∀ i, 0 < i → i < 4 → partitionType sampleMbr (mbrPartition i) = 0 := by
    intro i hpos hi
    interval_cases i <;> decide +kernel
  simp [registered, mbrParse, hmagic, mbrEntries, hkind, hunused, gptProtective, registerBlockDevice,
    maxBlockDevices]

theorem sampleMbr_inside :
    (partDev sampleMbr 0).totalSectors.toNat = 0 ∨
      (partDev sampleMbr 0).startLba.toNat + (partDev sampleMbr 0).totalSectors.toNat ≤
        sda.totalSectors.toNat := by
  decide +kernel

theorem partition_confined_iff_last :
    ReadConfined (partDev sampleMbr 0) (sampleMachine 0 (fun _ => 0))
      (blockRead (some (partDev sampleMbr 0)) 1023 1 0x7000 (sampleMachine 0 (fun _ => 0))) :=
  ((partition_confined_iff sampleMbr 0 ⟨[], sampleMachine 0 (fun _ => 0)⟩ (partDev sampleMbr 0)
    (sampleMbr_registered _) 1023 1).mpr ⟨sampleMbr_inside, by decide +kernel⟩).1 _ _

-- The next sector is read as well, and the call returns 1.
theorem partition_left :
    ¬∀ (sector : Sector) (stack : BitVec 64) (st : Storage) (dev : BlockDev),
      dev ∈ registered sector stack st → ∀ (lba : BitVec 64) (count : BitVec 32),
        (∀ buf s, ReadConfined dev s (blockRead (some dev) lba count buf s)) ∧
          ∀ sector, HasSector dev sector → sector < sda.totalSectors.toNat := by
  intro hall
  have hconfined := (hall sampleMbr 0 ⟨[], sampleMachine 0 (fun _ => 0)⟩ _ (sampleMbr_registered _)
    1024 1).1
  have hcount := (readConfined_iff rfl sampleMbr_inside 1024 1).mp hconfined
  exact absurd hcount (by decide +kernel)

end Samples

end Miyabi.Fs.Part
