import Miyabi.Base.Memory
import Mathlib.Tactic.IntervalCases

namespace Miyabi.Drivers.Storage

open Miyabi.Base Miyabi.Base.Memory

abbrev Sector := Memory 9

-- Ports 0x1F0 to 0x1F7 of the primary bus, and 0x3F6.
inductive AtaPort where
  | data | errFeatures | sectCount | lbaLow | lbaMid | lbaHigh | driveSel | commandStat | altStat

def ataSrErr : BitVec 8 := 0x01
def ataSrDrq : BitVec 8 := 0x08
def ataSrDf : BitVec 8 := 0x20
def ataSrBsy : BitVec 8 := 0x80

def ataCmdReadSectors : BitVec 8 := 0x20

def ataPollLimit : Nat := 1000000

-- The master drive. A read command takes its sector from the registers, and
-- the data port then delivers the words of that sector. `status` is what the
-- reads of the two status ports find, in their order.
structure Drive where
  image : BitVec 28 → Sector
  status : Nat → BitVec 8
  polls : Nat
  errFeatures : BitVec 8
  sectCount : BitVec 8
  lbaLow : BitVec 8
  lbaMid : BitVec 8
  lbaHigh : BitVec 8
  driveSel : BitVec 8
  sector : BitVec 28
  words : Nat
  commanded : List (BitVec 28)

namespace Drive

-- The 28-bit sector number in the registers.
def lba28 (d : Drive) : BitVec 28 := d.driveSel.setWidth 4 ++ d.lbaHigh ++ d.lbaMid ++ d.lbaLow

def outb (d : Drive) (port : AtaPort) (val : BitVec 8) : Drive :=
  match port with
  | .errFeatures => { d with errFeatures := val }
  | .sectCount => { d with sectCount := val }
  | .lbaLow => { d with lbaLow := val }
  | .lbaMid => { d with lbaMid := val }
  | .lbaHigh => { d with lbaHigh := val }
  | .driveSel => { d with driveSel := val }
  | .commandStat =>
      if val = ataCmdReadSectors then
        { d with sector := d.lba28, words := 0, commanded := d.commanded ++ [d.lba28] }
      else d
  | .data | .altStat => d

def inb (d : Drive) : BitVec 8 × Drive := (d.status d.polls, { d with polls := d.polls + 1 })

def inw (d : Drive) : BitVec 16 × Drive :=
  ((d.image d.sector).load16 (BitVec.ofNat 9 (2 * d.words)), { d with words := d.words + 1 })

end Drive

structure Machine where
  mem : Memory 64
  drive : Drive

-- Four reads of the alternate status.
def ataIoWait (d : Drive) : Drive := d.inb.2.inb.2.inb.2.inb.2

-- Both waits end on a missing drive, on an error and after ATA_POLL_LIMIT reads.
def ataPoll (done : BitVec 8 → Bool) : Nat → Drive → Bool × Drive
  | 0, d => (false, d)
  | fuel + 1, d =>
      let (status, d) := d.inb
      if status = 0 ∨ status &&& (ataSrErr ||| ataSrDf) ≠ 0 then (false, d)
      else if done status then (true, d)
      else ataPoll done fuel d

def ataWaitReady (d : Drive) : Bool × Drive :=
  ataPoll (fun status => status &&& ataSrBsy = 0) ataPollLimit d

def ataWaitDrq (d : Drive) : Bool × Drive :=
  ataPoll (fun status => status &&& ataSrDrq ≠ 0) ataPollLimit d

-- The registers and the command that ask for one sector.
def ataCommandRead (lba : BitVec 32) (d : Drive) : Drive :=
  let d := d.outb .driveSel (((0xE0 : BitVec 32) ||| ((lba >>> 24) &&& 0x0F)).setWidth 8)
  let d := ataIoWait d
  let d := d.outb .errFeatures 0x00
  let d := d.outb .sectCount 1
  let d := d.outb .lbaLow ((lba &&& 0xFF).setWidth 8)
  let d := d.outb .lbaMid (((lba >>> 8) &&& 0xFF).setWidth 8)
  let d := d.outb .lbaHigh (((lba >>> 16) &&& 0xFF).setWidth 8)
  let d := d.outb .commandStat ataCmdReadSectors
  ataIoWait d

def readWords (buffer : BitVec 64) : Nat → Machine → Machine
  | 0, s => s
  | n + 1, s =>
      let s := readWords buffer n s
      let (word, d) := s.drive.inw
      ⟨s.mem.store16 (buffer + BitVec.ofNat 64 (2 * n)) word, d⟩

def ataReadSector28 (lba : BitVec 32) (buffer : BitVec 64) (s : Machine) : Bool × Machine :=
  if buffer = 0 then (false, s)
  else
    match ataWaitReady s.drive with
    | (false, d) => (false, { s with drive := d })
    | (true, d) =>
        match ataWaitDrq (ataCommandRead lba d) with
        | (false, d) => (false, { s with drive := d })
        | (true, d) => (true, readWords buffer 256 { s with drive := d })

def ataBlockReadFrom (lba buf : BitVec 64) : Nat → BitVec 32 → Machine → Bool × Machine
  | 0, _, s => (true, s)
  | turns + 1, i, s =>
      match ataReadSector28 ((lba + i.setWidth 64).setWidth 32) (buf + (i * 512).setWidth 64) s with
      | (false, s) => (false, s)
      | (true, s) => ataBlockReadFrom lba buf turns (i + 1) s

def ataBlockRead (lba : BitVec 64) (count : BitVec 32) (buf : BitVec 64) (s : Machine) :
    Bool × Machine :=
  ataBlockReadFrom lba buf count.toNat 0 s

section Polling

variable (done : BitVec 8 → Bool) (d : Drive)

theorem ataPoll_succ (fuel : Nat) :
    ataPoll done (fuel + 1) d =
      if d.status d.polls = 0 ∨ d.status d.polls &&& (ataSrErr ||| ataSrDf) ≠ 0 then
        (false, { d with polls := d.polls + 1 })
      else if done (d.status d.polls) then (true, { d with polls := d.polls + 1 })
      else ataPoll done fuel { d with polls := d.polls + 1 } := rfl

theorem ataPoll_polls (fuel : Nat) : ∃ n, (ataPoll done fuel d).2 = { d with polls := n } := by
  induction fuel generalizing d with
  | zero => exact ⟨d.polls, rfl⟩
  | succ fuel ih =>
      rw [ataPoll_succ]
      by_cases hfault : d.status d.polls = 0 ∨ d.status d.polls &&& (ataSrErr ||| ataSrDf) ≠ 0
      · rw [if_pos hfault]
        exact ⟨d.polls + 1, rfl⟩
      · rw [if_neg hfault]
        by_cases hdone : done (d.status d.polls) = true
        · rw [if_pos hdone]
          exact ⟨d.polls + 1, rfl⟩
        · rw [if_neg hdone]
          exact ih { d with polls := d.polls + 1 }

theorem ataWaitReady_polls : ∃ n, (ataWaitReady d).2 = { d with polls := n } :=
  ataPoll_polls _ d ataPollLimit

theorem ataWaitDrq_polls : ∃ n, (ataWaitDrq d).2 = { d with polls := n } :=
  ataPoll_polls _ d ataPollLimit

-- The drive is never busy and always has data.
def Drive.Ready : Prop := ∀ n, d.status n = 0x48

-- Such a drive with an image, and zeros in its registers.
def readyDrive (image : BitVec 28 → Sector) : Drive where
  image := image
  status _ := 0x48
  polls := 0
  errFeatures := 0
  sectCount := 0
  lbaLow := 0
  lbaMid := 0
  lbaHigh := 0
  driveSel := 0
  sector := 0
  words := 0
  commanded := []

variable {done d}

theorem ataPoll_ready (h : d.Ready) (hdone : done 0x48 = true) (fuel : Nat) :
    (ataPoll done (fuel + 1) d).1 = true := by
  have hfault : ¬((0x48 : BitVec 8) = 0 ∨ (0x48 : BitVec 8) &&& (ataSrErr ||| ataSrDf) ≠ 0) := by
    decide
  rw [ataPoll_succ, h d.polls, if_neg hfault, if_pos hdone]

theorem ataWaitReady_ready (h : d.Ready) : (ataWaitReady d).1 = true :=
  ataPoll_ready h (by decide) 999999

theorem ataWaitDrq_ready (h : d.Ready) : (ataWaitDrq d).1 = true :=
  ataPoll_ready h (by decide) 999999

end Polling

-- The driver's masks and shifts put the low 28 bits of `lba` in the registers.
theorem lba28_registers (lba : BitVec 32) :
    (((0xE0 : BitVec 32) ||| ((lba >>> 24) &&& 0x0F)).setWidth 8).setWidth 4 ++
        ((lba >>> 16) &&& 0xFF).setWidth 8 ++ ((lba >>> 8) &&& 0xFF).setWidth 8 ++
        (lba &&& 0xFF).setWidth 8 = lba.setWidth 28 := by
  have hsel : (((0xE0 : BitVec 32) ||| ((lba >>> 24) &&& 0x0F)).setWidth 8).setWidth 4 = lba.extractLsb' 24 4 := by
    apply BitVec.eq_of_getLsbD_eq
    intro i hi
    interval_cases i <;> simp
  have hbyte (k : Nat) : ((lba >>> k) &&& 0xFF).setWidth 8 = lba.extractLsb' k 8 := by
    apply BitVec.eq_of_getLsbD_eq
    intro i hi
    interval_cases i <;> simp
  have hlow : (lba &&& 0xFF).setWidth 8 = lba.extractLsb' 0 8 := hbyte 0
  have happend {k l m n : Nat} (h : k = m + n) :
      lba.extractLsb' k l ++ lba.extractLsb' m n = lba.extractLsb' m (l + n) :=
    BitVec.extractLsb'_append_extractLsb'_eq_extractLsb' h
  have h16 : lba.extractLsb' 24 4 ++ lba.extractLsb' 16 8 = lba.extractLsb' 16 12 := happend rfl
  have h8 : lba.extractLsb' 16 12 ++ lba.extractLsb' 8 8 = lba.extractLsb' 8 20 := happend rfl
  have h0 : lba.extractLsb' 8 20 ++ lba.extractLsb' 0 8 = lba.extractLsb' 0 28 := happend rfl
  rw [hsel, hbyte, hbyte, hlow, h16, h8, h0]
  exact (BitVec.setWidth_eq_extractLsb' (by omega)).symm

theorem ataIoWait_eq (d : Drive) : ataIoWait d = { d with polls := d.polls + 4 } := rfl

theorem Drive.outb_read (d : Drive) :
    d.outb .commandStat ataCmdReadSectors =
      { d with sector := d.lba28, words := 0, commanded := d.commanded ++ [d.lba28] } := by
  rw [Drive.outb, if_pos rfl]

-- The command asks for the sector in the low 28 bits.
theorem ataCommandRead_eq (lba : BitVec 32) (d : Drive) :
    (ataCommandRead lba d).commanded = d.commanded ++ [lba.setWidth 28] ∧
      (ataCommandRead lba d).sector = lba.setWidth 28 ∧ (ataCommandRead lba d).words = 0 ∧
      (ataCommandRead lba d).image = d.image ∧ (ataCommandRead lba d).status = d.status := by
  have hlba := lba28_registers lba
  simp only [ataCommandRead, ataIoWait_eq, Drive.outb_read]
  simp only [Drive.outb, Drive.lba28, hlba, and_self]

-- Memory with the first n bytes of the sector at the buffer.
def withBytes (m : Memory 64) (buffer : BitVec 64) (sector : Sector) (n : Nat) : Memory 64 := fun x =>
  if InRange buffer n x then sector (BitVec.ofNat 9 (x - buffer).toNat) else m x

theorem withBytes_zero (m : Memory 64) (buffer : BitVec 64) (sector : Sector) :
    withBytes m buffer sector 0 = m := by
  funext x
  simp [withBytes, InRange]

theorem withBytes_word (m : Memory 64) (buffer : BitVec 64) (sector : Sector) {n : Nat}
    (hn : n < 256) :
    (withBytes m buffer sector (2 * n)).store16 (buffer + BitVec.ofNat 64 (2 * n))
        (sector.load16 (BitVec.ofNat 9 (2 * n))) =
      withBytes m buffer sector (2 * (n + 1)) := by
  funext x
  have hofs : (BitVec.ofNat 64 (2 * n)).toNat = 2 * n := by
    rw [BitVec.toNat_ofNat, Nat.mod_eq_of_lt (by omega)]
  have hlt := (x - buffer).isLt
  have hword : (x - (buffer + BitVec.ofNat 64 (2 * n))).toNat =
      (2 ^ 64 - 2 * n + (x - buffer).toNat) % 2 ^ 64 := by
    rw [← sub_sub, BitVec.toNat_sub, hofs]
  by_cases hin : InRange (buffer + BitVec.ofNat 64 (2 * n)) 2 x
  · have hi := hin
    rw [InRange, hword] at hi
    have hk : InRange buffer (2 * (n + 1)) x := by
      rw [InRange]
      omega
    rw [store16, store, if_pos hin, load_digit _ _ hin, ← BitVec.ofNat_add, withBytes, if_pos hk, hword]
    congr 2
    omega
  · have hsame : InRange buffer (2 * (n + 1)) x ↔ InRange buffer (2 * n) x := by
      rw [InRange, hword] at hin
      rw [InRange, InRange]
      omega
    rw [store16, store, if_neg hin]
    simp only [withBytes, hsame]

theorem readWords_drive (buffer : BitVec 64) (n : Nat) (s : Machine) :
    (readWords buffer n s).drive = { s.drive with words := s.drive.words + n } := by
  induction n with
  | zero => rfl
  | succ n ih =>
      simp only [readWords, Drive.inw]
      rw [ih]
      rfl

theorem readWords_mem (buffer : BitVec 64) (n : Nat) (hn : n ≤ 256) (s : Machine)
    (hwords : s.drive.words = 0) :
    (readWords buffer n s).mem =
      withBytes s.mem buffer (s.drive.image s.drive.sector) (2 * n) := by
  induction n with
  | zero => exact (withBytes_zero _ _ _).symm
  | succ n ih =>
      simp only [readWords, Drive.inw]
      rw [ih (by omega), readWords_drive]
      simp only [hwords, Nat.zero_add]
      exact withBytes_word _ _ _ (by omega)

-- What a read of a sector that succeeds does.
structure SectorRead (lba : BitVec 32) (buffer : BitVec 64) (s s' : Machine) : Prop where
  nonnull : buffer ≠ 0
  commanded : s'.drive.commanded = s.drive.commanded ++ [lba.setWidth 28]
  image : s'.drive.image = s.drive.image
  status : s'.drive.status = s.drive.status
  mem : s'.mem = withBytes s.mem buffer (s.drive.image (lba.setWidth 28)) 512

theorem ataReadSector28_done {lba : BitVec 32} {buffer : BitVec 64} {s s' : Machine}
    (h : ataReadSector28 lba buffer s = (true, s')) : SectorRead lba buffer s s' := by
  by_cases hbuffer : buffer = 0
  · rw [ataReadSector28, if_pos hbuffer] at h
    cases h
  · rw [ataReadSector28, if_neg hbuffer] at h
    obtain ⟨ready, hready⟩ := ataWaitReady_polls s.drive
    rcases hr : ataWaitReady s.drive with ⟨_ | _, d⟩
    · simp only [hr] at h
      cases h
    · simp only [hr] at h hready
      obtain ⟨drq, hdrq⟩ := ataWaitDrq_polls (ataCommandRead lba d)
      rcases hd : ataWaitDrq (ataCommandRead lba d) with ⟨_ | _, d'⟩
      · simp only [hd] at h
        cases h
      · simp only [hd, Prod.mk.injEq, true_and] at h hdrq
        obtain ⟨hcommanded, hsector, hwords, himage, hstatus⟩ := ataCommandRead_eq lba d
        have hmem := readWords_mem buffer 256 le_rfl ⟨s.mem, d'⟩ (by rw [hdrq, hwords])
        subst h
        refine ⟨hbuffer, ?_, ?_, ?_, ?_⟩
        · rw [readWords_drive, hdrq, hcommanded, hready]
        · rw [readWords_drive, hdrq, himage, hready]
        · rw [readWords_drive, hdrq, hstatus, hready]
        · rw [hmem, hdrq, hsector, himage, hready]

theorem ataReadSector28_ready {lba : BitVec 32} {buffer : BitVec 64} {s : Machine}
    (hbuffer : buffer ≠ 0) (hready : s.drive.Ready) :
    ∃ s', ataReadSector28 lba buffer s = (true, s') := by
  have hwait := ataWaitReady_ready hready
  obtain ⟨polls, hpolls⟩ := ataWaitReady_polls s.drive
  have hcommand : (ataCommandRead lba (ataWaitReady s.drive).2).Ready := by
    intro n
    obtain ⟨-, -, -, -, hstatus⟩ := ataCommandRead_eq lba (ataWaitReady s.drive).2
    rw [hstatus, hpolls]
    exact hready n
  have hdrq := ataWaitDrq_ready hcommand
  rw [ataReadSector28, if_neg hbuffer]
  rcases hr : ataWaitReady s.drive with ⟨_ | _, d⟩
  · simp [hr] at hwait
  · simp only [hr] at hdrq ⊢
    rcases hd : ataWaitDrq (ataCommandRead lba d) with ⟨_ | _, d'⟩
    · simp [hd] at hdrq
    · exact ⟨_, rfl⟩

end Miyabi.Drivers.Storage
