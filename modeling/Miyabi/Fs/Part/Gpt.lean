import Miyabi.Drivers.Storage.Block
import Mathlib.Data.Fin.VecNotation

namespace Miyabi.Fs.Part

open Miyabi.Base Miyabi.Base.Memory Miyabi.Drivers.Storage

-- include/fs/part/gpt.h: the packed structures as they are read through a pointer.

structure Guid where
  timeLow : BitVec 32
  timeMid : BitVec 16
  timeHiAndVersion : BitVec 16
  clockSeqHiAndReserved : BitVec 8
  clockSeqLow : BitVec 8
  node : Fin 6 → BitVec 8

section Header

variable {w : Nat} (m : Memory w) (header : BitVec w)

def signature : BitVec 64 := m.load64 (header + 0)
def headerSize : BitVec 32 := m.load32 (header + 12)
def myLba : BitVec 64 := m.load64 (header + 24)
def partitionEntryLba : BitVec 64 := m.load64 (header + 72)
def numPartitionEntries : BitVec 32 := m.load32 (header + 80)
def sizeOfPartitionEntry : BitVec 32 := m.load32 (header + 84)

def gptSignature : BitVec 64 := 0x5452415020494645

def sectorSize : BitVec 32 := 512
def gptEntrySize : BitVec 32 := 128

-- The tests of gpt_parse on a header.
def headerOk : Bool :=
  signature m header == gptSignature &&
    !(headerSize m header < 92 || sectorSize < headerSize m header || myLba m header != 1 ||
      numPartitionEntries m header == 0 || sizeOfPartitionEntry m header != gptEntrySize ||
      sectorSize % sizeOfPartitionEntry m header != 0)

end Header

section Entry

variable {w : Nat} (m : Memory w) (entry : BitVec w)

def partitionTypeGuid : Guid where
  timeLow := m.load32 (entry + 0)
  timeMid := m.load16 (entry + 4)
  timeHiAndVersion := m.load16 (entry + 6)
  clockSeqHiAndReserved := m (entry + 8)
  clockSeqLow := m (entry + 9)
  node := fun i => m (entry + 10 + BitVec.ofNat w i)

def startingLba : BitVec 64 := m.load64 (entry + 32)
def endingLba : BitVec 64 := m.load64 (entry + 40)

end Entry

def linuxDataGuid : Guid :=
  ⟨0x0FC63DAF, 0x8483, 0x4772, 0x8E, 0x79, ![0x3D, 0x69, 0xD8, 0x47, 0x7D, 0xE4]⟩

def guidEquals (a b : Guid) : Bool :=
  a.timeLow == b.timeLow && a.timeMid == b.timeMid && a.timeHiAndVersion == b.timeHiAndVersion &&
    a.clockSeqHiAndReserved == b.clockSeqHiAndReserved && a.clockSeqLow == b.clockSeqLow &&
    (List.finRange 6).all (fun i => a.node i == b.node i)

-- What gpt_parse does: a call of ata_read_sector28 and its result, the byte of
-- sector_buf at which an entry is examined, and the lines printed for it.
inductive GptEvent where
  | read (lba : BitVec 32) (ok : Bool)
  | entry (offset : BitVec 32)
  | partition (number start stop : BitVec 32) (linux : Bool)
  deriving DecidableEq

structure GptRun where
  returned : Bool
  events : List GptEvent
  machine : Machine

section Parse

variable (sectorBuf : BitVec 64)

-- An entry whose time_low and time_mid are zero is skipped.
def gptEntry (m : Memory 64) (entry : BitVec 64) (number : BitVec 32) : List GptEvent :=
  if (partitionTypeGuid m entry).timeLow = 0 ∧ (partitionTypeGuid m entry).timeMid = 0 then []
  else
    [.partition number ((startingLba m entry).setWidth 32) ((endingLba m entry).setWidth 32)
      (guidEquals (partitionTypeGuid m entry) linuxDataGuid)]

-- The loop over the entries of one sector. `header` still points to
-- sector_buf, so both fields come from the sector that was read last.
def gptEntries (m : Memory 64) : Nat → BitVec 32 → BitVec 32 → BitVec 32 × List GptEvent
  | 0, _, parsed => (parsed, [])
  | turns + 1, i, parsed =>
      if parsed < numPartitionEntries m sectorBuf then
        let offset := i * sizeOfPartitionEntry m sectorBuf
        let events := gptEntry m (sectorBuf + offset.setWidth 64) (parsed + 1)
        let (parsed, more) := gptEntries m turns (i + 1) (parsed + 1)
        (parsed, .entry offset :: events ++ more)
      else (parsed, [])

def gptArray (perSector : BitVec 32) : Nat → BitVec 64 → BitVec 32 → Machine → Option GptRun
  | 0, _, _, _ => none
  | fuel + 1, entryLba, parsed, s =>
      if parsed < numPartitionEntries s.mem sectorBuf then
        match ataReadSector28 (entryLba.setWidth 32) sectorBuf s with
        | (false, s) => some ⟨false, [.read (entryLba.setWidth 32) false], s⟩
        | (true, s) =>
            let (parsed, events) := gptEntries sectorBuf s.mem perSector.toNat 0 parsed
            match gptArray perSector fuel (entryLba + 1) parsed s with
            | none => none
            | some run =>
                some { run with events := .read (entryLba.setWidth 32) true :: (events ++ run.events) }
      else some ⟨true, [], s⟩

-- No run takes this many turns.
def gptFuel : Nat := 2 ^ 32 + 2

def gptParse (s : Machine) : Option GptRun :=
  match ataReadSector28 1 sectorBuf s with
  | (false, s) => some ⟨false, [.read 1 false], s⟩
  | (true, s) =>
      if headerOk s.mem sectorBuf then
        let perSector := sectorSize / sizeOfPartitionEntry s.mem sectorBuf
        match gptArray sectorBuf perSector gptFuel (partitionEntryLba s.mem sectorBuf) 0 s with
        | none => none
        | some run => some { run with events := .read 1 true :: run.events }
      else some ⟨false, [.read 1 true], s⟩

end Parse

end Miyabi.Fs.Part
