import Miyabi.Fs.Part.Gpt

namespace Miyabi.Fs.Part

open Miyabi.Base Miyabi.Base.Memory Miyabi.Drivers.Storage

-- Two lists with the same split into a part that satisfies `P` and a rest that
-- does not start so are equal part by part.
theorem append_eq_append_iff_split {α : Type*} {P : α → Prop} {a b c d : List α}
    (ha : ∀ x ∈ a, P x) (hc : ∀ x ∈ c, P x) (hb : ∀ x ∈ b.head?, ¬P x) (hd : ∀ x ∈ d.head?, ¬P x) :
    a ++ b = c ++ d ↔ a = c ∧ b = d := by
  induction a generalizing c with
  | nil =>
      cases c with
      | nil => simp
      | cons y c =>
          refine ⟨fun h => ?_, fun h => by cases h.1⟩
          rw [List.nil_append] at h
          exact absurd (hc y (by simp)) (hb y (by simp [h]))
  | cons x a ih =>
      cases c with
      | nil =>
          refine ⟨fun h => ?_, fun h => by cases h.1⟩
          rw [List.nil_append] at h
          exact absurd (ha x (by simp)) (hd x (by simp [← h]))
      | cons y c =>
          simp only [List.cons_append, List.cons.injEq, and_assoc]
          rw [ih (fun z hz => ha z (by simp [hz])) (fun z hz => hc z (by simp [hz]))]

-- The sector is in memory at the buffer.
def Holds (m : Memory 64) (buf : BitVec 64) (sector : Sector) : Prop :=
  ∀ i < 512, m (buf + BitVec.ofNat 64 i) = sector (BitVec.ofNat 9 i)

theorem holds_withBytes (m : Memory 64) (buf : BitVec 64) (sector : Sector) :
    Holds (withBytes m buf sector 512) buf sector := by
  intro i hi
  rw [withBytes, if_pos (inRange_add buf 512 i hi), add_sub_cancel_left, BitVec.toNat_ofNat,
    Nat.mod_eq_of_lt (by omega)]

section Holding

variable {m : Memory 64} {buf : BitVec 64} {sector : Sector} (hm : Holds m buf sector)

include hm

theorem Holds.load (start n : Nat) (h : start + n ≤ 512) :
    Memory.load m (buf + BitVec.ofNat 64 start) n = Memory.load sector (BitVec.ofNat 9 start) n := by
  rw [Memory.load, Memory.load]
  congr 1
  apply littleEndian_congr
  intro i hi
  rw [add_assoc, ← BitVec.ofNat_add, ← BitVec.ofNat_add]
  exact hm _ (by omega)

-- The fields of the header at the buffer are those of the sector.
theorem Holds.signature : signature m buf = signature sector 0 := by
  have h := hm.load 0 8 (by omega)
  exact h

theorem Holds.headerSize : headerSize m buf = headerSize sector 0 := by
  have h := hm.load 12 4 (by omega)
  exact h

theorem Holds.myLba : myLba m buf = myLba sector 0 := by
  have h := hm.load 24 8 (by omega)
  exact h

theorem Holds.partitionEntryLba : partitionEntryLba m buf = partitionEntryLba sector 0 := by
  have h := hm.load 72 8 (by omega)
  exact h

theorem Holds.numPartitionEntries : numPartitionEntries m buf = numPartitionEntries sector 0 := by
  have h := hm.load 80 4 (by omega)
  exact h

theorem Holds.sizeOfPartitionEntry : sizeOfPartitionEntry m buf = sizeOfPartitionEntry sector 0 := by
  have h := hm.load 84 4 (by omega)
  exact h

theorem Holds.headerOk : headerOk m buf = headerOk sector 0 := by
  simp only [Part.headerOk, hm.signature, hm.headerSize, hm.myLba, hm.numPartitionEntries,
    hm.sizeOfPartitionEntry]

-- So are the fields of the entry at byte `start`.
theorem Holds.field {start : Nat} (hstart : start + 128 ≤ 512) (ofs n : Nat) (h : ofs + n ≤ 128) :
    Memory.load m (buf + BitVec.ofNat 64 start + BitVec.ofNat 64 ofs) n =
      Memory.load sector (BitVec.ofNat 9 start + BitVec.ofNat 9 ofs) n := by
  rw [add_assoc, ← BitVec.ofNat_add, ← BitVec.ofNat_add]
  exact hm.load (start + ofs) n (by omega)

theorem Holds.byte {start : Nat} (hstart : start + 128 ≤ 512) (ofs : Nat) (h : ofs < 128) :
    m (buf + BitVec.ofNat 64 start + BitVec.ofNat 64 ofs) =
      sector (BitVec.ofNat 9 start + BitVec.ofNat 9 ofs) := by
  rw [add_assoc, ← BitVec.ofNat_add, ← BitVec.ofNat_add]
  exact hm (start + ofs) (by omega)

theorem Holds.partitionTypeGuid {start : Nat} (hstart : start + 128 ≤ 512) :
    partitionTypeGuid m (buf + BitVec.ofNat 64 start) =
      partitionTypeGuid sector (BitVec.ofNat 9 start) := by
  have hnode : ∀ i : Fin 6, m (buf + BitVec.ofNat 64 start + 10 + BitVec.ofNat 64 i) =
      sector (BitVec.ofNat 9 start + 10 + BitVec.ofNat 9 i) := by
    intro i
    have h := hm.byte hstart (10 + i) (by omega)
    rw [BitVec.ofNat_add, BitVec.ofNat_add, ← add_assoc, ← add_assoc] at h
    exact h
  simp only [Part.partitionTypeGuid, Guid.mk.injEq]
  refine ⟨hm.field hstart 0 4 (by omega), hm.field hstart 4 2 (by omega),
    hm.field hstart 6 2 (by omega), hm.byte hstart 8 (by omega), hm.byte hstart 9 (by omega), ?_⟩
  funext i
  exact hnode i

theorem Holds.startingLba {start : Nat} (hstart : start + 128 ≤ 512) :
    startingLba m (buf + BitVec.ofNat 64 start) = startingLba sector (BitVec.ofNat 9 start) :=
  hm.field hstart 32 8 (by omega)

theorem Holds.endingLba {start : Nat} (hstart : start + 128 ≤ 512) :
    endingLba m (buf + BitVec.ofNat 64 start) = endingLba sector (BitVec.ofNat 9 start) :=
  hm.field hstart 40 8 (by omega)

end Holding

section Spec

variable (sector : Sector) (i : Nat)

-- The i-th entry of a sector of the partition array.
def entryAt : BitVec 9 := BitVec.ofNat 9 (128 * i)

def typeGuid : BitVec 128 := Memory.load sector (entryAt i) 16

-- What is to be printed for the entry: nothing if its type GUID is zero.
def entryReport (number : BitVec 32) : List GptEvent :=
  if typeGuid sector i = 0 then []
  else
    [.partition number ((startingLba sector (entryAt i)).setWidth 32)
      ((endingLba sector (entryAt i)).setWidth 32)
      (guidEquals (partitionTypeGuid sector (entryAt i)) linuxDataGuid)]

def entryEvents (number : Nat) : List GptEvent :=
  .entry (BitVec.ofNat 32 (128 * i)) :: entryReport sector i (BitVec.ofNat 32 number)

-- The two fields that the code looks at are zero only with the whole GUID.
def GuidPlain : Prop :=
  (partitionTypeGuid sector (entryAt i)).timeLow = 0 →
    (partitionTypeGuid sector (entryAt i)).timeMid = 0 → typeGuid sector i = 0

variable {sector i}

theorem guid_fields_zero (h : typeGuid sector i = 0) :
    (partitionTypeGuid sector (entryAt i)).timeLow = 0 ∧
      (partitionTypeGuid sector (entryAt i)).timeMid = 0 :=
  ⟨load_zero_inner 0 (by omega) h, load_zero_inner 4 (by omega) h⟩

end Spec

-- The events of one sector, from its i-th entry on, are the right ones exactly
-- under these conditions on the fields that the loop reads there. `n` entries
-- of it belong to the array and `done` came before it.
structure SectorPlain (sector : Sector) (done n i : Nat) : Prop where
  count : ∀ j, i ≤ j → j < n → done + j < (numPartitionEntries sector 0).toNat
  stride : ∀ j, i ≤ j → j < n →
    BitVec.ofNat 32 j * sizeOfPartitionEntry sector 0 = BitVec.ofNat 32 (128 * j)
  guid : ∀ j, i ≤ j → j < n → GuidPlain sector j
  stop : n < 4 → (numPartitionEntries sector 0).toNat ≤ done + n

def sectorEvents (sector : Sector) (done n i : Nat) : List GptEvent :=
  (List.range' i (n - i)).flatMap (fun j => entryEvents sector j (done + j + 1))

section Entries

variable {m : Memory 64} {buf : BitVec 64} {sector : Sector}

def IsPartition : GptEvent → Prop
  | .partition _ _ _ _ => True
  | _ => False

def IsRead : GptEvent → Prop
  | .read _ _ => True
  | _ => False

theorem gptEntry_partition {entry : BitVec 64} {number : BitVec 32} :
    ∀ e ∈ gptEntry m entry number, IsPartition e := by
  intro e he
  rw [gptEntry] at he
  split at he
  · cases he
  · cases List.mem_singleton.mp he
    trivial

theorem entryReport_partition {i : Nat} {number : BitVec 32} :
    ∀ e ∈ entryReport sector i number, IsPartition e := by
  intro e he
  rw [entryReport] at he
  split at he
  · cases he
  · cases List.mem_singleton.mp he
    trivial

theorem gptEntries_head (turns : Nat) (i parsed : BitVec 32) :
    ∀ e ∈ (gptEntries buf m turns i parsed).2.head?, ¬IsPartition e := by
  intro e he
  cases turns with
  | zero => cases he
  | succ turns =>
      rw [gptEntries] at he
      split at he
      · cases he
        exact id
      · cases he

theorem sectorEvents_head (done n i : Nat) :
    ∀ e ∈ (sectorEvents sector done n i).head?, ¬IsPartition e := by
  intro e he
  rw [sectorEvents] at he
  cases hn : n - i with
  | zero =>
      rw [hn] at he
      cases he
  | succ left =>
      rw [hn] at he
      cases he
      exact id

theorem sectorEvents_cons {done n i : Nat} (hi : i < n) :
    sectorEvents sector done n i =
      entryEvents sector i (done + i + 1) ++ sectorEvents sector done n (i + 1) := by
  obtain ⟨left, hleft⟩ : ∃ left, n - i = left + 1 := ⟨n - i - 1, by omega⟩
  have hrest : n - (i + 1) = left := by omega
  rw [sectorEvents, sectorEvents, hleft, hrest, List.range'_succ, List.flatMap_cons]

-- One entry: the code examines the right bytes and prints the right lines.
theorem gptEntry_iff (hm : Holds m buf sector) {i : Nat} (hi : i < 4) (number : BitVec 32) :
    gptEntry m (buf + BitVec.ofNat 64 (128 * i)) number = entryReport sector i number ↔
      GuidPlain sector i := by
  have hstart : 128 * i + 128 ≤ 512 := by omega
  rw [gptEntry, hm.partitionTypeGuid hstart, hm.startingLba hstart, hm.endingLba hstart,
    entryReport]
  by_cases hfields : (partitionTypeGuid sector (entryAt i)).timeLow = 0 ∧
      (partitionTypeGuid sector (entryAt i)).timeMid = 0
  · by_cases hguid : typeGuid sector i = 0
    · have hplain : GuidPlain sector i := fun _ _ => hguid
      simp only [entryAt] at hfields
      rw [if_pos hfields, if_pos hguid]
      exact ⟨fun _ => hplain, fun _ => rfl⟩
    · have hplain : ¬GuidPlain sector i := fun h => hguid (h hfields.1 hfields.2)
      simp only [entryAt] at hfields
      rw [if_pos hfields, if_neg hguid]
      exact ⟨fun h => absurd h.symm (List.cons_ne_nil _ _), fun h => absurd h hplain⟩
  · have hguid : typeGuid sector i ≠ 0 := fun h => hfields (guid_fields_zero h)
    have hplain : GuidPlain sector i := fun hlow hmid => absurd ⟨hlow, hmid⟩ hfields
    simp only [entryAt] at hfields
    rw [if_neg hfields, if_neg hguid]
    exact ⟨fun _ => hplain, fun _ => rfl⟩

theorem SectorPlain.cons_iff {done n i : Nat} (hi : i < n) :
    SectorPlain sector done n i ↔
      done + i < (numPartitionEntries sector 0).toNat ∧
      BitVec.ofNat 32 i * sizeOfPartitionEntry sector 0 = BitVec.ofNat 32 (128 * i) ∧
      GuidPlain sector i ∧ SectorPlain sector done n (i + 1) := by
  constructor
  · intro h
    exact ⟨h.count i le_rfl hi, h.stride i le_rfl hi, h.guid i le_rfl hi,
      ⟨fun j hj => h.count j (by omega), fun j hj => h.stride j (by omega),
        fun j hj => h.guid j (by omega), h.stop⟩⟩
  · rintro ⟨hcount, hstride, hguid, h⟩
    refine ⟨fun j hij hj => ?_, fun j hij hj => ?_, fun j hij hj => ?_, h.stop⟩
    all_goals rcases Nat.eq_or_lt_of_le hij with rfl | hlt
    · exact hcount
    · exact h.count j hlt hj
    · exact hstride
    · exact h.stride j hlt hj
    · exact hguid
    · exact h.guid j hlt hj

theorem SectorPlain.nil_iff {done n : Nat} :
    SectorPlain sector done n n ↔ (n < 4 → (numPartitionEntries sector 0).toNat ≤ done + n) :=
  ⟨fun h => h.stop, fun h =>
    ⟨fun j _ _ => by omega, fun j _ _ => by omega, fun j _ _ => by omega, h⟩⟩

theorem gptEntries_iff (hm : Holds m buf sector) {done n : Nat} (hn : n ≤ 4)
    (hdone : done + n < 2 ^ 32) (turns i : Nat) (hturns : i + turns = 4) (hi : i ≤ n) :
    (gptEntries buf m turns (BitVec.ofNat 32 i) (BitVec.ofNat 32 (done + i))).2 =
      sectorEvents sector done n i ↔ SectorPlain sector done n i := by
  have hparsed : ∀ j ≤ n, (BitVec.ofNat 32 (done + j)).toNat = done + j := by
    intro j hj
    rw [BitVec.toNat_ofNat, Nat.mod_eq_of_lt (by omega)]
  induction turns generalizing i with
  | zero =>
      obtain rfl : i = n := by omega
      rw [SectorPlain.nil_iff, sectorEvents, Nat.sub_self]
      exact ⟨fun _ h => by omega, fun _ => rfl⟩
  | succ turns ih =>
      have htest : BitVec.ofNat 32 (done + i) < numPartitionEntries m buf ↔
          done + i < (numPartitionEntries sector 0).toNat := by
        rw [BitVec.lt_def, hparsed i hi, hm.numPartitionEntries]
      rw [gptEntries]
      simp only [htest]
      rcases Nat.eq_or_lt_of_le hi with rfl | hlt
      · -- the sector holds no further entry of the array
        rw [SectorPlain.nil_iff, sectorEvents, Nat.sub_self]
        by_cases hcount : done + i < (numPartitionEntries sector 0).toNat
        · rw [if_pos hcount]
          exact ⟨fun h => absurd h (List.cons_ne_nil _ _), fun h => by omega⟩
        · rw [if_neg hcount]
          exact ⟨fun _ _ => by omega, fun _ => rfl⟩
      · rw [SectorPlain.cons_iff hlt, sectorEvents_cons hlt]
        by_cases hcount : done + i < (numPartitionEntries sector 0).toNat
        · have hnext : BitVec.ofNat 32 i + 1 = BitVec.ofNat 32 (i + 1) := by
            rw [BitVec.ofNat_add]
            rfl
          have hnumber : BitVec.ofNat 32 (done + i) + 1 = BitVec.ofNat 32 (done + (i + 1)) := by
            rw [← add_assoc, BitVec.ofNat_add (done + i) 1]
            rfl
          rw [if_pos hcount, hnext, hnumber, hm.sizeOfPartitionEntry]
          simp only [entryEvents, List.cons_append, List.cons.injEq, GptEvent.entry.injEq]
          simp only [hcount, true_and]
          refine and_congr_right fun hstride => ?_
          have hwide : (BitVec.ofNat 32 (128 * i)).setWidth 64 = BitVec.ofNat 64 (128 * i) := by
            apply BitVec.eq_of_toNat_eq
            simp only [BitVec.toNat_setWidth, BitVec.toNat_ofNat]
            omega
          have hrest := ih (i + 1) (by omega) hlt
          rw [hstride, hwide, append_eq_append_iff_split gptEntry_partition entryReport_partition
            (gptEntries_head _ _ _) (sectorEvents_head _ _ _)]
          exact and_congr (gptEntry_iff hm (by omega) _) hrest
        · rw [if_neg hcount]
          exact ⟨fun h => absurd h.symm (List.cons_ne_nil _ _), fun h => absurd h.1 hcount⟩

-- All entries of the sector are then counted.
theorem gptEntries_parsed (hm : Holds m buf sector) {done n : Nat} (hn : n ≤ 4)
    (hdone : done + n < 2 ^ 32) (turns i : Nat) (hturns : i + turns = 4) (hi : i ≤ n)
    (h : SectorPlain sector done n i) :
    (gptEntries buf m turns (BitVec.ofNat 32 i) (BitVec.ofNat 32 (done + i))).1 =
      BitVec.ofNat 32 (done + n) := by
  induction turns generalizing i with
  | zero =>
      obtain rfl : i = n := by omega
      rfl
  | succ turns ih =>
      have hnat : (BitVec.ofNat 32 (done + i)).toNat = done + i := by
        rw [BitVec.toNat_ofNat, Nat.mod_eq_of_lt (by omega)]
      rw [gptEntries, hm.numPartitionEntries]
      rcases Nat.eq_or_lt_of_le hi with rfl | hlt
      · have hstop : ¬BitVec.ofNat 32 (done + i) < numPartitionEntries sector 0 := by
          rw [BitVec.lt_def, hnat]
          have := h.stop (by omega)
          omega
        rw [if_neg hstop]
      · obtain ⟨hcount, -, -, hrest⟩ := (SectorPlain.cons_iff hlt).mp h
        have htest : BitVec.ofNat 32 (done + i) < numPartitionEntries sector 0 := by
          rw [BitVec.lt_def, hnat]
          exact hcount
        have hnumber : BitVec.ofNat 32 (done + i) + 1 = BitVec.ofNat 32 (done + (i + 1)) := by
          rw [← add_assoc, BitVec.ofNat_add (done + i) 1]
          rfl
        have hnext : BitVec.ofNat 32 i + 1 = BitVec.ofNat 32 (i + 1) := by
          rw [BitVec.ofNat_add]
          rfl
        rw [if_pos htest, hnumber, hnext]
        exact ih (i + 1) (by omega) hlt hrest

-- Whatever the fields are, the loop counts up to the number they give, and
-- counts at least one entry below it.
theorem gptEntries_bounds (turns : Nat) (i parsed : BitVec 32) :
    parsed.toNat ≤ (gptEntries buf m turns i parsed).1.toNat ∧
      (parsed < numPartitionEntries m buf → 0 < turns →
        parsed.toNat < (gptEntries buf m turns i parsed).1.toNat) := by
  induction turns generalizing i parsed with
  | zero => exact ⟨le_rfl, fun _ h => absurd h (lt_irrefl 0)⟩
  | succ turns ih =>
      rw [gptEntries]
      by_cases htest : parsed < numPartitionEntries m buf
      · have hlt := BitVec.lt_def.mp htest
        have hbound := (numPartitionEntries m buf).isLt
        have hnext : (parsed + 1).toNat = parsed.toNat + 1 := by
          rw [BitVec.toNat_add, show (1 : BitVec 32).toNat = 1 from rfl, Nat.mod_eq_of_lt (by omega)]
        have hle := (ih (i + 1) (parsed + 1)).1
        rw [if_pos htest]
        show parsed.toNat ≤ (gptEntries buf m turns (i + 1) (parsed + 1)).1.toNat ∧
          (_ → _ → parsed.toNat < (gptEntries buf m turns (i + 1) (parsed + 1)).1.toNat)
        exact ⟨by omega, fun _ _ => by omega⟩
      · rw [if_neg htest]
        exact ⟨le_rfl, fun h => absurd h htest⟩

theorem gptEntries_unread (turns : Nat) (i parsed : BitVec 32) :
    ∀ e ∈ (gptEntries buf m turns i parsed).2, ¬IsRead e := by
  induction turns generalizing i parsed with
  | zero => exact fun e he => absurd he List.not_mem_nil
  | succ turns ih =>
      intro e he
      rw [gptEntries] at he
      split at he
      · rcases List.mem_append.mp he with hfirst | hrest
        · rcases List.mem_cons.mp hfirst with rfl | hpart
          · exact id
          · have hp := gptEntry_partition e hpart
            cases e with
            | partition => exact id
            | _ => cases hp
        · exact ih _ _ e hrest
      · cases he

theorem sectorEvents_unread (done n i : Nat) : ∀ e ∈ sectorEvents sector done n i, ¬IsRead e := by
  intro e he
  obtain ⟨j, -, hj⟩ := List.mem_flatMap.mp he
  rcases List.mem_cons.mp hj with rfl | hpart
  · exact id
  · have hp := entryReport_partition e hpart
    cases e with
    | partition => exact id
    | _ => cases hp

end Entries

end Miyabi.Fs.Part
