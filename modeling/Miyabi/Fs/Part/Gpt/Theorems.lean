import Miyabi.Fs.Part.Gpt.Walk

namespace Miyabi.Fs.Part

open Miyabi.Base Miyabi.Base.Memory Miyabi.Drivers.Storage

-- What gpt_parse is to do on a disk whose partition array has `entries` entries
-- from the sector `first` on. The fields of the header lie below byte 92, those
-- of an entry in the 128 bytes from its offset on.
structure Walked (image : BitVec 28 → Sector) (first entries : Nat) (s : Machine) (run : GptRun) :
    Prop where
  returned : run.returned = true
  events : run.events = .read 1 true :: walkEvents image first entries 0
  sectors : sectorsRead s run.machine =
    1 :: (List.range (arraySectors entries)).map (fun k => BitVec.ofNat 28 (first + k))
  inside : ∀ offset, .entry offset ∈ run.events → offset.toNat + 128 ≤ 512

-- The bytes of each sector of the array that the loops take for the header's
-- two fields are such that they change nothing, and no entry is skipped whose
-- type GUID is only partly zero.
structure ArrayPlain (image : BitVec 28 → Sector) (first entries : Nat) : Prop where
  stride : ∀ k, 4 * k + 1 < entries →
    sizeOfPartitionEntry (arraySector image first k) 0 = gptEntrySize
  more : ∀ k, 4 * k + 4 < entries →
    4 * k + 4 < (numPartitionEntries (arraySector image first k) 0).toNat
  last : ∀ k, 4 * k < entries → entries ≤ 4 * k + 4 →
    (numPartitionEntries (arraySector image first k) 0).toNat = entries
  guid : ∀ j < entries, GuidPlain (arraySector image first (j / 4)) (j % 4)

section Array

variable {image : BitVec 28 → Sector} {first entries : Nat}

theorem ArrayPlain.turn (h : ArrayPlain image first entries) {k : Nat}
    (hk : k < arraySectors entries) : TurnPlain image first entries k := by
  simp only [arraySectors] at hk
  refine ⟨⟨fun j _ hj => ?_, fun j _ hj => ?_, fun j _ hj => ?_, fun hn => ?_⟩, h.more k, fun hlast => ?_⟩
  · simp only [inSector] at hj
    by_cases hmore : 4 * k + 4 < entries
    · have := h.more k hmore
      omega
    · have := h.last k (by omega) (by omega)
      omega
  · simp only [inSector] at hj
    rcases Nat.eq_zero_or_pos j with rfl | hpos
    · simp
    · rw [h.stride k (by omega), gptEntrySize, Nat.mul_comm 128 j, BitVec.ofNat_mul]
      rfl
  · simp only [inSector] at hj
    have hguid := h.guid (4 * k + j) (by omega)
    have hdiv : (4 * k + j) / 4 = k := by omega
    have hmod : (4 * k + j) % 4 = j := by omega
    rw [hdiv, hmod] at hguid
    exact hguid
  · simp only [inSector] at hn ⊢
    have := h.last k (by omega) (by omega)
    omega
  · exact (h.last k (by omega) hlast).le

theorem arrayPlain_iff :
    ArrayPlain image first entries ↔
      ∀ k, k < arraySectors entries → TurnPlain image first entries k := by
  refine ⟨fun h k hk => h.turn hk, fun h => ⟨fun k hk => ?_, fun k hk => ?_, fun k hk hlast => ?_, fun j hj => ?_⟩⟩
  · have hturn := h k (by simp only [arraySectors]; omega)
    have hstride := hturn.sector.stride 1 (by omega) (by simp only [inSector]; omega)
    exact (BitVec.one_mul _).symm.trans hstride
  · exact (h k (by simp only [arraySectors]; omega)).more hk
  · have hturn := h k (by simp only [arraySectors]; omega)
    have hcount := hturn.sector.count (entries - 4 * k - 1) (by omega) (by simp only [inSector]; omega)
    have hle := hturn.last hlast
    omega
  · exact (h (j / 4) (by simp only [arraySectors]; omega)).sector.guid (j % 4) (by omega)
      (by simp only [inSector]; omega)

-- The offsets of the right events are those of the four entries.
theorem walkEvents_inside {k : Nat} {offset : BitVec 32}
    (h : .entry offset ∈ walkEvents image first entries k) : offset.toNat + 128 ≤ 512 := by
  obtain ⟨j, -, hj⟩ := List.mem_flatMap.mp h
  rcases List.mem_cons.mp hj with hread | hentries
  · cases hread
  · obtain ⟨i, hi, hentry⟩ := List.mem_flatMap.mp hentries
    rw [List.mem_range'_1] at hi
    simp only [inSector] at hi
    rcases List.mem_cons.mp hentry with he | hpart
    · cases he
      rw [BitVec.toNat_ofNat, Nat.mod_eq_of_lt (by omega)]
      omega
    · exact (entryReport_partition _ hpart).elim

theorem walkEvents_sectors (turns k : Nat) (hspace : first + (k + turns) ≤ 2 ^ 28) :
    sectorsOf ((List.range' k turns).flatMap (turnEvents image first entries)) =
      (List.range' k turns).map (fun k => BitVec.ofNat 28 (first + k)) := by
  induction turns generalizing k with
  | zero => rfl
  | succ turns ih =>
      have hsector : (BitVec.ofNat 32 (first + k)).setWidth 28 = BitVec.ofNat 28 (first + k) := by
        apply BitVec.eq_of_toNat_eq
        simp only [BitVec.toNat_setWidth, BitVec.toNat_ofNat]
        omega
      have hturn : sectorsOf (turnEvents image first entries k) = [BitVec.ofNat 28 (first + k)] := by
        rw [turnEvents, sectorsOf_read, sectorsOf_unread (sectorEvents_unread _ _ _), hsector]
      rw [List.range'_succ, List.flatMap_cons, sectorsOf_append, hturn, ih (k + 1) (by omega)]
      rfl

end Array

theorem headerOk_fields {sector : Sector} (h : headerOk sector 0 = true) :
    sizeOfPartitionEntry sector 0 = gptEntrySize ∧ numPartitionEntries sector 0 ≠ 0 := by
  simp only [headerOk, Bool.and_eq_true, Bool.not_eq_true', Bool.or_eq_false_iff, bne_eq_false_iff_eq,
    beq_eq_false_iff_ne] at h
  exact ⟨h.2.1.2, h.2.1.1.2⟩

section Ready

variable {buf : BitVec 64} {s : Machine} {run : GptRun}

theorem gptArray_ready (hbuf : buf ≠ 0) {perSector : BitVec 32} {fuel : Nat} {lba : BitVec 64}
    {parsed : BitVec 32} (hready : s.drive.Ready)
    (h : gptArray buf perSector fuel lba parsed s = some run) :
    ∀ lba, GptEvent.read lba false ∉ run.events := by
  induction fuel generalizing lba parsed s run with
  | zero => cases h
  | succ fuel ih =>
      by_cases htest : parsed < numPartitionEntries s.mem buf
      · obtain ⟨s', hr⟩ : ∃ s', ataReadSector28 (lba.setWidth 32) buf s = (true, s') :=
          ataReadSector28_ready hbuf hready
        have hready' : s'.drive.Ready := by
          intro n
          rw [(ataReadSector28_done hr).status]
          exact hready n
        rw [gptArray, if_pos htest] at h
        simp only [hr] at h
        cases hrest : gptArray buf perSector fuel (lba + 1)
            (gptEntries buf s'.mem perSector.toNat 0 parsed).1 s' with
        | none =>
            simp only [hrest] at h
            cases h
        | some rest =>
            simp only [hrest, Option.some.injEq] at h
            subst h
            intro lba' hm
            rcases List.mem_cons.mp hm with hfirst | hmore
            · cases hfirst
            · rcases List.mem_append.mp hmore with hentries | hlater
              · exact gptEntries_unread _ _ _ _ hentries trivial
              · exact ih hready' hrest lba' hlater
      · rw [gptArray_stop htest h]
        exact fun _ => List.not_mem_nil

-- On a drive that is always ready no read fails.
theorem gptParse_ready (hbuf : buf ≠ 0) (hready : s.drive.Ready)
    (h : gptParse buf s = some run) : ∀ lba, GptEvent.read lba false ∉ run.events := by
  obtain ⟨s', hr⟩ : ∃ s', ataReadSector28 1 buf s = (true, s') := ataReadSector28_ready hbuf hready
  have hready' : s'.drive.Ready := by
    intro n
    rw [(ataReadSector28_done hr).status]
    exact hready n
  rw [gptParse] at h
  simp only [hr] at h
  by_cases hok : headerOk s'.mem buf = true
  · simp only [hok, if_true] at h
    cases hrest : gptArray buf (sectorSize / sizeOfPartitionEntry s'.mem buf) gptFuel
        (partitionEntryLba s'.mem buf) 0 s' with
    | none =>
        simp only [hrest] at h
        cases h
    | some rest =>
        simp only [hrest, Option.some.injEq] at h
        subst h
        intro lba hm
        rcases List.mem_cons.mp hm with hfirst | hmore
        · cases hfirst
        · exact gptArray_ready hbuf hready' hrest lba hmore
  · rw [if_neg hok, Option.some.injEq] at h
    subst h
    intro lba hm
    cases List.mem_singleton.mp hm

end Ready

-- What gpt_parse does on a header that passes its tests.
theorem gptParse_walked_iff (buf : BitVec 64) (s : Machine) {first entries : Nat}
    (hheader : headerOk (s.drive.image 1) 0 = true)
    (hfirst : (partitionEntryLba (s.drive.image 1) 0).toNat = first)
    (hentries : (numPartitionEntries (s.drive.image 1) 0).toNat = entries)
    (hspace : first + entries / 4 < 2 ^ 28) :
    ∃ run, gptParse buf s = some run ∧
      ((∀ lba, .read lba false ∉ run.events) →
        (Walked s.drive.image first entries s run ↔ ArrayPlain s.drive.image first entries)) := by
  obtain ⟨hsize, hnonzero⟩ := headerOk_fields hheader
  have hlt : entries < 2 ^ 32 := hentries ▸ (numPartitionEntries (s.drive.image 1) 0).isLt
  have hpos : 0 < entries :=
    Nat.pos_of_ne_zero fun h => hnonzero (BitVec.eq_of_toNat_eq (hentries.trans h))
  have hsectors : first + arraySectors entries ≤ 2 ^ 28 := by
    simp only [arraySectors]
    omega
  rw [gptParse]
  rcases hr : ataReadSector28 1 buf s with ⟨_ | _, s'⟩
  · exact ⟨_, rfl, fun h => absurd (by simp) (h 1)⟩
  · have hread := ataReadSector28_done hr
    have hholds : Holds s'.mem buf (s.drive.image 1) := by
      rw [hread.mem]
      exact holds_withBytes _ _ _
    have hper : sectorSize / sizeOfPartitionEntry s'.mem buf = 4 := by
      rw [hholds.sizeOfPartitionEntry, hsize]
      rfl
    have hlba : partitionEntryLba s'.mem buf = BitVec.ofNat 64 (first + 0) := by
      rw [hholds.partitionEntryLba, ← hfirst, Nat.add_zero, BitVec.ofNat_toNat, BitVec.setWidth_eq]
    have htest : BitVec.ofNat 32 (4 * 0) < numPartitionEntries s'.mem buf := by
      rw [hholds.numPartitionEntries, BitVec.lt_def, hentries]
      exact hpos
    obtain ⟨rest, hrest⟩ : ∃ rest, gptArray buf 4 gptFuel (BitVec.ofNat 64 (first + 0))
        (BitVec.ofNat 32 (4 * 0)) s' = some rest := gptArray_total (by decide) _ _ _ _ (by simp [gptFuel])
    have hok : headerOk s'.mem buf = true := hholds.headerOk.trans hheader
    have hrest' : gptArray buf 4 gptFuel (BitVec.ofNat 64 (first + 0)) 0 s' = some rest := hrest
    simp only [hok, if_true, hper, hlba, hrest']
    refine ⟨_, rfl, fun hreads => ?_⟩
    have hreads' : ∀ lba, GptEvent.read lba false ∉ rest.events :=
      fun lba hm => hreads lba (List.mem_cons_of_mem _ hm)
    obtain ⟨left, hleft⟩ : ∃ left, 0 + (left + 1) = arraySectors entries :=
      ⟨arraySectors entries - 1, by simp only [arraySectors]; omega⟩
    have hwalk := gptArray_walk hsectors hlt left 0 hleft hread.image htest hrest hreads'
    have hplain : rest.events = walkEvents s.drive.image first entries 0 ↔
        ArrayPlain s.drive.image first entries := by
      rw [hwalk, arrayPlain_iff]
      exact forall_congr' fun k => ⟨fun h => h (Nat.zero_le k), fun h _ => h⟩
    obtain ⟨hreturned, hcommanded⟩ := gptArray_reads hrest hreads'
    rw [← hplain]
    refine ⟨fun h => (List.cons.inj h.events).2, fun hevents => ⟨hreturned, ?_, ?_, ?_⟩⟩
    · exact congrArg (.read 1 true :: ·) hevents
    · show rest.machine.drive.commanded.drop _ = _
      rw [hcommanded, hread.commanded, hevents, List.append_assoc, List.drop_left, walkEvents,
        walkEvents_sectors _ _ (by omega), List.range_eq_range']
      rfl
    · intro offset hm
      rcases List.mem_cons.mp hm with hread | hentry
      · cases hread
      · rw [hevents] at hentry
        exact walkEvents_inside hentry

-- gpt_parse always returns. If no read fails it walks exactly the partition
-- array if and only if the array is plain.
theorem gpt_walk_iff (sectorBuf : BitVec 64) (s : Machine)
    (hheader : headerOk (s.drive.image 1) 0 = true)
    (hspace : (partitionEntryLba (s.drive.image 1) 0).toNat +
      (numPartitionEntries (s.drive.image 1) 0).toNat / 4 < 2 ^ 28) :
    ∃ run, gptParse sectorBuf s = some run ∧
      ((∀ lba, .read lba false ∉ run.events) →
        (Walked s.drive.image (partitionEntryLba (s.drive.image 1) 0).toNat
            (numPartitionEntries (s.drive.image 1) 0).toNat s run ↔
          ArrayPlain s.drive.image (partitionEntryLba (s.drive.image 1) 0).toNat
            (numPartitionEntries (s.drive.image 1) 0).toNat)) :=
  gptParse_walked_iff sectorBuf s hheader rfl rfl hspace

section Samples

-- A header for `entries` entries from sector 2 on.
def sampleHeader (entries : BitVec 32) : Sector :=
  let sector : Sector := fun _ => 0
  let sector := (sector.store64 0 gptSignature).store32 12 92
  let sector := (sector.store64 24 1).store64 72 2
  (sector.store32 80 entries).store32 84 gptEntrySize

-- A ready drive with that header, and the same sector everywhere else.
def sampleMachine (entries : BitVec 32) (array : Sector) : Machine :=
  ⟨fun _ => 0, readyDrive fun lba => if lba = 1 then sampleHeader entries else array⟩

theorem sampleMachine_image (entries : BitVec 32) (array : Sector) :
    (sampleMachine entries array).drive.image 1 = sampleHeader entries := rfl

-- A sector with one used entry, in whose name the loops find the count and the entry size.
def sampleArray : Sector :=
  let sector : Sector := fun _ => 0
  let sector := (sector.store64 0 0x477284830FC63DAF).store64 32 2048
  let sector := (sector.store64 40 4095).store32 80 6
  sector.store32 84 gptEntrySize

theorem sampleArray_sector (k : Nat) (hk : k < 2) :
    arraySector (sampleMachine 6 sampleArray).drive.image 2 k = sampleArray := by
  obtain rfl | rfl : k = 0 ∨ k = 1 := by omega
  · rfl
  · rfl

-- Six entries over two sectors, of which the first and the fifth are used.
theorem gpt_walk_iff_sectors :
    ∃ run, gptParse 0x1000 (sampleMachine 6 sampleArray) = some run ∧
      Walked (sampleMachine 6 sampleArray).drive.image 2 6 (sampleMachine 6 sampleArray) run := by
  have hheader : headerOk (sampleHeader 6) 0 = true := by decide +kernel
  have hfirst : (partitionEntryLba (sampleHeader 6) 0).toNat = 2 := by decide +kernel
  have hentries : (numPartitionEntries (sampleHeader 6) 0).toNat = 6 := by decide +kernel
  have hcount : (numPartitionEntries sampleArray 0).toNat = 6 := by decide +kernel
  have hsize : sizeOfPartitionEntry sampleArray 0 = gptEntrySize := by decide +kernel
  have hguid : ∀ j < 4, GuidPlain sampleArray j := by
    unfold GuidPlain
    decide +kernel
  obtain ⟨run, hrun, hiff⟩ := gpt_walk_iff 0x1000 (sampleMachine 6 sampleArray) hheader
    (by rw [sampleMachine_image, hfirst, hentries]; decide)
  rw [sampleMachine_image, hfirst, hentries] at hiff
  refine ⟨run, hrun, (hiff (gptParse_ready (by decide) (fun _ => rfl) hrun)).mpr ?_⟩
  constructor
  case stride =>
    intro k hk
    rw [sampleArray_sector k (by omega)]
    exact hsize
  case more =>
    intro k hk
    rw [sampleArray_sector k (by omega), hcount]
    omega
  case last =>
    intro k hk _
    rw [sampleArray_sector k (by omega)]
    exact hcount
  case guid =>
    intro j hj
    rw [sampleArray_sector (j / 4) (by omega)]
    exact hguid (j % 4) (Nat.mod_lt j (by decide))

-- With an array of zeroes the count that the loops see is 0: none of the four
-- entries is examined.
theorem array_cut_short :
    ¬∀ (sectorBuf : BitVec 64) (s : Machine) (run : GptRun),
      headerOk (s.drive.image 1) 0 = true →
      (partitionEntryLba (s.drive.image 1) 0).toNat +
        (numPartitionEntries (s.drive.image 1) 0).toNat / 4 < 2 ^ 28 →
      gptParse sectorBuf s = some run → (∀ lba, .read lba false ∉ run.events) →
      Walked s.drive.image (partitionEntryLba (s.drive.image 1) 0).toNat
        (numPartitionEntries (s.drive.image 1) 0).toNat s run := by
  intro hall
  have hheader : headerOk (sampleHeader 4) 0 = true := by decide +kernel
  have hfirst : (partitionEntryLba (sampleHeader 4) 0).toNat = 2 := by decide +kernel
  have hentries : (numPartitionEntries (sampleHeader 4) 0).toNat = 4 := by decide +kernel
  have hspace : (partitionEntryLba (sampleHeader 4) 0).toNat +
      (numPartitionEntries (sampleHeader 4) 0).toNat / 4 < 2 ^ 28 := by
    rw [hfirst, hentries]
    decide
  obtain ⟨run, hrun, hiff⟩ := gptParse_walked_iff 0x1000
    (sampleMachine 4 (fun _ => 0)) hheader rfl rfl hspace
  have hready := gptParse_ready (by decide) (fun _ => rfl) hrun
  have hplain := (hiff hready).mp (hall _ _ run hheader hspace hrun hready)
  rw [sampleMachine_image, hfirst, hentries] at hplain
  have hlast := hplain.last 0 (by decide) (by decide)
  exact absurd hlast (by decide +kernel)

end Samples

end Miyabi.Fs.Part
