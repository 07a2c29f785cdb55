import Miyabi.Fs.Part.Gpt.Entries

namespace Miyabi.Fs.Part

open Miyabi.Base Miyabi.Base.Memory Miyabi.Drivers.Storage

-- The sectors that an array of `entries` entries takes, and its entries in the
-- k-th of them.
def arraySectors (entries : Nat) : Nat := (entries + 3) / 4

def inSector (entries k : Nat) : Nat := min 4 (entries - 4 * k)

section Spec

variable (image : BitVec 28 → Sector) (first entries : Nat)

def arraySector (k : Nat) : Sector := image (BitVec.ofNat 28 (first + k))

def turnEvents (k : Nat) : List GptEvent :=
  .read (BitVec.ofNat 32 (first + k)) true ::
    sectorEvents (arraySector image first k) (4 * k) (inSector entries k) 0

-- What is to happen from the k-th sector of the array on.
def walkEvents (k : Nat) : List GptEvent :=
  (List.range' k (arraySectors entries - k)).flatMap (turnEvents image first entries)

-- One sector leads to the next: the header that the loops see in it neither
-- ends the array early nor goes on past its end.
structure TurnPlain (k : Nat) : Prop where
  sector : SectorPlain (arraySector image first k) (4 * k) (inSector entries k) 0
  more : 4 * k + 4 < entries → 4 * k + 4 < (numPartitionEntries (arraySector image first k) 0).toNat
  last : entries ≤ 4 * k + 4 → (numPartitionEntries (arraySector image first k) 0).toNat ≤ entries

variable {image first entries}

theorem walkEvents_cons {k : Nat} (hk : k < arraySectors entries) :
    walkEvents image first entries k =
      turnEvents image first entries k ++ walkEvents image first entries (k + 1) := by
  obtain ⟨left, hleft⟩ : ∃ left, arraySectors entries - k = left + 1 :=
    ⟨arraySectors entries - k - 1, by omega⟩
  have hrest : arraySectors entries - (k + 1) = left := by omega
  rw [walkEvents, walkEvents, hleft, hrest, List.range'_succ, List.flatMap_cons]

theorem walkEvents_end {k : Nat} (hk : arraySectors entries ≤ k) :
    walkEvents image first entries k = [] := by
  have hzero : arraySectors entries - k = 0 := by omega
  rw [walkEvents, hzero]
  rfl

theorem walkEvents_head (k : Nat) : ∀ e ∈ (walkEvents image first entries k).head?, IsRead e := by
  intro e he
  by_cases hk : k < arraySectors entries
  · rw [walkEvents_cons hk] at he
    cases he
    trivial
  · rw [walkEvents_end (by omega)] at he
    cases he

end Spec

section Turns

variable {buf : BitVec 64} {perSector : BitVec 32}

theorem gptArray_head {fuel : Nat} {lba : BitVec 64} {parsed : BitVec 32} {s : Machine}
    {run : GptRun} (h : gptArray buf perSector fuel lba parsed s = some run) :
    ∀ e ∈ run.events.head?, IsRead e := by
  intro e he
  cases fuel with
  | zero => cases h
  | succ fuel =>
      rw [gptArray] at h
      by_cases htest : parsed < numPartitionEntries s.mem buf
      · rw [if_pos htest] at h
        rcases hr : ataReadSector28 (lba.setWidth 32) buf s with ⟨_ | _, s'⟩
        · simp only [hr, Option.some.injEq] at h
          subst h
          cases he
          trivial
        · simp only [hr] at h
          cases hrest : gptArray buf perSector fuel (lba + 1)
              (gptEntries buf s'.mem perSector.toNat 0 parsed).1 s' with
          | none =>
              simp only [hrest] at h
              cases h
          | some rest =>
              simp only [hrest, Option.some.injEq] at h
              subst h
              cases he
              trivial
      · rw [if_neg htest, Option.some.injEq] at h
        subst h
        cases he

-- A turn of the outer loop whose read succeeds.
theorem gptArray_turn {fuel : Nat} {lba : BitVec 64} {parsed : BitVec 32} {s : Machine}
    {run : GptRun} (htest : parsed < numPartitionEntries s.mem buf)
    (h : gptArray buf perSector (fuel + 1) lba parsed s = some run)
    (hreads : ∀ lba, GptEvent.read lba false ∉ run.events) :
    ∃ s' rest, SectorRead (lba.setWidth 32) buf s s' ∧
      gptArray buf perSector fuel (lba + 1)
        (gptEntries buf s'.mem perSector.toNat 0 parsed).1 s' = some rest ∧
      run = { rest with
        events := .read (lba.setWidth 32) true ::
          ((gptEntries buf s'.mem perSector.toNat 0 parsed).2 ++ rest.events) } := by
  rw [gptArray, if_pos htest] at h
  rcases hr : ataReadSector28 (lba.setWidth 32) buf s with ⟨_ | _, s'⟩
  · simp only [hr, Option.some.injEq] at h
    subst h
    exact absurd (by simp) (hreads (lba.setWidth 32))
  · simp only [hr] at h
    cases hrest : gptArray buf perSector fuel (lba + 1)
        (gptEntries buf s'.mem perSector.toNat 0 parsed).1 s' with
    | none =>
        simp only [hrest] at h
        cases h
    | some rest =>
        simp only [hrest, Option.some.injEq] at h
        exact ⟨s', rest, ataReadSector28_done hr, hrest, h.symm⟩

theorem gptArray_stop {fuel : Nat} {lba : BitVec 64} {parsed : BitVec 32} {s : Machine}
    {run : GptRun} (htest : ¬parsed < numPartitionEntries s.mem buf)
    (h : gptArray buf perSector fuel lba parsed s = some run) : run = ⟨true, [], s⟩ := by
  cases fuel with
  | zero => cases h
  | succ fuel =>
      rw [gptArray, if_neg htest, Option.some.injEq] at h
      exact h.symm

theorem gptEntries_stop {m : Memory 64} {turns : Nat} {i parsed : BitVec 32}
    (htest : ¬parsed < numPartitionEntries m buf) :
    (gptEntries buf m turns i parsed).1 = parsed := by
  cases turns with
  | zero => rfl
  | succ turns => rw [gptEntries, if_neg htest]

-- The fuel is enough: a turn that counts no entry is the last one.
theorem gptArray_total (hper : 0 < perSector.toNat) (fuel : Nat) (lba : BitVec 64)
    (parsed : BitVec 32) (s : Machine) (hfuel : 2 ^ 32 + 2 ≤ fuel + parsed.toNat) :
    ∃ run, gptArray buf perSector fuel lba parsed s = some run := by
  induction fuel generalizing lba parsed s with
  | zero =>
      have hlt := parsed.isLt
      omega
  | succ fuel ih =>
      rw [gptArray]
      by_cases htest : parsed < numPartitionEntries s.mem buf
      · rw [if_pos htest]
        rcases ataReadSector28 (lba.setWidth 32) buf s with ⟨_ | _, s'⟩
        · exact ⟨_, rfl⟩
        · have hnext : ∃ run, gptArray buf perSector fuel (lba + 1)
              (gptEntries buf s'.mem perSector.toNat 0 parsed).1 s' = some run := by
            by_cases hmore : parsed < numPartitionEntries s'.mem buf
            · have hlt := (gptEntries_bounds perSector.toNat 0 parsed).2 hmore hper
              exact ih _ _ _ (by omega)
            · have hlt := parsed.isLt
              obtain ⟨left, rfl⟩ : ∃ left, fuel = left + 1 := ⟨fuel - 1, by omega⟩
              rw [gptEntries_stop hmore, gptArray, if_neg hmore]
              exact ⟨_, rfl⟩
          obtain ⟨run, hrun⟩ := hnext
          simp only [hrun]
          exact ⟨_, rfl⟩
      · rw [if_neg htest]
        exact ⟨_, rfl⟩

-- The sectors that the recorded calls asked the drive for.
def GptEvent.sector : GptEvent → Option (BitVec 28)
  | .read lba _ => some (lba.setWidth 28)
  | _ => none

def sectorsOf (events : List GptEvent) : List (BitVec 28) := events.filterMap GptEvent.sector

theorem sectorsOf_read (lba : BitVec 32) (ok : Bool) (events : List GptEvent) :
    sectorsOf (.read lba ok :: events) = lba.setWidth 28 :: sectorsOf events := rfl

theorem sectorsOf_append (a b : List GptEvent) : sectorsOf (a ++ b) = sectorsOf a ++ sectorsOf b :=
  List.filterMap_append

theorem sectorsOf_unread {events : List GptEvent} (h : ∀ e ∈ events, ¬IsRead e) :
    sectorsOf events = [] := by
  refine List.filterMap_eq_nil_iff.mpr fun e he => ?_
  cases e with
  | read lba ok => exact absurd trivial (h _ he)
  | _ => rfl

theorem gptArray_reads {fuel : Nat} {lba : BitVec 64} {parsed : BitVec 32} {s : Machine}
    {run : GptRun} (h : gptArray buf perSector fuel lba parsed s = some run)
    (hreads : ∀ lba, GptEvent.read lba false ∉ run.events) :
    run.returned = true ∧
      run.machine.drive.commanded = s.drive.commanded ++ sectorsOf run.events := by
  induction fuel generalizing lba parsed s run with
  | zero => cases h
  | succ fuel ih =>
      by_cases htest : parsed < numPartitionEntries s.mem buf
      · obtain ⟨s', rest, hread, hrest, rfl⟩ := gptArray_turn htest h hreads
        obtain ⟨hreturned, hcommanded⟩ := ih hrest (fun lba hm => hreads lba (by simp [hm]))
        refine ⟨hreturned, ?_⟩
        rw [hcommanded, hread.commanded, sectorsOf_read, sectorsOf_append,
          sectorsOf_unread (gptEntries_unread _ _ _), List.nil_append, List.append_assoc,
          List.singleton_append]
      · rw [gptArray_stop htest h]
        exact ⟨rfl, (List.append_nil _).symm⟩

theorem gptArray_nil_iff {fuel : Nat} {lba : BitVec 64} {parsed : BitVec 32} {s : Machine}
    {run : GptRun} (h : gptArray buf perSector fuel lba parsed s = some run)
    (hreads : ∀ lba, GptEvent.read lba false ∉ run.events) :
    run.events = [] ↔ ¬parsed < numPartitionEntries s.mem buf := by
  constructor
  · intro hnil htest
    cases fuel with
    | zero => cases h
    | succ fuel =>
        obtain ⟨s', rest, -, -, rfl⟩ := gptArray_turn htest h hreads
        exact absurd hnil (List.cons_ne_nil _ _)
  · intro htest
    rw [gptArray_stop htest h]

end Turns

section Walk

variable {image : BitVec 28 → Sector} {first entries : Nat} {buf : BitVec 64}

-- One turn, at the k-th sector: its events are the right ones exactly if the
-- sector is plain and the rest of the run is right.
theorem gptArray_sector (hspace : first + arraySectors entries ≤ 2 ^ 28) {k : Nat}
    (hk : k < arraySectors entries) {fuel : Nat} {s : Machine} {run : GptRun}
    (himage : s.drive.image = image)
    (htest : BitVec.ofNat 32 (4 * k) < numPartitionEntries s.mem buf)
    (h : gptArray buf 4 fuel (BitVec.ofNat 64 (first + k)) (BitVec.ofNat 32 (4 * k)) s = some run)
    (hreads : ∀ lba, GptEvent.read lba false ∉ run.events) :
    ∃ fuel' s' rest, s'.drive.image = image ∧ Holds s'.mem buf (arraySector image first k) ∧
      (∀ lba, GptEvent.read lba false ∉ rest.events) ∧
      (SectorPlain (arraySector image first k) (4 * k) (inSector entries k) 0 →
        gptArray buf 4 fuel' (BitVec.ofNat 64 (first + (k + 1)))
          (BitVec.ofNat 32 (4 * k + inSector entries k)) s' = some rest) ∧
      (run.events = walkEvents image first entries k ↔
        SectorPlain (arraySector image first k) (4 * k) (inSector entries k) 0 ∧
          rest.events = walkEvents image first entries (k + 1)) := by
  have hin : inSector entries k ≤ 4 := min_le_left _ _
  have hdone : 4 * k + inSector entries k < 2 ^ 32 := by
    simp only [inSector, arraySectors] at *
    omega
  have hlba : (BitVec.ofNat 64 (first + k)).setWidth 32 = BitVec.ofNat 32 (first + k) := by
    apply BitVec.eq_of_toNat_eq
    simp only [BitVec.toNat_setWidth, BitVec.toNat_ofNat]
    omega
  have hsector : (BitVec.ofNat 32 (first + k)).setWidth 28 = BitVec.ofNat 28 (first + k) := by
    apply BitVec.eq_of_toNat_eq
    simp only [BitVec.toNat_setWidth, BitVec.toNat_ofNat]
    omega
  have hnext : BitVec.ofNat 64 (first + k) + 1 = BitVec.ofNat 64 (first + (k + 1)) := by
    rw [← add_assoc, BitVec.ofNat_add (first + k) 1]
    rfl
  cases fuel with
  | zero => cases h
  | succ fuel =>
      obtain ⟨s', rest, hread, hrest, rfl⟩ := gptArray_turn htest h hreads
      have hholds : Holds s'.mem buf (arraySector image first k) := by
        rw [hread.mem, hlba, hsector, himage]
        exact holds_withBytes _ _ _
      have hevents := gptEntries_iff hholds hin hdone 4 0 rfl (Nat.zero_le _)
      have hparsed := gptEntries_parsed hholds hin hdone 4 0 rfl (Nat.zero_le _)
      rw [hnext] at hrest
      refine ⟨fuel, s', rest, hread.image.trans himage, hholds,
        fun lba hm => hreads lba (by simp [hm]), fun hplain => ?_, ?_⟩
      · rw [← hparsed hplain]
        exact hrest
      · rw [walkEvents_cons hk, turnEvents, hlba]
        simp only [List.cons_append, List.cons.injEq, true_and]
        have hhead := gptArray_head hrest
        rw [append_eq_append_iff_split (gptEntries_unread _ _ _) (sectorEvents_unread _ _ _)
          (fun e he hn => hn (hhead e he)) (fun e he hn => hn (walkEvents_head _ e he))]
        exact and_congr_left fun _ => hevents

-- The last turn: the count in the sector must end the loop.
theorem gptArray_last (hspace : first + arraySectors entries ≤ 2 ^ 28) (hentries : entries < 2 ^ 32)
    {k : Nat} (hk : k + 1 = arraySectors entries) {fuel : Nat} {s : Machine} {run : GptRun}
    (himage : s.drive.image = image)
    (htest : BitVec.ofNat 32 (4 * k) < numPartitionEntries s.mem buf)
    (h : gptArray buf 4 fuel (BitVec.ofNat 64 (first + k)) (BitVec.ofNat 32 (4 * k)) s = some run)
    (hreads : ∀ lba, GptEvent.read lba false ∉ run.events) :
    run.events = walkEvents image first entries k ↔ TurnPlain image first entries k := by
  obtain ⟨fuel', s', rest, -, hholds, hreads', hrest, hiff⟩ :=
    gptArray_sector hspace (by omega) himage htest h hreads
  have hall : 4 * k + inSector entries k = entries := by
    simp only [inSector, arraySectors] at *
    omega
  have htest' : BitVec.ofNat 32 entries < numPartitionEntries s'.mem buf ↔
      entries < (numPartitionEntries (arraySector image first k) 0).toNat := by
    rw [BitVec.lt_def, BitVec.toNat_ofNat, Nat.mod_eq_of_lt hentries, hholds.numPartitionEntries]
  rw [hiff, walkEvents_end hk.ge]
  rw [hall] at hrest
  constructor
  · rintro ⟨hplain, hnil⟩
    have hstop := (gptArray_nil_iff (hrest hplain) hreads').mp hnil
    rw [htest', not_lt] at hstop
    refine ⟨hplain, fun hmore => ?_, fun _ => hstop⟩
    simp only [arraySectors] at hk
    omega
  · intro hturn
    have hlast := hturn.last (by simp only [arraySectors] at hk; omega)
    refine ⟨hturn.sector, (gptArray_nil_iff (hrest hturn.sector) hreads').mpr ?_⟩
    rw [htest', not_lt]
    exact hlast

-- Another turn: the count in the sector must go on to the next one.
theorem gptArray_more (hspace : first + arraySectors entries ≤ 2 ^ 28)
    {k : Nat} (hk : k + 1 < arraySectors entries) {fuel : Nat} {s : Machine} {run : GptRun}
    (himage : s.drive.image = image)
    (htest : BitVec.ofNat 32 (4 * k) < numPartitionEntries s.mem buf)
    (h : gptArray buf 4 fuel (BitVec.ofNat 64 (first + k)) (BitVec.ofNat 32 (4 * k)) s = some run)
    (hreads : ∀ lba, GptEvent.read lba false ∉ run.events) :
    ∃ fuel' s' rest, s'.drive.image = image ∧ (∀ lba, GptEvent.read lba false ∉ rest.events) ∧
      (TurnPlain image first entries k →
        BitVec.ofNat 32 (4 * (k + 1)) < numPartitionEntries s'.mem buf ∧
        gptArray buf 4 fuel' (BitVec.ofNat 64 (first + (k + 1))) (BitVec.ofNat 32 (4 * (k + 1))) s' =
          some rest) ∧
      (run.events = walkEvents image first entries k ↔
        TurnPlain image first entries k ∧ rest.events = walkEvents image first entries (k + 1)) := by
  obtain ⟨fuel', s', rest, himage', hholds, hreads', hrest, hiff⟩ :=
    gptArray_sector hspace (by omega) himage htest h hreads
  have hmore : 4 * k + 4 < entries := by
    simp only [arraySectors] at hk
    omega
  have hfull : 4 * k + inSector entries k = 4 * (k + 1) := by
    simp only [inSector]
    omega
  have htest' : BitVec.ofNat 32 (4 * (k + 1)) < numPartitionEntries s'.mem buf ↔
      4 * k + 4 < (numPartitionEntries (arraySector image first k) 0).toNat := by
    rw [BitVec.lt_def, BitVec.toNat_ofNat, Nat.mod_eq_of_lt (by omega), hholds.numPartitionEntries]
    rfl
  rw [hfull] at hrest
  refine ⟨fuel', s', rest, himage', hreads',
    fun hturn => ⟨htest'.mpr (hturn.more hmore), hrest hturn.sector⟩, ?_⟩
  rw [hiff]
  constructor
  · rintro ⟨hplain, hevents⟩
    refine ⟨⟨hplain, fun _ => ?_, fun hlast => by omega⟩, hevents⟩
    by_contra hcount
    have hnil := (gptArray_nil_iff (hrest hplain) hreads').mpr (fun ht => hcount (htest'.mp ht))
    rw [hnil, walkEvents_cons hk] at hevents
    exact absurd hevents (List.cons_ne_nil _ _).symm
  · rintro ⟨hturn, hevents⟩
    exact ⟨hturn.sector, hevents⟩

-- Induction over the sectors of the array. The loop is at the k-th of them and
-- its test, on whatever the buffer holds, has just passed.
theorem gptArray_walk (hspace : first + arraySectors entries ≤ 2 ^ 28) (hentries : entries < 2 ^ 32)
    (left k : Nat) (hleft : k + (left + 1) = arraySectors entries) {fuel : Nat} {s : Machine}
    {run : GptRun} (himage : s.drive.image = image)
    (htest : BitVec.ofNat 32 (4 * k) < numPartitionEntries s.mem buf)
    (h : gptArray buf 4 fuel (BitVec.ofNat 64 (first + k)) (BitVec.ofNat 32 (4 * k)) s = some run)
    (hreads : ∀ lba, GptEvent.read lba false ∉ run.events) :
    run.events = walkEvents image first entries k ↔
      ∀ j, k ≤ j → j < arraySectors entries → TurnPlain image first entries j := by
  induction left generalizing k fuel s run with
  | zero =>
      rw [gptArray_last hspace hentries hleft himage htest h hreads]
      constructor
      · intro hturn j hkj hj
        obtain rfl : k = j := by omega
        exact hturn
      · intro hall
        exact hall k le_rfl (by omega)
  | succ left ih =>
      obtain ⟨fuel', s', rest, himage', hreads', hnext, hiff⟩ :=
        gptArray_more hspace (by omega) himage htest h hreads
      rw [hiff]
      constructor
      · rintro ⟨hturn, hevents⟩ j hkj hj
        obtain ⟨htest', hrest⟩ := hnext hturn
        have hall := (ih (k + 1) (by omega) himage' htest' hrest hreads').mp hevents
        rcases Nat.eq_or_lt_of_le hkj with rfl | hlt
        · exact hturn
        · exact hall j hlt hj
      · intro hall
        have hturn := hall k le_rfl (by omega)
        obtain ⟨htest', hrest⟩ := hnext hturn
        exact ⟨hturn, (ih (k + 1) (by omega) himage' htest' hrest hreads').mpr
          (fun j hj => hall j (by omega))⟩

end Walk

end Miyabi.Fs.Part
