import Miyabi.Base.Copy
import Miyabi.Modules.Loader.Sums

namespace Miyabi.Modules

open Miyabi.Base Miyabi.Base.Memory Miyabi.Elf

-- The stores of a loop over n bytes, the last first.
def bytesOf (dst : BitVec 64) : ℕ → List (BitVec 64 × ℕ)
  | 0 => []
  | n + 1 => (dst + BitVec.ofNat 64 n, 1) :: bytesOf dst n

theorem bytesOf_spans {dst size : BitVec 64} {s : BitVec 64 × ℕ} {n : ℕ} (hn : n ≤ size.toNat)
    (hs : s ∈ bytesOf dst n) : Spans dst size s.1 s.2 := by
  induction n with
  | zero => cases hs
  | succ n ih =>
      rcases List.mem_cons.mp hs with rfl | hs
      · have hsize := size.isLt
        rw [Spans, add_sub_cancel_left, BitVec.toNat_ofNat, Nat.mod_eq_of_lt (by omega)]
        exact hn
      · exact ih (by omega) hs

section Loops

variable {sh dst src : BitVec 64} {w : Work}

-- As long as sh_size is not among the bytes, the loops are those over a fixed number.
theorem zeroSection_eq (hsep : Apart dst (shSize w.mem sh).toNat (sh + 32) 8) {fuel j : ℕ}
    (hj : j ≤ (shSize w.mem sh).toNat) (hfuel : (shSize w.mem sh).toNat ≤ fuel + j) :
    zeroSection sh dst fuel j
        { w with mem := fill w.mem dst 0 j, stores := bytesOf dst j ++ w.stores } =
      { w with mem := fill w.mem dst 0 (shSize w.mem sh).toNat,
               stores := bytesOf dst (shSize w.mem sh).toNat ++ w.stores } := by
  induction fuel generalizing j with
  | zero =>
      obtain rfl : j = (shSize w.mem sh).toNat := by omega
      rfl
  | succ fuel ih =>
      have hlt := (shSize w.mem sh).isLt
      have hkeep := (fill_keeps w.mem dst 0 j (by omega)).agree (hsep.mono hj le_rfl).symm
      have hsize : shSize (fill w.mem dst 0 j) sh = shSize w.mem sh := load_congr hkeep
      rw [zeroSection]
      dsimp only
      rw [hsize]
      split
      · rename_i hmore
        exact ih hmore (by omega)
      · obtain rfl : j = (shSize w.mem sh).toNat := by omega
        rfl

theorem copySection_eq (hsep : Apart dst (shSize w.mem sh).toNat (sh + 32) 8) {fuel j : ℕ}
    (hj : j ≤ (shSize w.mem sh).toNat) (hfuel : (shSize w.mem sh).toNat ≤ fuel + j) :
    copySection sh dst src fuel j
        { w with mem := copy w.mem dst src j, stores := bytesOf dst j ++ w.stores } =
      { w with mem := copy w.mem dst src (shSize w.mem sh).toNat,
               stores := bytesOf dst (shSize w.mem sh).toNat ++ w.stores } := by
  induction fuel generalizing j with
  | zero =>
      obtain rfl : j = (shSize w.mem sh).toNat := by omega
      rfl
  | succ fuel ih =>
      have hlt := (shSize w.mem sh).isLt
      have hkeep := (copy_keeps w.mem dst src j (by omega)).agree (hsep.mono hj le_rfl).symm
      have hsize : shSize (copy w.mem dst src j) sh = shSize w.mem sh := load_congr hkeep
      rw [copySection]
      dsimp only
      rw [hsize]
      split
      · rename_i hmore
        exact ih hmore (by omega)
      · obtain rfl : j = (shSize w.mem sh).toNat := by omega
        rfl

end Loops

section Header

variable (m : Memory 64) (sh addr : BitVec 64)

-- The fields behind sh_addr.
theorem field_after {o k : ℕ} (h : 24 ≤ o) (hend : o + k ≤ 64) :
    load (m.store64 (sh + 16) addr) (sh + BitVec.ofNat 64 o) k = load m (sh + BitVec.ofNat 64 o) k :=
  load_store_apart (k := 8) m _ _ addr (apart_offsets sh h (hend.trans (by decide))).symm

-- The bytes of a section, at its address.
def sectionFilled (fileBuffer : BitVec 64) : Memory 64 :=
  if shType m sh = shtNobits then fill m addr 0 (shSize m sh).toNat
  else copy m addr (fileBuffer + shOffset m sh) (shSize m sh).toNat

end Header

theorem sectionFilled_keeps (m : Memory 64) (sh addr fileBuffer : BitVec 64) :
    KeepsOutside m (sectionFilled m sh addr fileBuffer) addr (shSize m sh).toNat := by
  have hlt := (shSize m sh).isLt
  unfold sectionFilled
  split
  · exact fill_keeps m addr 0 _ (by omega)
  · exact copy_keeps m addr _ _ (by omega)

-- A section that does not cover its own sh_size is one store to the header and the bytes.
theorem placeSection_eq (fileBuffer : BitVec 64) {moduleMemory offset sh : BitVec 64} {w : Work}
    (hsep : Apart (moduleMemory + offset) (shSize w.mem sh).toNat (sh + 32) 8) :
    placeSection fileBuffer moduleMemory offset sh w =
      { mem := sectionFilled (w.mem.store64 (sh + 16) (moduleMemory + offset)) sh
          (moduleMemory + offset) fileBuffer
        stores := bytesOf (moduleMemory + offset) (shSize w.mem sh).toNat ++ (sh + 16, 8) :: w.stores
        placed := ⟨sh, shAddralign w.mem sh, shSize w.mem sh, moduleMemory + offset⟩ :: w.placed
        applied := w.applied } := by
  have hsize : shSize (w.mem.store64 (sh + 16) (moduleMemory + offset)) sh = shSize w.mem sh :=
    field_after (k := 8) w.mem sh _ (by decide) (by decide)
  have haddr : shAddr (w.place sh (moduleMemory + offset)).mem sh = moduleMemory + offset :=
    load_store_same (n := 8) w.mem (sh + 16) _ (by decide)
  have hmem : (w.place sh (moduleMemory + offset)).mem =
    w.mem.store64 (sh + 16) (moduleMemory + offset) := rfl
  have hlt := (shSize w.mem sh).isLt
  unfold placeSection sectionFilled
  dsimp only
  rw [haddr, hmem]
  split
  · have hloop := @zeroSection_eq sh (moduleMemory + offset) (w.place sh (moduleMemory + offset))
    rw [hmem, hsize] at hloop
    rw [hsize]
    exact hloop hsep (Nat.zero_le _) (by omega)
  · have hloop := @copySection_eq sh (moduleMemory + offset)
      (fileBuffer + shOffset (w.mem.store64 (sh + 16) (moduleMemory + offset)) sh)
      (w.place sh (moduleMemory + offset))
    rw [hmem, hsize] at hloop
    rw [hsize]
    exact hloop hsep (Nat.zero_le _) (by omega)

-- The file as load_module first sees it: the section headers lie in it, and no sh_addr
-- that the second pass stores lies on e_shnum.
structure Table (m : Memory 64) (fileBuffer fileSize shdrs : BitVec 64) : Prop where
  shdrs_eq : shdrs = fileBuffer + eShoff m fileBuffer
  header : 64 ≤ fileSize.toNat
  room : (eShoff m fileBuffer).toNat + (eShnum m fileBuffer).toNat * 64 ≤ fileSize.toNat
  spared : ∀ i < (eShnum m fileBuffer).toNat, IsAlloc m (shdr shdrs i) →
    Apart (shdr shdrs i + 16) 8 (fileBuffer + 60) 2

section Table

variable {m : Memory 64} {fileBuffer fileSize shdrs : BitVec 64}

theorem elfValidate_room (h : elfValidate m fileBuffer fileSize = true) :
    64 ≤ fileSize.toNat ∧
      (eShoff m fileBuffer).toNat + (eShnum m fileBuffer).toNat * 64 ≤ fileSize.toNat := by
  unfold elfValidate at h
  split at h
  · cases h
  rename_i hsmall
  have hheader : 64 ≤ fileSize.toNat := BitVec.not_lt.mp hsmall
  iterate 4
    split at h
    · cases h
  split at h
  · cases h
  rename_i htable
  obtain ⟨-, hoff, hnum⟩ := not_or.mp htable |>.imp_right not_or.mp
  have hle : eShoff m fileBuffer ≤ fileSize := BitVec.not_lt.mp hoff
  have hcount := BitVec.le_def.mp (BitVec.not_lt.mp hnum)
  rw [BitVec.toNat_setWidth, BitVec.toNat_udiv, BitVec.toNat_sub_of_le hle] at hcount
  have hshnum := (eShnum m fileBuffer).isLt
  have hdiv : (64 : BitVec 64).toNat = 64 := rfl
  rw [hdiv, Nat.mod_eq_of_lt (by omega)] at hcount
  have hle' : (eShoff m fileBuffer).toNat ≤ fileSize.toNat := hle
  omega

theorem shdr_add (h : shdrs = fileBuffer + eShoff m fileBuffer) (i o : ℕ) :
    shdr shdrs i + BitVec.ofNat 64 o =
      fileBuffer + BitVec.ofNat 64 ((eShoff m fileBuffer).toNat + i * 64 + o) := by
  rw [shdr, h, BitVec.ofNat_add, BitVec.ofNat_add, BitVec.ofNat_toNat, BitVec.setWidth_eq, shdrSize]
  ring

namespace Table

variable (h : Table m fileBuffer fileSize shdrs)

include h

theorem shdr_at (i o : ℕ) : shdr shdrs i + BitVec.ofNat 64 o =
    fileBuffer + BitVec.ofNat 64 ((eShoff m fileBuffer).toNat + i * 64 + o) :=
  shdr_add h.shdrs_eq i o

theorem field_inRange {i o k : ℕ} (hi : i < (eShnum m fileBuffer).toNat) (hk : o + k ≤ 64)
    {x : BitVec 64} (hx : InRange (shdr shdrs i + BitVec.ofNat 64 o) k x) :
    InRange fileBuffer fileSize.toNat x := by
  have hroom := h.room
  have hlt := fileSize.isLt
  rw [h.shdr_at] at hx
  refine inRange_inner fileBuffer _ x ?_ hx
  rw [BitVec.toNat_ofNat, Nat.mod_eq_of_lt (by omega)]
  omega

theorem fields_apart {i o k j o' k' : ℕ} (hi : i < (eShnum m fileBuffer).toNat)
    (hj : j < (eShnum m fileBuffer).toNat) (hk : o + k ≤ 64) (hk' : o' + k' ≤ 64)
    (hne : i = j → o + k ≤ o' ∨ o' + k' ≤ o) :
    Apart (shdr shdrs i + BitVec.ofNat 64 o) k (shdr shdrs j + BitVec.ofNat 64 o') k' := by
  have hroom := h.room
  have hlt := fileSize.isLt
  rw [h.shdr_at, h.shdr_at]
  rcases Nat.lt_trichotomy i j with hij | rfl | hij
  · exact apart_offsets fileBuffer (by omega) (by omega)
  · rcases hne rfl with hne | hne
    · exact apart_offsets fileBuffer (by omega) (by omega)
    · exact (apart_offsets fileBuffer (by omega) (by omega)).symm
  · exact (apart_offsets fileBuffer (by omega) (by omega)).symm

end Table

end Table

-- The memory after sections below i have been placed at `base`: the file is as it was but
-- for the sh_addr fields, and these are those of the sections.
structure Settled (m : Memory 64) (fileBuffer fileSize shdrs base : BitVec 64) (i : ℕ)
    (m' : Memory 64) : Prop where
  file : ∀ x, InRange fileBuffer fileSize.toNat x →
    (∀ j < (eShnum m fileBuffer).toNat, IsAlloc m (shdr shdrs j) →
      ¬InRange (shdr shdrs j + 16) 8 x) → m' x = m x
  addrs : ∀ j < i, IsAlloc m (shdr shdrs j) →
    shAddr m' (shdr shdrs j) = base + startOf m shdrs j

namespace Settled

variable {m m' m'' : Memory 64} {fileBuffer fileSize shdrs base : BitVec 64} {i : ℕ}

section Reads

variable (h : Settled m fileBuffer fileSize shdrs base i m')
variable (ht : Table m fileBuffer fileSize shdrs)

include h ht

-- All fields but sh_addr are as they were.
theorem field {j o k : ℕ} (hj : j < (eShnum m fileBuffer).toNat) (hk : o + k ≤ 64)
    (ho : o + k ≤ 16 ∨ 24 ≤ o) :
    load m' (shdr shdrs j + BitVec.ofNat 64 o) k = load m (shdr shdrs j + BitVec.ofNat 64 o) k := by
  refine load_congr fun x hx => h.file x (ht.field_inRange hj hk hx) fun j' hj' _ hin => ?_
  exact ht.fields_apart hj hj' hk (by decide : 16 + 8 ≤ 64) (fun _ => by omega) x hx hin

theorem shnum : eShnum m' fileBuffer = eShnum m fileBuffer := by
  refine load_congr fun x hx => h.file x ?_ fun j hj halloc hin => ht.spared j hj halloc x hin hx
  have hheader := ht.header
  exact inRange_inner fileBuffer 60 x (show 60 + 2 ≤ fileSize.toNat by omega) hx

variable {j : ℕ} (hj : j < (eShnum m fileBuffer).toNat)

include hj

theorem isAlloc : IsAlloc m' (shdr shdrs j) ↔ IsAlloc m (shdr shdrs j) := by
  have hflags : shFlags m' (shdr shdrs j) = shFlags m (shdr shdrs j) :=
    h.field ht (o := 8) (k := 8) hj (by decide) (by decide)
  rw [IsAlloc, IsAlloc, hflags]

theorem type : shType m' (shdr shdrs j) = shType m (shdr shdrs j) :=
  h.field ht (o := 4) (k := 4) hj (by decide) (by decide)

theorem offset : shOffset m' (shdr shdrs j) = shOffset m (shdr shdrs j) :=
  h.field ht (o := 24) (k := 8) hj (by decide) (by decide)

theorem size : shSize m' (shdr shdrs j) = shSize m (shdr shdrs j) :=
  h.field ht (o := 32) (k := 8) hj (by decide) (by decide)

theorem link : shLink m' (shdr shdrs j) = shLink m (shdr shdrs j) :=
  h.field ht (o := 40) (k := 4) hj (by decide) (by decide)

theorem info : shInfo m' (shdr shdrs j) = shInfo m (shdr shdrs j) :=
  h.field ht (o := 44) (k := 4) hj (by decide) (by decide)

theorem addralign : shAddralign m' (shdr shdrs j) = shAddralign m (shdr shdrs j) :=
  h.field ht (o := 48) (k := 8) hj (by decide) (by decide)

-- sh_addr of a section that is not placed is as it was.
theorem addr_skipped (hskip : ¬IsAlloc m (shdr shdrs j)) :
    shAddr m' (shdr shdrs j) = shAddr m (shdr shdrs j) := by
  refine load_congr fun x hx => ?_
  refine h.file x (ht.field_inRange (o := 16) (k := 8) hj (by decide) hx) fun j' hj' halloc hin => ?_
  have hne : j = j' → 16 + 8 ≤ 16 ∨ 16 + 8 ≤ 16 := by
    rintro rfl
    exact absurd halloc hskip
  exact ht.fields_apart hj hj' (by decide : 16 + 8 ≤ 64) (by decide : 16 + 8 ≤ 64) hne x hx hin

end Reads

-- Stores outside the file keep it.
theorem outside (h : Settled m fileBuffer fileSize shdrs base i m')
    (ht : Table m fileBuffer fileSize shdrs) (hi : i ≤ (eShnum m fileBuffer).toNat)
    (hm : Agree m' m'' fileBuffer fileSize.toNat) :
    Settled m fileBuffer fileSize shdrs base i m'' where
  file x hx hno := (hm x hx).trans (h.file x hx hno)
  addrs j hj halloc := by
    have hsame : shAddr m'' (shdr shdrs j) = shAddr m' (shdr shdrs j) :=
      load_congr fun x hx => hm x (ht.field_inRange (o := 16) (k := 8) (by omega) (by decide) hx)
    rw [hsame, h.addrs j hj halloc]

-- The store to sh_addr.
theorem assign (h : Settled m fileBuffer fileSize shdrs base i m')
    (ht : Table m fileBuffer fileSize shdrs) (hi : i < (eShnum m fileBuffer).toNat)
    (halloc : IsAlloc m (shdr shdrs i)) :
    Settled m fileBuffer fileSize shdrs base (i + 1)
      (m'.store64 (shdr shdrs i + 16) (base + startOf m shdrs i)) where
  file x hx hno := by
    rw [← h.file x hx hno]
    exact store_of_not_inRange (n := 8) m' _ x _ (hno i hi halloc)
  addrs j hj hjalloc := by
    rcases Nat.lt_succ_iff_lt_or_eq.mp hj with hlt | rfl
    · rw [← h.addrs j hlt hjalloc]
      refine load_store_apart (k := 8) m' _ _ _ ?_
      exact ht.fields_apart (by omega) hi (by decide : 16 + 8 ≤ 64) (by decide : 16 + 8 ≤ 64)
        fun heq => absurd heq hlt.ne
    · exact load_store_same (n := 8) m' _ _ (by decide)

theorem skip (h : Settled m fileBuffer fileSize shdrs base i m')
    (hskip : ¬IsAlloc m (shdr shdrs i)) : Settled m fileBuffer fileSize shdrs base (i + 1) m' where
  file := h.file
  addrs j hj halloc := by
    rcases Nat.lt_succ_iff_lt_or_eq.mp hj with hlt | rfl
    · exact h.addrs j hlt halloc
    · exact absurd halloc hskip

end Settled

end Miyabi.Modules
