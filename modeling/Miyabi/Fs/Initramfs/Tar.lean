import Miyabi.Fs.Initramfs.Distinct
import Miyabi.Fs.Vfs.Resolve

namespace Miyabi.Fs

open Miyabi.Base

-- What is put into an archive as one entry. An entry of type x, g, K or L
-- describes the next one.
structure TarEntry where
  filename : CString
  typeflag : BitVec 8
  data : List (BitVec 8)

def octal (digits : List (BitVec 8)) : ℕ := digits.foldl (fun n c => n * 8 + (c.toNat - 0x30)) 0

-- A size field: blanks, octal digits, and a blank that ends them.
def OctalField (field : List (BitVec 8)) (n : ℕ) : Prop :=
  ∃ blanks digits rest, field = blanks ++ (digits ++ rest) ∧ (∀ c ∈ blanks, c = 0x20 ∨ c = 0) ∧
    digits ≠ [] ∧ (∀ c ∈ digits, 0x30 ≤ c ∧ c ≤ 0x37) ∧
    rest ≠ [] ∧ (∀ c ∈ rest.head?, c = 0x20 ∨ c = 0) ∧ octal digits = n

namespace TarEntry

variable (e : TarEntry)

def IsExtension : Prop := e.typeflag ∈ [0x78, 0x67, 0x4B, 0x4C]

-- '0' or NUL
def IsFile : Prop := e.typeflag ∈ [0x30, 0]

-- '5'
def IsDirectory : Prop := e.typeflag = 0x35

instance : Decidable e.IsExtension := inferInstanceAs (Decidable (_ ∈ _))

instance : Decidable e.IsFile := inferInstanceAs (Decidable (_ ∈ _))

instance : Decidable e.IsDirectory := inferInstanceAs (Decidable (_ = _))

-- Without a leading "./" or "/".
def path : CString := trimFront e.filename

-- The bytes of the entry are in memory from `header` on: the fields of the
-- header that init_initramfs looks at, and the data in the next block.
structure At (m : Memory 64) (header : BitVec 64) : Prop where
  ends : e.filename.length < 100
  filename : ∀ i, (h : i < e.filename.length) →
    m (header + BitVec.ofNat 64 i) = (e.filename.get ⟨i, h⟩).val
  terminator : m (header + BitVec.ofNat 64 e.filename.length) = 0
  size : OctalField ((List.range 12).map fun i => m (header + 124 + BitVec.ofNat 64 i)) e.data.length
  typeflag : m (header + 156) = e.typeflag
  data : ∀ i, (h : i < e.data.length) →
    m (header + 512 + BitVec.ofNat 64 i) = e.data.get ⟨i, h⟩

-- The header and the data padded to whole blocks.
def span : ℕ := 512 + (e.data.length + 511) / 512 * 512

end TarEntry

-- The entries from an address on, up to a zero block.
inductive TarArchive (m : Memory 64) : BitVec 64 → List TarEntry → Prop
  | zero {header : BitVec 64} : (∀ i < 512, m (header + BitVec.ofNat 64 i) = 0) →
      TarArchive m header []
  | entry {header : BitVec 64} {e : TarEntry} {rest : List TarEntry} : e.filename ≠ [] →
      e.At m header → TarArchive m (header + BitVec.ofNat 64 e.span) rest →
      TarArchive m header (e :: rest)

-- A path of components, none of them empty, "." or "..", that starts with no dot.
structure NormalForm (path : CString) : Prop where
  short : path.length ≤ 99
  named : ∀ name ∈ path.splitOn slash, name ≠ [] ∧ name ≠ [dot] ∧ name ≠ [dot, dot]
  visible : path.head? ≠ some dot

-- Only the path of a directory may end with a slash or be empty.
structure ProperEntry (e : TarEntry) : Prop where
  typeflag : e.IsFile ∨ e.IsDirectory
  file : e.IsFile → NormalForm e.path ∧ e.data.length < 2 ^ 32
  directory : e.IsDirectory → e.path = [] ∨ e.path.length ≤ 99 ∧ NormalForm (trimSlash e.path)

-- The entries that are no extensions have paths of their own, and nothing
-- lies below a file.
structure ProperEntries (es : List TarEntry) : Prop where
  entry : ∀ e ∈ es, ¬e.IsExtension → ProperEntry e
  distinct : ((es.filter fun e => ¬e.IsExtension).map fun e => normal e.filename).Nodup
  below : ∀ f ∈ es, f.IsFile → ∀ e ∈ es, ¬e.IsExtension →
    components f.path <+: components e.path → components f.path = components e.path

section Parse

variable {m : Memory 64}

-- The number that oct2bin adds up.
theorem octal_foldl {digits : List (BitVec 8)} (hdigits : ∀ c ∈ digits, 0x30 ≤ c ∧ c ≤ 0x37) :
    ∀ n : ℕ, digits.foldl (fun (n : BitVec 64) c => (n <<< 3) + (c - 0x30).setWidth 64)
        (BitVec.ofNat 64 n) =
      BitVec.ofNat 64 (digits.foldl (fun n c => n * 8 + (c.toNat - 0x30)) n) := by
  induction digits with
  | nil => exact fun _ => rfl
  | cons c digits ih =>
    intro n
    obtain ⟨hlo, -⟩ := hdigits c List.mem_cons_self
    have hstep : (BitVec.ofNat 64 n <<< 3) + (c - 0x30).setWidth 64 =
        BitVec.ofNat 64 (n * 8 + (c.toNat - 0x30)) := by
      have h30 : (0x30 : BitVec 8).toNat = 0x30 := rfl
      apply BitVec.eq_of_toNat_eq
      rw [BitVec.toNat_add, BitVec.toNat_shiftLeft, BitVec.toNat_setWidth,
        BitVec.toNat_sub_of_le hlo, BitVec.toNat_ofNat, BitVec.toNat_ofNat, Nat.shiftLeft_eq, h30]
      omega
    rw [List.foldl_cons, List.foldl_cons, hstep]
    exact ih (fun d hd => hdigits d (List.mem_cons_of_mem _ hd)) _

theorem octal_bound {digits : List (BitVec 8)} (hdigits : ∀ c ∈ digits, 0x30 ≤ c ∧ c ≤ 0x37) :
    ∀ {n k : ℕ}, n < 8 ^ k →
      digits.foldl (fun n c => n * 8 + (c.toNat - 0x30)) n < 8 ^ (k + digits.length) := by
  induction digits with
  | nil => exact fun h => h
  | cons c digits ih =>
    intro n k h
    obtain ⟨-, hhi⟩ := hdigits c List.mem_cons_self
    have hc : c.toNat ≤ 0x37 := hhi
    have hstep : n * 8 + (c.toNat - 0x30) < 8 ^ (k + 1) := by
      rw [pow_succ]
      omega
    have hrest := ih (fun d hd => hdigits d (List.mem_cons_of_mem _ hd)) hstep
    rwa [add_assoc, add_comm 1] at hrest

-- A field of twelve characters.
theorem OctalField.bound {field : List (BitVec 8)} {n : ℕ} (h : OctalField field n)
    (hlen : field.length = 12) : n < 2 ^ 33 := by
  obtain ⟨blanks, digits, rest, rfl, -, -, hdigits, hrest, -, rfl⟩ := h
  have hpos := List.length_pos_iff.mpr hrest
  rw [List.length_append, List.length_append] at hlen
  have hpow : 8 ^ (0 + digits.length) ≤ 8 ^ 11 := Nat.pow_le_pow_right (by decide) (by omega)
  exact (octal_bound hdigits (by decide : 0 < 8 ^ 0)).trans_le hpow

-- oct2bin looks at all but the last character of the field.
theorem oct2bin_field {field : List (BitVec 8)} {n : ℕ} (h : OctalField field n) :
    oct2bin field.dropLast = BitVec.ofNat 64 n := by
  obtain ⟨blanks, digits, rest, rfl, hblanks, hne, hdigits, hrest, hend, rfl⟩ := h
  have hrestBlank : ∀ c ∈ rest.dropLast.head?, ¬(0x30 ≤ c ∧ c ≤ 0x37) := by
    intro c hc
    cases rest with
    | nil => cases hc
    | cons d rest =>
      cases rest with
      | nil => cases hc
      | cons d' rest =>
        obtain rfl : d = c := Option.some.inj hc
        rcases hend d rfl with rfl | rfl
        · decide
        · decide
  have hdrop : (blanks ++ (digits ++ rest)).dropLast = blanks ++ (digits ++ rest.dropLast) := by
    rw [List.dropLast_append_of_ne_nil (List.append_ne_nil_of_right_ne_nil _ hrest),
      List.dropLast_append_of_ne_nil hrest]
  have hstart : (digits ++ rest.dropLast).dropWhile (fun c => c = 0x20 ∨ c = 0) =
      digits ++ rest.dropLast := by
    obtain ⟨d, digits, rfl⟩ := List.exists_cons_of_ne_nil hne
    have hd := hdigits d List.mem_cons_self
    rw [List.cons_append, List.dropWhile_cons_of_neg]
    rw [decide_eq_true_eq]
    rintro (rfl | rfl)
    · exact absurd hd (by decide)
    · exact absurd hd (by decide)
  have hstop : rest.dropLast.takeWhile (fun c => 0x30 ≤ c ∧ c ≤ 0x37) = [] := by
    cases hback : rest.dropLast with
    | nil => rfl
    | cons d back =>
      apply List.takeWhile_cons_of_neg
      simpa using hrestBlank d (by rw [hback]; rfl)
  rw [oct2bin, hdrop, List.dropWhile_append_of_pos (by simpa using hblanks), hstart,
    List.takeWhile_append_of_pos (by simpa using hdigits), hstop, List.append_nil]
  exact octal_foldl hdigits 0

namespace TarEntry

variable {e : TarEntry} {header : BitVec 64} (h : e.At m header)

include h

theorem At.extension : Miyabi.Fs.IsExtension m header ↔ e.IsExtension := by
  rw [Miyabi.Fs.IsExtension, Miyabi.Fs.typeflag, h.typeflag, IsExtension]

theorem At.directory : IsDirEntry m header ↔ e.IsDirectory := by
  rw [IsDirEntry, Miyabi.Fs.typeflag, h.typeflag, IsDirectory]

theorem At.entrySize : entrySize m header = BitVec.ofNat 64 e.data.length := by
  have hfield : sizeField m header =
      ((List.range 12).map fun i => m (header + 124 + BitVec.ofNat 64 i)).dropLast := rfl
  rw [Miyabi.Fs.entrySize, hfield]
  exact oct2bin_field h.size

theorem At.length_lt : e.data.length < 2 ^ 33 := h.size.bound (by simp)

theorem At.nextHeader : nextHeader m header = header + BitVec.ofNat 64 e.span := by
  have hlt := h.length_lt
  have h512 : (512 : BitVec 64).toNat = 512 := rfl
  have hsize : (BitVec.ofNat 64 e.data.length).toNat = e.data.length := by
    rw [BitVec.toNat_ofNat, Nat.mod_eq_of_lt (by omega)]
  have hmod : BitVec.ofNat 64 e.data.length % 512 = 0 ↔ e.data.length % 512 = 0 := by
    rw [← BitVec.toNat_inj, BitVec.toNat_umod, hsize, h512]
    rfl
  have hblocks : (BitVec.ofNat 64 e.data.length / 512 +
      if BitVec.ofNat 64 e.data.length % 512 = 0 then 0 else 1) * 512 =
      BitVec.ofNat 64 ((e.data.length + 511) / 512 * 512) := by
    apply BitVec.eq_of_toNat_eq
    by_cases hzero : e.data.length % 512 = 0
    · rw [if_pos (hmod.mpr hzero), add_zero, BitVec.toNat_mul, BitVec.toNat_udiv, hsize,
        h512, BitVec.toNat_ofNat]
      omega
    · have h1 : (1 : BitVec 64).toNat = 1 := rfl
      rw [if_neg fun hnot => hzero (hmod.mp hnot), BitVec.toNat_mul, BitVec.toNat_add,
        BitVec.toNat_udiv, hsize, h512, h1, BitVec.toNat_ofNat]
      omega
  rw [Miyabi.Fs.nextHeader, h.entrySize, span, BitVec.ofNat_add, ← add_assoc]
  simp only [hblocks]
  rfl

theorem At.ne_zero (hne : e.filename ≠ []) : m header ≠ 0 := by
  have hpos := List.length_pos_iff.mpr hne
  have hfirst := h.filename 0 hpos
  rw [BitVec.add_zero] at hfirst
  rw [hfirst]
  exact (e.filename.get ⟨0, hpos⟩).ne_zero

end TarEntry

-- The characters of a string and its end.
theorem cString_eq {string : CString} : ∀ {fuel : ℕ} {a : BitVec 64}, string.length < fuel →
    (∀ i, (h : i < string.length) → m (a + BitVec.ofNat 64 i) = (string.get ⟨i, h⟩).val) →
    m (a + BitVec.ofNat 64 string.length) = 0 → cString m fuel a = .ok string := by
  induction string with
  | nil =>
    intro fuel a hfuel _ hend
    obtain ⟨fuel, rfl⟩ : ∃ k, fuel = k + 1 := ⟨fuel - 1, by omega⟩
    rw [List.length_nil, BitVec.add_zero] at hend
    rw [cString, dif_pos hend]
  | cons c string ih =>
    intro fuel a hfuel hchars hend
    rw [List.length_cons] at hfuel
    obtain ⟨fuel, rfl⟩ : ∃ k, fuel = k + 1 := ⟨fuel - 1, by omega⟩
    have hnext : ∀ i, a + 1 + BitVec.ofNat 64 i = a + BitVec.ofNat 64 (i + 1) := by
      intro i
      rw [Nat.add_comm, BitVec.ofNat_add, ← add_assoc]
      rfl
    have hfirst : m a = c.val := by
      have h0 := hchars 0 (Nat.succ_pos _)
      rwa [BitVec.add_zero] at h0
    have hne : m a ≠ 0 := hfirst ▸ c.ne_zero
    have hrest : cString m fuel (a + 1) = .ok string := by
      refine ih (by omega) (fun i hi => ?_) ?_
      · rw [hnext]
        exact hchars (i + 1) (Nat.succ_lt_succ hi)
      · rw [hnext]
        exact hend
    have hc : (⟨m a, hne⟩ : Char8) = c := by
      cases c
      congr 1
    rw [cString, dif_neg hne, hrest, hc]
    rfl

theorem TarEntry.At.cString {e : TarEntry} {header : BitVec 64} (h : e.At m header) {fuel : ℕ}
    (hfuel : 100 ≤ fuel) : cString m fuel header = .ok e.filename := by
  have hends := h.ends
  exact cString_eq (by omega) h.filename h.terminator

-- An archive is one whose filenames end within their fields.
theorem TarArchive.archive {header : BitVec 64} {es : List TarEntry} (h : TarArchive m header es) :
    ∃ headers, headers.length = es.length ∧ Archive m header headers := by
  induction h with
  | @zero header hzero =>
    have hfirst := hzero 0 (by decide)
    rw [BitVec.add_zero] at hfirst
    exact ⟨[], rfl, .zero hfirst⟩
  | @entry header e rest hne hat _ ih =>
    obtain ⟨headers, hlen, harchive⟩ := ih
    refine ⟨header :: headers, congrArg (· + 1) hlen, .entry (hat.ne_zero hne) (fun _ => ?_) ?_⟩
    · exact ⟨e.filename.length, hat.ends, hat.terminator⟩
    · rw [hat.nextHeader]
      exact harchive

end Parse

end Miyabi.Fs
