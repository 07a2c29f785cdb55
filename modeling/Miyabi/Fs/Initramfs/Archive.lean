import Miyabi.Fs.Initramfs.Nodes

namespace Miyabi.Fs

open Miyabi.Base

variable {m : Memory 64}

-- A string that ends within n bytes.
def Terminated (m : Memory 64) (a : BitVec 64) (n : Nat) : Prop :=
  ∃ i < n, m (a + BitVec.ofNat 64 i) = 0

-- The headers from an address on, up to the zero block. Every entry has a
-- filename that ends within its field.
inductive Archive (m : Memory 64) : BitVec 64 → List (BitVec 64) → Prop
  | zero {header : BitVec 64} : m header = 0 → Archive m header []
  | entry {header : BitVec 64} {headers : List (BitVec 64)} : m header ≠ 0 →
      (¬IsExtension m header → Terminated m header 100) →
      Archive m (nextHeader m header) headers → Archive m header (header :: headers)

theorem cString_ok {n : Nat} : ∀ {fuel : Nat} {a : BitVec 64}, Terminated m a n → n ≤ fuel →
    ∃ string, cString m fuel a = .ok string ∧ string.length < n := by
  induction n with
  | zero =>
    rintro fuel a ⟨i, hi, -⟩ _
    omega
  | succ n ih =>
    rintro fuel a ⟨i, hi, hzero⟩ hfuel
    obtain ⟨fuel, rfl⟩ : ∃ k, fuel = k + 1 := ⟨fuel - 1, by omega⟩
    by_cases ha : m a = 0
    · exact ⟨[], dif_pos ha, Nat.succ_pos n⟩
    have hi0 : i ≠ 0 := by
      rintro rfl
      exact ha (by simpa using hzero)
    have hrest : Terminated m (a + 1) n := by
      refine ⟨i - 1, by omega, ?_⟩
      have hstep : a + 1 + BitVec.ofNat 64 (i - 1) = a + BitVec.ofNat 64 i := by
        have hone : (1 : BitVec 64) = BitVec.ofNat 64 1 := rfl
        rw [hone, add_assoc, ← BitVec.ofNat_add]
        congr 2
        omega
      rw [hstep]
      exact hzero
    have hle : n ≤ fuel := by omega
    obtain ⟨string, hstring, hlen⟩ := ih hrest hle
    refine ⟨⟨m a, ha⟩ :: string, ?_, by rw [List.length_cons]; omega⟩
    rw [cString, dif_neg ha, hstring]
    rfl

theorem sanitizePath_length (path : CString) : (sanitizePath path).length ≤ path.length :=
  (List.dropWhile_sublist _).length_le

namespace State

variable (blocks : Nat → BitVec 64)

theorem ensureDirs_ok {rest : CString} : ∀ {s : State} {dirPath : CString},
    dirPath.length + rest.length < VfsNode.nameSize →
    ∃ s', s.ensureDirs blocks dirPath rest = .ok s' := by
  induction rest with
  | nil => exact fun _ => ⟨_, rfl⟩
  | cons c rest ih =>
    intro s dirPath hlen
    have hnext : (dirPath ++ [c]).length + rest.length < VfsNode.nameSize := by
      simp only [List.length_append, List.length_cons, List.length_nil] at hlen ⊢
      omega
    have hsize : VfsNode.nameSize ≤ pathSize := by decide
    rw [ensureDirs, if_neg (by omega)]
    split
    · split
      · exact ⟨_, rfl⟩
      · rw [if_neg (by omega)]
        exact ih hnext
    · exact ih hnext

theorem ensureParentDirsExist_ok (s : State) {path : CString}
    (hlen : path.length < VfsNode.nameSize) :
    ∃ s', s.ensureParentDirsExist blocks path = .ok s' := by
  have hclean := sanitizePath_length path
  exact ensureDirs_ok blocks (by rw [List.length_nil]; omega)

theorem entriesFrom_ok {fuel : Nat} (hfuel : 100 ≤ fuel) {header : BitVec 64}
    {headers : List (BitVec 64)} (harchive : Archive m header headers) :
    ∀ {turns : Nat} {s : State}, headers.length < turns →
      ∃ s', s.entriesFrom blocks m fuel turns header = .ok s' := by
  induction harchive with
  | zero hzero =>
    intro turns s hturns
    obtain ⟨turns, rfl⟩ : ∃ k, turns = k + 1 := ⟨turns - 1, by omega⟩
    exact ⟨s, if_pos hzero⟩
  | @entry header headers hne hname _ ih =>
    intro turns s hturns
    obtain ⟨turns, rfl⟩ : ∃ k, turns = k + 1 := ⟨turns - 1, by omega⟩
    have hrest : headers.length < turns := by
      rw [List.length_cons] at hturns
      omega
    rw [entriesFrom, if_neg hne]
    split
    · exact ih hrest
    · next hentry =>
      obtain ⟨filename, hfilename, hlen⟩ := cString_ok (hname hentry) hfuel
      have hshort : (sanitizePath filename).length < VfsNode.nameSize := by
        have hclean := sanitizePath_length filename
        have h128 : VfsNode.nameSize = 128 := rfl
        omega
      obtain ⟨s₁, hensure⟩ := ensureParentDirsExist_ok blocks s hshort
      simp only [hfilename, hensure]
      split
      · exact ⟨_, rfl⟩
      · exact ih hrest

theorem initInitramfs_ok {fuel : Nat} {ramfsAddr : BitVec 64} {headers : List (BitVec 64)}
    (harchive : Archive m ramfsAddr headers) (hfuel : headers.length + 100 ≤ fuel) (s : State) :
    ∃ s', s.initInitramfs blocks m fuel ramfsAddr = .ok s' := by
  rw [initInitramfs, kmalloc_eq]
  by_cases hroot : blocks s.kmallocs = 0
  · exact ⟨_, if_pos hroot⟩
  · have hturns : headers.length < fuel := by omega
    have hlong : 100 ≤ fuel := by omega
    let start := plantRoot (blocks s.kmallocs) { s with kmallocs := s.kmallocs + 1 }
    obtain ⟨s₁, hentries⟩ : ∃ s₁, start.entriesFrom blocks m fuel fuel ramfsAddr = .ok s₁ :=
      entriesFrom_ok blocks hlong harchive hturns
    exact ⟨{ s₁ with fsRoot := blocks s.kmallocs }, by simp only [if_neg hroot, start, hentries]⟩

end State

end Miyabi.Fs
