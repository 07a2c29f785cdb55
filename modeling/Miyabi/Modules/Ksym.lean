import Miyabi.Base.Memory
import Miyabi.Fs.Vfs

namespace Miyabi.Modules

open Miyabi.Base Miyabi.Fs

-- src/modules/ksym.c

-- The string at `name` is `s`: the loop that compares them stops at the first
-- difference or at both terminators.
def matchesAt (m : Memory 64) : CString → BitVec 64 → Bool
  | [], name => m name == 0
  | c :: s, name => if m name = c.val then matchesAt m s (name + 1) else false

-- There is one string at an address.
theorem matchesAt_unique {m : Memory 64} {s s' : CString} {name : BitVec 64}
    (h : matchesAt m s name = true) (h' : matchesAt m s' name = true) : s = s' := by
  induction s generalizing s' name with
  | nil =>
      cases s' with
      | nil => rfl
      | cons c s' =>
          simp only [matchesAt, beq_iff_eq] at h h'
          split at h'
          · rename_i hc
            exact absurd (hc.symm.trans h) c.ne_zero
          · cases h'
  | cons c s ih =>
      simp only [matchesAt] at h
      split at h
      · rename_i hc
        cases s' with
        | nil =>
            simp only [matchesAt, beq_iff_eq] at h'
            exact absurd (hc.symm.trans h') c.ne_zero
        | cons c' s' =>
            simp only [matchesAt] at h'
            split at h'
            · rename_i hc'
              have hchar : c = c' := by
                cases c
                cases c'
                simpa using hc.symm.trans hc'
              rw [hchar, ih h h']
            · cases h'
      · cases h

-- The table of the exported symbols, which the linker makes.
abbrev KernelSymbols := List (CString × BitVec 64)

def ksymLookup (m : Memory 64) : KernelSymbols → BitVec 64 → BitVec 64
  | [], _ => 0
  | (symName, addr) :: rest, name => if matchesAt m symName name then addr else ksymLookup m rest name

end Miyabi.Modules
