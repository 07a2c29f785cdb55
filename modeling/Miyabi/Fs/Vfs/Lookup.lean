import Miyabi.Fs.Vfs

namespace Miyabi.Fs.Vfs

open Miyabi.Base

variable (v : Vfs)

-- The walk over a list of components.
def walkWords (current : BitVec 64) : List CString → Except Fault (BitVec 64)
  | [] => .ok current
  | token :: rest =>
      if tokenSize ≤ token.length then .error .overrun
      else if v.descend current token = 0 then .ok 0
      else walkWords (v.descend current token) rest

-- What vfs_get_node_by_path makes of the node at which the walk ends.
def finish (current : BitVec 64) : BitVec 64 := if current = 0 then 0 else v.follow current

def lookupWords (tokens : List CString) : Except Fault (BitVec 64) :=
  (v.walkWords v.fsRoot tokens).map v.finish

theorem walk_eq_words (current : BitVec 64) (path : CString) :
    v.walk current path = v.walkWords current (words slash path) := by
  induction h : path.length using Nat.strong_induction_on generalizing current path with
  | _ n ih =>
    subst h
    rw [walk]
    split
    · next hnone =>
      rw [getNextToken_eq] at hnone
      rw [words_none hnone, walkWords]
    · next token rest hsome =>
      rw [getNextToken_eq] at hsome
      have hrest : ∀ current, v.walk current rest = v.walkWords current (words slash rest) :=
        fun current => ih rest.length (nextWord_spec hsome).2.2.2 current rest rfl
      rw [words_some hsome, walkWords, hrest]

-- The result depends on the components alone.
theorem vfsGetNodeByPath_eq (rest : CString) :
    v.vfsGetNodeByPath (slash :: rest) = v.lookupWords (words slash rest) := by
  rw [vfsGetNodeByPath, if_neg (by simp), walk_eq_words, words_sep, lookupWords]
  cases v.walkWords v.fsRoot (words slash rest) with
  | error fault => rfl
  | ok current => rfl

theorem vfsGetNodeByPath_relative {path : CString} (h : path.head? ≠ some slash) :
    v.vfsGetNodeByPath path = .ok 0 := if_pos h

theorem descend_zero (token : CString) : v.descend 0 token = 0 := if_pos rfl

theorem walkWords_cons {token : CString} (hlen : token.length < tokenSize)
    (current : BitVec 64) (rest : List CString) :
    v.walkWords current (token :: rest) =
      if v.descend current token = 0 then .ok 0 else v.walkWords (v.descend current token) rest := by
  rw [walkWords, if_neg (by omega)]

-- One more component after a walk that came to an end.
theorem walkWords_concat {tokens : List CString} {token : CString}
    (hlen : token.length < tokenSize) : ∀ {current last : BitVec 64},
      v.walkWords current tokens = .ok last →
      v.walkWords current (tokens ++ [token]) = .ok (v.descend last token) := by
  induction tokens with
  | nil =>
    intro current last h
    cases h
    rw [List.nil_append, walkWords_cons v hlen]
    split
    · next hzero => rw [hzero]
    · rfl
  | cons first rest ih =>
    intro current last h
    rw [walkWords] at h
    split at h
    · cases h
    next hfirst =>
    rw [List.cons_append, walkWords_cons v (by omega)]
    split at h
    · next hzero =>
      cases h
      rw [if_pos hzero, descend_zero]
    · next hne =>
      rw [if_neg hne]
      exact ih h

theorem follow_of_not_mountpoint {node : BitVec 64} (h : ¬v.IsMountpoint node) :
    v.follow node = node := if_neg h

theorem mountpoint_or (flags : BitVec 32) : (flags ||| FS_MOUNTPOINT) &&& FS_MOUNTPOINT ≠ 0 := by
  intro h
  have hbit := congrArg (fun b : BitVec 32 => b.getLsbD 6) h
  simp [FS_MOUNTPOINT] at hbit

theorem finish_of_not_mountpoint {node : BitVec 64} (h : ¬v.IsMountpoint node) :
    v.finish node = node := by
  rw [finish, follow_of_not_mountpoint v h]
  split
  · next hzero => exact hzero.symm
  · rfl

-- Two graphs that agree on every node that a set of nodes leads to give the
-- same walk.
theorem walkWords_congr {v v' : Vfs} {P : BitVec 64 → Prop} {tokens : List CString}
    (hstep : ∀ n, P n → ∀ token ∈ tokens, token.length < tokenSize →
      v'.descend n token = v.descend n token ∧
        (v.descend n token ≠ 0 → P (v.descend n token)))
    {current : BitVec 64} (hcurrent : P current) :
    v'.walkWords current tokens = v.walkWords current tokens ∧
      ∀ last, v.walkWords current tokens = .ok last → last = 0 ∨ P last := by
  induction tokens generalizing current with
  | nil =>
    refine ⟨rfl, fun last h => ?_⟩
    cases h
    exact Or.inr hcurrent
  | cons token rest ih =>
    by_cases hlen : tokenSize ≤ token.length
    · simp [walkWords, hlen]
    obtain ⟨hsame, hnext⟩ := hstep current hcurrent token List.mem_cons_self (by omega)
    rw [walkWords_cons v' (by omega), walkWords_cons v (by omega), hsame]
    by_cases hzero : v.descend current token = 0
    · rw [if_pos hzero, if_pos hzero]
      refine ⟨rfl, fun last h => ?_⟩
      cases h
      exact Or.inl rfl
    · rw [if_neg hzero, if_neg hzero]
      exact ih (fun n hn t ht => hstep n hn t (List.mem_cons_of_mem _ ht)) (hnext hzero)

end Miyabi.Fs.Vfs
