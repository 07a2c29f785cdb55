import Mathlib.Data.Fintype.Card
import Miyabi.Arch.Thread
import Miyabi.Base.Linked
import Miyabi.Base.RoundRobin

namespace Miyabi.Arch.Thread

open Miyabi.Base Miyabi.Base.Linked Miyabi.Base.RoundRobin

variable {s s' : State} {p t : BitVec 64} {queue : List (BitVec 64)}

-- The links from p on lead through these threads to the end of the queue.
def Links (s : State) (p : BitVec 64) (queue : List (BitVec 64)) : Prop :=
  Segment (fun t => (s.threads t).next) id (fun t => t ≠ 0) p queue 0

@[simp] theorem push_threads (v : BitVec 64) (s : State) : (push v s).threads = s.threads := rfl

@[simp] theorem setThread_same (p : BitVec 64) (t : Tcb) (s : State) :
    (setThread p t s).threads p = t := if_pos rfl

theorem setThread_ne (t : Tcb) {q : BitVec 64} (h : q ≠ p) :
    (setThread p t s).threads q = s.threads q := if_neg h

theorem setState_threads (p : BitVec 64) (state : ThreadState) (s : State) (q : BitVec 64) :
    (setState p state s).threads q =
      if q = p then { s.threads q with state } else s.threads q := by
  by_cases h : q = p
  · subst h
    simp [setState]
  · simp [setState, setThread_ne _ h, h]

-- Of the records context_switch changes the stack pointer of the old thread.
theorem contextSwitch_threads (old newRsp : BitVec 64) (s : State) (q : BitVec 64) :
    (contextSwitch old newRsp s).threads q =
      if q = old then { s.threads q with rsp := s.registers.rsp - 48 } else s.threads q := by
  by_cases h : q = old
  · subst h
    simp [contextSwitch, pop, push, BitVec.sub_sub]
  · simp [contextSwitch, pop, setThread_ne _ h, h]

-- Everything that a switch does to the records.
theorem switchTo_threads {z : BitVec 64} (hz : z ≠ s.runningThread) (t : BitVec 64) :
    (switchTo z s).threads t =
      if t = z then { s.threads t with state := .running }
      else if t = s.runningThread then
        { s.threads t with
          rsp := s.registers.rsp - 48
          state := if (s.threads t).state = .running then .ready else (s.threads t).state }
      else s.threads t := by
  by_cases htz : t = z
  · by_cases hrun : (s.threads s.runningThread).state = .running
    · simp [switchTo, contextSwitch_threads, setState, setThread, hrun, htz, hz]
    · simp [switchTo, contextSwitch_threads, setState, setThread, hrun, htz, hz]
  · by_cases hto : t = s.runningThread
    · subst hto
      by_cases hrun : (s.threads s.runningThread).state = .running
      · simp [switchTo, contextSwitch_threads, setState, setThread, hrun, htz]
      · simp [switchTo, contextSwitch_threads, setState, setThread, hrun, htz]
    · by_cases hrun : (s.threads s.runningThread).state = .running
      · simp [switchTo, contextSwitch_threads, setState, setThread, hrun, htz, hto]
      · simp [switchTo, contextSwitch_threads, setState, setThread, hrun, htz, hto]

@[simp] theorem contextSwitch_threadQueueHead (old newRsp : BitVec 64) (s : State) :
    (contextSwitch old newRsp s).threadQueueHead = s.threadQueueHead := by
  simp only [contextSwitch, pop, push, setThread]

@[simp] theorem setState_threadQueueHead (p : BitVec 64) (state : ThreadState) (s : State) :
    (setState p state s).threadQueueHead = s.threadQueueHead := rfl

@[simp] theorem switchTo_threadQueueHead (z : BitVec 64) (s : State) :
    (switchTo z s).threadQueueHead = s.threadQueueHead := by
  simp only [switchTo, contextSwitch_threadQueueHead, setState_threadQueueHead]
  split
  · simp only [setState_threadQueueHead]
  · rfl

@[simp] theorem switchTo_runningThread (z : BitVec 64) (s : State) :
    (switchTo z s).runningThread = z := by
  simp only [switchTo, contextSwitch, pop, push, setThread]

theorem links_congr (h : Links s p queue)
    (hn : ∀ t ∈ queue, (s'.threads t).next = (s.threads t).next) : Links s' p queue :=
  segment_congr h (fun t ht => ⟨hn t ht, fun hne => hne⟩)

theorem links_ne_zero (h : Links s p queue) (ht : t ∈ queue) : t ≠ 0 := segment_holds h ht

theorem links_head_ne_zero {front back : List (BitVec 64)} (h : Links s p (front ++ t :: back)) :
    p ≠ 0 := by
  cases front with
  | nil => exact h.1 ▸ h.2.1
  | cons u front => exact h.1 ▸ h.2.1

-- No queue is longer than there are addresses.
theorem length_queue (h : queue.Nodup) : queue.length ≤ 2 ^ 64 := by
  have hfin := (h.map (fun _ _ => BitVec.eq_of_toFin_eq)).length_le_card
  simpa using hfin

-- The search passes over dead threads.
theorem findRunnable_passed {q : BitVec 64} (fuel : ℕ)
    (h : Segment (fun t => (s.threads t).next) id (fun t => t ≠ 0) p queue q)
    (hd : ∀ t ∈ queue, (s.threads t).state = .dead) :
    findRunnable s (queue.length + fuel) p = findRunnable s fuel q := by
  induction queue generalizing p with
  | nil =>
      obtain rfl := h
      rw [List.length_nil, Nat.zero_add]
  | cons u rest ih =>
      obtain ⟨rfl, hne, hrest⟩ := h
      have hlen : (p :: rest).length + fuel = rest.length + fuel + 1 := by
        simp only [List.length_cons]
        omega
      have hdead : (s.threads p).state = .dead := hd p (by simp)
      rw [hlen, findRunnable]
      simp only [if_neg hne, hdead]
      exact ih hrest (fun u hu => hd u (by simp [hu]))

theorem findRunnable_live (fuel : ℕ) (hp : p ≠ 0) (hl : (s.threads p).state ≠ .dead) :
    findRunnable s (fuel + 1) p = some p := by
  rw [findRunnable, if_neg hp]
  cases h : (s.threads p).state with
  | ready => rfl
  | running => rfl
  | dead => exact absurd h hl

-- At the end of the queue it starts again at the head.
theorem findRunnable_wrap (fuel : ℕ) (hh : s.threadQueueHead ≠ 0) :
    findRunnable s (fuel + 1) 0 = findRunnable s (fuel + 1) s.threadQueueHead := by
  simp only [findRunnable, if_true, hh, if_false]

theorem findRunnable_first {z : BitVec 64} {passed rest : List (BitVec 64)} {fuel : ℕ}
    (h : Links s p (passed ++ z :: rest)) (hd : ∀ t ∈ passed, (s.threads t).state = .dead)
    (hz : (s.threads z).state ≠ .dead) (hf : passed.length < fuel) :
    findRunnable s fuel p = some z := by
  obtain ⟨hpassed, hne, -⟩ := (segment_middle passed rest z).mp h
  obtain ⟨k, rfl⟩ : ∃ k, fuel = passed.length + (k + 1) := ⟨fuel - passed.length - 1, by omega⟩
  rw [findRunnable_passed (k + 1) hpassed hd]
  exact findRunnable_live k hne hz

-- The search of schedule chooses as the rota does.
theorem findRunnable_order {gone : List (BitVec 64)} {r' : Rota (BitVec 64)}
    (hl : Links s s.threadQueueHead queue) (hn : queue.Nodup) (hr : s.runningThread ∈ queue)
    (hd : ∀ t ∈ queue, (s.threads t).state = .dead ↔ t ∈ gone)
    (hp : passTurn ⟨queue, s.runningThread, gone⟩ = some r') :
    findRunnable s (2 ^ 64) (s.threads s.runningThread).next = some r'.current := by
  obtain ⟨passed, rest, hsearch, hpassed, hlive, -, -⟩ := passTurn_cases hp
  obtain ⟨before, behind, hqueue⟩ := List.append_of_mem hr
  have horder : order ⟨queue, s.runningThread, gone⟩ = behind ++ (before ++ [s.runningThread]) :=
    order_eq before behind hqueue hn
  have hmem : ∀ t, t ∈ behind ++ (before ++ [s.runningThread]) → t ∈ queue := by
    intro t ht
    rw [← horder] at ht
    exact mem_order.mp ht
  have hboth := horder.symm.trans hsearch
  have hdead : ∀ t ∈ passed, (s.threads t).state = .dead := by
    intro t ht
    exact (hd t (hmem t (by simp [hboth, ht]))).mpr (hpassed t ht)
  have hz : (s.threads r'.current).state ≠ .dead := by
    have hzq := hmem r'.current (by simp [hboth])
    exact fun he => hlive ((hd _ hzq).mp he)
  have hsize := length_queue hn
  have hlen := congrArg List.length hboth
  simp only [hqueue, List.length_append, List.length_cons, List.length_nil] at hsize hlen
  rw [hqueue] at hl
  have hbehind : Links s (s.threads s.runningThread).next behind :=
    ((segment_middle before behind _).mp hl).2.2
  rcases append_split hboth with ⟨mid, hpass, hfirst⟩ | ⟨mid, hback, -⟩
  · -- Everyone behind is dead, and the search goes on at the head.
    have hhead : Links s s.threadQueueHead (mid ++ r'.current :: (rest ++ behind)) := by
      have he : before ++ s.runningThread :: behind = mid ++ r'.current :: (rest ++ behind) := by
        simpa using congrArg (· ++ behind) hfirst
      rwa [he] at hl
    have hh0 : s.threadQueueHead ≠ 0 := links_head_ne_zero hhead
    have hfirstlen := congrArg List.length hfirst
    simp only [List.length_append, List.length_cons, List.length_nil] at hfirstlen
    obtain ⟨k, hk⟩ : ∃ k, 2 ^ 64 = behind.length + (k + 1) := ⟨2 ^ 64 - behind.length - 1, by omega⟩
    rw [hk, findRunnable_passed (k + 1) hbehind (fun t ht => hdead t (by simp [hpass, ht])),
      findRunnable_wrap k hh0]
    refine findRunnable_first hhead (fun t ht => hdead t (by simp [hpass, ht])) hz ?_
    omega
  · rw [hback] at hbehind
    exact findRunnable_first hbehind hdead hz (by omega)

end Miyabi.Arch.Thread
