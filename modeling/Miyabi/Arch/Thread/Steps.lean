import Miyabi.Arch.Thread.Queue

namespace Miyabi.Arch.Thread

open Miyabi.Base Miyabi.Base.Linked Miyabi.Base.RoundRobin

variable {s s' : State} {queue gone : List (BitVec 64)} {r r' : Rota (BitVec 64)}

-- The state that each thread of the queue has when t is the running one.
def stateIn (gone : List (BitVec 64)) (current t : BitVec 64) : ThreadState :=
  if t ∈ gone then .dead else if t = current then .running else .ready

theorem stateIn_dead {current t : BitVec 64} : stateIn gone current t = .dead ↔ t ∈ gone := by
  unfold stateIn
  by_cases h : t ∈ gone
  · simp [h]
  · rw [if_neg h]
    split <;> simp [h]

-- schedule hands the processor to the thread whose turn it is.
theorem schedule_spec (hl : Links s s.threadQueueHead queue) (hn : queue.Nodup)
    (hr : s.runningThread ∈ queue)
    (hs : ∀ t ∈ queue, (s.threads t).state = stateIn gone s.runningThread t)
    (hp : passTurn ⟨queue, s.runningThread, gone⟩ = some r') :
    ∃ s', schedule s = some s' ∧ s'.threadQueueHead = s.threadQueueHead ∧
      s'.runningThread = r'.current ∧ Links s' s'.threadQueueHead queue ∧
      ∀ t ∈ queue, (s'.threads t).state = stateIn gone r'.current t := by
  have hd : ∀ t ∈ queue, (s.threads t).state = .dead ↔ t ∈ gone := by
    intro t ht
    rw [hs t ht, stateIn_dead]
  have hf := findRunnable_order hl hn hr hd hp
  obtain ⟨front, back, hsplit⟩ := List.append_of_mem hr
  have hh : s.threadQueueHead ≠ 0 := links_head_ne_zero (hsplit ▸ hl)
  obtain ⟨-, -, hsearch, -, hlive, -, -⟩ := passTurn_cases hp
  simp only [schedule, if_neg hh, hf]
  by_cases hsame : r'.current = s.runningThread
  · rw [if_pos hsame]
    exact ⟨s, rfl, rfl, hsame.symm, hl, hsame ▸ hs⟩
  rw [if_neg hsame]
  refine ⟨_, rfl, by simp, rfl, ?_, ?_⟩
  · rw [switchTo_threadQueueHead]
    refine links_congr hl (fun t ht => ?_)
    rw [switchTo_threads hsame]
    split
    · rfl
    · split <;> rfl
  · intro t ht
    have hst := hs t ht
    rw [switchTo_threads hsame]
    by_cases htz : t = r'.current
    · rw [if_pos htz, stateIn, if_neg (htz ▸ hlive), if_pos htz]
    rw [if_neg htz]
    by_cases hto : t = s.runningThread
    · rw [if_pos hto]
      by_cases hg : t ∈ gone
      · have hdead : (s.threads t).state = .dead := hst.trans (stateIn_dead.mpr hg)
        simp [hdead, stateIn, hg]
      · have hrun : (s.threads t).state = .running := by
          rw [hst, stateIn, if_neg hg, if_pos hto]
        simp [hrun, stateIn, hg, htz]
    · rw [if_neg hto, hst]
      simp [stateIn, hto, htz]

-- The walk to the end of the queue.
theorem lastThread_links {p last : BitVec 64} {front : List (BitVec 64)} (fuel : ℕ)
    (h : Links s p (front ++ [last])) (hf : front.length < fuel) :
    lastThread s fuel p = some last := by
  induction front generalizing p fuel with
  | nil =>
      obtain ⟨rfl, -, hnext⟩ := h
      obtain ⟨k, rfl⟩ : ∃ k, fuel = k + 1 := ⟨fuel - 1, by simp at hf; omega⟩
      have hnext : (s.threads p).next = 0 := hnext
      rw [lastThread, if_neg (by simpa using hnext)]
  | cons t front ih =>
      obtain ⟨rfl, -, hrest⟩ := h
      have hrest : Links s (s.threads p).next (front ++ [last]) := hrest
      obtain ⟨k, rfl⟩ : ∃ k, fuel = k + 1 := ⟨fuel - 1, by simp at hf; omega⟩
      rw [lastThread, if_pos (links_head_ne_zero hrest)]
      exact ih k hrest (by simpa using hf)

theorem setNext_threads (p next : BitVec 64) (s : State) (q : BitVec 64) :
    (setNext p next s).threads q = if q = p then { s.threads q with next } else s.threads q := by
  by_cases h : q = p
  · subst h
    simp [setNext]
  · simp [setNext, setThread_ne _ h, h]

-- Linking a thread that has no successor behind the last one.
theorem links_setNext {p thread last : BitVec 64} {front : List (BitVec 64)} (ht : thread ≠ 0)
    (hn : (front ++ [last]).Nodup) (hnew : thread ∉ front ++ [last])
    (hend : (s.threads thread).next = 0) (hl : Links s p (front ++ [last])) :
    Links (setNext last thread s) p (front ++ [last] ++ [thread]) := by
  have hlast : last ∉ front := by
    intro hin
    exact (List.nodup_append.mp hn).2.2 _ hin _ (by simp) rfl
  obtain ⟨hfront, hne, -⟩ := (segment_middle front [] last).mp hl
  have hfront' : Segment (fun t => ((setNext last thread s).threads t).next) id (fun t => t ≠ 0) p
      front last := by
    refine segment_congr hfront (fun t hin => ⟨?_, fun hne => hne⟩)
    have htl : t ≠ last := fun he => hlast (he ▸ hin)
    simp [setNext_threads, htl]
  have hlink : ((setNext last thread s).threads last).next = thread := by simp [setNext_threads]
  have htl : thread ≠ last := fun he => hnew (by simp [he])
  have hstop : Segment (fun t => ((setNext last thread s).threads t).next) id (fun t => t ≠ 0)
      ((setNext last thread s).threads ((setNext last thread s).threads last).next).next [] 0 := by
    rw [hlink]
    show ((setNext last thread s).threads thread).next = 0
    simp [setNext_threads, htl, hend]
  rw [List.append_assoc]
  exact (segment_middle front [thread] last).mpr ⟨hfront', hne, hlink, ht, hstop⟩

theorem kthreadCreate_fails (sym : Symbols) {thread stackRaw : BitVec 64} (entryPoint : BitVec 64)
    (h : thread = 0 ∨ stackRaw = 0) :
    kthreadCreate sym thread stackRaw entryPoint s = some (0, s) := by
  by_cases ht : thread = 0
  · rw [kthreadCreate, if_pos ht]
  · rw [kthreadCreate, if_neg ht, if_pos (h.resolve_left ht)]

-- kthread_create puts the new thread behind the others, ready to run.
theorem kthreadCreate_spec (sym : Symbols) {thread stackRaw : BitVec 64} (entryPoint : BitVec 64)
    (ht : thread ≠ 0) (hstack : stackRaw ≠ 0) (hne : queue ≠ []) (hn : queue.Nodup)
    (hnew : thread ∉ queue) (hl : Links s s.threadQueueHead queue) :
    ∃ s', kthreadCreate sym thread stackRaw entryPoint s = some (thread, s') ∧
      s'.runningThread = s.runningThread ∧ Links s' s'.threadQueueHead (queue ++ [thread]) ∧
      (s'.threads thread).state = .ready ∧
      ∀ t ∈ queue, (s'.threads t).state = (s.threads t).state := by
  obtain ⟨front, last, rfl⟩ : ∃ front last, queue = front ++ [last] :=
    ⟨_, _, (List.dropLast_append_getLast hne).symm⟩
  simp only [kthreadCreate, if_neg ht, if_neg hstack]
  generalize initialStack sym stackRaw entryPoint s.mem = built
  generalize hs1 : setThread thread ⟨built.2, s.nextThreadId, .ready, stackRaw, 0⟩
    { s with mem := built.1, nextThreadId := s.nextThreadId + 1 } = s1
  have hold : ∀ t ∈ front ++ [last], s1.threads t = s.threads t := by
    intro t hin
    have hne : t ≠ thread := fun he => hnew (he ▸ hin)
    rw [← hs1, setThread_ne _ hne]
  have hmade : s1.threads thread = ⟨built.2, s.nextThreadId, .ready, stackRaw, 0⟩ := by
    rw [← hs1, setThread_same]
  have hhead : s1.threadQueueHead = s.threadQueueHead := by rw [← hs1]; rfl
  have hrun : s1.runningThread = s.runningThread := by rw [← hs1]; rfl
  have hl1 : Links s1 s1.threadQueueHead (front ++ [last]) := by
    rw [hhead]
    exact links_congr hl (fun t hin => by rw [hold t hin])
  have hlen := length_queue hn
  have hlen' : front.length < 2 ^ 64 := by
    simp only [List.length_append, List.length_cons, List.length_nil] at hlen
    omega
  rw [lastThread_links _ hl1 hlen']
  refine ⟨_, rfl, hrun, links_setNext ht hn hnew (by rw [hmade]) hl1, ?_, ?_⟩
  · rw [setNext_threads, hmade]
    split <;> rfl
  · intro t hin
    rw [setNext_threads, hold t hin]
    split <;> rfl

end Miyabi.Arch.Thread
