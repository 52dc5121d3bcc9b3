import Pintos.Threads.Step

/-! # Ready-list order and preemption

The priority scheduler relies on one invariant: the ready list is ordered by
non-increasing current priority. Then `next_thread_to_run` picks a
highest-priority ready thread, ordered insertion keeps threads of equal
priority first-in first-out, and a thread switched in by `schedule` has the
highest priority of the ready threads. Unblocking and yielding insert in
order and keep the invariant.

The invariant is not kept: `donate_priority` raises the priority of the lock
holder in place, and when the holder is on the ready list behind a thread of
intermediate priority nothing moves it. The run `donationToReady` below
reaches that state, after which the intermediate thread is scheduled, and
keeps running across a timer interrupt, while the holder waits.
-/

namespace Pintos

open KState Transition

/-- The ready list is ordered by non-increasing current priority. -/
def ReadyOrdered (s : KState) : Prop := KeySorted s.prio s.readyList

/-- The running thread's priority is at least that of every thread on the ready list. -/
def RunsHighest (s : KState) : Prop := ∀ t ∈ s.readyList, s.prio t ≤ s.prio s.current

instance (s : KState) : Decidable (ReadyOrdered s) :=
  inferInstanceAs (Decidable (List.Pairwise _ _))

instance (s : KState) : Decidable (RunsHighest s) :=
  inferInstanceAs (Decidable (∀ t ∈ s.readyList, _))

variable {s : KState}

theorem threadPriorityComparison_iff (s : KState) (a b : Tid) :
    threadPriorityComparison s a b = true ↔ s.prio b < s.prio a := by
  simp [threadPriorityComparison]

theorem ReadyOrdered.congr {s' : KState} {l : List Tid} (h : KeySorted s.prio l)
    (hp : ∀ t, s'.prio t = s.prio t) (hr : s'.readyList = l) : ReadyOrdered s' := by
  have he : s'.prio = s.prio := funext hp
  unfold ReadyOrdered
  rw [he, hr]
  exact h

section Schedule

@[simp] theorem prio_schedule (s : KState) (t : Tid) : (schedule s).prio t = s.prio t := by
  unfold schedule nextThreadToRun
  split <;> exact prio_setStatus _ _ _

@[simp] theorem readyList_schedule (s : KState) : (schedule s).readyList = s.readyList.tail := by
  unfold schedule nextThreadToRun
  split <;> simp_all [setStatus]

theorem current_schedule (s : KState) :
    (schedule s).current = (nextThreadToRun s).1 := by
  unfold schedule
  rfl

/-- From an ordered ready list, `next_thread_to_run` picks a thread of highest priority. -/
theorem nextThreadToRun_max (h : ReadyOrdered s) :
    ∀ t ∈ s.readyList, s.prio t ≤ s.prio (nextThreadToRun s).1 := by
  intro t ht
  unfold nextThreadToRun
  split
  · next he => simp [he] at ht
  · next a l he =>
    rw [ReadyOrdered, he] at h
    rw [he] at ht
    exact h.head_max ht

theorem readyOrdered_schedule (h : ReadyOrdered s) : ReadyOrdered (schedule s) := by
  have ht : KeySorted s.prio s.readyList.tail := KeySorted.sublist h (List.tail_sublist _)
  exact ReadyOrdered.congr ht (prio_schedule s) (readyList_schedule s)

/-- A thread switched in from an ordered ready list has the highest priority of those left. -/
theorem runsHighest_schedule (h : ReadyOrdered s) : RunsHighest (schedule s) := by
  intro t ht
  rw [readyList_schedule] at ht
  rw [prio_schedule, prio_schedule, current_schedule]
  exact nextThreadToRun_max h t (List.mem_of_mem_tail ht)

end Schedule

section Insertion

@[simp] theorem readyList_threadUnblock (intr : Bool) (s : KState) (t : Tid) :
    (threadUnblock intr s t).readyList =
      listInsertOrdered (threadPriorityComparison s) t s.readyList := by
  unfold threadUnblock
  dsimp only
  split
  · split <;> rfl
  · rfl

@[simp] theorem prio_threadUnblock (intr : Bool) (s : KState) (t u : Tid) :
    (threadUnblock intr s t).prio u = s.prio u := by
  unfold threadUnblock
  dsimp only
  split
  · split <;> exact prio_setStatus _ _ _
  · exact prio_setStatus _ _ _

theorem readyOrdered_insert (h : ReadyOrdered s) (t : Tid) :
    KeySorted s.prio (listInsertOrdered (threadPriorityComparison s) t s.readyList) :=
  KeySorted.listInsertOrdered (threadPriorityComparison_iff s) h t

/-- `thread_unblock` is first-in first-out among equal priorities: every thread already
ready ahead of the new one has at least its priority, and keeps its place. -/
theorem threadUnblock_fifo (intr : Bool) (s : KState) (t : Tid) :
    ∃ l₁ l₂, s.readyList = l₁ ++ l₂ ∧ (threadUnblock intr s t).readyList = l₁ ++ t :: l₂ ∧
      ∀ u ∈ l₁, s.prio t ≤ s.prio u := by
  obtain ⟨l₁, l₂, he, hi, hl⟩ :=
    @listInsertOrdered_eq_append _ (threadPriorityComparison s) t s.readyList
  refine ⟨l₁, l₂, he, by rw [readyList_threadUnblock, hi], fun u hu => ?_⟩
  have hn := hl u hu
  simp only [threadPriorityComparison, decide_eq_false_iff_not, not_lt] at hn
  exact hn

/-- Yielding from an ordered ready list keeps it ordered and switches to a thread of highest
priority. -/
theorem readyOrdered_threadYield (h : ReadyOrdered s) :
    ReadyOrdered (threadYield s) ∧ RunsHighest (threadYield s) := by
  let cur := s.current
  let s' : KState := if cur ≠ s.idleThread then
      { s with readyList := listInsertOrdered (threadPriorityComparison s) cur s.readyList }
    else s
  have h' : ReadyOrdered (s'.setStatus cur .ready) := by
    refine ReadyOrdered.congr (s := s') ?_ (fun t => prio_setStatus cur t .ready) rfl
    by_cases hc : cur ≠ s.idleThread
    · simp only [s', if_pos hc]
      exact readyOrdered_insert h cur
    · simp only [s', if_neg hc]
      exact h
  exact ⟨readyOrdered_schedule h', runsHighest_schedule h'⟩

end Insertion

/-- `main` takes lock 0 and creates `M` at priority 40, which preempts it; `M` creates `H`
at priority 50, which preempts `M`; `H` asks for lock 0 and donates to `main`, which sits
on the ready list behind `M`. -/
def donationToReady : List Call :=
  [.lockAcquire 0, .resume, .resume, .threadCreate 40, .threadCreate 50, .lockAcquire 0]

/-- Donation to a ready lock holder leaves the ready list out of order: `M` (40) stands
before `main` (50), and `next_thread_to_run` would pick `M`. -/
theorem donation_unorders_readyList :
    ∃ s, (threadSystem (fun _ => 0) false (fun _ => 0)).Reachable s ∧
      s.readyList = [3, 1] ∧ s.prio 3 = 40 ∧ s.prio 1 = 50 ∧
      (s.threads 1).status = .ready ∧ ¬ ReadyOrdered s ∧ (nextThreadToRun s).1 = 3 :=
  System.exists_reachable_of_replay donationToReady (by decide)

/-- After `H` blocks on lock 0 and a timer interrupt returns, `M` (40) runs and no yield is
pending while `main` (50) is ready. -/
theorem donation_leaves_lower_running :
    ∃ s, (threadSystem (fun _ => 0) false (fun _ => 0)).Reachable s ∧
      s.current = 3 ∧ s.prio 3 = 40 ∧ s.readyList = [1] ∧ s.prio 1 = 50 ∧
      (s.threads 1).status = .ready ∧ s.yieldOnReturn = false ∧ ¬ RunsHighest s :=
  System.exists_reachable_of_replay (donationToReady ++ [.resume, .timer]) (by decide)

end Pintos
