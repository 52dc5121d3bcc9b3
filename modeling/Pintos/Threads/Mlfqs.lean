import Pintos.Threads.Step

/-! # MLFQS priorities after a timer interrupt

The 4.4BSD scheduler recomputes every thread's priority from its `recent_cpu`
and `nice` once every fourth tick. Here `thread_mlfqs_tick` recomputes on a
fourth tick the priority of the running thread only, and the per-second
update of `timer_interrupt` recomputes everyone's. A thread that runs for a
few ticks and is switched out before a fourth tick keeps a priority computed
from an older `recent_cpu` until the next second (`mlfqs_priority_stale`).
-/

namespace Pintos

open KState Transition

/-- The priority `mlfqs_priority_of` gives a thread depends on its `recent_cpu` and `nice`
and on which thread is idle, nothing else. -/
theorem mlfqsPriorityOf_congr {s s' : KState} {t : Tid} (hi : s'.idleThread = s.idleThread)
    (hr : (s'.threads t).recentCpu = (s.threads t).recentCpu)
    (hn : (s'.threads t).nice = (s.threads t).nice) :
    mlfqsPriorityOf s' t = mlfqsPriorityOf s t := by
  simp only [mlfqsPriorityOf, hi, hr, hn]

@[simp] theorem mlfqsPriorityOf_setPriority (s : KState) (t u : Tid) (p : ℤ) :
    mlfqsPriorityOf (s.setPriority t p) u = mlfqsPriorityOf s u := by
  refine mlfqsPriorityOf_congr rfl ?_ ?_ <;>
    · simp only [setPriority, threads_modifyThread]
      split <;> simp_all

@[simp] theorem prio_withReadyList (s : KState) (l : List Tid) (t : Tid) :
    ({ s with readyList := l } : KState).prio t = s.prio t := rfl

@[simp] theorem mlfqsPriorityOf_withReadyList (s : KState) (l : List Tid) (t : Tid) :
    mlfqsPriorityOf { s with readyList := l } t = mlfqsPriorityOf s t := rfl

@[simp] theorem prio_withYieldOnReturn (s : KState) (b : Bool) (t : Tid) :
    ({ s with yieldOnReturn := b } : KState).prio t = s.prio t := rfl

@[simp] theorem mlfqsPriorityOf_withYieldOnReturn (s : KState) (b : Bool) (t : Tid) :
    mlfqsPriorityOf { s with yieldOnReturn := b } t = mlfqsPriorityOf s t := rfl

section Recompute

/-- One iteration of the loop of `mlfqs_recompute_priority_all`. -/
def recomputeStep (s : KState) (t : Tid) : KState :=
  if t = s.idleThread then s else s.setPriority t (mlfqsPriorityOf s t)

theorem mlfqsRecomputePriorityAll_eq (s : KState) :
    mlfqsRecomputePriorityAll s =
      let s₁ := s.allList.foldl recomputeStep s
      match s₁.readyList with
      | [] => s₁
      | l => { s₁ with readyList := listSort (threadPriorityComparison s₁) l } := rfl

@[simp] theorem idleThread_recomputeStep (s : KState) (t : Tid) :
    (recomputeStep s t).idleThread = s.idleThread := by
  unfold recomputeStep
  split <;> rfl

@[simp] theorem mlfqsPriorityOf_recomputeStep (s : KState) (t u : Tid) :
    mlfqsPriorityOf (recomputeStep s t) u = mlfqsPriorityOf s u := by
  unfold recomputeStep
  split
  · rfl
  · exact mlfqsPriorityOf_setPriority s t u _

/-- The loop over `l` sets the priority of every thread of `l` but the idle thread from the
formula, which no iteration changes the inputs of, and leaves the others'. -/
theorem prio_foldl_recomputeStep (l : List Tid) (s : KState) (u : Tid) :
    (l.foldl recomputeStep s).prio u =
      if u ∈ l ∧ u ≠ s.idleThread then mlfqsPriorityOf s u else s.prio u := by
  induction l generalizing s with
  | nil => simp
  | cons t l ih =>
    rw [List.foldl_cons, ih, idleThread_recomputeStep, mlfqsPriorityOf_recomputeStep]
    unfold recomputeStep
    by_cases ht : t = s.idleThread
    · subst ht
      by_cases hu : u = s.idleThread <;> simp [hu]
    · by_cases hu : u = t
      · subst hu
        simp [ht]
      · simp [ht, hu]

theorem foldl_recomputeStep_frame (l : List Tid) (s : KState) :
    (l.foldl recomputeStep s).idleThread = s.idleThread ∧
      ∀ u, mlfqsPriorityOf (l.foldl recomputeStep s) u = mlfqsPriorityOf s u := by
  induction l generalizing s with
  | nil => exact ⟨rfl, fun _ => rfl⟩
  | cons t l ih =>
    obtain ⟨hi, hm⟩ := ih (recomputeStep s t)
    exact ⟨by rw [List.foldl_cons, hi, idleThread_recomputeStep],
      fun u => by rw [List.foldl_cons, hm, mlfqsPriorityOf_recomputeStep]⟩

/-- After `mlfqs_recompute_priority_all` every thread on the all-threads list but the idle
thread has the priority the formula gives it. -/
theorem mlfqsRecomputePriorityAll_fresh (s : KState) {t : Tid} (ht : t ∈ s.allList)
    (hi : t ≠ s.idleThread) :
    (mlfqsRecomputePriorityAll s).prio t = mlfqsPriorityOf (mlfqsRecomputePriorityAll s) t := by
  obtain ⟨-, hm⟩ := foldl_recomputeStep_frame s.allList s
  have hp := prio_foldl_recomputeStep s.allList s t
  rw [if_pos ⟨ht, hi⟩] at hp
  rw [mlfqsRecomputePriorityAll_eq]
  dsimp only
  -- sorting the ready list moves no priority
  split <;> simp only [prio_withReadyList, mlfqsPriorityOf_withReadyList, hp, hm t]

end Recompute

section Tick

/-- `thread_update_priority_mlfqs` gives `t` the formula's priority. -/
theorem prio_threadUpdatePriorityMlfqs (s : KState) (t : Tid) :
    (threadUpdatePriorityMlfqs s t).prio t = mlfqsPriorityOf s t := by
  unfold threadUpdatePriorityMlfqs
  dsimp only
  split
  · -- rearranging the ready list moves no priority
    split
    · exact (prio_setPriority t t _).trans (if_pos rfl)
    · exact (prio_setPriority t t _).trans (if_pos rfl)
  · next h => exact (not_not.mp h).symm

theorem mlfqsPriorityOf_threadUpdatePriorityMlfqs (s : KState) (t u : Tid) :
    mlfqsPriorityOf (threadUpdatePriorityMlfqs s t) u = mlfqsPriorityOf s u := by
  unfold threadUpdatePriorityMlfqs
  dsimp only
  split
  · split
    · exact mlfqsPriorityOf_setPriority s t u _
    · exact mlfqsPriorityOf_setPriority s t u _
  · rfl

/-- On a fourth tick `thread_mlfqs_tick` leaves the running thread with the formula's
priority, computed from the `recent_cpu` it has just increased. -/
theorem threadMlfqsTick_current_fresh (s : KState) (h : s.ticks % 4 = 0) :
    (threadMlfqsTick s).prio s.current = mlfqsPriorityOf (threadMlfqsTick s) s.current := by
  unfold threadMlfqsTick
  dsimp only
  generalize hs₁ : (if s.current ≠ s.idleThread then _ else s) = s₁
  have ht : s₁.ticks = s.ticks := by
    rw [← hs₁]
    split <;> rfl
  rw [if_pos (ht ▸ h)]
  have hp := prio_threadUpdatePriorityMlfqs s₁ s.current
  have hm := mlfqsPriorityOf_threadUpdatePriorityMlfqs s₁ s.current s.current
  -- the closing test only sets `yield_on_return`
  split
  · split <;> simp only [prio_withYieldOnReturn, mlfqsPriorityOf_withYieldOnReturn, hp, hm]
  · rw [hp, hm]

end Tick

/-- Under MLFQS `main` creates thread 3 and yields to it after one tick; 3 runs ticks 2 to 4
and yields back; `main` runs ticks 5 to 7, which bring its `recent_cpu` to 4, and yields. -/
def staleRun : List Call :=
  [.threadCreate 31, .timer, .threadYield, .timer, .timer, .timer, .threadYield,
    .timer, .timer, .timer, .threadYield]

/-- The timer interrupt of tick 8 recomputes thread 3's priority, and `main`, which is
switched back in, keeps priority 63 where the formula gives 62. -/
theorem mlfqs_priority_stale :
    ∃ s, (threadSystem (fun _ => 0) true (fun _ => 0)).Reachable s ∧ Enabled s .timer ∧
      (step (fun _ => 0) s .timer).ticks = 8 ∧ 1 ∈ (step (fun _ => 0) s .timer).allList ∧
      (step (fun _ => 0) s .timer).idleThread ≠ 1 ∧
      (step (fun _ => 0) s .timer).prio 1 = 63 ∧
      mlfqsPriorityOf (step (fun _ => 0) s .timer) 1 = 62 :=
  System.exists_reachable_of_replay staleRun (by decide +kernel)

section Report

/-- A load average that is not negative is reported correctly rounded. -/
theorem threadGetLoadAvg_rounds {s : KState} (h : 0 ≤ s.loadAvg) :
    RoundsHalfAway (fpMultMix s.loadAvg 100) (threadGetLoadAvg s) :=
  fpRound_of_nonneg (by unfold fpMultMix; omega)

/-- A running thread whose `recent_cpu` is exactly -1 (what the per-second update sets for a
thread of `nice` -1 whose `recent_cpu` was 0) is reported as -101, where rounding gives -100. -/
theorem recent_cpu_reported_low (s : KState) :
    threadGetRecentCpu (s.modifyThread s.current ({ · with recentCpu := fpConst (-1) })) = -101 ∧
      RoundsHalfAway (fpMultMix (fpConst (-1)) 100) (-100) ∧
      ¬ RoundsHalfAway (fpMultMix (fpConst (-1)) 100) (-101) := by
  refine ⟨?_, by decide, by decide⟩
  simp only [threadGetRecentCpu, current_modifyThread, threads_modifyThread, if_pos]
  decide

end Report

end Pintos
