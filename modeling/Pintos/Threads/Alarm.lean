import Pintos.Threads.Wf
import Mathlib.Data.List.TakeWhile

/-! # The alarm clock

`timer_sleep` and `thread_sleep` put the running thread on the sleeping list,
ordered by wake-up tick, and lower the cached earliest tick
`next_wakeup_tick`; the timer interrupt, once the cache is due, unblocks
sleepers from the front while their tick has come and recomputes the cache.
Along every run the list is sorted by tick and, among equal ticks, by the
order of the calls of `thread_sleep` (stamps counted beside the run); the cache
is at most every sleeper's tick, and `INT64_MAX` when none sleeps. So each
timer interrupt unblocks exactly the sleepers whose tick has come, a prefix of
the list, and no other step takes a thread off it.
-/

namespace Pintos

open KState

/-- When each thread last called `thread_sleep`, by a clock that counts the calls. -/
structure SleepStamps where
  stamp : Tid → ℕ
  clock : ℕ

/-- A step that runs `thread_sleep` stamps the running thread with the clock. -/
def SleepStamps.record (g : SleepStamps) (s : KState) : Call → SleepStamps
  | .resume =>
    match (s.threads s.current).resume with
    | .sleep _ => ⟨Function.update g.stamp s.current g.clock, g.clock + 1⟩
    | _ => g
  | _ => g

/-- The thread system with the stamps of the calls of `thread_sleep` carried along its runs. -/
def alarmSystem (key : Tid → ℤ) (mlfqs : Bool) (semaInit : ℕ → ℕ) :
    Transition.System (KState × SleepStamps) Call :=
  (threadSystem key mlfqs semaInit).withGhost ⟨fun _ => 0, 0⟩ fun s c g => g.record s c

def wakeTick (s : KState) (t : Tid) : ℤ := (s.threads t).wakeupTick

/-- The sleeper's tick has come at the next timer interrupt, which counts one more tick. -/
def dueNext (s : KState) (t : Tid) : Bool := decide (wakeTick s t ≤ s.ticks + 1)

/-- The sleeping list in order of tick and then of the calls of `thread_sleep`, every sleeper
stamped, and the cached earliest tick at most each sleeper's, `INT64_MAX` when none sleeps. -/
structure AlarmInv (s : KState) (g : SleepStamps) : Prop where
  sorted : StampSorted (wakeTick s) g.stamp s.sleepingList
  stamped : ∀ t ∈ s.sleepingList, g.stamp t < g.clock
  next_le : ∀ t ∈ s.sleepingList, s.nextWakeupTick ≤ wakeTick s t
  empty : s.sleepingList = [] → s.nextWakeupTick = int64Max

/-- A step that leaves the sleeping list, the sleepers' ticks and the cached tick alone. -/
structure AlarmFrame (s s' : KState) : Prop where
  sleepingList : s'.sleepingList = s.sleepingList
  wakeTick : ∀ t ∈ s.sleepingList, wakeTick s' t = wakeTick s t
  nextWakeupTick : s'.nextWakeupTick = s.nextWakeupTick

namespace AlarmFrame

variable {s s₁ s₂ : KState} {t : Tid}

theorem refl (s : KState) : AlarmFrame s s := ⟨rfl, fun _ _ => rfl, rfl⟩

theorem trans (h₁ : AlarmFrame s s₁) (h₂ : AlarmFrame s₁ s₂) : AlarmFrame s s₂ :=
  ⟨h₂.sleepingList.trans h₁.sleepingList,
    fun t ht => (h₂.wakeTick t (h₁.sleepingList ▸ ht)).trans (h₁.wakeTick t ht),
    h₂.nextWakeupTick.trans h₁.nextWakeupTick⟩

theorem alarmInv {g : SleepStamps} (h : AlarmFrame s s₁) (hi : AlarmInv s g) : AlarmInv s₁ g where
  sorted := by
    rw [h.sleepingList]
    refine hi.sorted.imp_of_mem fun ha hb hab => ?_
    rwa [h.wakeTick _ ha, h.wakeTick _ hb]
  stamped t ht := hi.stamped t (h.sleepingList ▸ ht)
  next_le t ht := by
    rw [h.sleepingList] at ht
    rw [h.nextWakeupTick, h.wakeTick t ht]
    exact hi.next_le t ht
  empty he := by
    rw [h.sleepingList] at he
    rw [h.nextWakeupTick]
    exact hi.empty he

theorem of_sameSched (h : SameSched s s₁) : AlarmFrame s s₁ :=
  ⟨h.sleepingList, fun t _ => h.wakeupTick t, h.nextWakeupTick⟩

/-- A change in fields that the alarm clock does not read. -/
theorem of_fields (hth : s₁.threads = s.threads) (hl : s₁.sleepingList = s.sleepingList)
    (hn : s₁.nextWakeupTick = s.nextWakeupTick) : AlarmFrame s s₁ :=
  ⟨hl, fun t _ => by rw [Pintos.wakeTick, hth]; rfl, hn⟩

theorem modifyThread {f : Thread → Thread} (hf : ∀ th, (f th).wakeupTick = th.wakeupTick) :
    AlarmFrame s (s.modifyThread t f) :=
  ⟨rfl, fun u _ => by
    simp only [Pintos.wakeTick, threads_modifyThread]
    split
    · next he => rw [he, hf]
    · rfl, rfl⟩

theorem setStatus (st : ThreadStatus) : AlarmFrame s (s.setStatus t st) :=
  modifyThread fun _ => rfl

theorem setResume (r : Resume) : AlarmFrame s (s.setResume t r) :=
  modifyThread fun _ => rfl

theorem setSema (r : SemaRef) (m : Semaphore) : AlarmFrame s (s.setSema r m) :=
  of_fields (by simp) (by simp) (by simp)

theorem schedule (s : KState) : AlarmFrame s (schedule s) := by
  unfold Pintos.schedule nextThreadToRun
  split <;> dsimp only <;> refine (of_fields ?_ ?_ ?_).trans (setStatus .running) <;> rfl

theorem threadUnblock (intr : Bool) (s : KState) (t : Tid) :
    AlarmFrame s (threadUnblock intr s t) where
  sleepingList := by simp
  wakeTick u _ := by
    simp only [Pintos.wakeTick, threads_threadUnblock, KState.setStatus, threads_modifyThread]
    split <;> simp_all
  nextWakeupTick := by
    unfold Pintos.threadUnblock
    dsimp only
    split
    · split <;> rfl
    · rfl

theorem threadYield (s : KState) : AlarmFrame s (threadYield s) := by
  unfold Pintos.threadYield
  dsimp only
  generalize hs₁ : (if s.current ≠ s.idleThread then _ else s : KState) = s₁
  have h₁ : AlarmFrame s s₁ := by
    subst hs₁
    split
    · exact of_fields rfl rfl rfl
    · exact refl s
  exact (h₁.trans (setStatus .ready)).trans (schedule _)

theorem tryThreadYield (s : KState) : AlarmFrame s (tryThreadYield s) := by
  unfold Pintos.tryThreadYield
  split
  · split
    · exact threadYield s
    · exact refl s
  · exact refl s

theorem threadBlock (s : KState) : AlarmFrame s (threadBlock s) :=
  (setStatus .blocked).trans (schedule _)

theorem threadExit (s : KState) : AlarmFrame s (threadExit s) := by
  unfold Pintos.threadExit
  refine ((of_fields ?_ ?_ ?_).trans (setStatus .dying)).trans (schedule _) <;> rfl

theorem semaDown (s : KState) (r : SemaRef) (wait after : Resume) :
    AlarmFrame s (semaDown s r wait after) := by
  unfold Pintos.semaDown
  dsimp only
  split
  · exact ((setSema r _).trans (setResume wait)).trans (threadBlock _)
  · exact (setSema r _).trans (setResume after)

theorem semaTryDown (s : KState) (r : SemaRef) : AlarmFrame s (semaTryDown s r).2 := by
  unfold Pintos.semaTryDown
  dsimp only
  split
  · exact setSema r _
  · exact refl s

theorem semaUp (intr : Bool) (s : KState) (r : SemaRef) : AlarmFrame s (semaUp intr s r) := by
  unfold Pintos.semaUp
  dsimp only
  split
  · exact setSema r _
  split
  · exact setSema r _
  · split
    · exact (((setSema r _).trans (threadUnblock intr _ _)).trans (setSema r _)).trans
        (threadYield _)
    · exact ((setSema r _).trans (threadUnblock intr _ _)).trans (setSema r _)

theorem lockAcquire (key : Tid → ℤ) (s : KState) (l : LockId) :
    AlarmFrame s (lockAcquire key s l) := by
  obtain ⟨s₁, hss, he⟩ := exists_sameSched_lockAcquire key s l
  rw [he]
  exact (of_sameSched hss).trans (setResume _)

theorem lockAcquireFinish (s : KState) (l : LockId) : AlarmFrame s (lockAcquireFinish s l) := by
  unfold Pintos.lockAcquireFinish
  dsimp only
  exact ((of_sameSched (.setHolder l (some s.current))).trans
    (modifyThread (f := ({ · with waitingOn := none })) fun _ => rfl)).trans (setResume _)

theorem lockTryAcquire (s : KState) (l : LockId) : AlarmFrame s (lockTryAcquire s l).2 := by
  unfold Pintos.lockTryAcquire
  dsimp only
  split
  · exact (semaTryDown s _).trans (of_sameSched (.setHolder _ _))
  · exact semaTryDown s _

theorem lockRelease (key : Tid → ℤ) (s : KState) (l : LockId) :
    AlarmFrame s (lockRelease key s l) :=
  (of_sameSched ((sameSched_removePriority key s l).trans (.setHolder l none))).trans
    (semaUp false _ _)

/-- A new thread is none of the sleepers, which all lie below `next_tid`. -/
theorem threadCreate (hf : ∀ t ∈ s.sleepingList, t < s.nextTid) (p : ℤ) :
    AlarmFrame s (threadCreate s p) := by
  unfold Pintos.threadCreate
  dsimp only
  generalize Thread.mk .blocked _ _ _ _ _ _ _ .none = th
  generalize hs₁ : ({ s with threads := Function.update s.threads s.nextTid th,
                             allList := s.allList ++ [s.nextTid], nextTid := s.nextTid + 1 } :
    KState) = s₁
  have h₁ : AlarmFrame s s₁ := by
    subst hs₁
    exact ⟨rfl, fun u hu => by
      simp only [Pintos.wakeTick]
      rw [Function.update_of_ne (Nat.ne_of_lt (hf u hu))], rfl⟩
  generalize hs₂ : (if s.threadMlfqs then _ else _ : KState) = s₂
  have h₂ : AlarmFrame s s₂ := by
    subst hs₂
    split
    · exact h₁.trans (of_sameSched (.setPriority _ _))
    · exact h₁
  have h₃ := h₂.trans (threadUnblock false s₂ s.nextTid)
  split
  · exact h₃.trans (threadYield _)
  · exact h₃

theorem intrHandler {handler : KState → KState}
    (hh : AlarmFrame { s with yieldOnReturn := false } (handler { s with yieldOnReturn := false })) :
    AlarmFrame s (intrHandler handler s) := by
  unfold Pintos.intrHandler
  dsimp only
  have h₁ := (of_sameSched (.yieldOnReturn false)).trans hh
  split
  · exact h₁.trans (threadYield _)
  · exact h₁

end AlarmFrame

section Wake

variable {s : KState} {t : Tid}

theorem wakeTick_threadUnblock (intr : Bool) (s : KState) (t : Tid) :
    wakeTick (Pintos.threadUnblock intr s t) = wakeTick s := by
  funext u
  simp only [wakeTick, threads_threadUnblock, KState.setStatus, threads_modifyThread]
  split <;> simp_all

theorem wakeTick_wakeSleepers (l : List Tid) (s : KState) :
    wakeTick (wakeSleepers s l) = wakeTick s := by
  induction l generalizing s with
  | nil => rfl
  | cons t rest ih =>
    unfold Pintos.wakeSleepers
    split
    · rw [ih, wakeTick_threadUnblock]
      rfl
    · rfl

/-- The wake-up loop takes off the front of `l` the sleepers whose tick has come, and stops
at the first whose tick has not. -/
theorem sleepingList_wakeSleepers (l : List Tid) (s : KState) :
    (wakeSleepers s l).sleepingList = l.dropWhile fun t => decide (wakeTick s t ≤ s.ticks) := by
  induction l generalizing s with
  | nil => rfl
  | cons t rest ih =>
    unfold Pintos.wakeSleepers
    split
    · next hd =>
      rw [ih, wakeTick_threadUnblock, ticks_threadUnblock,
        List.dropWhile_cons_of_pos (p := fun t => decide (wakeTick s t ≤ s.ticks))
        (decide_eq_true hd)]
      rfl
    · next hd =>
      have hp : ¬ (fun t => decide (wakeTick s t ≤ s.ticks)) t = true :=
        fun h => hd (of_decide_eq_true h)
      rw [List.dropWhile_cons_of_neg (p := fun t => decide (wakeTick s t ≤ s.ticks)) (a := t) hp]

/-- The loop unblocks threads and never blocks one. -/
theorem wakeSleepers_ne_blocked (l : List Tid) (s : KState)
    (ht : (s.threads t).status ≠ .blocked) : ((wakeSleepers s l).threads t).status ≠ .blocked := by
  induction l generalizing s with
  | nil => exact ht
  | cons u rest ih =>
    unfold Pintos.wakeSleepers
    split
    · refine ih _ ?_
      simp only [threads_threadUnblock, KState.setStatus, threads_modifyThread]
      split <;> simp_all
    · exact ht

theorem status_wakeSleepers (l : List Tid) (s : KState)
    (ht : t ∈ l.takeWhile fun t => decide (wakeTick s t ≤ s.ticks)) :
    ((wakeSleepers s l).threads t).status ≠ .blocked := by
  induction l generalizing s with
  | nil => cases ht
  | cons u rest ih =>
    unfold Pintos.wakeSleepers
    split
    · next hd =>
      rw [List.takeWhile_cons_of_pos (p := fun t => decide (wakeTick s t ≤ s.ticks))
        (decide_eq_true hd)] at ht
      rcases List.mem_cons.1 ht with rfl | ht
      · -- the head is unblocked here, and the rest of the loop only unblocks
        refine wakeSleepers_ne_blocked rest _ ?_
        simp [threads_threadUnblock, KState.setStatus]
      · refine ih _ ?_
        rw [wakeTick_threadUnblock, ticks_threadUnblock]
        exact ht
    · next hd =>
      have hp : ¬ (fun t => decide (wakeTick s t ≤ s.ticks)) u = true :=
        fun h => hd (of_decide_eq_true h)
      rw [List.takeWhile_cons_of_neg (p := fun t => decide (wakeTick s t ≤ s.ticks)) (a := u) hp]
        at ht
      cases ht

theorem schedule_ne_blocked (ht : (s.threads t).status ≠ .blocked) :
    ((schedule s).threads t).status ≠ .blocked := by
  unfold Pintos.schedule nextThreadToRun
  split <;> simp only [KState.setStatus, threads_modifyThread] <;> split <;> simp_all

theorem threadYield_ne_blocked (ht : (s.threads t).status ≠ .blocked) :
    ((threadYield s).threads t).status ≠ .blocked := by
  unfold Pintos.threadYield
  dsimp only
  refine schedule_ne_blocked ?_
  simp only [KState.setStatus, threads_modifyThread]
  split <;> split <;> simp_all

end Wake

section Steps

variable {s : KState} {g : SleepStamps}

/-- The sleepers' order makes "the tick has come" hold of every sleeper before one it holds of. -/
theorem AlarmInv.due_mono (hi : AlarmInv s g) :
    s.sleepingList.Pairwise fun x y => dueNext s y = true → dueNext s x = true :=
  hi.sorted.imp fun hxy hy => by
    simp only [dueNext, decide_eq_true_eq] at hy ⊢
    exact (key_le_of_lex hxy).trans hy

/-- The running thread joins the sleepers, stamped after all of them, and the cached tick is
lowered to at most its tick. -/
theorem AlarmInv.insert (hi : AlarmInv s g) (hn : s.current ∉ s.sleepingList) {s' : KState}
    {less : Tid → Tid → Bool}
    (hl : s'.sleepingList = listInsertOrdered less s.current s.sleepingList)
    (hless : ∀ a b, less a b = true ↔ wakeTick s' a < wakeTick s' b)
    (hw : ∀ t ∈ s.sleepingList, wakeTick s' t = wakeTick s t)
    (hnext : s'.nextWakeupTick ≤ s.nextWakeupTick)
    (hcur : s'.nextWakeupTick ≤ wakeTick s' s.current) :
    AlarmInv s' ⟨Function.update g.stamp s.current g.clock, g.clock + 1⟩ := by
  -- the sleepers already there keep their ticks and stamps
  have hst : ∀ t ∈ s.sleepingList, Function.update g.stamp s.current g.clock t = g.stamp t :=
    fun t ht => Function.update_of_ne (fun (e : t = s.current) => hn (e ▸ ht)) _ _
  refine ⟨?_, fun t ht => ?_, fun t ht => ?_, fun he => ?_⟩
  · rw [hl]
    refine StampSorted.listInsertOrdered hless (hi.sorted.imp_of_mem fun ha hb hab => ?_)
      fun e he => ?_
    · dsimp only
      rwa [hw _ ha, hw _ hb, hst _ ha, hst _ hb]
    · dsimp only
      rw [hst e he, Function.update_self]
      exact hi.stamped e he
  · dsimp only
    rw [hl, mem_listInsertOrdered] at ht
    rcases ht with rfl | ht
    · simp
    · rw [hst t ht]
      exact (hi.stamped t ht).trans (Nat.lt_succ_self _)
  · rw [hl, mem_listInsertOrdered] at ht
    rcases ht with rfl | ht
    · exact hcur
    · rw [hw t ht]
      exact hnext.trans (hi.next_le t ht)
  · rw [hl] at he
    exact absurd (he ▸ mem_listInsertOrdered.2 (Or.inl rfl)) List.not_mem_nil

/-- `thread_sleep` by a thread other than the idle thread. -/
theorem AlarmInv.threadSleep (h : Wf s) (hi : AlarmInv s g) (hc : s.current ≠ s.idleThread)
    (w : ℤ) :
    AlarmInv (threadSleep s w) ⟨Function.update g.stamp s.current g.clock, g.clock + 1⟩ ∧
      s.sleepingList ⊆ (threadSleep s w).sleepingList := by
  unfold Pintos.threadSleep
  dsimp only
  rw [if_neg hc]
  have hn := h.current_not_mem_sleepingList
  -- the new tick is the running thread's; every other thread keeps its own
  have hw : ∀ t ∈ s.sleepingList, ∀ st, wakeTick ((s.modifyThread s.current
      ({ · with wakeupTick := w })).setStatus s.current st) t = wakeTick s t := by
    intro t ht st
    have hne : t ≠ s.current := fun e => hn (e ▸ ht)
    simp [wakeTick, KState.setStatus, hne]
  have hless : ∀ st a b, listSleepLessFunc (s.modifyThread s.current ({ · with wakeupTick := w }))
      a b = true ↔ wakeTick ((s.modifyThread s.current ({ · with wakeupTick := w })).setStatus
        s.current st) a < wakeTick ((s.modifyThread s.current ({ · with wakeupTick := w })).setStatus
        s.current st) b := by
    intro st a b
    simp only [listSleepLessFunc, wakeTick, KState.setStatus, threads_modifyThread,
      decide_eq_true_eq]
    split <;> split <;> simp_all
  split
  · next hlt =>
    refine ⟨(AlarmFrame.schedule _).alarmInv (hi.insert hn rfl (hless .blocked) (fun t ht => ?_)
      hlt.le (by simp [wakeTick, KState.setStatus])), fun t ht => ?_⟩
    · exact hw t ht .blocked
    · rw [(AlarmFrame.schedule _).sleepingList]
      exact mem_listInsertOrdered.2 (Or.inr ht)
  · next hlt =>
    refine ⟨(AlarmFrame.schedule _).alarmInv (hi.insert hn rfl (hless .blocked) (fun t ht => ?_)
      le_rfl (by simpa [wakeTick, KState.setStatus] using hlt)), fun t ht => ?_⟩
    · exact hw t ht .blocked
    · rw [(AlarmFrame.schedule _).sleepingList]
      exact mem_listInsertOrdered.2 (Or.inr ht)

/-- The sleepers with a prefix dropped, and the cached tick recomputed from the new front. -/
theorem AlarmInv.dropWhile (hi : AlarmInv s g) {s' : KState} {p : Tid → Bool}
    (hl : s'.sleepingList = s.sleepingList.dropWhile p) (hw : wakeTick s' = wakeTick s)
    (hn : ∀ t rest, s'.sleepingList = t :: rest → s'.nextWakeupTick = wakeTick s' t)
    (he : s'.sleepingList = [] → s'.nextWakeupTick = int64Max) : AlarmInv s' g := by
  have hsorted : StampSorted (wakeTick s') g.stamp s'.sleepingList := by
    rw [hl, hw]
    exact hi.sorted.sublist (List.dropWhile_suffix p).sublist
  refine ⟨hsorted, fun t ht => hi.stamped t ?_, fun t ht => ?_, he⟩
  · rw [hl] at ht
    exact (List.dropWhile_suffix p).subset ht
  · -- the new front has the earliest tick of those left
    obtain ⟨t₀, rest, hc⟩ := List.exists_cons_of_ne_nil (List.ne_nil_of_mem ht)
    rw [hn t₀ rest hc]
    rw [hc] at ht hsorted
    rcases List.mem_cons.1 ht with rfl | ht
    · exact le_rfl
    · exact key_le_of_lex ((List.pairwise_cons.1 hsorted).1 t ht)

/-- While the cached tick is later than `T`, no sleeper's tick is at most `T`. -/
theorem AlarmInv.none_due (hi : AlarmInv s g) {T : ℤ} (hT : T < s.nextWakeupTick) :
    s.sleepingList.dropWhile (fun t => decide (wakeTick s t ≤ T)) = s.sleepingList ∧
      s.sleepingList.takeWhile (fun t => decide (wakeTick s t ≤ T)) = [] := by
  cases hl : s.sleepingList with
  | nil => exact ⟨rfl, rfl⟩
  | cons t rest =>
    have hp : ¬ (fun t => decide (wakeTick s t ≤ T)) t = true := by
      have := hi.next_le t (by simp [hl])
      simp only [decide_eq_true_eq, not_le]
      exact hT.trans_le this
    exact ⟨List.dropWhile_cons_of_neg (p := fun t => decide (wakeTick s t ≤ T)) (a := t) hp,
      List.takeWhile_cons_of_neg (p := fun t => decide (wakeTick s t ≤ T)) (a := t) hp⟩

/-- One timer interrupt: it unblocks the sleepers whose tick has come, a prefix of the list,
and leaves the rest asleep in order with the cached tick recomputed. -/
theorem AlarmInv.timerInterrupt (h : Wf s) (hi : AlarmInv s g) :
    AlarmInv (timerInterrupt s) g ∧
      (timerInterrupt s).sleepingList = s.sleepingList.dropWhile (dueNext s) ∧
      ∀ t ∈ s.sleepingList.takeWhile (dueNext s),
        ((timerInterrupt s).threads t).status ≠ .blocked := by
  unfold Pintos.timerInterrupt
  dsimp only
  have hss : SameSched { s with ticks := s.ticks + 1 } (threadTick { s with ticks := s.ticks + 1 }) :=
    sameSched_threadTick _ (by show (s.threads s.current).status ≠ .ready; rw [h.running]; decide)
  generalize threadTick { s with ticks := s.ticks + 1 } = s₁ at hss
  -- one tick later, with the same sleepers and ticks
  have hw₁ : wakeTick s₁ = wakeTick s := funext fun t => hss.wakeupTick t
  have hi₁ : AlarmInv s₁ g := by
    refine ((AlarmFrame.of_fields (s := s) ?_ ?_ ?_).trans (AlarmFrame.of_sameSched hss)).alarmInv
      hi <;> rfl
  have hdue : dueNext s = fun t => decide (wakeTick s₁ t ≤ s₁.ticks) := by
    funext t
    rw [hw₁, hss.ticks]
    rfl
  rw [hdue, ← hss.sleepingList]
  generalize hs₂ : (if s₁.nextWakeupTick ≤ s₁.ticks then _ else s₁ : KState) = s₂
  have h₂ : AlarmInv s₂ g ∧
      s₂.sleepingList = s₁.sleepingList.dropWhile (fun t => decide (wakeTick s₁ t ≤ s₁.ticks)) ∧
      ∀ t ∈ s₁.sleepingList.takeWhile (fun t => decide (wakeTick s₁ t ≤ s₁.ticks)),
        (s₂.threads t).status ≠ .blocked := by
    subst hs₂
    split
    · -- the loop runs, then the cached tick is read off the new front
      have hl' := sleepingList_wakeSleepers s₁.sleepingList s₁
      have hw' := wakeTick_wakeSleepers s₁.sleepingList s₁
      have hst := fun t => status_wakeSleepers (t := t) s₁.sleepingList s₁
      split
      · next t rest hc =>
        exact ⟨hi₁.dropWhile hl' hw' (fun u r hu => by rw [hc] at hu; cases hu; rfl)
          (fun hu => by rw [hc] at hu; cases hu), hl', hst⟩
      · next hc =>
        exact ⟨hi₁.dropWhile hl' hw' (fun u r hu => by rw [hc] at hu; cases hu)
          (fun _ => rfl), hl', hst⟩
    · next hlt =>
      -- nothing is due
      obtain ⟨hd, ht⟩ := hi₁.none_due (not_le.1 hlt)
      exact ⟨hi₁, hd.symm, fun t hm => by rw [ht] at hm; cases hm⟩
  split
  · have hm := (sameSched_mlfqsUpdateLoadAvgAndRecentCpuAll s₂).trans
      (sameSched_mlfqsRecomputePriorityAll _)
    exact ⟨(AlarmFrame.of_sameSched hm).alarmInv h₂.1, hm.sleepingList.trans h₂.2.1,
      fun t ht => by rw [hm.status]; exact h₂.2.2 t ht⟩
  · exact h₂

/-- A timer interrupt taken through `intr_handler`, which may yield on return. -/
theorem AlarmInv.timerIrq (h : Wf s) (hi : AlarmInv s g) :
    AlarmInv (timerIrq s) g ∧
      (timerIrq s).sleepingList = s.sleepingList.dropWhile (dueNext s) ∧
      ∀ t ∈ s.sleepingList.takeWhile (dueNext s), ((timerIrq s).threads t).status ≠ .blocked := by
  unfold Pintos.timerIrq Pintos.intrHandler
  dsimp only
  have hss : SameSched s { s with yieldOnReturn := false } := .yieldOnReturn false
  obtain ⟨h₁, h₂, h₃⟩ := ((AlarmFrame.of_sameSched hss).alarmInv hi).timerInterrupt
    (h.of_sameSched hss)
  split
  · exact ⟨(AlarmFrame.threadYield _).alarmInv h₁, (AlarmFrame.threadYield _).sleepingList.trans h₂,
      fun t ht => threadYield_ne_blocked (h₃ t ht)⟩
  · exact ⟨h₁, h₂, h₃⟩

/-- Every step keeps the invariant, and every step but the timer's keeps every sleeper. -/
theorem AlarmInv.step (key : Tid → ℤ) (h : Wf s) (hi : AlarmInv s g) {c : Call}
    (he : Enabled s c) :
    AlarmInv (step key s c) (g.record s c) ∧
      (c ≠ .timer → s.sleepingList ⊆ (step key s c).sleepingList) := by
  have frame : ∀ {s'}, AlarmFrame s s' →
      AlarmInv s' g ∧ (c ≠ .timer → s.sleepingList ⊆ s'.sleepingList) :=
    fun hf => ⟨hf.alarmInv hi, fun _ => hf.sleepingList ▸ List.Subset.refl _⟩
  cases c with
  | lockAcquire l => exact frame (AlarmFrame.lockAcquire key s l)
  | lockTryAcquire l => exact frame (AlarmFrame.lockTryAcquire s l)
  | lockRelease l => exact frame (AlarmFrame.lockRelease key s l)
  | semaDown n => exact frame (AlarmFrame.semaDown s _ _ _)
  | semaTryDown n => exact frame (AlarmFrame.semaTryDown s _)
  | semaUp n => exact frame (AlarmFrame.semaUp false s _)
  | threadCreate p => exact frame (AlarmFrame.threadCreate h.sleepingFresh p)
  | threadExit => exact frame (AlarmFrame.threadExit s)
  | threadYield => exact frame (AlarmFrame.threadYield s)
  | threadSetPriority p =>
    show AlarmInv (threadSetPriority key s p) g ∧
      (_ → s.sleepingList ⊆ (threadSetPriority key s p).sleepingList)
    unfold Pintos.threadSetPriority
    dsimp only
    split
    · exact frame (.refl s)
    · exact frame ((AlarmFrame.of_sameSched ((SameSched.modifyThread
        (f := ({ · with basePriority := p })) (fun _ => by exact ⟨rfl, rfl, rfl⟩) _).trans
        (sameSched_updatePriority key _ _))).trans (AlarmFrame.tryThreadYield _))
  | threadSetNice n =>
    show AlarmInv (threadSetNice s n) g ∧ (_ → s.sleepingList ⊆ (threadSetNice s n).sleepingList)
    unfold Pintos.threadSetNice
    dsimp only
    have hss : SameSched s (s.modifyThread s.current ({ · with nice := n })) :=
      .modifyThread (fun _ => by exact ⟨rfl, rfl, rfl⟩) _
    have hc : ((s.modifyThread s.current ({ · with nice := n })).threads s.current).status ≠
        .ready := by
      rw [hss.status, h.running]
      decide
    exact frame ((AlarmFrame.of_sameSched (hss.trans (sameSched_threadUpdatePriorityMlfqs _ _ hc))).trans
      (AlarmFrame.tryThreadYield _))
  | timerSleep t =>
    show AlarmInv (timerSleep s t) g ∧ (_ → s.sleepingList ⊆ (timerSleep s t).sleepingList)
    unfold Pintos.timerSleep
    split
    · exact frame (.refl s)
    · exact frame (AlarmFrame.setResume _)
  | resume =>
    show AlarmInv (resumeCall s) (g.record s .resume) ∧
      (_ → s.sleepingList ⊆ (resumeCall s).sleepingList)
    unfold Pintos.resumeCall SleepStamps.record
    cases hres : (s.threads s.current).resume with
    | none => exact frame (.refl s)
    | lockAcquire l => exact frame (AlarmFrame.semaDown s _ _ _)
    | lockWait l => exact frame (AlarmFrame.semaDown s _ _ _)
    | lockAcquired l => exact frame (AlarmFrame.lockAcquireFinish s l)
    | semaWait n => exact frame (AlarmFrame.semaDown s _ _ _)
    | sleep w =>
      -- `thread_sleep` after the resume point is reset, which the alarm clock does not read
      have hf : AlarmFrame s (s.setResume s.current .none) := AlarmFrame.setResume _
      obtain ⟨h₁, h₂⟩ := (hf.alarmInv hi).threadSleep (h.setResume fun _ => rfl) he.1 w
      exact ⟨h₁, fun _ => hf.sleepingList ▸ h₂⟩
  | timer => exact ⟨(hi.timerIrq h).1, fun hc => absurd rfl hc⟩
  | intrSemaUp n =>
    show AlarmInv (intrHandler (semaUp true · (.plain n)) s) g ∧
      (_ → s.sleepingList ⊆ (intrHandler (semaUp true · (.plain n)) s).sleepingList)
    exact frame (AlarmFrame.intrHandler (AlarmFrame.semaUp true _ _))
  | idle => exact frame (AlarmFrame.threadBlock s)

end Steps

theorem alarm_invariant (key : Tid → ℤ) (mlfqs : Bool) (semaInit : ℕ → ℕ) :
    (alarmSystem key mlfqs semaInit).Invariant fun p => Wf p.1 ∧ AlarmInv p.1 p.2 where
  init := ⟨wf_initState mlfqs semaInit, ⟨List.Pairwise.nil, by simp [alarmSystem,
    Transition.System.withGhost, threadSystem, initState], by simp [alarmSystem,
    Transition.System.withGhost, threadSystem, initState], fun _ => rfl⟩⟩
  step := by
    rintro ⟨s, g⟩ c ⟨hw, hi⟩ he
    exact ⟨hw.step key he, (hi.step key hw he).1⟩

/-- `main` creates thread 3; both call `timer_sleep (5)`, `main` first, and four ticks pass, so
both are due at the next timer interrupt. -/
def twoSleepers : List Call :=
  [.threadCreate 31, .timerSleep 5, .resume, .timerSleep 5, .resume, .timer, .timer, .timer, .timer]

end Pintos
