import Pintos.Threads.Step

/-! # Where the threads are

The scheduler's bookkeeping: the running thread is `running`, every thread on
the ready list is `ready`, every sleeper and every waiter of a semaphore is
`blocked` at the matching point of its call, no list holds a thread twice, the
idle thread makes no call, and every tid in use lies below `next_tid`. Every
step of the thread system keeps this (`wf_invariant`).

Priorities, donor lists, `waiting_on`, `nice`, `recent_cpu` and the lock
holders play no part in it. The steps that change only those, and reorder the
ready list at most, relate their states by `SameSched`; donation, priority
recomputation and the MLFQS updates are all of this kind.
-/

namespace Pintos

open KState Transition

/-- The semaphore a thread blocked at this point of its call is a waiter of. -/
def Resume.waitsOn : Resume → Option SemaRef
  | .lockWait l => some (.lock l)
  | .semaWait n => some (.plain n)
  | _ => Option.none

/-- Nothing the scheduler's invariants speak of has changed, but the order of the ready list. -/
structure SameSched (s s' : KState) : Prop where
  status : ∀ t, (s'.threads t).status = (s.threads t).status
  resume : ∀ t, (s'.threads t).resume = (s.threads t).resume
  wakeupTick : ∀ t, (s'.threads t).wakeupTick = (s.threads t).wakeupTick
  readyList : s'.readyList.Perm s.readyList
  sleepingList : s'.sleepingList = s.sleepingList
  sema : ∀ r, s'.sema r = s.sema r
  current : s'.current = s.current
  idleThread : s'.idleThread = s.idleThread
  nextTid : s'.nextTid = s.nextTid
  ticks : s'.ticks = s.ticks
  nextWakeupTick : s'.nextWakeupTick = s.nextWakeupTick

namespace SameSched

variable {s s₁ s₂ : KState}

@[refl] theorem refl (s : KState) : SameSched s s :=
  ⟨fun _ => rfl, fun _ => rfl, fun _ => rfl, .refl _, rfl, fun _ => rfl, rfl, rfl, rfl, rfl, rfl⟩

@[trans] theorem trans (h₁ : SameSched s s₁) (h₂ : SameSched s₁ s₂) : SameSched s s₂ :=
  ⟨fun t => (h₂.status t).trans (h₁.status t), fun t => (h₂.resume t).trans (h₁.resume t),
    fun t => (h₂.wakeupTick t).trans (h₁.wakeupTick t), h₂.readyList.trans h₁.readyList,
    h₂.sleepingList.trans h₁.sleepingList, fun r => (h₂.sema r).trans (h₁.sema r),
    h₂.current.trans h₁.current, h₂.idleThread.trans h₁.idleThread, h₂.nextTid.trans h₁.nextTid,
    h₂.ticks.trans h₁.ticks, h₂.nextWakeupTick.trans h₁.nextWakeupTick⟩

/-- A loop whose every round keeps the scheduler's view keeps it. -/
theorem foldl {β : Type*} {f : KState → β → KState} (hf : ∀ s b, SameSched s (f s b))
    (l : List β) (s : KState) : SameSched s (l.foldl f s) := by
  induction l generalizing s with
  | nil => exact refl s
  | cons b l ih => exact (hf s b).trans (ih (f s b))

/-- A change to one thread's record that keeps its status, resume point and wake-up tick. -/
theorem modifyThread {f : Thread → Thread} (hf : ∀ th, (f th).status = th.status ∧
    (f th).resume = th.resume ∧ (f th).wakeupTick = th.wakeupTick) (t : Tid) :
    SameSched s (s.modifyThread t f) := by
  refine ⟨fun u => ?_, fun u => ?_, fun u => ?_, .refl _, rfl, fun r => ?_, rfl, rfl, rfl, rfl, rfl⟩
  · rw [threads_modifyThread]
    split <;> simp [*]
  · rw [threads_modifyThread]
    split <;> simp [*]
  · rw [threads_modifyThread]
    split <;> simp [*]
  · cases r <;> rfl

theorem setPriority (t : Tid) (p : ℤ) : SameSched s (s.setPriority t p) :=
  modifyThread (f := ({ · with priority := p })) (fun _ => by exact ⟨rfl, rfl, rfl⟩) t

theorem setHolder (l : LockId) (h : Option Tid) : SameSched s (s.setHolder l h) := by
  refine ⟨fun _ => rfl, fun _ => rfl, fun _ => rfl, .refl _, rfl, fun r => ?_, rfl, rfl, rfl, rfl,
    rfl⟩
  cases r with
  | lock l' =>
    show (Function.update s.locks l _ l').semaphore = (s.locks l').semaphore
    by_cases hl : l' = l
    · subst hl
      simp
    · rw [Function.update_of_ne hl]
  | plain n => rfl

theorem yieldOnReturn (b : Bool) : SameSched s { s with yieldOnReturn := b } :=
  ⟨fun _ => rfl, fun _ => rfl, fun _ => rfl, .refl _, rfl, fun r => by cases r <;> rfl, rfl, rfl,
    rfl, rfl, rfl⟩

theorem threadTicks (n : ℕ) : SameSched s { s with threadTicks := n } :=
  ⟨fun _ => rfl, fun _ => rfl, fun _ => rfl, .refl _, rfl, fun r => by cases r <;> rfl, rfl, rfl,
    rfl, rfl, rfl⟩

theorem loadAvg (v : ℤ) : SameSched s { s with loadAvg := v } :=
  ⟨fun _ => rfl, fun _ => rfl, fun _ => rfl, .refl _, rfl, fun r => by cases r <;> rfl, rfl, rfl,
    rfl, rfl, rfl⟩

/-- A ready list replaced by a reordering of itself. -/
theorem readyPerm {l : List Tid} (hl : l.Perm s.readyList) : SameSched s { s with readyList := l } :=
  ⟨fun _ => rfl, fun _ => rfl, fun _ => rfl, hl, rfl, fun r => by cases r <;> rfl, rfl, rfl, rfl,
    rfl, rfl⟩

end SameSched

section Bookkeeping

/-! Donation, priority recomputation and the MLFQS updates only do bookkeeping. -/

variable (key : Tid → ℤ)

theorem sameSched_donateChain (s : KState) (n : ℕ) (l : LockId) :
    SameSched s (donateChain s n l) := by
  induction n generalizing s l with
  | zero => exact .refl s
  | succ n ih =>
    rw [donateChain]
    split
    · exact .refl s
    · next h _ =>
      split
      · have hp := SameSched.setPriority (s := s) h (s.prio s.current)
        dsimp only
        split
        · exact hp.trans (ih _ _)
        · exact hp
      · exact .refl s

theorem sameSched_donatePriority (s : KState) (l : LockId) :
    SameSched s (donatePriority key s l) := by
  unfold donatePriority
  split
  · exact .refl s
  · dsimp only
    -- `waiting_on` recorded, the chain raised, and the donor joins the holder's list
    split
    · exact ((SameSched.modifyThread (fun _ => by exact ⟨rfl, rfl, rfl⟩) _).trans
        (sameSched_donateChain _ 20 l)).trans (.modifyThread (fun _ => by exact ⟨rfl, rfl, rfl⟩) _)
    · exact (SameSched.modifyThread (fun _ => by exact ⟨rfl, rfl, rfl⟩) _).trans
        (sameSched_donateChain _ 20 l)

/-- `lock_acquire` before its `sema_down`: bookkeeping, then the thread's new resume point. -/
theorem exists_sameSched_lockAcquire (s : KState) (l : LockId) :
    ∃ s₁, SameSched s s₁ ∧ lockAcquire key s l = s₁.setResume s₁.current (.lockAcquire l) := by
  unfold lockAcquire
  dsimp only
  refine ⟨_, ?_, rfl⟩
  split
  · exact .refl s
  · split
    · exact sameSched_donatePriority key s l
    · exact .refl s

theorem sameSched_removeDonors (l : LockId) (ds : List Tid) (s : KState) :
    SameSched s (removeDonors l ds s).2 := by
  induction ds generalizing s with
  | nil => exact .refl s
  | cons d ds ih =>
    rw [removeDonors]
    split
    · exact (SameSched.modifyThread (fun _ => by exact ⟨rfl, rfl, rfl⟩) d).trans (ih _)
    · exact ih s

theorem sameSched_updatePriority (s : KState) (t : Tid) :
    SameSched s (updatePriority key s t) := by
  unfold updatePriority
  dsimp only
  split
  · exact .setPriority _ _
  · -- the donors sorted, then the priority raised to the first one's
    split
    · exact (SameSched.setPriority _ _).trans (.modifyThread (fun _ => by exact ⟨rfl, rfl, rfl⟩) _)
    · split
      · exact ((SameSched.setPriority _ _).trans
          (.modifyThread (fun _ => by exact ⟨rfl, rfl, rfl⟩) _)).trans (.setPriority _ _)
      · exact (SameSched.setPriority _ _).trans
          (.modifyThread (fun _ => by exact ⟨rfl, rfl, rfl⟩) _)

theorem sameSched_removePriority (s : KState) (l : LockId) :
    SameSched s (removePriority key s l) := by
  unfold removePriority
  split
  · exact .refl s
  · exact ((sameSched_removeDonors l _ s).trans (.modifyThread (fun _ => by exact ⟨rfl, rfl, rfl⟩) _)).trans
      (sameSched_updatePriority key _ _)

/-- Recomputing the MLFQS priority of a thread that is not ready moves nothing. -/
theorem sameSched_threadUpdatePriorityMlfqs (s : KState) (t : Tid)
    (ht : (s.threads t).status ≠ .ready) : SameSched s (threadUpdatePriorityMlfqs s t) := by
  unfold threadUpdatePriorityMlfqs
  dsimp only
  split
  · rw [if_neg (by simpa [setPriority] using ht)]
    exact .setPriority _ _
  · exact .refl s

theorem sameSched_mlfqsRecomputePriorityAll (s : KState) :
    SameSched s (mlfqsRecomputePriorityAll s) := by
  unfold mlfqsRecomputePriorityAll
  have h₁ := SameSched.foldl (f := fun s t => if t = s.idleThread then s else
    s.setPriority t (mlfqsPriorityOf s t)) (fun s t => by
      split
      · exact .refl s
      · exact .setPriority _ _) s.allList s
  dsimp only
  split
  · exact h₁
  · exact h₁.trans (.readyPerm (listSort_perm _))

theorem sameSched_mlfqsUpdateLoadAvgAndRecentCpuAll (s : KState) :
    SameSched s (mlfqsUpdateLoadAvgAndRecentCpuAll s) := by
  unfold mlfqsUpdateLoadAvgAndRecentCpuAll
  refine (SameSched.loadAvg _).trans (SameSched.foldl (fun s t => ?_) _ _)
  split
  · exact .refl s
  · exact .modifyThread (fun _ => by exact ⟨rfl, rfl, rfl⟩) _

theorem sameSched_threadMlfqsTick (s : KState) (hc : (s.threads s.current).status ≠ .ready) :
    SameSched s (threadMlfqsTick s) := by
  unfold threadMlfqsTick
  dsimp only
  -- the running thread's `recent_cpu`, then its priority, then the flag to yield
  generalize hs₁ : (if s.current ≠ s.idleThread then _ else s) = s₁
  have h₁ : SameSched s s₁ := by
    subst hs₁
    split
    · exact .modifyThread (fun _ => by exact ⟨rfl, rfl, rfl⟩) _
    · exact .refl s
  generalize hs₂ : (if s₁.ticks % 4 = 0 then threadUpdatePriorityMlfqs s₁ s.current else s₁) = s₂
  have h₂ : SameSched s s₂ := by
    subst hs₂
    split
    · exact h₁.trans (sameSched_threadUpdatePriorityMlfqs _ _ (by rw [h₁.status]; exact hc))
    · exact h₁
  split
  · split
    · exact h₂.trans (.yieldOnReturn true)
    · exact h₂
  · exact h₂

/-- `thread_tick` while a thread that is not ready runs. -/
theorem sameSched_threadTick (s : KState) (hc : (s.threads s.current).status ≠ .ready) :
    SameSched s (threadTick s) := by
  unfold threadTick
  dsimp only
  generalize hs₂ : (if timeSlice ≤ s.threadTicks + 1 then _ else _) = s₂
  have h₂ : SameSched s s₂ := by
    subst hs₂
    split
    · exact (SameSched.threadTicks (s.threadTicks + 1)).trans
        (.yieldOnReturn (s := { s with threadTicks := s.threadTicks + 1 }) true)
    · exact .threadTicks _
  split
  · exact h₂.trans (sameSched_threadMlfqsTick _ (by rw [h₂.status, h₂.current]; exact hc))
  · exact h₂

end Bookkeeping

section Placement

/-- Where the threads are, whichever thread runs. -/
structure Placed (s : KState) : Prop where
  ready : ∀ t ∈ s.readyList, (s.threads t).status = .ready
  readyNodup : s.readyList.Nodup
  sleeping : ∀ t ∈ s.sleepingList,
    (s.threads t).status = .blocked ∧ (s.threads t).resume = .none ∧ t ≠ s.idleThread
  sleepingNodup : s.sleepingList.Nodup
  waiters : ∀ r, ∀ t ∈ (s.sema r).waiters,
    (s.threads t).status = .blocked ∧ (s.threads t).resume.waitsOn = some r
  waitersNodup : ∀ r, (s.sema r).waiters.Nodup
  idle : (s.threads s.idleThread).resume = .none
  idleFresh : s.idleThread < s.nextTid
  readyFresh : ∀ t ∈ s.readyList, t < s.nextTid
  sleepingFresh : ∀ t ∈ s.sleepingList, t < s.nextTid
  waitersFresh : ∀ r, ∀ t ∈ (s.sema r).waiters, t < s.nextTid

/-- `Placed`, with the current thread running. -/
structure Wf (s : KState) : Prop extends Placed s where
  running : (s.threads s.current).status = .running
  currentFresh : s.current < s.nextTid

variable {s s' : KState} {t : Tid}

theorem Placed.of_sameSched (h : Placed s) (hs : SameSched s s') : Placed s' where
  ready t ht := by rw [hs.status]; exact h.ready t (hs.readyList.mem_iff.1 ht)
  readyNodup := hs.readyList.nodup_iff.2 h.readyNodup
  sleeping t ht := by
    rw [hs.status, hs.resume, hs.idleThread]
    exact h.sleeping t (hs.sleepingList ▸ ht)
  sleepingNodup := hs.sleepingList ▸ h.sleepingNodup
  waiters r t ht := by
    rw [hs.status, hs.resume]
    exact h.waiters r t (hs.sema r ▸ ht)
  waitersNodup r := hs.sema r ▸ h.waitersNodup r
  idle := by rw [hs.idleThread, hs.resume]; exact h.idle
  idleFresh := by rw [hs.idleThread, hs.nextTid]; exact h.idleFresh
  readyFresh t ht := hs.nextTid ▸ h.readyFresh t (hs.readyList.mem_iff.1 ht)
  sleepingFresh t ht := hs.nextTid ▸ h.sleepingFresh t (hs.sleepingList ▸ ht)
  waitersFresh r t ht := hs.nextTid ▸ h.waitersFresh r t (hs.sema r ▸ ht)

theorem Wf.of_sameSched (h : Wf s) (hs : SameSched s s') : Wf s' :=
  { h.toPlaced.of_sameSched hs with
    running := by rw [hs.current, hs.status]; exact h.running
    currentFresh := by rw [hs.current, hs.nextTid]; exact h.currentFresh }

theorem Placed.not_mem_readyList (h : Placed s) (ht : (s.threads t).status ≠ .ready) :
    t ∉ s.readyList :=
  fun hm => ht (h.ready t hm)

theorem Placed.not_mem_sleepingList (h : Placed s) (ht : (s.threads t).status ≠ .blocked) :
    t ∉ s.sleepingList :=
  fun hm => ht (h.sleeping t hm).1

theorem Placed.not_mem_waiters (h : Placed s) (ht : (s.threads t).status ≠ .blocked) (r : SemaRef) :
    t ∉ (s.sema r).waiters :=
  fun hm => ht (h.waiters r t hm).1

/-- A thread that waits on no semaphore is none's waiter. -/
theorem Placed.not_mem_waiters_of_resume (h : Placed s) (ht : (s.threads t).resume.waitsOn = none)
    (r : SemaRef) : t ∉ (s.sema r).waiters := fun hm => by
  rw [(h.waiters r t hm).2] at ht
  cases ht

/-- A change to the record of a thread on no list, which keeps the idle thread out of calls. -/
theorem Placed.modifyThread (h : Placed s) {f : Thread → Thread} (hr : t ∉ s.readyList)
    (hs : t ∉ s.sleepingList) (hw : ∀ r, t ∉ (s.sema r).waiters)
    (hi : t = s.idleThread → (f (s.threads t)).resume = .none) : Placed (s.modifyThread t f) where
  ready u hu := by
    rw [threads_modifyThread, if_neg (show u ≠ t from fun e => hr (e ▸ hu))]
    exact h.ready u hu
  readyNodup := h.readyNodup
  sleeping u hu := by
    rw [sleepingList_modifyThread] at hu
    rw [threads_modifyThread, if_neg (show u ≠ t from fun e => hs (e ▸ hu))]
    exact h.sleeping u hu
  sleepingNodup := h.sleepingNodup
  waiters r u hu := by
    rw [sema_modifyThread] at hu
    rw [threads_modifyThread, if_neg (show u ≠ t from fun e => hw r (e ▸ hu))]
    exact h.waiters r u hu
  waitersNodup r := by
    rw [sema_modifyThread]
    exact h.waitersNodup r
  idle := by
    rw [idleThread_modifyThread, threads_modifyThread]
    split
    · next he => exact hi he.symm
    · exact h.idle
  idleFresh := h.idleFresh
  readyFresh := h.readyFresh
  sleepingFresh := h.sleepingFresh
  waitersFresh r u hu := by
    rw [sema_modifyThread] at hu
    exact h.waitersFresh r u hu

/-- The running thread is on no list, so its record may change freely, but for the idle
thread's resume point. -/
theorem Wf.placed_modifyCurrent (h : Wf s) {f : Thread → Thread}
    (hi : s.current = s.idleThread → (f (s.threads s.current)).resume = .none) :
    Placed (s.modifyThread s.current f) :=
  h.toPlaced.modifyThread (h.not_mem_readyList (by rw [h.running]; decide))
    (h.not_mem_sleepingList (by rw [h.running]; decide))
    (h.not_mem_waiters (by rw [h.running]; decide)) hi

theorem sema_congr {r : SemaRef} (hl : s'.locks = s.locks) (hs : s'.semas = s.semas) :
    s'.sema r = s.sema r := by
  cases r <;> simp [sema, hl, hs]

/-- A state that differs from a placed one in fields the placement does not read, and in its
ready and sleeping lists, which it shortened. -/
theorem Placed.of_sublists (h : Placed s) (hl : s'.readyList.Sublist s.readyList)
    (hsl : s'.sleepingList.Sublist s.sleepingList) (hth : s'.threads = s.threads)
    (hsem : ∀ r, s'.sema r = s.sema r) (hi : s'.idleThread = s.idleThread)
    (hn : s'.nextTid = s.nextTid) : Placed s' where
  ready u hu := hth ▸ h.ready u (hl.subset hu)
  readyNodup := h.readyNodup.sublist hl
  sleeping u hu := by
    rw [hth, hi]
    exact h.sleeping u (hsl.subset hu)
  sleepingNodup := h.sleepingNodup.sublist hsl
  waiters r u hu := by
    rw [hth]
    exact h.waiters r u (hsem r ▸ hu)
  waitersNodup r := hsem r ▸ h.waitersNodup r
  idle := by rw [hth, hi]; exact h.idle
  idleFresh := by rw [hi, hn]; exact h.idleFresh
  readyFresh u hu := hn ▸ h.readyFresh u (hl.subset hu)
  sleepingFresh u hu := hn ▸ h.sleepingFresh u (hsl.subset hu)
  waitersFresh r u hu := hn ▸ h.waitersFresh r u (hsem r ▸ hu)

theorem Wf.of_sublists (h : Wf s) (hl : s'.readyList.Sublist s.readyList)
    (hsl : s'.sleepingList.Sublist s.sleepingList) (hth : s'.threads = s.threads)
    (hsem : ∀ r, s'.sema r = s.sema r) (hi : s'.idleThread = s.idleThread)
    (hn : s'.nextTid = s.nextTid) (hc : s'.current = s.current) : Wf s' :=
  { h.toPlaced.of_sublists hl hsl hth hsem hi hn with
    running := by rw [hth, hc]; exact h.running
    currentFresh := by rw [hc, hn]; exact h.currentFresh }

/-- A state that differs from a well-formed one only in fields the placement does not read. -/
theorem Wf.of_fields (h : Wf s) (hl : s'.readyList = s.readyList)
    (hsl : s'.sleepingList = s.sleepingList) (hth : s'.threads = s.threads)
    (hlk : s'.locks = s.locks) (hsm : s'.semas = s.semas) (hi : s'.idleThread = s.idleThread)
    (hn : s'.nextTid = s.nextTid) (hc : s'.current = s.current) : Wf s' :=
  h.of_sublists (hl ▸ .refl _) (hsl ▸ .refl _) hth (fun _ => sema_congr hlk hsm) hi hn hc

/-- `schedule` switches to the front of the ready list, or to the idle thread. -/
theorem Placed.wf_schedule (h : Placed s) : Wf (schedule s) := by
  unfold schedule nextThreadToRun
  split
  · next hr =>
    -- nothing is ready: the idle thread runs, and it is on no list
    dsimp only
    have hp : Placed { s with current := s.idleThread, threadTicks := 0 } :=
      h.of_sublists (.refl _) (.refl _) rfl (fun _ => sema_congr rfl rfl) rfl rfl
    have hw : ∀ r, s.idleThread ∉ (s.sema r).waiters :=
      h.not_mem_waiters_of_resume (by rw [h.idle]; rfl)
    refine ⟨hp.modifyThread (by simp [hr]) (fun hs => (h.sleeping _ hs).2.2 rfl) hw
      (fun _ => h.idle), by simp [setStatus], h.idleFresh⟩
  · next n rest hr =>
    dsimp only
    have hn : (s.threads n).status = .ready := h.ready n (by simp [hr])
    have hp : Placed { s with readyList := rest, current := n, threadTicks := 0 } :=
      h.of_sublists (by simp [hr]) (.refl _) rfl (fun _ => sema_congr rfl rfl) rfl rfl
    have hnd := h.readyNodup
    rw [hr, List.nodup_cons] at hnd
    refine ⟨hp.modifyThread hnd.1 (h.not_mem_sleepingList (by rw [hn]; decide))
      (h.not_mem_waiters (by rw [hn]; decide)) (fun hi => by rw [hi]; exact h.idle),
      by simp [setStatus], h.readyFresh n (by simp [hr])⟩

end Placement

section Steps

variable {s : KState} {t : Tid}

theorem Wf.current_not_mem_readyList (h : Wf s) : s.current ∉ s.readyList :=
  h.not_mem_readyList (by rw [h.running]; decide)

theorem Wf.current_not_mem_sleepingList (h : Wf s) : s.current ∉ s.sleepingList :=
  h.not_mem_sleepingList (by rw [h.running]; decide)

theorem Wf.current_not_mem_waiters (h : Wf s) (r : SemaRef) : s.current ∉ (s.sema r).waiters :=
  h.not_mem_waiters (by rw [h.running]; decide) r

theorem Wf.setResume (h : Wf s) {r : Resume} (hi : s.current = s.idleThread → r = .none) :
    Wf (s.setResume s.current r) :=
  ⟨h.placed_modifyCurrent hi, by simpa [KState.setResume] using h.running, h.currentFresh⟩

/-- Ordered insertion of a ready thread that is not yet on the ready list. -/
theorem Placed.insertReady (h : Placed s) {less : Tid → Tid → Bool}
    (ht : (s.threads t).status = .ready) (hn : t ∉ s.readyList) (hf : t < s.nextTid) :
    Placed { s with readyList := listInsertOrdered less t s.readyList } where
  ready u hu := by
    rcases mem_listInsertOrdered.1 hu with rfl | hu
    · exact ht
    · exact h.ready u hu
  readyNodup := (listInsertOrdered_perm t _).nodup_iff.2 (List.nodup_cons.2 ⟨hn, h.readyNodup⟩)
  sleeping := h.sleeping
  sleepingNodup := h.sleepingNodup
  waiters := h.waiters
  waitersNodup := h.waitersNodup
  idle := h.idle
  idleFresh := h.idleFresh
  readyFresh u hu := by
    rcases mem_listInsertOrdered.1 hu with rfl | hu
    · exact hf
    · exact h.readyFresh u hu
  sleepingFresh := h.sleepingFresh
  waitersFresh := h.waitersFresh

theorem Wf.threadBlock (h : Wf s) : Wf (threadBlock s) :=
  (h.placed_modifyCurrent fun hi => by rw [hi]; exact h.idle).wf_schedule

theorem Wf.threadYield (h : Wf s) : Wf (threadYield s) := by
  have hp : Placed (s.setStatus s.current .ready) :=
    h.placed_modifyCurrent fun hi => by rw [hi]; exact h.idle
  unfold Pintos.threadYield
  dsimp only
  split
  · -- a thread other than the idle thread goes back on the ready list
    exact (hp.insertReady (by simp [setStatus]) h.current_not_mem_readyList
      h.currentFresh).wf_schedule
  · exact hp.wf_schedule

/-- `thread_unblock` of a blocked thread that has left every sleeping and waiting list. -/
theorem Wf.threadUnblock (h : Wf s) (intr : Bool) (hb : (s.threads t).status = .blocked)
    (hs : t ∉ s.sleepingList) (hw : ∀ r, t ∉ (s.sema r).waiters) (hf : t < s.nextTid) :
    Wf (threadUnblock intr s t) := by
  have hne : s.current ≠ t := fun e => by rw [← e, h.running] at hb; cases hb
  have hp : Placed (s.setStatus t .ready) :=
    h.toPlaced.modifyThread (h.not_mem_readyList (by rw [hb]; decide)) hs hw
      (fun hi => by rw [hi]; exact h.idle)
  have hw' : Wf { s.setStatus t .ready with
      readyList := listInsertOrdered (threadPriorityComparison s) t s.readyList } :=
    ⟨hp.insertReady (by simp [setStatus]) (h.not_mem_readyList (by rw [hb]; decide)) hf,
      by simpa [setStatus, hne] using h.running, h.currentFresh⟩
  unfold Pintos.threadUnblock
  dsimp only
  split
  · split
    · exact hw'.of_sameSched (.yieldOnReturn true)
    · exact hw'
  · exact hw'

/-- A semaphore whose waiters are now some of those it had. -/
theorem Placed.setSema_subperm (h : Placed s) {r : SemaRef} {m : Semaphore}
    (hm : m.waiters.Subperm (s.sema r).waiters) : Placed (s.setSema r m) where
  ready u hu := by simpa using h.ready u (by simpa using hu)
  readyNodup := by simpa using h.readyNodup
  sleeping u hu := by simpa using h.sleeping u (by simpa using hu)
  sleepingNodup := by simpa using h.sleepingNodup
  waiters r' u hu := by
    rw [sema_setSema] at hu
    rw [threads_setSema]
    split at hu
    · next he => subst he; exact h.waiters _ u (hm.subset hu)
    · exact h.waiters r' u hu
  waitersNodup r' := by
    rw [sema_setSema]
    split
    · next he =>
      subst he
      obtain ⟨l, hp, hs⟩ := hm
      exact hp.nodup_iff.1 ((h.waitersNodup _).sublist hs)
    · exact h.waitersNodup r'
  idle := by simpa using h.idle
  idleFresh := by simpa using h.idleFresh
  readyFresh u hu := by simpa using h.readyFresh u (by simpa using hu)
  sleepingFresh u hu := by simpa using h.sleepingFresh u (by simpa using hu)
  waitersFresh r' u hu := by
    rw [sema_setSema] at hu
    rw [nextTid_setSema]
    split at hu
    · next he => subst he; exact h.waitersFresh _ u (hm.subset hu)
    · exact h.waitersFresh r' u hu

theorem Wf.setSema_subperm (h : Wf s) {r : SemaRef} {m : Semaphore}
    (hm : m.waiters.Subperm (s.sema r).waiters) : Wf (s.setSema r m) :=
  ⟨h.toPlaced.setSema_subperm hm, by simpa using h.running, by simpa using h.currentFresh⟩

/-- A blocked thread, waiting at the point of its call that belongs to `r`, joins `r`'s
waiters. -/
theorem Placed.addWaiter (h : Placed s) {r : SemaRef} (less : Tid → Tid → Bool) {m : Semaphore}
    (hb : (s.threads t).status = .blocked) (hr : (s.threads t).resume.waitsOn = some r)
    (hn : t ∉ (s.sema r).waiters) (hf : t < s.nextTid)
    (hm : m.waiters = listInsertOrdered less t (s.sema r).waiters) : Placed (s.setSema r m) where
  ready u hu := by simpa using h.ready u (by simpa using hu)
  readyNodup := by simpa using h.readyNodup
  sleeping u hu := by simpa using h.sleeping u (by simpa using hu)
  sleepingNodup := by simpa using h.sleepingNodup
  waiters r' u hu := by
    rw [sema_setSema] at hu
    rw [threads_setSema]
    split at hu
    · next he =>
      subst he
      rw [hm, mem_listInsertOrdered] at hu
      rcases hu with rfl | hu
      · exact ⟨hb, hr⟩
      · exact h.waiters _ u hu
    · exact h.waiters r' u hu
  waitersNodup r' := by
    rw [sema_setSema]
    split
    · next he =>
      subst he
      rw [hm]
      exact (listInsertOrdered_perm t _).nodup_iff.2 (List.nodup_cons.2 ⟨hn, h.waitersNodup _⟩)
    · exact h.waitersNodup r'
  idle := by simpa using h.idle
  idleFresh := by simpa using h.idleFresh
  readyFresh u hu := by simpa using h.readyFresh u (by simpa using hu)
  sleepingFresh u hu := by simpa using h.sleepingFresh u (by simpa using hu)
  waitersFresh r' u hu := by
    rw [sema_setSema] at hu
    rw [nextTid_setSema]
    split at hu
    · next he =>
      subst he
      rw [hm, mem_listInsertOrdered] at hu
      rcases hu with rfl | hu
      · exact hf
      · exact h.waitersFresh _ u hu
    · exact h.waitersFresh r' u hu

/-- One test of the `sema_down` loop, by a thread other than the idle thread that blocks, if
it must, at the point of its call that belongs to `r`. -/
theorem Wf.semaDown (h : Wf s) (hi : s.current ≠ s.idleThread) {r : SemaRef} {wait after : Resume}
    (hw : wait.waitsOn = some r) : Wf (semaDown s r wait after) := by
  unfold Pintos.semaDown
  dsimp only
  split
  · -- the thread blocks: with its resume point and status set it joins the waiters
    generalize hM : ({ s.sema r with waiters := _ } : Semaphore) = M
    have h₂ : Placed ((s.setResume s.current wait).setStatus s.current .blocked) :=
      (h.setResume fun e => absurd e hi).placed_modifyCurrent fun e => absurd e hi
    have h₃ := h₂.addWaiter (r := r) (t := s.current) (threadPriorityComparison s)
      (m := M) (by simp [setStatus]) (by simpa [setStatus, KState.setResume] using hw)
      (by simpa [setStatus, KState.setResume] using h.current_not_mem_waiters r)
      (by simpa [setStatus, KState.setResume] using h.currentFresh)
      (by rw [← hM]; simp [setStatus, KState.setResume])
    have hc : ((s.setSema r M).setResume s.current wait).current = s.current := by
      simp [KState.setResume]
    have he : ((s.setSema r M).setResume s.current wait).setStatus s.current .blocked =
        ((s.setResume s.current wait).setStatus s.current .blocked).setSema r M := by
      cases r <;> rfl
    unfold Pintos.threadBlock
    rw [hc, he]
    exact h₃.wf_schedule
  · -- the thread takes the semaphore and goes on
    have h₁ := (h.setSema_subperm (r := r)
      (m := { s.sema r with value := (s.sema r).value - 1 }) (List.Subperm.refl _)).setResume
      (r := after) (fun e => absurd (by simpa using e) hi)
    rwa [current_setSema] at h₁

theorem Wf.semaTryDown (h : Wf s) (r : SemaRef) : Wf (Pintos.semaTryDown s r).2 := by
  unfold Pintos.semaTryDown
  dsimp only
  split
  · exact h.setSema_subperm (List.Subperm.refl _)
  · exact h

/-- `sema_up` wakes the waiter it picks, which leaves the waiters first. -/
theorem Wf.semaUp (h : Wf s) (intr : Bool) (r : SemaRef) : Wf (Pintos.semaUp intr s r) := by
  unfold Pintos.semaUp
  dsimp only
  split
  · exact h.setSema_subperm (List.Subperm.refl _)
  split
  · exact h.setSema_subperm (List.Subperm.refl _)
  next t rest hsort =>
  -- the woken thread is the first of the sorted waiters, and on no other list
  have hp := @listSort_perm _ (threadPriorityComparison s) (s.sema r).waiters
  rw [hsort] at hp
  have hnd : (t :: rest).Nodup := hp.nodup_iff.2 (h.waitersNodup r)
  obtain ⟨hb, hwr⟩ := h.waiters r t (hp.subset List.mem_cons_self)
  have h₁ : Wf (s.setSema r { s.sema r with waiters := rest }) :=
    h.setSema_subperm ((List.sublist_cons_self t rest).subperm.trans hp.subperm)
  have hs : t ∉ (s.setSema r { s.sema r with waiters := rest }).sleepingList := fun hm => by
    rw [sleepingList_setSema] at hm
    rw [(h.sleeping t hm).2.1] at hwr
    cases hwr
  have hw : ∀ r', t ∉ ((s.setSema r { s.sema r with waiters := rest }).sema r').waiters := by
    intro r' hm
    rw [sema_setSema] at hm
    split at hm
    · exact (List.nodup_cons.1 hnd).1 hm
    · next hne =>
      rw [(h.waiters r' t hm).2] at hwr
      exact hne (Option.some.inj hwr)
  have h₂ := h₁.threadUnblock intr (t := t) (by simpa using hb) hs hw
    (by simpa using h.waitersFresh r t (hp.subset List.mem_cons_self))
  have h₃ := h₂.setSema_subperm (r := r)
    (m := { (Pintos.threadUnblock intr (s.setSema r { s.sema r with waiters := rest }) t).sema r with
      value := (s.sema r).value + 1 }) (List.Subperm.refl _)
  split
  · exact h₃.threadYield
  · exact h₃

/-- A new thread record at `next_tid`, above every tid in use. -/
theorem Wf.newThread (h : Wf s) (th : Thread) (l : List Tid) :
    Wf { s with threads := Function.update s.threads s.nextTid th, allList := l,
                nextTid := s.nextTid + 1 } := by
  -- every thread the invariant speaks of lies below `next_tid`, so its record is untouched
  have hne : ∀ u, u < s.nextTid → Function.update s.threads s.nextTid th u = s.threads u :=
    fun u hu => Function.update_of_ne (Nat.ne_of_lt hu) _ _
  refine ⟨⟨fun u hu => ?_, h.readyNodup, fun u hu => ?_, h.sleepingNodup, fun r u hu => ?_,
    h.waitersNodup, ?_, Nat.lt_succ_of_lt h.idleFresh, fun u hu => ?_, fun u hu => ?_,
    fun r u hu => ?_⟩, ?_, Nat.lt_succ_of_lt h.currentFresh⟩ <;> dsimp only at *
  · rw [hne u (h.readyFresh u hu)]
    exact h.ready u hu
  · rw [hne u (h.sleepingFresh u hu)]
    exact h.sleeping u hu
  · rw [hne u (h.waitersFresh r u hu)]
    exact h.waiters r u hu
  · rw [hne _ h.idleFresh]
    exact h.idle
  · exact Nat.lt_succ_of_lt (h.readyFresh u hu)
  · exact Nat.lt_succ_of_lt (h.sleepingFresh u hu)
  · exact Nat.lt_succ_of_lt (h.waitersFresh r u hu)
  · rw [hne _ h.currentFresh]
    exact h.running

theorem Wf.threadCreate (h : Wf s) (p : ℤ) : Wf (Pintos.threadCreate s p) := by
  unfold Pintos.threadCreate
  dsimp only
  generalize hth : Thread.mk .blocked _ _ _ _ _ _ _ .none = th
  generalize hs₁ : ({ s with threads := Function.update s.threads s.nextTid th,
                             allList := s.allList ++ [s.nextTid], nextTid := s.nextTid + 1 } :
    KState) = s₁
  have h₁ : Wf s₁ := hs₁ ▸ h.newThread th _
  -- the new thread is blocked and on no list: every tid there is below it
  have hb : (s₁.threads s.nextTid).status = .blocked := by rw [← hs₁, ← hth]; simp
  have hs : s.nextTid ∉ s₁.sleepingList := fun hm =>
    Nat.lt_irrefl _ (h.sleepingFresh _ (by rw [← hs₁] at hm; exact hm))
  have hw : ∀ r, s.nextTid ∉ (s₁.sema r).waiters := fun r hm =>
    Nat.lt_irrefl _ (h.waitersFresh r _ (by rw [← hs₁, sema_congr rfl rfl] at hm; exact hm))
  have hn : s₁.nextTid = s.nextTid + 1 := by rw [← hs₁]
  generalize hs₂ : (if s.threadMlfqs then _ else _ : KState) = s₂
  have hss : SameSched s₁ s₂ := by
    subst hs₂
    split
    · exact .setPriority _ _
    · exact .refl _
  have h₃ := (h₁.of_sameSched hss).threadUnblock false (t := s.nextTid)
    (by rw [hss.status]; exact hb) (by rw [hss.sleepingList]; exact hs)
    (fun r => by rw [hss.sema]; exact hw r) (by rw [hss.nextTid, hn]; exact Nat.lt_succ_self _)
  split
  · exact h₃.threadYield
  · exact h₃

theorem Wf.threadExit (h : Wf s) : Wf (Pintos.threadExit s) := by
  unfold Pintos.threadExit
  have h₁ : Wf { s with allList := listRemove s.current s.allList } :=
    h.of_fields rfl rfl rfl rfl rfl rfl rfl rfl
  exact (h₁.placed_modifyCurrent fun hi => by rw [hi]; exact h.idle).wf_schedule

theorem Wf.modifyCurrent (h : Wf s) {f : Thread → Thread}
    (hs : (f (s.threads s.current)).status = .running)
    (hi : s.current = s.idleThread → (f (s.threads s.current)).resume = .none) :
    Wf (s.modifyThread s.current f) :=
  ⟨h.placed_modifyCurrent hi, by simpa using hs, h.currentFresh⟩

/-- The placement does not read the earliest wake-up tick. -/
theorem Placed.nextWakeupTick (h : Placed s) (w : ℤ) : Placed { s with nextWakeupTick := w } :=
  h.of_sublists (.refl _) (.refl _) rfl (fun _ => sema_congr rfl rfl) rfl rfl

/-- A blocked thread that resumes nowhere and is not the idle thread joins the sleepers. -/
theorem Placed.addSleeper (h : Placed s) (less : Tid → Tid → Bool)
    (hb : (s.threads t).status = .blocked) (hr : (s.threads t).resume = .none)
    (hi : t ≠ s.idleThread) (hn : t ∉ s.sleepingList) (hf : t < s.nextTid) :
    Placed { s with sleepingList := listInsertOrdered less t s.sleepingList } where
  ready := h.ready
  readyNodup := h.readyNodup
  sleeping u hu := by
    rcases mem_listInsertOrdered.1 hu with rfl | hu
    · exact ⟨hb, hr, hi⟩
    · exact h.sleeping u hu
  sleepingNodup :=
    (listInsertOrdered_perm t _).nodup_iff.2 (List.nodup_cons.2 ⟨hn, h.sleepingNodup⟩)
  waiters := h.waiters
  waitersNodup := h.waitersNodup
  idle := h.idle
  idleFresh := h.idleFresh
  readyFresh := h.readyFresh
  sleepingFresh u hu := by
    rcases mem_listInsertOrdered.1 hu with rfl | hu
    · exact hf
    · exact h.sleepingFresh u hu
  waitersFresh := h.waitersFresh

/-- \`thread_sleep\` by a thread that has left its call's resume point. -/
theorem Wf.threadSleep (h : Wf s) (hr : (s.threads s.current).resume = .none) (w : ℤ) :
    Wf (threadSleep s w) := by
  unfold Pintos.threadSleep
  dsimp only
  split
  · exact h
  next hi =>
  have h₁ := h.modifyCurrent (f := ({ · with wakeupTick := w })) h.running (fun e => absurd e hi)
  have h₂ := h₁.placed_modifyCurrent (f := ({ · with status := .blocked })) (fun e => absurd e hi)
  have h₃ := h₂.addSleeper (t := s.current)
    (listSleepLessFunc (s.modifyThread s.current ({ · with wakeupTick := w })))
    (by simp) (by simpa using hr) hi (by simpa using h.current_not_mem_sleepingList)
    (by simpa using h.currentFresh)
  -- the new earliest wake-up tick is not read by the placement
  split
  · exact (h₃.nextWakeupTick w).wf_schedule
  · exact h₃.wf_schedule

@[simp] theorem sleepingList_threadUnblock (intr : Bool) (s : KState) (t : Tid) :
    (Pintos.threadUnblock intr s t).sleepingList = s.sleepingList := by
  unfold Pintos.threadUnblock
  dsimp only
  split
  · split <;> rfl
  · rfl

theorem threads_threadUnblock (intr : Bool) (s : KState) (t : Tid) :
    (Pintos.threadUnblock intr s t).threads = (s.setStatus t .ready).threads := by
  unfold Pintos.threadUnblock
  dsimp only
  split
  · split <;> rfl
  · rfl

@[simp] theorem ticks_threadUnblock (intr : Bool) (s : KState) (t : Tid) :
    (Pintos.threadUnblock intr s t).ticks = s.ticks := by
  unfold Pintos.threadUnblock
  dsimp only
  split
  · split <;> rfl
  · rfl

/-- The wake-up loop of the timer unblocks the sleepers it takes off the front. -/
theorem Wf.wakeSleepers {l : List Tid} (h : Wf s) (hl : s.sleepingList = l) :
    Wf (wakeSleepers s l) := by
  induction l generalizing s with
  | nil =>
    unfold Pintos.wakeSleepers
    exact h.of_sublists (.refl _) (List.nil_sublist _) rfl (fun _ => sema_congr rfl rfl) rfl rfl rfl
  | cons t rest ih =>
    unfold Pintos.wakeSleepers
    split
    · -- the first sleeper is due: it leaves the list, and no waiters list holds it
      have hnd := h.sleepingNodup
      rw [hl, List.nodup_cons] at hnd
      have hm : t ∈ s.sleepingList := by simp [hl]
      obtain ⟨hb, hr, -⟩ := h.sleeping t hm
      have h₁ : Wf { s with sleepingList := rest } :=
        h.of_sublists (.refl _) (by simp [hl]) rfl (fun _ => sema_congr rfl rfl) rfl rfl rfl
      exact ih (h₁.threadUnblock true hb hnd.1
        (h.not_mem_waiters_of_resume (by rw [hr]; rfl)) (h.sleepingFresh t hm)) (by simp)
    · exact h.of_fields rfl hl.symm rfl rfl rfl rfl rfl rfl

theorem Wf.timerInterrupt (h : Wf s) : Wf (timerInterrupt s) := by
  unfold Pintos.timerInterrupt
  dsimp only
  have h₀ : Wf { s with ticks := s.ticks + 1 } := h.of_fields rfl rfl rfl rfl rfl rfl rfl rfl
  have h₁ := h₀.of_sameSched (sameSched_threadTick _ (by simp [h.running]))
  generalize hs₁ : threadTick { s with ticks := s.ticks + 1 } = s₁ at h₁
  generalize hs₂ : (if s₁.nextWakeupTick ≤ s₁.ticks then _ else s₁ : KState) = s₂
  have h₂ : Wf s₂ := by
    subst hs₂
    split
    · -- the due sleepers woken, and the earliest tick of those left recorded
      have h' := h₁.wakeSleepers rfl
      split
      · exact h'.of_fields rfl rfl rfl rfl rfl rfl rfl rfl
      · exact h'.of_fields rfl rfl rfl rfl rfl rfl rfl rfl
    · exact h₁
  split
  · exact h₂.of_sameSched ((sameSched_mlfqsUpdateLoadAvgAndRecentCpuAll _).trans
      (sameSched_mlfqsRecomputePriorityAll _))
  · exact h₂

theorem Wf.intrHandler {handler : KState → KState} (hh : ∀ s, Wf s → Wf (handler s))
    (h : Wf s) : Wf (intrHandler handler s) := by
  unfold Pintos.intrHandler
  dsimp only
  have h₁ := hh _ (h.of_sameSched (.yieldOnReturn false))
  split
  · exact h₁.threadYield
  · exact h₁

theorem Wf.tryThreadYield (h : Wf s) : Wf (tryThreadYield s) := by
  unfold Pintos.tryThreadYield
  split
  · split
    · exact h.threadYield
    · exact h
  · exact h

theorem Wf.lockAcquire (key : Tid → ℤ) (h : Wf s) (hi : s.current ≠ s.idleThread) (l : LockId) :
    Wf (lockAcquire key s l) := by
  obtain ⟨s₁, hss, he⟩ := exists_sameSched_lockAcquire key s l
  rw [he]
  exact (h.of_sameSched hss).setResume fun e => absurd (by rwa [hss.current, hss.idleThread] at e) hi

theorem Wf.lockAcquireFinish (h : Wf s) (l : LockId) : Wf (lockAcquireFinish s l) := by
  unfold Pintos.lockAcquireFinish
  dsimp only
  have h₁ := h.of_sameSched ((SameSched.setHolder l (some s.current)).trans
    (.modifyThread (f := ({ · with waitingOn := none })) (fun _ => by exact ⟨rfl, rfl, rfl⟩)
      s.current))
  exact h₁.setResume fun _ => rfl

theorem Wf.lockTryAcquire (h : Wf s) (l : LockId) : Wf (lockTryAcquire s l).2 := by
  unfold Pintos.lockTryAcquire
  dsimp only
  have h₁ := h.semaTryDown (.lock l)
  split
  · exact h₁.of_sameSched (.setHolder _ _)
  · exact h₁

theorem Wf.lockRelease (key : Tid → ℤ) (h : Wf s) (l : LockId) : Wf (lockRelease key s l) :=
  (h.of_sameSched ((sameSched_removePriority key s l).trans (.setHolder _ _))).semaUp false _

theorem Wf.threadSetPriority (key : Tid → ℤ) (h : Wf s) (p : ℤ) :
    Wf (threadSetPriority key s p) := by
  unfold Pintos.threadSetPriority
  split
  · exact h
  · exact (h.of_sameSched ((SameSched.modifyThread (f := ({ · with basePriority := p }))
      (fun _ => by exact ⟨rfl, rfl, rfl⟩) _).trans (sameSched_updatePriority key _ _))).tryThreadYield

theorem Wf.threadSetNice (h : Wf s) (n : ℤ) : Wf (threadSetNice s n) := by
  unfold Pintos.threadSetNice
  dsimp only
  have hss : SameSched s (s.modifyThread s.current ({ · with nice := n })) :=
    .modifyThread (fun _ => by exact ⟨rfl, rfl, rfl⟩) _
  have hc : ((s.modifyThread s.current ({ · with nice := n })).threads s.current).status ≠ .ready := by
    rw [hss.status, h.running]
    decide
  exact (h.of_sameSched (hss.trans (sameSched_threadUpdatePriorityMlfqs _ _ hc))).tryThreadYield

theorem Wf.timerSleep (h : Wf s) (hi : s.current ≠ s.idleThread) (ticks : ℤ) :
    Wf (timerSleep s ticks) := by
  unfold Pintos.timerSleep
  split
  · exact h
  · exact h.setResume fun e => absurd e hi

theorem Wf.resumeCall (h : Wf s) (hi : s.current ≠ s.idleThread) : Wf (resumeCall s) := by
  unfold Pintos.resumeCall
  split
  · exact h
  · exact h.semaDown hi rfl
  · exact h.semaDown hi rfl
  · exact h.lockAcquireFinish _
  · exact h.semaDown hi rfl
  · exact (h.setResume fun _ => rfl).threadSleep (by simp [KState.setResume]) _

theorem Wf.step (key : Tid → ℤ) (h : Wf s) {c : Call} (he : Enabled s c) :
    Wf (step key s c) := by
  cases c with
  | lockAcquire l => exact h.lockAcquire key he.1.1 l
  | lockTryAcquire l => exact h.lockTryAcquire l
  | lockRelease l => exact h.lockRelease key l
  | semaDown n => exact h.semaDown he.1 rfl
  | semaTryDown n => exact h.semaTryDown _
  | semaUp n => exact h.semaUp false _
  | threadCreate p => exact h.threadCreate p
  | threadExit => exact h.threadExit
  | threadYield => exact h.threadYield
  | threadSetPriority p => exact h.threadSetPriority key p
  | threadSetNice n => exact h.threadSetNice n
  | timerSleep t => exact h.timerSleep he.1 t
  | resume => exact h.resumeCall he.1
  | timer => exact h.intrHandler (fun _ h => h.timerInterrupt)
  | intrSemaUp n => exact h.intrHandler (fun _ h => h.semaUp true _)
  | idle => exact h.threadBlock

end Steps

theorem wf_initState (mlfqs : Bool) (semaInit : ℕ → ℕ) : Wf (initState mlfqs semaInit) where
  ready := by simp [initState]
  readyNodup := List.nodup_nil
  sleeping := by simp [initState]
  sleepingNodup := List.nodup_nil
  waiters := by rintro (l | n) <;> simp [initState, KState.sema]
  waitersNodup := by rintro (l | n) <;> simp [initState, KState.sema]
  idle := by simp [initState, Thread.initial]
  idleFresh := by simp [initState]
  readyFresh := by simp [initState]
  sleepingFresh := by simp [initState]
  waitersFresh := by rintro (l | n) <;> simp [initState, KState.sema]
  running := by simp [initState, Thread.initial]
  currentFresh := by simp [initState]

/-- Every reachable state of the thread system is well formed. -/
theorem wf_invariant (key : Tid → ℤ) (mlfqs : Bool) (semaInit : ℕ → ℕ) :
    (threadSystem key mlfqs semaInit).Invariant Wf :=
  ⟨wf_initState mlfqs semaInit, fun _ _ h he => h.step key he⟩

end Pintos
