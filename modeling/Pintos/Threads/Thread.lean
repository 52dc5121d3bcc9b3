import Pintos.Threads.State

/-! # The scheduler

`threads/thread.c`: the ready list kept by ordered insertion, choosing and
switching to the next thread, blocking, unblocking and yielding, priority
updates from donation and from the MLFQS formula, thread creation and exit,
the per-tick bookkeeping of `thread_tick` and the per-second MLFQS update.

The donor lists are sorted by `thread_priority_comparison`, which converts its
arguments with `list_entry (…, struct thread, elem)` although donors are
linked through `donor_elem`. The word it compares is not a donor's priority
but whatever lies at that offset outside the donor's `struct thread`. The
parameter `key` stands for that word wherever a donor list is ordered.
-/

namespace Pintos

open KState

/-- `thread_priority_comparison` on `elem`: higher priority goes first. -/
def threadPriorityComparison (s : KState) (a b : Tid) : Bool := decide (s.prio b < s.prio a)

/-- The same comparison applied to `donor_elem`s: it orders donors by the misread word. -/
def donorComparison (key : Tid → ℤ) (a b : Tid) : Bool := decide (key b < key a)

/-- `next_thread_to_run`: pop the front of the ready list, or fall back to the idle thread. -/
def nextThreadToRun (s : KState) : Tid × KState :=
  match s.readyList with
  | [] => (s.idleThread, s)
  | t :: rest => (t, { s with readyList := rest })

/-- `schedule` with `thread_schedule_tail`: switch, mark the new thread running, new slice. -/
def schedule (s : KState) : KState :=
  let n := nextThreadToRun s
  ({ n.2 with current := n.1, threadTicks := 0 } : KState).setStatus n.1 .running

def threadBlock (s : KState) : KState := schedule (s.setStatus s.current .blocked)

/-- `thread_unblock`; `intr` is `intr_context ()`. -/
def threadUnblock (intr : Bool) (s : KState) (t : Tid) : KState :=
  let s' := ({ s with readyList := listInsertOrdered (threadPriorityComparison s) t s.readyList }
    : KState).setStatus t .ready
  match intr, s'.readyList with
  | true, f :: _ =>
    if s'.prio s'.current < s'.prio f then { s' with yieldOnReturn := true } else s'
  | _, _ => s'

/-- `thread_yield`; the idle thread is never put on the ready list. -/
def threadYield (s : KState) : KState :=
  let cur := s.current
  let s' : KState := if cur ≠ s.idleThread then
      { s with readyList := listInsertOrdered (threadPriorityComparison s) cur s.readyList }
    else s
  schedule (s'.setStatus cur .ready)

/-- `update_priority`: the base priority, raised to that of the donor sorted first. -/
def updatePriority (key : Tid → ℤ) (s : KState) (t : Tid) : KState :=
  let s₁ := s.setPriority t (s.threads t).basePriority
  match (s₁.threads t).donors with
  | [] => s₁
  | ds =>
    let sorted := listSort (donorComparison key) ds
    let s₂ := s₁.modifyThread t ({ · with donors := sorted })
    match sorted with
    | [] => s₂
    | h :: _ => if s₂.prio t < s₂.prio h then s₂.setPriority t (s₂.prio h) else s₂

/-- The clamped formula of `mlfqs_priority_of`. -/
def mlfqsFormula (recentCpu nice : ℤ) : ℤ :=
  let pr := priMax - fpIntPart (fpDivMix recentCpu 4) - nice * 2
  let pr₁ := if priMax < pr then priMax else pr
  if pr₁ < priMin then priMin else pr₁

def mlfqsPriorityOf (s : KState) (t : Tid) : ℤ :=
  if t = s.idleThread then priMin else mlfqsFormula (s.threads t).recentCpu (s.threads t).nice

/-- `thread_ready_rearrange`: move a ready thread to its place for its new priority. -/
def threadReadyRearrange (s : KState) (t : Tid) : KState :=
  { s with
    readyList := listInsertOrdered (threadPriorityComparison s) t (listRemove t s.readyList) }

def threadUpdatePriorityMlfqs (s : KState) (t : Tid) : KState :=
  let p := mlfqsPriorityOf s t
  if p ≠ s.prio t then
    let s' := s.setPriority t p
    if (s'.threads t).status = .ready then threadReadyRearrange s' t else s'
  else s

/-- `try_thread_yield`: yield to a ready thread of strictly higher priority. -/
def tryThreadYield (s : KState) : KState :=
  match s.readyList with
  | f :: _ => if s.prio s.current < s.prio f then threadYield s else s
  | [] => s

/-- `thread_set_priority`; its closing test is written out in the source and is
`try_thread_yield`'s. -/
def threadSetPriority (key : Tid → ℤ) (s : KState) (p : ℤ) : KState :=
  if s.threadMlfqs then s
  else
    let cur := s.current
    tryThreadYield (updatePriority key (s.modifyThread cur ({ · with basePriority := p })) cur)

/-- `thread_set_nice`; it recomputes the MLFQS priority under either scheduler. -/
def threadSetNice (s : KState) (n : ℤ) : KState :=
  let s' := s.modifyThread s.current ({ · with nice := n })
  tryThreadYield (threadUpdatePriorityMlfqs s' s'.current)

/-- `thread_get_load_avg`: 100 times the load average, rounded. -/
def threadGetLoadAvg (s : KState) : ℤ := fpRound (fpMultMix s.loadAvg 100)

/-- `thread_get_recent_cpu`: 100 times the running thread's `recent_cpu`, rounded. -/
def threadGetRecentCpu (s : KState) : ℤ := fpRound (fpMultMix (s.threads s.current).recentCpu 100)

/-- `thread_create`: `init_thread` (new threads inherit `nice` and `recent_cpu` under
MLFQS), `allocate_tid`, `thread_unblock`, and the yield to a higher-priority thread. -/
def threadCreate (s : KState) (p : ℤ) : KState :=
  let t := s.nextTid
  let cur := s.threads s.current
  let th : Thread :=
    { status := .blocked, priority := p, basePriority := p, donors := [], waitingOn := none,
      nice := if s.threadMlfqs then cur.nice else 0,
      recentCpu := if s.threadMlfqs then cur.recentCpu else 0,
      wakeupTick := 0, resume := .none }
  let s₁ : KState :=
    { s with threads := Function.update s.threads t th, allList := s.allList ++ [t],
             nextTid := t + 1 }
  let s₂ := if s.threadMlfqs then s₁.setPriority t (mlfqsPriorityOf s₁ t) else s₁
  let s₃ := threadUnblock false s₂ t
  if !s.threadMlfqs && s₃.prio s₃.current < p then threadYield s₃ else s₃

/-- `thread_exit`: leave the all-threads list, die, and switch away for good. -/
def threadExit (s : KState) : KState :=
  schedule
    (({ s with allList := listRemove s.current s.allList } : KState).setStatus s.current .dying)

def threadMlfqsTick (s : KState) : KState :=
  let cur := s.current
  let s₁ := if cur ≠ s.idleThread then
      s.modifyThread cur (fun th => { th with recentCpu := fpAddMix th.recentCpu 1 })
    else s
  let s₂ := if s₁.ticks % 4 = 0 then threadUpdatePriorityMlfqs s₁ cur else s₁
  match s₂.readyList with
  | f :: _ => if s₂.prio cur < s₂.prio f then { s₂ with yieldOnReturn := true } else s₂
  | [] => s₂

/-- `thread_tick` (its statistics counters are not modelled). -/
def threadTick (s : KState) : KState :=
  let s₁ : KState := { s with threadTicks := s.threadTicks + 1 }
  let s₂ : KState := if timeSlice ≤ s₁.threadTicks then { s₁ with yieldOnReturn := true } else s₁
  if s₂.threadMlfqs then threadMlfqsTick s₂ else s₂

def mlfqsUpdateLoadAvgAndRecentCpuAll (s : KState) : KState :=
  let readyThreads : ℤ := s.readyList.length + if s.current ≠ s.idleThread then 1 else 0
  let term1 := fpDivMix (fpMultMix s.loadAvg 59) 60
  let term2 := fpDivMix (fpConst readyThreads) 60
  let loadAvg := fpAdd term1 term2
  let twoLa := fpMultMix loadAvg 2
  let coeff := fpDiv twoLa (fpAddMix twoLa 1)
  s.allList.foldl (fun s t => if t = s.idleThread then s else
      s.modifyThread t fun th =>
        { th with recentCpu := fpAdd (fpMult coeff th.recentCpu) (fpConst th.nice) })
    { s with loadAvg := loadAvg }

/-- `mlfqs_recompute_priority_all`: every priority from the formula, then one sort. -/
def mlfqsRecomputePriorityAll (s : KState) : KState :=
  let s₁ := s.allList.foldl (fun s t => if t = s.idleThread then s else
    s.setPriority t (mlfqsPriorityOf s t)) s
  match s₁.readyList with
  | [] => s₁
  | l => { s₁ with readyList := listSort (threadPriorityComparison s₁) l }

def listSleepLessFunc (s : KState) (a b : Tid) : Bool :=
  decide ((s.threads a).wakeupTick < (s.threads b).wakeupTick)

/-- `thread_sleep`: join the sleeping list in wake-up order and switch away. -/
def threadSleep (s : KState) (ticks : ℤ) : KState :=
  let t := s.current
  if t = s.idleThread then s
  else
    let s₁ := s.modifyThread t ({ · with wakeupTick := ticks })
    let s₂ : KState :=
      { s₁ with sleepingList := listInsertOrdered (listSleepLessFunc s₁) t s₁.sleepingList }
    let s₃ : KState := if ticks < s₂.nextWakeupTick then { s₂ with nextWakeupTick := ticks } else s₂
    schedule (s₃.setStatus t .blocked)

end Pintos
