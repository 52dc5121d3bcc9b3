import Pintos.Threads.Thread

/-! # Semaphores, locks and priority donation

`threads/synch.c`. Waiters join a semaphore in priority order and are woken
highest priority first; `sema_up` yields at once to a woken thread of higher
priority. A thread that finds a lock held donates its priority along the
chain of holders (at most twenty) and joins the holder's donor list; on
release the donors waiting on that lock leave the list and the holder's
priority is recomputed.

`lock_acquire` has three pieces separated by interrupt windows: the
donation, the `sema_down` loop (which may block and re-test), and recording
the holder. The running thread's `Resume` says which piece comes next.
-/

namespace Pintos

open KState

/-- One test of the `sema_down` loop by the running thread: take the semaphore and go on
at `after`, or join the waiters in priority order and block, to test again at `wait`. -/
def semaDown (s : KState) (r : SemaRef) (wait after : Resume) : KState :=
  let cur := s.current
  let m := s.sema r
  if m.value = 0 then
    let ws := listInsertOrdered (threadPriorityComparison s) cur m.waiters
    threadBlock ((s.setSema r { m with waiters := ws }).setResume cur wait)
  else (s.setSema r { m with value := m.value - 1 }).setResume cur after

def semaTryDown (s : KState) (r : SemaRef) : Bool × KState :=
  let m := s.sema r
  if 0 < m.value then (true, s.setSema r { m with value := m.value - 1 }) else (false, s)

/-- `sema_up`: wake the highest-priority waiter and count up. From a thread (`intr` is
`intr_context ()`) it yields at once to a woken thread of higher priority; in an interrupt
handler `thread_unblock` asks for the yield on return instead. -/
def semaUp (intr : Bool) (s : KState) (r : SemaRef) : KState :=
  let m := s.sema r
  if m.waiters = [] then s.setSema r { m with value := m.value + 1 }
  else
    match listSort (threadPriorityComparison s) m.waiters with
    | [] => s.setSema r { m with value := m.value + 1 }
    | t :: rest =>
      let s₁ := threadUnblock intr (s.setSema r { m with waiters := rest }) t
      let yield := intr = false ∧ s₁.prio s₁.current < s₁.prio t
      let s₂ := s₁.setSema r { s₁.sema r with value := m.value + 1 }
      if yield then threadYield s₂ else s₂

/-- The chain walk of `donate_priority`, with `depth` iterations left: raise each holder
below the donor's priority and follow the lock it waits on. -/
def donateChain (s : KState) : ℕ → LockId → KState
  | 0, _ => s
  | n + 1, l =>
    match (s.locks l).holder with
    | none => s
    | some h =>
      if s.prio h < s.prio s.current then
        let s' := s.setPriority h (s.prio s.current)
        match (s'.threads h).waitingOn with
        | some l' => donateChain s' n l'
        | none => s'
      else s

/-- `donate_priority`: record the lock waited on, walk the chain (limit 20), and join the
holder's donor list. -/
def donatePriority (key : Tid → ℤ) (s : KState) (l : LockId) : KState :=
  if s.threadMlfqs then s
  else
    let cur := s.current
    let s₁ := donateChain (s.modifyThread cur ({ · with waitingOn := some l })) 20 l
    match (s₁.locks l).holder with
    | some h =>
      s₁.modifyThread h fun th =>
        { th with donors := listInsertOrdered (donorComparison key) cur th.donors }
    | none => s₁

/-- The loop of `remove_priority`: drop from the donor list those waiting on `l`, clearing
their `waiting_on`, and keep the rest in order. -/
def removeDonors (l : LockId) : List Tid → KState → List Tid × KState
  | [], s => ([], s)
  | d :: ds, s =>
    if (s.threads d).waitingOn = some l then
      removeDonors l ds (s.modifyThread d ({ · with waitingOn := none }))
    else
      let r := removeDonors l ds s
      (d :: r.1, r.2)

def removePriority (key : Tid → ℤ) (s : KState) (l : LockId) : KState :=
  if s.threadMlfqs then s
  else
    let cur := s.current
    let r := removeDonors l (s.threads cur).donors s
    updatePriority key (r.2.modifyThread cur ({ · with donors := r.1 })) cur

/-- `lock_acquire` up to its `sema_down`: donate to the holder, unless under MLFQS. -/
def lockAcquire (key : Tid → ℤ) (s : KState) (l : LockId) : KState :=
  let s₁ := if s.threadMlfqs then s
    else if (s.locks l).holder ≠ none then donatePriority key s l else s
  s₁.setResume s₁.current (.lockAcquire l)

/-- The `sema_down` of `lock_acquire`. -/
def lockAcquireDown (s : KState) (l : LockId) : KState :=
  semaDown s (.lock l) (.lockWait l) (.lockAcquired l)

/-- The end of `lock_acquire`: record the holder; the thread waits on nothing. -/
def lockAcquireFinish (s : KState) (l : LockId) : KState :=
  let cur := s.current
  ((s.setHolder l (some cur)).modifyThread cur ({ · with waitingOn := none })).setResume cur .none

def lockTryAcquire (s : KState) (l : LockId) : Bool × KState :=
  let r := semaTryDown s (.lock l)
  if r.1 then (true, r.2.setHolder l (some s.current)) else (false, r.2)

def lockRelease (key : Tid → ℤ) (s : KState) (l : LockId) : KState :=
  semaUp false ((removePriority key s l).setHolder l none) (.lock l)

end Pintos
