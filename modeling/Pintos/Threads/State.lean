import Pintos.Kernel.List
import Pintos.Threads.Fixed
import Mathlib.Logic.Function.Basic

/-! # Threads, semaphores and locks

The state the scheduler (`threads/thread.c`) and the synchronisation
primitives (`threads/synch.c`) share: the `struct thread` fields they use,
semaphores and locks, the ready, sleeping and all-threads lists, and the
globals `thread.c` and `timer.c` keep. Threads are named by their `tid`, and
a list of threads is the sequence of their tids.

A thread switched out inside a kernel call keeps its place in that call on
its kernel stack. `Resume` records that place, so that the thread continues
there when it is next scheduled.
-/

namespace Pintos

abbrev Tid := ℕ
abbrev LockId := ℕ

/-- `PRI_MIN`, `PRI_DEFAULT`, `PRI_MAX`. -/
def priMin : ℤ := 0
def priDefault : ℤ := 31
def priMax : ℤ := 63

/-- `TIME_SLICE`, `TIMER_FREQ` and `INT64_MAX`. -/
def timeSlice : ℕ := 4
def timerFreq : ℤ := 100
def int64Max : ℤ := 9223372036854775807

inductive ThreadStatus
  | running | ready | blocked | dying
  deriving DecidableEq, Repr

/-- The point of a kernel call at which a switched-out thread continues. -/
inductive Resume
  -- Between kernel calls, or about to return from one.
  | none
  -- In `lock_acquire` after the donation, before `sema_down`; interrupts are on.
  | lockAcquire (l : LockId)
  -- Blocked in the `sema_down` loop of `lock_acquire`; it re-tests with interrupts off.
  | lockWait (l : LockId)
  -- Past `sema_down` in `lock_acquire`, about to record the holder; interrupts are on.
  | lockAcquired (l : LockId)
  -- Blocked in the loop of a plain `sema_down`.
  | semaWait (n : ℕ)
  -- In `timer_sleep` with the wake-up tick computed, before `thread_sleep` turns interrupts off.
  | sleep (wakeupTick : ℤ)
  deriving DecidableEq, Repr

/-- `struct thread`: the fields of the scheduler, donation, MLFQS and the alarm clock. -/
structure Thread where
  status : ThreadStatus
  priority : ℤ
  basePriority : ℤ
  donors : List Tid
  waitingOn : Option LockId
  nice : ℤ
  recentCpu : ℤ
  wakeupTick : ℤ
  resume : Resume
  deriving DecidableEq, Repr

structure Semaphore where
  value : ℕ
  waiters : List Tid
  deriving DecidableEq, Repr

structure Lock where
  holder : Option Tid
  semaphore : Semaphore
  deriving DecidableEq, Repr

/-- A `struct semaphore *`: the one inside a lock, or a free-standing one. -/
inductive SemaRef
  | lock (l : LockId)
  | plain (n : ℕ)
  deriving DecidableEq, Repr

/-- The kernel's thread state. `yieldOnReturn` is `interrupt.c`'s flag, set by
`intr_yield_on_return` during an external interrupt and consumed on its return. -/
structure KState where
  threads : Tid → Thread
  allList : List Tid
  readyList : List Tid
  sleepingList : List Tid
  current : Tid
  idleThread : Tid
  locks : LockId → Lock
  semas : ℕ → Semaphore
  nextTid : Tid
  ticks : ℤ
  nextWakeupTick : ℤ
  threadTicks : ℕ
  yieldOnReturn : Bool
  loadAvg : ℤ
  threadMlfqs : Bool

namespace KState

variable (s : KState)

/-- A thread's current (effective) priority. -/
def prio (t : Tid) : ℤ := (s.threads t).priority

def modifyThread (t : Tid) (f : Thread → Thread) : KState :=
  { s with threads := Function.update s.threads t (f (s.threads t)) }

def setStatus (t : Tid) (st : ThreadStatus) : KState := s.modifyThread t ({ · with status := st })

def setPriority (t : Tid) (p : ℤ) : KState := s.modifyThread t ({ · with priority := p })

def setResume (t : Tid) (r : Resume) : KState := s.modifyThread t ({ · with resume := r })

def sema : SemaRef → Semaphore
  | .lock l => (s.locks l).semaphore
  | .plain n => s.semas n

def setSema : SemaRef → Semaphore → KState
  | .lock l, m => { s with locks := Function.update s.locks l { s.locks l with semaphore := m } }
  | .plain n, m => { s with semas := Function.update s.semas n m }

def setHolder (l : LockId) (h : Option Tid) : KState :=
  { s with locks := Function.update s.locks l { s.locks l with holder := h } }

variable {s}

@[simp] theorem threads_modifyThread (t u : Tid) (f : Thread → Thread) :
    (s.modifyThread t f).threads u = if u = t then f (s.threads t) else s.threads u := by
  simp [modifyThread, Function.update_apply]

@[simp] theorem readyList_modifyThread (t : Tid) (f : Thread → Thread) :
    (s.modifyThread t f).readyList = s.readyList := rfl

@[simp] theorem current_modifyThread (t : Tid) (f : Thread → Thread) :
    (s.modifyThread t f).current = s.current := rfl

@[simp] theorem idleThread_modifyThread (t : Tid) (f : Thread → Thread) :
    (s.modifyThread t f).idleThread = s.idleThread := rfl

@[simp] theorem locks_modifyThread (t : Tid) (f : Thread → Thread) :
    (s.modifyThread t f).locks = s.locks := rfl

@[simp] theorem semas_modifyThread (t : Tid) (f : Thread → Thread) :
    (s.modifyThread t f).semas = s.semas := rfl

@[simp] theorem threadMlfqs_modifyThread (t : Tid) (f : Thread → Thread) :
    (s.modifyThread t f).threadMlfqs = s.threadMlfqs := rfl

@[simp] theorem sleepingList_modifyThread (t : Tid) (f : Thread → Thread) :
    (s.modifyThread t f).sleepingList = s.sleepingList := rfl

@[simp] theorem nextTid_modifyThread (t : Tid) (f : Thread → Thread) :
    (s.modifyThread t f).nextTid = s.nextTid := rfl

@[simp] theorem ticks_modifyThread (t : Tid) (f : Thread → Thread) :
    (s.modifyThread t f).ticks = s.ticks := rfl

@[simp] theorem nextWakeupTick_modifyThread (t : Tid) (f : Thread → Thread) :
    (s.modifyThread t f).nextWakeupTick = s.nextWakeupTick := rfl

@[simp] theorem sema_modifyThread (t : Tid) (f : Thread → Thread) (r : SemaRef) :
    (s.modifyThread t f).sema r = s.sema r := by
  cases r <;> rfl

@[simp] theorem prio_modifyThread (t u : Tid) (f : Thread → Thread) :
    (s.modifyThread t f).prio u = if u = t then (f (s.threads t)).priority else s.prio u := by
  simp only [prio, threads_modifyThread]
  split <;> rfl

theorem prio_setStatus (t u : Tid) (st : ThreadStatus) : (s.setStatus t st).prio u = s.prio u := by
  simp only [setStatus, prio_modifyThread]
  split <;> simp_all [prio]

theorem prio_setResume (t u : Tid) (r : Resume) : (s.setResume t r).prio u = s.prio u := by
  simp only [setResume, prio_modifyThread]
  split <;> simp_all [prio]

@[simp] theorem prio_setPriority (t u : Tid) (p : ℤ) :
    (s.setPriority t p).prio u = if u = t then p else s.prio u := by
  simp [setPriority]

@[simp] theorem sema_setSema (r r' : SemaRef) (m : Semaphore) :
    (s.setSema r m).sema r' = if r' = r then m else s.sema r' := by
  cases r <;> cases r' <;> simp only [setSema, sema, Function.update_apply, SemaRef.lock.injEq,
    SemaRef.plain.injEq, reduceCtorEq, if_false, eq_comm]
  split <;> rfl

@[simp] theorem threads_setSema (r : SemaRef) (m : Semaphore) :
    (s.setSema r m).threads = s.threads := by cases r <;> rfl

@[simp] theorem readyList_setSema (r : SemaRef) (m : Semaphore) :
    (s.setSema r m).readyList = s.readyList := by cases r <;> rfl

@[simp] theorem current_setSema (r : SemaRef) (m : Semaphore) :
    (s.setSema r m).current = s.current := by cases r <;> rfl

@[simp] theorem sleepingList_setSema (r : SemaRef) (m : Semaphore) :
    (s.setSema r m).sleepingList = s.sleepingList := by cases r <;> rfl

@[simp] theorem idleThread_setSema (r : SemaRef) (m : Semaphore) :
    (s.setSema r m).idleThread = s.idleThread := by cases r <;> rfl

@[simp] theorem nextTid_setSema (r : SemaRef) (m : Semaphore) :
    (s.setSema r m).nextTid = s.nextTid := by cases r <;> rfl

@[simp] theorem ticks_setSema (r : SemaRef) (m : Semaphore) :
    (s.setSema r m).ticks = s.ticks := by cases r <;> rfl

@[simp] theorem nextWakeupTick_setSema (r : SemaRef) (m : Semaphore) :
    (s.setSema r m).nextWakeupTick = s.nextWakeupTick := by cases r <;> rfl

@[simp] theorem threads_setHolder (l : LockId) (h : Option Tid) :
    (s.setHolder l h).threads = s.threads := rfl

@[simp] theorem readyList_setHolder (l : LockId) (h : Option Tid) :
    (s.setHolder l h).readyList = s.readyList := rfl

@[simp] theorem current_setHolder (l : LockId) (h : Option Tid) :
    (s.setHolder l h).current = s.current := rfl

end KState

end Pintos
