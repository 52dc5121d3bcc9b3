import Pintos.Lib.Transition
import Pintos.Threads.Synch
import Pintos.Threads.Timer

/-! # The thread system as a transition system

Each label is one atomic piece of work by the running thread, or an external
interrupt: the timer's, or one whose handler ups a semaphore, as the IDE
driver's does. A thread between kernel calls may start any call; a thread
inside a call can only continue it (`resume`), and interrupts come only where
they are on. The idle thread makes no calls: it blocks itself again
after each interrupt. Calls are enabled only when their `ASSERT`s hold.

Everything is generic in `key`, the word that donor lists are ordered by
(see `Pintos.Threads.Thread`).
-/

namespace Pintos

open KState

/-- The atomic steps of the running thread, and the external interrupts. -/
inductive Call
  | lockAcquire (l : LockId)
  | lockTryAcquire (l : LockId)
  | lockRelease (l : LockId)
  | semaDown (n : ℕ)
  | semaTryDown (n : ℕ)
  | semaUp (n : ℕ)
  | threadCreate (priority : ℤ)
  | threadExit
  | threadYield
  | threadSetPriority (priority : ℤ)
  | threadSetNice (nice : ℤ)
  | timerSleep (ticks : ℤ)
  | resume
  | timer
  | intrSemaUp (n : ℕ)
  | idle
  deriving DecidableEq, Repr

/-- Interrupts are on at this point of the running thread's kernel call. -/
def Resume.intrOn : Resume → Bool
  | .none | .lockAcquire _ | .lockAcquired _ | .sleep _ => true
  | .lockWait _ | .semaWait _ => false

namespace KState

variable (s : KState)

/-- The running thread is an ordinary thread between kernel calls. -/
def Idle : Prop := s.current ≠ s.idleThread ∧ (s.threads s.current).resume = .none

instance : Decidable s.Idle := inferInstanceAs (Decidable (_ ∧ _))

end KState

/-- When each step may be taken: calls only between calls and under their `ASSERT`s. -/
def Enabled (s : KState) : Call → Prop
  | .lockAcquire l | .lockTryAcquire l => s.Idle ∧ (s.locks l).holder ≠ some s.current
  | .lockRelease l => s.Idle ∧ (s.locks l).holder = some s.current
  | .threadCreate p => s.Idle ∧ priMin ≤ p ∧ p ≤ priMax
  | .semaDown _ | .semaTryDown _ | .semaUp _ | .threadExit | .threadYield
  | .threadSetPriority _ | .threadSetNice _ | .timerSleep _ => s.Idle
  | .resume => s.current ≠ s.idleThread ∧ (s.threads s.current).resume ≠ .none
  | .timer | .intrSemaUp _ => (s.threads s.current).resume.intrOn = true
  | .idle => s.current = s.idleThread

instance (s : KState) (c : Call) : Decidable (Enabled s c) :=
  match c with
  | .lockAcquire _ | .lockTryAcquire _ | .lockRelease _ | .threadCreate _ =>
    inferInstanceAs (Decidable (_ ∧ _))
  | .semaDown _ | .semaTryDown _ | .semaUp _ | .threadExit | .threadYield
  | .threadSetPriority _ | .threadSetNice _ | .timerSleep _ => inferInstanceAs (Decidable s.Idle)
  | .resume => inferInstanceAs (Decidable (_ ∧ _))
  | .timer | .intrSemaUp _ => inferInstanceAs (Decidable (_ = _))
  | .idle => inferInstanceAs (Decidable (_ = _))

/-- Continue the running thread's kernel call where it left off. -/
def resumeCall (s : KState) : KState :=
  match (s.threads s.current).resume with
  | .none => s
  | .lockAcquire l | .lockWait l => lockAcquireDown s l
  | .lockAcquired l => lockAcquireFinish s l
  | .semaWait n => semaDown s (.plain n) (.semaWait n) .none
  | .sleep w => threadSleep (s.setResume s.current .none) w

/-- The effect of each step. -/
def step (key : Tid → ℤ) (s : KState) : Call → KState
  | .lockAcquire l => lockAcquire key s l
  | .lockTryAcquire l => (lockTryAcquire s l).2
  | .lockRelease l => lockRelease key s l
  | .semaDown n => semaDown s (.plain n) (.semaWait n) .none
  | .semaTryDown n => (semaTryDown s (.plain n)).2
  | .semaUp n => semaUp false s (.plain n)
  | .threadCreate p => threadCreate s p
  | .threadExit => threadExit s
  | .threadYield => threadYield s
  | .threadSetPriority p => threadSetPriority key s p
  | .threadSetNice n => threadSetNice s n
  | .timerSleep t => timerSleep s t
  | .resume => resumeCall s
  | .timer => timerIrq s
  | .intrSemaUp n => intrHandler (semaUp true · (.plain n)) s
  | .idle => threadBlock s

/-- A thread record as `init_thread` leaves it, for the given priorities. -/
def Thread.initial (status : ThreadStatus) (priority base : ℤ) : Thread :=
  { status := status, priority := priority, basePriority := base, donors := [], waitingOn := none,
    nice := 0, recentCpu := 0, wakeupTick := 0, resume := .none }

/-- The state after `thread_init` and `thread_start`: the initial thread `main` (tid 1) runs,
the idle thread (tid 2) has run once, released `idle_started` and blocked itself, and every
lock is free. Under
MLFQS `main` starts from the formula with `nice` and `recent_cpu` zero. Free-standing
semaphores start at the values `semaInit` gives them. -/
def initState (mlfqs : Bool) (semaInit : ℕ → ℕ) : KState where
  threads t :=
    if t = 1 then
      Thread.initial .running (if mlfqs then mlfqsFormula 0 0 else priDefault) priDefault
    else if t = 2 then Thread.initial .blocked priMin priMin
    else Thread.initial .dying priMin priMin
  allList := [1, 2]
  readyList := []
  sleepingList := []
  current := 1
  idleThread := 2
  locks _ := { holder := none, semaphore := { value := 1, waiters := [] } }
  semas n := { value := semaInit n, waiters := [] }
  nextTid := 3
  ticks := 0
  nextWakeupTick := int64Max
  threadTicks := 0
  yieldOnReturn := false
  loadAvg := 0
  threadMlfqs := mlfqs

/-- The thread system for one donor-order word, scheduler choice and semaphore setup. -/
def threadSystem (key : Tid → ℤ) (mlfqs : Bool) (semaInit : ℕ → ℕ) :
    Transition.System KState Call where
  init := initState mlfqs semaInit
  Enabled := Enabled
  step := step key

instance (key : Tid → ℤ) (mlfqs : Bool) (semaInit : ℕ → ℕ) (s : KState) (c : Call) :
    Decidable ((threadSystem key mlfqs semaInit).Enabled s c) :=
  inferInstanceAs (Decidable (Enabled s c))

end Pintos
