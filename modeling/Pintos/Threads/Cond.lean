import Pintos.Kernel.ListSort
import Pintos.Lib.Transition

/-! # Condition variables under priority scheduling

`cond_wait`, `cond_signal` and `cond_broadcast` of `threads/synch.c`, with the
lock they go with. `cond_wait` pushes a `semaphore_elem` of its own on
`cond->waiters`, releases the lock and downs the elem's semaphore.
`cond_signal` sorts `cond->waiters` with `thread_semaphore_comparison`, which
takes the front thread of each elem's semaphore with `list_front`, and ups the
semaphore of the first elem; `cond_broadcast` signals until no elem is left.

A thread runs its call in steps that end where another thread can run: a
`sema_down` that blocks, the end of `lock_release` (where `sema_up` yields to
a waiter of higher priority, and where the timer can end the thread's time
slice), and the test a woken thread makes of its semaphore again. Any thread
that is not blocked can take the next step. That is what the scheduler does
with threads of equal priority, and more than it does with distinct ones;
priorities are fixed here (no donation) and order the waiters of each
semaphore. An elem is named by the thread whose `cond_wait` pushed it. A
failed `ASSERT` panics the kernel, and nothing runs after it.

A thread switched out between `lock_release` and `sema_down` in `cond_wait`
leaves its elem on `cond->waiters` with no thread on its semaphore. A
`cond_signal` that sorts it with another elem calls `list_front` on that empty
list, and its `ASSERT` fails.
-/

namespace Pintos

/-- The calls a thread makes on the lock and the condition. -/
inductive CondOp
  | acquire
  | release
  | wait
  | signal
  | broadcast
  deriving DecidableEq, Repr

/-- Where a thread is in `synch.c`. -/
inductive CondPc
  -- not in a call
  | idle
  -- blocked in the `sema_down` of `lock_acquire`
  | lockBlocked
  -- woken by the lock's `sema_up`, about to test its semaphore again
  | lockWoken
  -- in `cond_wait`, past `lock_release`, before the `sema_down` of its elem
  | waitDown
  -- blocked in that `sema_down`
  | waitBlocked
  -- woken by `cond_signal`, about to test the elem's semaphore again
  | waitWoken
  -- past that `sema_down`, about to take the lock again
  | waitAcquire
  -- in the loop of `cond_broadcast`
  | broadcasting
  deriving DecidableEq, Repr

/-- A thread in a call that is not blocked. -/
def CondPc.runnable : CondPc → Bool
  | .lockWoken | .waitDown | .waitWoken | .waitAcquire | .broadcasting => true
  | _ => false

/-- The threads' priorities; the lock's semaphore (value and waiters) and holder; the elems on
`cond->waiters`, and the semaphore of each thread's elem; where each thread is. -/
structure CondState where
  priority : ℕ → ℕ
  lockValue : ℕ
  holder : Option ℕ
  lockWaiters : List ℕ
  condWaiters : List ℕ
  elemValue : ℕ → ℕ
  elemWaiters : ℕ → List ℕ
  pc : ℕ → CondPc
  panicked : Bool

/-- A step: a thread's call, or a thread running on from where it was. -/
inductive CondAct
  | call (t : ℕ) (op : CondOp)
  | run (t : ℕ)
  deriving DecidableEq, Repr

namespace CondState

variable (s : CondState)

/-- An `ASSERT`. -/
def assert (c : Bool) (k : CondState) : CondState := if c then k else { s with panicked := true }

def setPc (t : ℕ) (p : CondPc) : CondState := { s with pc := Function.update s.pc t p }

/-- `thread_priority_comparison`. -/
def threadPriorityComparison (a b : ℕ) : Bool := s.priority a > s.priority b

/-- `thread_semaphore_comparison`: the priorities of the front threads of the two elems'
semaphores, each taken with `list_front`. -/
def threadSemaphoreComparison (a b : ℕ) : Except Unit Bool := do
  let threadA ← listFront (s.elemWaiters a)
  let threadB ← listFront (s.elemWaiters b)
  pure (s.priority threadA > s.priority threadB)

/-- One test of the `sema_down` loop of `lock_acquire` by `t`: take the lock, or block on its
semaphore in priority order. -/
def lockDown (t : ℕ) : CondState :=
  if s.lockValue = 0 then
    { s.setPc t .lockBlocked with
      lockWaiters := listInsertOrdered s.threadPriorityComparison t s.lockWaiters }
  else { s.setPc t .idle with lockValue := s.lockValue - 1, holder := some t }

/-- `lock_acquire` by `t`, which must not hold the lock. -/
def lockAcquire (t : ℕ) : CondState := s.assert (s.holder ≠ some t) (s.lockDown t)

/-- `sema_up` of the lock: wake its waiter of highest priority, and count up. -/
def lockUp : CondState :=
  match listSort s.threadPriorityComparison s.lockWaiters with
  | [] => { s with lockValue := s.lockValue + 1 }
  | w :: ws => { s.setPc w .lockWoken with lockWaiters := ws, lockValue := s.lockValue + 1 }

/-- `lock_release` by `t`, which must hold the lock. -/
def lockRelease (t : ℕ) : CondState :=
  s.assert (s.holder = some t) { s with holder := none }.lockUp

/-- One test of the `sema_down` loop on the semaphore of `t`'s elem. -/
def elemDown (t : ℕ) : CondState :=
  if s.elemValue t = 0 then
    { s.setPc t .waitBlocked with
      elemWaiters := Function.update s.elemWaiters t
        (listInsertOrdered s.threadPriorityComparison t (s.elemWaiters t)) }
  else
    { s.setPc t .waitAcquire with
      elemValue := Function.update s.elemValue t (s.elemValue t - 1) }

/-- `sema_up` of the semaphore of `e`'s elem. -/
def elemUp (e : ℕ) : CondState :=
  match listSort s.threadPriorityComparison (s.elemWaiters e) with
  | [] => { s with elemValue := Function.update s.elemValue e (s.elemValue e + 1) }
  | w :: ws =>
    { s.setPc w .waitWoken with
      elemWaiters := Function.update s.elemWaiters e ws,
      elemValue := Function.update s.elemValue e (s.elemValue e + 1) }

/-- `cond_wait` by `t` up to the `sema_down` of its elem: push the elem, with its semaphore at
zero, and release the lock. -/
def condWait (t : ℕ) : CondState :=
  s.assert (s.holder = some t)
    (({ s with condWaiters := s.condWaiters ++ [t],
               elemValue := Function.update s.elemValue t 0,
               elemWaiters := Function.update s.elemWaiters t [] }.lockRelease t).setPc t .waitDown)

/-- `cond_signal` by `t`, which must hold the lock: sort the elems and up the first. -/
def condSignal (t : ℕ) : CondState :=
  s.assert (s.holder = some t) <|
    if s.condWaiters = [] then s
    else
      match listSortE s.threadSemaphoreComparison s.condWaiters with
      | .error _ => { s with panicked := true }
      | .ok [] => s
      | .ok (e :: es) => { s with condWaiters := es }.elemUp e

/-- Thread `t` runs on from where it is. -/
def condResume (t : ℕ) : CondState :=
  match s.pc t with
  | .lockWoken => s.lockDown t
  | .waitDown | .waitWoken => s.elemDown t
  | .waitAcquire => s.lockAcquire t
  | .broadcasting => if s.condWaiters = [] then s.setPc t .idle else s.condSignal t
  | _ => s

end CondState

def condStep (s : CondState) : CondAct → CondState
  | .call t .acquire => s.lockAcquire t
  | .call t .release => (s.lockRelease t).setPc t .idle
  | .call t .wait => s.condWait t
  | .call t .signal => s.condSignal t
  | .call t .broadcast => s.setPc t .broadcasting
  | .run t => s.condResume t

def CondEnabled (s : CondState) : CondAct → Prop
  | .call t _ => s.panicked = false ∧ s.pc t = .idle
  | .run t => s.panicked = false ∧ (s.pc t).runnable = true

instance (s : CondState) (a : CondAct) : Decidable (CondEnabled s a) :=
  match a with
  | .call _ _ | .run _ => inferInstanceAs (Decidable (_ ∧ _))

/-- `lock_init` and `cond_init`, with threads of the given priorities in no call. -/
def condInit (priority : ℕ → ℕ) : CondState where
  priority := priority
  lockValue := 1
  holder := none
  lockWaiters := []
  condWaiters := []
  elemValue := fun _ => 0
  elemWaiters := fun _ => []
  pc := fun _ => .idle
  panicked := false

def condSystem (priority : ℕ → ℕ) : Transition.System CondState CondAct where
  init := condInit priority
  Enabled := CondEnabled
  step := condStep

instance (prio : ℕ → ℕ) (s : CondState) (a : CondAct) :
    Decidable ((condSystem prio).Enabled s a) :=
  inferInstanceAs (Decidable (CondEnabled s a))

/-- Three threads of the default priority: thread 1 waits; thread 2 is switched out in
`cond_wait` between `lock_release` and `sema_down`; thread 3 takes the lock. -/
def switchedOutWaiter : List CondAct :=
  [.call 1 .acquire, .call 1 .wait, .run 1, .call 2 .acquire, .call 2 .wait, .call 3 .acquire]

theorem cond_signal_list_front_fails :
    ∃ s, (condSystem fun _ => 31).Reachable s ∧ s.panicked = false ∧ s.holder = some 3 ∧
      s.pc 3 = .idle ∧ s.condWaiters = [1, 2] ∧ s.pc 1 = .waitBlocked ∧ s.elemWaiters 1 = [1] ∧
      s.pc 2 = .waitDown ∧ s.elemWaiters 2 = [] ∧
      listSortE s.threadSemaphoreComparison s.condWaiters = .error () ∧
      (condStep s (.call 3 .signal)).panicked = true :=
  Transition.System.exists_reachable_of_replay switchedOutWaiter (by decide)

end Pintos
