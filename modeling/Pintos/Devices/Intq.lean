import Pintos.Lib.Ring
import Pintos.Lib.Transition

/-! # Interrupt queues

`devices/intq.c`: a ring of `INTQ_BUFSIZE` bytes shared by kernel threads and
interrupt handlers. A thread that finds the queue empty (for `intq_getc`) or
full (for `intq_putc`) takes `q->lock`, so that one thread waits at a time, and
blocks in `wait` with itself in `not_empty` or `not_full`; the next call the
other way wakes it in `signal`, and it releases the lock and tests again.

The queue's functions run with interrupts off, so a thread runs without
interruption from one blocking point to the next: from a call to its first
`thread_block`, or from being woken to the next. Those segments are the steps,
interleaved in any order with each other and with calls from interrupt
handlers, which run to their end and are made only when the queue is not empty
(`intq_getc`) or not full (`intq_putc`). `lock_release` may yield to the thread
its `sema_up` wakes, so the test after it is a step of its own. Threads have
equal priorities here: `sema_down` queues a thread behind the others and
`sema_up` wakes the first. A failed `ASSERT` panics the kernel, and nothing
runs after it.

The bytes put are always the bytes got followed by the queue's contents, and
the queue holds at most `INTQ_BUFSIZE - 1` bytes (`intq_fifo`). But a thread
that found the queue empty and blocked on the lock calls `wait` as soon as it
gets the lock, without testing the queue again, and `wait` asserts that it is
still empty. A byte put in between makes the kernel panic.
-/

namespace Pintos

def intqBufsize : ℕ := 64

/-- The call a thread is in: `intq_getc`, or `intq_putc` of a byte. -/
inductive IntqOp
  | getc
  | putc (byte : UInt8)
  deriving DecidableEq, Repr

/-- Where a thread is in the queue's code. -/
inductive IntqPc
  -- not in the queue's code
  | idle
  -- blocked in `sema_down` on `q->lock`
  | lockBlocked (op : IntqOp)
  -- woken by `sema_up`, about to test the semaphore again
  | lockWoken (op : IntqOp)
  -- blocked in `wait`
  | waiting (op : IntqOp)
  -- woken by `signal`, about to release the lock
  | signalled (op : IntqOp)
  -- past `lock_release`, about to test the queue again
  | retest (op : IntqOp)
  deriving DecidableEq, Repr

/-- The waiter fields of the queue. -/
inductive IntqWaiter
  | notFull
  | notEmpty
  deriving DecidableEq, Repr

/-- The queue, its lock's semaphore (value, holder, waiters in order) and the threads; `putLog`
and `getLog` record the bytes put and got. -/
structure IntqState where
  buf : ℕ → UInt8
  head : ℕ
  tail : ℕ
  notFull : Option ℕ
  notEmpty : Option ℕ
  lockValue : ℕ
  holder : Option ℕ
  lockWaiters : List ℕ
  pc : ℕ → IntqPc
  panicked : Bool
  putLog : List UInt8
  getLog : List UInt8

/-- A step: a thread's call, a thread running on from where it was woken, or a call from an
interrupt handler. -/
inductive IntqAct
  | call (t : ℕ) (op : IntqOp)
  | run (t : ℕ)
  | irq (op : IntqOp)
  deriving DecidableEq, Repr

namespace IntqState

variable (s : IntqState)

def intqEmpty : Bool := s.head = s.tail

def intqFull : Bool := Ring.next intqBufsize s.head = s.tail

/-- An `ASSERT`. -/
def assert (c : Bool) (k : IntqState) : IntqState := if c then k else { s with panicked := true }

def setPc (t : ℕ) (p : IntqPc) : IntqState := { s with pc := Function.update s.pc t p }

def getWaiter : IntqWaiter → Option ℕ
  | .notFull => s.notFull
  | .notEmpty => s.notEmpty

def setWaiter (w : IntqWaiter) (t : Option ℕ) : IntqState :=
  match w with
  | .notFull => { s with notFull := t }
  | .notEmpty => { s with notEmpty := t }

/-- `thread_unblock` of a thread blocked in `wait`. -/
def unblockWaiting (t : ℕ) : IntqState :=
  match s.pc t with
  | .waiting op => s.setPc t (.signalled op)
  | _ => { s with panicked := true }

/-- `signal (q, waiter)`. -/
def signal (w : IntqWaiter) : IntqState :=
  s.assert ((w = .notEmpty && !s.intqEmpty) || (w = .notFull && !s.intqFull)) <|
    match s.getWaiter w with
    | some t => (s.unblockWaiting t).setWaiter w none
    | none => s

/-- `wait (q, waiter)` by thread `t`. -/
def wait (w : IntqWaiter) (op : IntqOp) (t : ℕ) : IntqState :=
  s.assert ((w = .notEmpty && s.intqEmpty) || (w = .notFull && s.intqFull)) <|
    (s.setWaiter w (some t)).setPc t (.waiting op)

end IntqState

/-- The waiter field a call waits in. -/
def IntqOp.waiter : IntqOp → IntqWaiter
  | .getc => .notEmpty
  | .putc _ => .notFull

/-- A thread can run on once woken. -/
def IntqPc.woken : IntqPc → Bool
  | .lockWoken _ | .signalled _ | .retest _ => true
  | _ => false

open IntqState

namespace Intq

/-- `sema_down` on the lock by thread `t`, then `wait`: the thread blocks in one or the
other. -/
def lockAcquire (s : IntqState) (op : IntqOp) (t : ℕ) : IntqState :=
  if s.lockValue = 0 then
    { s.setPc t (.lockBlocked op) with lockWaiters := s.lockWaiters ++ [t] }
  else
    { s with lockValue := s.lockValue - 1, holder := some t }.wait op.waiter op t

/-- `lock_release` by thread `t`: `sema_up` wakes the first waiter. -/
def lockRelease (s : IntqState) (op : IntqOp) (t : ℕ) : IntqState :=
  let s := { s with holder := none }
  let s := match s.lockWaiters with
    | [] => s
    | w :: ws =>
      match s.pc w with
      | .lockBlocked op' => { s.setPc w (.lockWoken op') with lockWaiters := ws }
      | _ => { s with panicked := true }
  { s with lockValue := s.lockValue + 1 }.setPc t (.retest op)

/-- Take the byte at `tail`, as `intq_getc` does once the queue is not empty. -/
def takeByte (s : IntqState) : IntqState :=
  { s with tail := Ring.next intqBufsize s.tail, getLog := s.getLog ++ [s.buf s.tail] }.signal
    .notFull

/-- Store a byte at `head`, as `intq_putc` does once the queue is not full. -/
def storeByte (s : IntqState) (byte : UInt8) : IntqState :=
  { s with buf := Function.update s.buf s.head byte, head := Ring.next intqBufsize s.head,
           putLog := s.putLog ++ [byte] }.signal .notEmpty

/-- The test of the loop of `intq_getc` or `intq_putc` by thread `t`, and what follows it. -/
def intqLoop (s : IntqState) (t : ℕ) : IntqOp → IntqState
  | .getc => if s.intqEmpty then lockAcquire s .getc t else (takeByte s).setPc t .idle
  | .putc byte =>
    if s.intqFull then lockAcquire s (.putc byte) t else (storeByte s byte).setPc t .idle

/-- Thread `t` runs on from where it was woken. -/
def intqResume (s : IntqState) (t : ℕ) : IntqState :=
  match s.pc t with
  -- `sema_down` tests the semaphore again
  | .lockWoken op =>
    if s.lockValue = 0 then
      { s.setPc t (.lockBlocked op) with lockWaiters := s.lockWaiters ++ [t] }
    else
      { s with lockValue := s.lockValue - 1, holder := some t }.wait op.waiter op t
  | .signalled op => lockRelease s op t
  | .retest op => intqLoop s t op
  | _ => s

def intqStep (s : IntqState) : IntqAct → IntqState
  | .call t op => intqLoop s t op
  | .run t => intqResume s t
  | .irq .getc => takeByte s
  | .irq (.putc byte) => storeByte s byte

end Intq

def IntqEnabled (s : IntqState) : IntqAct → Prop
  | .call t _ => s.panicked = false ∧ s.pc t = .idle
  | .run t => s.panicked = false ∧ (s.pc t).woken = true
  | .irq .getc => s.panicked = false ∧ s.intqEmpty = false
  | .irq (.putc _) => s.panicked = false ∧ s.intqFull = false

instance (s : IntqState) (a : IntqAct) : Decidable (IntqEnabled s a) :=
  match a with
  | .call _ _ | .run _ | .irq .getc | .irq (.putc _) => inferInstanceAs (Decidable (_ ∧ _))

/-- `intq_init`: an empty queue, a free lock, no thread in the queue's code. -/
def intqInit : IntqState where
  buf := fun _ => 0
  head := 0
  tail := 0
  notFull := none
  notEmpty := none
  lockValue := 1
  holder := none
  lockWaiters := []
  pc := fun _ => .idle
  panicked := false
  putLog := []
  getLog := []

def intqSystem : Transition.System IntqState IntqAct where
  init := intqInit
  Enabled := IntqEnabled
  step := Intq.intqStep

instance (s : IntqState) (a : IntqAct) : Decidable (intqSystem.Enabled s a) :=
  inferInstanceAs (Decidable (IntqEnabled s a))

section Fifo

namespace IntqState

/-- The bytes in the ring, from `tail` up to `head`. -/
def contents (s : IntqState) : List UInt8 := Ring.contents intqBufsize s.buf s.head s.tail

/-- What the queue keeps: the ring and the bytes put and got. -/
def ringView (s : IntqState) : (ℕ → UInt8) × ℕ × ℕ × List UInt8 × List UInt8 :=
  (s.buf, s.head, s.tail, s.putLog, s.getLog)

/-- What the queue is for: the bytes put are the bytes got followed by those still queued, and
`head` and `tail` are slots of the ring. -/
structure Fifo (s : IntqState) : Prop where
  head_lt : s.head < intqBufsize
  tail_lt : s.tail < intqBufsize
  log : s.putLog = s.getLog ++ s.contents

variable {s s' : IntqState}

theorem Fifo.of_ringView (h : s.Fifo) (hv : s'.ringView = s.ringView) : s'.Fifo := by
  simp only [ringView, Prod.mk.injEq] at hv
  obtain ⟨hb, hh, ht, hp, hg⟩ := hv
  exact ⟨hh ▸ h.head_lt, ht ▸ h.tail_lt, by rw [hp, hg, contents, hb, hh, ht]; exact h.log⟩

variable (s)

theorem ringView_assert {c : Bool} {k : IntqState} (hk : k.ringView = s.ringView) :
    (s.assert c k).ringView = s.ringView := by
  unfold assert
  split
  · exact hk
  · rfl

@[simp] theorem ringView_setPc (t : ℕ) (p : IntqPc) : (s.setPc t p).ringView = s.ringView := rfl

@[simp] theorem ringView_setWaiter (w : IntqWaiter) (t : Option ℕ) :
    (s.setWaiter w t).ringView = s.ringView := by
  cases w <;> rfl

theorem ringView_unblockWaiting (t : ℕ) : (s.unblockWaiting t).ringView = s.ringView := by
  unfold unblockWaiting
  split <;> rfl

theorem ringView_signal (w : IntqWaiter) : (s.signal w).ringView = s.ringView := by
  apply ringView_assert
  split
  · rw [ringView_setWaiter, ringView_unblockWaiting]
  · rfl

theorem ringView_wait (w : IntqWaiter) (op : IntqOp) (t : ℕ) :
    (s.wait w op t).ringView = s.ringView :=
  ringView_assert s (by simp)

end IntqState

open IntqState

variable {s : IntqState}

theorem ringView_lockAcquire (op : IntqOp) (t : ℕ) : (Intq.lockAcquire s op t).ringView = s.ringView := by
  unfold Intq.lockAcquire
  split
  · rfl
  · rw [ringView_wait]
    rfl

theorem ringView_lockRelease (op : IntqOp) (t : ℕ) : (Intq.lockRelease s op t).ringView = s.ringView := by
  unfold Intq.lockRelease
  dsimp only
  split
  · rfl
  · split <;> rfl

theorem IntqState.Fifo.take (h : s.Fifo) (hne : s.intqEmpty = false) : (Intq.takeByte s).Fifo := by
  have hne : s.head ≠ s.tail := by simpa [intqEmpty] using hne
  apply Fifo.of_ringView _ (ringView_signal _ _)
  refine ⟨h.head_lt, Ring.next_lt h.tail_lt, ?_⟩
  simp only [contents]
  rw [h.log, contents, Ring.contents_pop s.buf h.head_lt h.tail_lt hne, List.append_assoc]
  rfl

theorem IntqState.Fifo.store (h : s.Fifo) (hnf : s.intqFull = false) (byte : UInt8) :
    (Intq.storeByte s byte).Fifo := by
  have hnf : Ring.next intqBufsize s.head ≠ s.tail := by simpa [intqFull] using hnf
  apply Fifo.of_ringView _ (ringView_signal _ _)
  refine ⟨Ring.next_lt h.head_lt, h.tail_lt, ?_⟩
  simp only [contents]
  rw [Ring.contents_push s.buf byte h.head_lt h.tail_lt hnf, h.log, contents, List.append_assoc]

theorem IntqState.Fifo.loop (h : s.Fifo) (t : ℕ) (op : IntqOp) : (Intq.intqLoop s t op).Fifo := by
  cases op with
  | getc =>
    rw [Intq.intqLoop]
    split
    · exact h.of_ringView (ringView_lockAcquire _ _)
    · next hne => exact (h.take (Bool.eq_false_iff.mpr hne)).of_ringView (ringView_setPc _ _ _)
  | putc byte =>
    rw [Intq.intqLoop]
    split
    · exact h.of_ringView (ringView_lockAcquire _ _)
    · next hnf => exact (h.store (Bool.eq_false_iff.mpr hnf) byte).of_ringView (ringView_setPc _ _ _)

theorem IntqState.Fifo.resume (h : s.Fifo) (t : ℕ) : (Intq.intqResume s t).Fifo := by
  unfold Intq.intqResume
  split
  · split
    · exact h.of_ringView rfl
    · exact h.of_ringView (ringView_wait _ _ _ _)
  · exact h.of_ringView (ringView_lockRelease _ _)
  · exact h.loop t _
  · exact h

theorem fifo_invariant : intqSystem.Invariant IntqState.Fifo where
  init := ⟨by decide, by decide, rfl⟩
  step s a h ha := by
    cases a with
    | call t op => exact h.loop t op
    | run t => exact h.resume t
    | irq op =>
      cases op with
      | getc => exact h.take ha.2
      | putc byte => exact h.store ha.2 byte

/-- In every run the bytes put are the bytes got followed by the bytes queued, in order, none
lost or repeated, and the queue holds at most `INTQ_BUFSIZE - 1` bytes. -/
theorem intq_fifo {s : IntqState} (hs : intqSystem.Reachable s) :
    s.putLog = s.getLog ++ s.contents ∧ s.contents.length ≤ intqBufsize - 1 := by
  have h := fifo_invariant.holds hs
  refine ⟨h.log, ?_⟩
  rw [contents, Ring.length_contents]
  have := Ring.count_lt h.head_lt h.tail_lt
  omega

/-- Interrupts put 7 and 8, and a thread gets 7: 8 is left in the queue. -/
theorem intq_fifo_put_put_get :
    ∃ s, intqSystem.Reachable s ∧ s.putLog = [7, 8] ∧ s.getLog = [7] ∧
      s.putLog = s.getLog ++ s.contents ∧ s.contents.length ≤ intqBufsize - 1 := by
  obtain ⟨s, hs, hput, hget⟩ : ∃ s, intqSystem.Reachable s ∧ s.putLog = [7, 8] ∧ s.getLog = [7] :=
    Transition.System.exists_reachable_of_replay [.irq (.putc 7), .irq (.putc 8), .call 1 .getc]
      (by decide)
  exact ⟨s, hs, hput, hget, intq_fifo hs⟩

end Fifo

/-- Two threads read the empty queue: the first waits holding the lock, the second blocks on
the lock. An interrupt puts 7 and wakes the first, which releases the lock, waking the second,
and takes 7. Another interrupt puts 8, and the second thread, holding the lock now, calls
`wait`. -/
def waitWithByte : List IntqAct :=
  [.call 1 .getc, .call 2 .getc, .irq (.putc 7), .run 1, .run 1, .irq (.putc 8), .run 2]

/-- `wait`'s assertion that the queue is empty fails: the kernel panics with 8 put and never
got. -/
theorem intq_wait_assert_fails :
    ∃ s, intqSystem.Reachable s ∧ s.panicked = true ∧ s.putLog = [7, 8] ∧ s.getLog = [7] :=
  Transition.System.exists_reachable_of_replay waitWithByte (by decide)

end Pintos
