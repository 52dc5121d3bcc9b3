import Pintos.Threads.Thread

/-! # The timer interrupt and the alarm clock

`devices/timer.c`: `timer_sleep` puts the running thread on the sleeping
list until an absolute tick, and `timer_interrupt` counts the tick, runs
`thread_tick`, wakes the sleepers whose tick has come and, under MLFQS, runs
the per-second update. `intr_handler` clears `yield_on_return` on entry to an
external interrupt and yields on its return if the flag was set meanwhile.
-/

namespace Pintos

open KState

/-- The wake-up loop of `timer_interrupt`: unblock sleepers from the front while their
tick has come. -/
def wakeSleepers (s : KState) : List Tid → KState
  | [] => { s with sleepingList := [] }
  | t :: rest =>
    if (s.threads t).wakeupTick ≤ s.ticks then
      wakeSleepers (threadUnblock true { s with sleepingList := rest } t) rest
    else { s with sleepingList := t :: rest }

def timerInterrupt (s : KState) : KState :=
  let s₁ := threadTick { s with ticks := s.ticks + 1 }
  let s₂ : KState := if s₁.nextWakeupTick ≤ s₁.ticks then
      let s' := wakeSleepers s₁ s₁.sleepingList
      match s'.sleepingList with
      | t :: _ => { s' with nextWakeupTick := (s'.threads t).wakeupTick }
      | [] => { s' with nextWakeupTick := int64Max }
    else s₁
  if s₂.threadMlfqs ∧ s₂.ticks % timerFreq = 0 then
    mlfqsRecomputePriorityAll (mlfqsUpdateLoadAvgAndRecentCpuAll s₂)
  else s₂

/-- `intr_handler` around an external interrupt's handler: `yield_on_return` is cleared on
entry, and the interrupted thread yields on return if the handler set it. -/
def intrHandler (handler : KState → KState) (s : KState) : KState :=
  let s₁ := handler { s with yieldOnReturn := false }
  if s₁.yieldOnReturn then threadYield s₁ else s₁

/-- A timer interrupt taken through `intr_handler`. -/
def timerIrq (s : KState) : KState := intrHandler timerInterrupt s

/-- `timer_sleep` up to its call of `thread_sleep`: the wake-up tick is computed with
interrupts on, so a tick may still come before the thread goes to sleep. -/
def timerSleep (s : KState) (ticks : ℤ) : KState :=
  if ticks ≤ 0 then s else s.setResume s.current (.sleep (s.ticks + ticks))

end Pintos
