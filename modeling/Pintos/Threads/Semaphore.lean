import Pintos.Threads.Wf
import Mathlib.Data.Finset.Card

/-! # Semaphores: counting, and no lost wake-up

Every semaphore, free-standing or a lock's, under `sema_down`, `sema_try_down`
and `sema_up` from threads and from interrupt handlers. A thread that blocks
in the `sema_down` loop keeps the loop's resume point until it tests the value
again, and only `sema_up` takes it off the waiters, so the threads at that
point that are not blocked are those woken and not yet back (`woken`). While
threads wait, the value is at most their number: no unit is left with nobody
on the way to take it. With counters of the completed downs and ups carried
beside the run, the value plus the downs is the initial value plus the ups.
-/

namespace Pintos

open KState

/-- The thread was woken from `r`'s waiters and has not tested the value again. -/
def Thread.WokenOn (r : SemaRef) (th : Thread) : Prop :=
  th.resume.waitsOn = some r ∧ th.status ≠ .blocked

instance (r : SemaRef) (th : Thread) : Decidable (th.WokenOn r) :=
  inferInstanceAs (Decidable (_ ∧ _))

def woken (s : KState) (r : SemaRef) : Finset Tid :=
  (Finset.range s.nextTid).filter fun t => (s.threads t).WokenOn r

/-- While threads wait on `r`, its value is at most the number of woken threads. -/
def SemaInv (r : SemaRef) (s : KState) : Prop :=
  (s.sema r).waiters ≠ [] → (s.sema r).value ≤ (woken s r).card

theorem mem_woken {s : KState} {r : SemaRef} {t : Tid} :
    t ∈ woken s r ↔ t < s.nextTid ∧ (s.threads t).WokenOn r := by
  simp [woken]

/-- A step that leaves semaphore `r` alone and blocks none of its woken threads. -/
structure SemaFrame (r : SemaRef) (s s' : KState) : Prop where
  sema : s'.sema r = s.sema r
  nextTid : s.nextTid ≤ s'.nextTid
  woken : ∀ t < s.nextTid, (s.threads t).WokenOn r → (s'.threads t).WokenOn r

namespace SemaFrame

variable {r : SemaRef} {s s₁ s₂ : KState} {t : Tid}

theorem refl (s : KState) : SemaFrame r s s := ⟨rfl, le_rfl, fun _ _ h => h⟩

theorem trans (h₁ : SemaFrame r s s₁) (h₂ : SemaFrame r s₁ s₂) : SemaFrame r s s₂ :=
  ⟨h₂.sema.trans h₁.sema, h₁.nextTid.trans h₂.nextTid,
    fun t ht hw => h₂.woken t (lt_of_lt_of_le ht h₁.nextTid) (h₁.woken t ht hw)⟩

theorem woken_subset (h : SemaFrame r s s₁) : Pintos.woken s r ⊆ Pintos.woken s₁ r :=
  fun t ht => by
    rw [mem_woken] at ht ⊢
    exact ⟨lt_of_lt_of_le ht.1 h.nextTid, h.woken t ht.1 ht.2⟩

theorem semaInv (h : SemaFrame r s s₁) (hi : SemaInv r s) : SemaInv r s₁ := fun hw => by
  rw [h.sema] at hw ⊢
  exact (hi hw).trans (Finset.card_le_card h.woken_subset)

theorem of_sameSched (h : SameSched s s₁) : SemaFrame r s s₁ :=
  ⟨h.sema r, h.nextTid.ge, fun t _ hw => by rwa [Thread.WokenOn, h.status, h.resume]⟩

/-- A change in fields that neither the semaphores nor the woken threads read. -/
theorem of_fields (hth : s₁.threads = s.threads) (hl : s₁.locks = s.locks)
    (hs : s₁.semas = s.semas) (hn : s₁.nextTid = s.nextTid) : SemaFrame r s s₁ :=
  ⟨sema_congr hl hs, hn.ge, fun _ _ hw => hth ▸ hw⟩

theorem modifyThread {f : Thread → Thread}
    (hf : (s.threads t).WokenOn r → (f (s.threads t)).WokenOn r) :
    SemaFrame r s (s.modifyThread t f) :=
  ⟨by simp, le_rfl, fun u _ hw => by
    rw [threads_modifyThread]
    split
    · next he => subst he; exact hf hw
    · exact hw⟩

/-- Only blocking a thread can take it out of the woken ones. -/
theorem setStatus (st : ThreadStatus) (hst : st ≠ .blocked) :
    SemaFrame r s (s.setStatus t st) :=
  modifyThread fun hw => ⟨hw.1, hst⟩

/-- Any change to a thread that is not woken. -/
theorem modify_not_woken {f : Thread → Thread} (hn : ¬ (s.threads t).WokenOn r) :
    SemaFrame r s (s.modifyThread t f) :=
  modifyThread fun hw => absurd hw hn

theorem setSema_ne {r' : SemaRef} (hr : r' ≠ r) (m : Semaphore) :
    SemaFrame r s (s.setSema r' m) :=
  ⟨by rw [sema_setSema, if_neg (Ne.symm hr)], by simp, fun _ _ hw => by simpa using hw⟩

theorem schedule (s : KState) : SemaFrame r s (schedule s) := by
  unfold Pintos.schedule nextThreadToRun
  split <;> dsimp only <;>
    refine (of_fields ?_ ?_ ?_ ?_).trans (setStatus .running (by decide)) <;> rfl

theorem threadUnblock (intr : Bool) (s : KState) (t : Tid) :
    SemaFrame r s (threadUnblock intr s t) := by
  unfold Pintos.threadUnblock
  dsimp only
  generalize hs₁ : (({ s with readyList := _ } : KState).setStatus t .ready) = s₁
  have h : SemaFrame r s s₁ := by
    subst hs₁
    refine (of_fields ?_ ?_ ?_ ?_).trans (setStatus .ready (by decide)) <;> rfl
  split
  · split
    · exact h.trans (of_sameSched (.yieldOnReturn true))
    · exact h
  · exact h

theorem threadYield (s : KState) : SemaFrame r s (threadYield s) := by
  unfold Pintos.threadYield
  dsimp only
  generalize hs₁ : (if s.current ≠ s.idleThread then _ else s : KState) = s₁
  have h₁ : SemaFrame r s s₁ := by
    subst hs₁
    split
    · exact of_fields rfl rfl rfl rfl
    · exact refl s
  exact (h₁.trans (setStatus .ready (by decide))).trans (schedule _)

theorem tryThreadYield (s : KState) : SemaFrame r s (tryThreadYield s) := by
  unfold Pintos.tryThreadYield
  split
  · split
    · exact threadYield s
    · exact refl s
  · exact refl s

/-- `thread_block` of a running thread that is not one of `r`'s woken threads. -/
theorem threadBlock (hn : ¬ (s.threads s.current).WokenOn r) : SemaFrame r s (threadBlock s) :=
  (modify_not_woken hn).trans (schedule _)

/-- A dying thread is not blocked, so even a woken thread could exit. -/
theorem threadExit (s : KState) : SemaFrame r s (threadExit s) := by
  unfold Pintos.threadExit
  refine ((of_fields ?_ ?_ ?_ ?_).trans (setStatus .dying (by decide))).trans (schedule _) <;> rfl

theorem wakeSleepers (l : List Tid) (s : KState) : SemaFrame r s (wakeSleepers s l) := by
  induction l generalizing s with
  | nil => exact of_fields rfl rfl rfl rfl
  | cons t rest ih =>
    unfold Pintos.wakeSleepers
    split
    · refine ((of_fields ?_ ?_ ?_ ?_).trans (threadUnblock true _ t)).trans (ih _) <;> rfl
    · exact of_fields rfl rfl rfl rfl

theorem timerInterrupt (hc : (s.threads s.current).status ≠ .ready) :
    SemaFrame r s (timerInterrupt s) := by
  unfold Pintos.timerInterrupt
  dsimp only
  have h₁ : SemaFrame r s (threadTick { s with ticks := s.ticks + 1 }) := by
    refine (of_fields ?_ ?_ ?_ ?_).trans (of_sameSched (sameSched_threadTick _ hc)) <;> rfl
  generalize threadTick { s with ticks := s.ticks + 1 } = s₁ at h₁
  generalize hs₂ : (if s₁.nextWakeupTick ≤ s₁.ticks then _ else s₁ : KState) = s₂
  have h₂ : SemaFrame r s s₂ := by
    subst hs₂
    split
    · -- the due sleepers woken, and the earliest tick of those left recorded
      have h' := h₁.trans (wakeSleepers s₁.sleepingList s₁)
      split <;> refine h'.trans (of_fields ?_ ?_ ?_ ?_) <;> rfl
    · exact h₁
  split
  · exact h₂.trans (of_sameSched ((sameSched_mlfqsUpdateLoadAvgAndRecentCpuAll _).trans
      (sameSched_mlfqsRecomputePriorityAll _)))
  · exact h₂

/-- A new thread is none of the woken ones, which all lie below `next_tid`. -/
theorem threadCreate (s : KState) (p : ℤ) : SemaFrame r s (threadCreate s p) := by
  unfold Pintos.threadCreate
  dsimp only
  generalize Thread.mk .blocked _ _ _ _ _ _ _ .none = th
  generalize hs₁ : ({ s with threads := Function.update s.threads s.nextTid th,
                             allList := s.allList ++ [s.nextTid], nextTid := s.nextTid + 1 } :
    KState) = s₁
  have h₁ : SemaFrame r s s₁ := by
    subst hs₁
    exact ⟨sema_congr rfl rfl, Nat.le_succ _,
      fun u hu hw => by dsimp only; rwa [Function.update_of_ne (Nat.ne_of_lt hu)]⟩
  generalize hs₂ : (if s.threadMlfqs then _ else _ : KState) = s₂
  have h₂ : SemaFrame r s s₂ := by
    subst hs₂
    split
    · exact h₁.trans (of_sameSched (.setPriority _ _))
    · exact h₁
  have h₃ := h₂.trans (threadUnblock false s₂ s.nextTid)
  split
  · exact h₃.trans (threadYield _)
  · exact h₃

/-- `thread_sleep` by a thread that is not one of `r`'s woken threads. -/
theorem threadSleep (w : ℤ) (hn : ¬ (s.threads s.current).WokenOn r) :
    SemaFrame r s (threadSleep s w) := by
  unfold Pintos.threadSleep
  dsimp only
  split
  · exact refl s
  · have h₁ : SemaFrame r s (s.modifyThread s.current ({ · with wakeupTick := w })) :=
      modify_not_woken hn
    split <;>
      refine ((h₁.trans (of_fields ?_ ?_ ?_ ?_)).trans
        (modify_not_woken (by simpa [Thread.WokenOn] using hn))).trans (schedule _) <;> rfl

theorem lockAcquire (key : Tid → ℤ) (l : LockId) (hn : ¬ (s.threads s.current).WokenOn r) :
    SemaFrame r s (lockAcquire key s l) := by
  obtain ⟨s₁, hss, he⟩ := exists_sameSched_lockAcquire key s l
  rw [he]
  exact (of_sameSched hss).trans
    (modify_not_woken (by rwa [Thread.WokenOn, hss.current, hss.status, hss.resume]))

theorem lockAcquireFinish (l : LockId) (hn : ¬ (s.threads s.current).WokenOn r) :
    SemaFrame r s (lockAcquireFinish s l) := by
  unfold Pintos.lockAcquireFinish
  dsimp only
  have hss : SameSched s ((s.setHolder l (some s.current)).modifyThread s.current
      ({ · with waitingOn := none })) :=
    (SameSched.setHolder l (some s.current)).trans
      (.modifyThread (fun _ => by exact ⟨rfl, rfl, rfl⟩) s.current)
  exact (of_sameSched hss).trans
    (modify_not_woken (by rwa [Thread.WokenOn, hss.status, hss.resume]))

end SemaFrame

section Steps

variable {r : SemaRef} {s s₁ s₂ : KState} {d u : ℕ}

/-- The semaphore whose unit a test of `r`'s value takes: `r`, unless the value is zero. -/
def KState.takes (s : KState) (r : SemaRef) : Option SemaRef :=
  if (s.sema r).value = 0 then Option.none else some r

/-- One if the step's semaphore is `r`. -/
def hits (o : Option SemaRef) (r : SemaRef) : ℕ := if o = some r then 1 else 0

theorem hits_of_eq {o : Option SemaRef} (h : o = some r) : hits o r = 1 := if_pos h

theorem hits_of_ne {o : Option SemaRef} (h : o ≠ some r) : hits o r = 0 := if_neg h

theorem takes_eq_some {r' : SemaRef} : s.takes r' = some r ↔ r' = r ∧ (s.sema r).value ≠ 0 := by
  unfold KState.takes
  split <;> simp_all [eq_comm]

/-- What a step does to semaphore `r`: the value it leaves plus the downs it completes is the
value it found plus its ups, and it keeps `SemaInv r`. -/
structure SemaStep (r : SemaRef) (s s' : KState) (downs ups : ℕ) : Prop where
  value : (s'.sema r).value + downs = (s.sema r).value + ups
  inv : SemaInv r s → SemaInv r s'

theorem SemaFrame.semaStep (h : SemaFrame r s s₁) : SemaStep r s s₁ 0 0 :=
  ⟨by rw [h.sema], h.semaInv⟩

theorem SemaStep.frame (h : SemaStep r s s₁ d u) (h' : SemaFrame r s₁ s₂) : SemaStep r s s₂ d u :=
  ⟨by rw [h'.sema]; exact h.value, fun hi => h'.semaInv (h.inv hi)⟩

theorem SemaFrame.step (h : SemaFrame r s s₁) (h' : SemaStep r s₁ s₂ d u) : SemaStep r s s₂ d u :=
  ⟨by rw [← h.sema]; exact h'.value, fun hi => h'.inv (h.semaInv hi)⟩

@[simp] theorem woken_setSema (r' : SemaRef) (m : Semaphore) : woken (s.setSema r' m) r = woken s r := by
  simp [woken]

/-- Changing one thread's record takes at most that thread out of the woken ones. -/
theorem card_woken_le_modifyThread (t : Tid) (f : Thread → Thread) :
    (woken s r).card ≤ (woken (s.modifyThread t f) r).card + 1 := by
  have hsub : woken s r ⊆ insert t (woken (s.modifyThread t f) r) := by
    intro u hu
    rw [Finset.mem_insert]
    by_cases he : u = t
    · exact Or.inl he
    · rw [mem_woken] at hu
      exact Or.inr (mem_woken.2 (by simpa [he] using hu))
  exact (Finset.card_le_card hsub).trans (Finset.card_insert_le _ _)

theorem semaStep_semaTryDown (s : KState) (r' : SemaRef) :
    SemaStep r s (semaTryDown s r').2 (hits (s.takes r') r) 0 := by
  unfold Pintos.semaTryDown
  dsimp only
  split
  · next hv =>
    by_cases hr : r' = r
    · -- the unit taken: one down, and the woken threads are those there were
      subst hr
      rw [hits_of_eq (takes_eq_some.2 ⟨rfl, Nat.pos_iff_ne_zero.1 hv⟩)]
      refine ⟨by simp; omega, fun hi hw => ?_⟩
      simp only [sema_setSema, if_true, woken_setSema] at hw ⊢
      exact (Nat.sub_le _ _).trans (hi hw)
    · rw [hits_of_ne fun h => hr (takes_eq_some.1 h).1]
      exact (SemaFrame.setSema_ne hr _).semaStep
  · next hv =>
    rw [hits_of_ne fun h => (takes_eq_some.1 h).2 (by rw [← (takes_eq_some.1 h).1]; omega)]
    exact (SemaFrame.refl s).semaStep

/-- One test of the `sema_down` loop on `r'`, by a thread that is woken from `r` only
if it is `r` it tests. -/
theorem semaStep_semaDown {r' : SemaRef} {wait after : Resume}
    (hc : (s.threads s.current).WokenOn r → r' = r) (hw : wait.waitsOn = some r') :
    SemaStep r s (semaDown s r' wait after) (hits (s.takes r') r) 0 := by
  unfold Pintos.semaDown
  dsimp only
  by_cases hr : r' = r
  · subst hr
    split
    · next hv =>
      -- the thread blocks, and the value stays zero
      rw [hits_of_ne fun h => (takes_eq_some.1 h).2 hv]
      generalize hX : (s.setSema r' _).setResume s.current wait = X
      have hs : (Pintos.threadBlock X).sema r' = X.sema r' :=
        ((SemaFrame.schedule (r := r') _).sema).trans (by simp [KState.setStatus])
      have hv' : (X.sema r').value = 0 := by rw [← hX]; simpa [KState.setResume] using hv
      exact ⟨by rw [hs, hv', hv], fun _ _ => by rw [hs, hv']; exact Nat.zero_le _⟩
    · next hv =>
      -- the unit taken; only the thread itself may leave the woken ones
      rw [hits_of_eq (takes_eq_some.2 ⟨rfl, hv⟩)]
      refine ⟨by simp [KState.setResume]; omega, fun hi hw' => ?_⟩
      simp only [KState.setResume, sema_modifyThread, sema_setSema, if_true] at hw' ⊢
      have h₁ := hi hw'
      have h₂ := card_woken_le_modifyThread (r := r')
        (s := s.setSema r' { s.sema r' with value := (s.sema r').value - 1 }) s.current
        ({ · with resume := after })
      rw [woken_setSema] at h₂
      dsimp only at h₂
      omega
  · rw [hits_of_ne fun h => hr (takes_eq_some.1 h).1]
    have hn : ¬ (s.threads s.current).WokenOn r := fun h => hr (hc h)
    split
    · -- it blocks at `wait`, which belongs to `r'`
      refine (((SemaFrame.setSema_ne hr _).trans (SemaFrame.modify_not_woken (by simpa using hn))).trans
        (SemaFrame.threadBlock ?_)).semaStep
      simp [Thread.WokenOn, hw, hr]
    · exact ((SemaFrame.setSema_ne hr _).trans
        (SemaFrame.modify_not_woken (by simpa using hn))).semaStep

/-- `sema_up` on `r` wakes a waiter, which joins the woken threads as the value goes up. -/
theorem semaStep_semaUp (h : Wf s) (intr : Bool) (r' : SemaRef) :
    SemaStep r s (semaUp intr s r') 0 (hits (some r') r) := by
  unfold Pintos.semaUp
  dsimp only
  by_cases hr : r' = r
  · subst hr
    rw [hits_of_eq rfl]
    split
    · next he =>
      refine ⟨by simp, fun _ hw => ?_⟩
      simp [he] at hw
    next he =>
    have hp := @listSort_perm _ (threadPriorityComparison s) (s.sema r').waiters
    split
    · next hsort =>
      rw [hsort] at hp
      exact absurd hp.symm.eq_nil he
    next t rest hsort =>
    rw [hsort] at hp
    obtain ⟨hb, hwr⟩ := h.waiters r' t (hp.subset List.mem_cons_self)
    generalize hs₁ : Pintos.threadUnblock intr (s.setSema r' { s.sema r' with waiters := rest }) t = s₁
    have hf : SemaFrame r' (s.setSema r' { s.sema r' with waiters := rest }) s₁ :=
      hs₁ ▸ SemaFrame.threadUnblock intr _ t
    -- the woken waiter is new among the woken threads
    have ht : t ∈ woken s₁ r' := by
      refine mem_woken.2 ⟨lt_of_lt_of_le (h.waitersFresh r' t (hp.subset List.mem_cons_self))
        (by simpa using hf.nextTid), ?_⟩
      rw [← hs₁, threads_threadUnblock]
      simp [KState.setStatus, Thread.WokenOn, hwr]
    have hn : t ∉ woken s r' := fun hm => (mem_woken.1 hm).2.2 hb
    have hcard : (woken s r').card + 1 ≤ (woken s₁ r').card := by
      rw [← Finset.card_insert_of_notMem hn]
      refine Finset.card_le_card (Finset.insert_subset ht ?_)
      simpa using hf.woken_subset
    have h₂ : SemaStep r' s (s₁.setSema r' { s₁.sema r' with value := (s.sema r').value + 1 }) 0 1 := by
      refine ⟨by simp, fun hi hw => ?_⟩
      simp only [sema_setSema, if_true, woken_setSema] at hw ⊢
      have := hi he
      omega
    split
    · exact h₂.frame (SemaFrame.threadYield _)
    · exact h₂
  · rw [hits_of_ne (by simpa using hr)]
    split
    · exact (SemaFrame.setSema_ne hr _).semaStep
    split
    · exact (SemaFrame.setSema_ne hr _).semaStep
    · next t rest _ =>
      generalize hs₁ : Pintos.threadUnblock intr (s.setSema r' { s.sema r' with waiters := rest }) t = s₁
      have h₁ : SemaFrame r s (s₁.setSema r' { s₁.sema r' with value := (s.sema r').value + 1 }) :=
        ((SemaFrame.setSema_ne hr _).trans (hs₁ ▸ SemaFrame.threadUnblock intr _ t)).trans
          (SemaFrame.setSema_ne hr _)
      split
      · exact (h₁.trans (SemaFrame.threadYield _)).semaStep
      · exact h₁.semaStep

theorem semaStep_intrHandler {handler : KState → KState}
    (hh : SemaStep r { s with yieldOnReturn := false } (handler { s with yieldOnReturn := false }) d u) :
    SemaStep r s (intrHandler handler s) d u := by
  unfold Pintos.intrHandler
  dsimp only
  have h₁ := (SemaFrame.of_sameSched (.yieldOnReturn false)).step hh
  split
  · exact h₁.frame (SemaFrame.threadYield _)
  · exact h₁

theorem semaStep_lockTryAcquire (s : KState) (l : LockId) :
    SemaStep r s (lockTryAcquire s l).2 (hits (s.takes (.lock l)) r) 0 := by
  unfold Pintos.lockTryAcquire
  dsimp only
  split
  · exact (semaStep_semaTryDown s (.lock l)).frame (SemaFrame.of_sameSched (.setHolder _ _))
  · exact semaStep_semaTryDown s (.lock l)

theorem semaStep_lockRelease (key : Tid → ℤ) (h : Wf s) (l : LockId) :
    SemaStep r s (lockRelease key s l) 0 (hits (some (.lock l)) r) := by
  unfold Pintos.lockRelease
  have hss := (sameSched_removePriority key s l).trans (.setHolder l none)
  exact (SemaFrame.of_sameSched hss).step (semaStep_semaUp (h.of_sameSched hss) false _)

/-- The semaphore whose value a resume point tests when its thread goes on: that of
`lock_acquire`'s `sema_down`, or of a plain `sema_down` loop. -/
def Resume.testsOn : Resume → Option SemaRef
  | .lockAcquire l | .lockWait l => some (.lock l)
  | .semaWait n => some (.plain n)
  | _ => Option.none

/-- The semaphore whose unit a step takes, if it takes one. -/
def downOn (s : KState) : Call → Option SemaRef
  | .semaDown n | .semaTryDown n => s.takes (.plain n)
  | .lockTryAcquire l => s.takes (.lock l)
  | .resume => (s.threads s.current).resume.testsOn.bind s.takes
  | _ => Option.none

/-- The semaphore a step ups, if it ups one. -/
def upOn : Call → Option SemaRef
  | .semaUp n | .intrSemaUp n => some (.plain n)
  | .lockRelease l => some (.lock l)
  | _ => Option.none

theorem not_wokenOn_of_waitsOn {th : Thread} (h : th.resume.waitsOn = Option.none) :
    ¬ th.WokenOn r :=
  fun hw => by rw [Thread.WokenOn, h] at hw; cases hw.1

/-- A running thread is woken from `r` only if its resume point is `r`'s loop. -/
theorem eq_of_wokenOn {th : Thread} {r' : SemaRef} (h : th.resume.waitsOn = some r')
    (hw : th.WokenOn r) : r' = r := by
  rw [Thread.WokenOn, h] at hw
  exact Option.some.inj hw.1

theorem semaStep_resumeCall :
    SemaStep r s (resumeCall s)
      (hits ((s.threads s.current).resume.testsOn.bind s.takes) r) 0 := by
  unfold Pintos.resumeCall
  split
  · next hres =>
    rw [hres]
    exact (SemaFrame.refl s).semaStep
  · next l hres =>
    rw [hres]
    exact semaStep_semaDown (fun hw => absurd hw (not_wokenOn_of_waitsOn (by rw [hres]; rfl))) rfl
  · next l hres =>
    rw [hres]
    exact semaStep_semaDown (eq_of_wokenOn (by rw [hres]; rfl)) rfl
  · next l hres =>
    rw [hres]
    exact (SemaFrame.lockAcquireFinish l (not_wokenOn_of_waitsOn (by rw [hres]; rfl))).semaStep
  · next n hres =>
    rw [hres]
    exact semaStep_semaDown (eq_of_wokenOn (by rw [hres]; rfl)) rfl
  · next w hres =>
    rw [hres]
    -- the sleeping thread's resume point is reset before it sleeps
    exact ((SemaFrame.modify_not_woken (not_wokenOn_of_waitsOn (by rw [hres]; rfl))).trans
      (SemaFrame.threadSleep w (not_wokenOn_of_waitsOn (by simp; rfl)))).semaStep

/-- Every enabled step moves each semaphore's value by its ups less its downs, and keeps
`SemaInv`. -/
theorem semaStep_step (key : Tid → ℤ) (h : Wf s) {c : Call} (he : Enabled s c) (r : SemaRef) :
    SemaStep r s (step key s c) (hits (downOn s c) r) (hits (upOn c) r) := by
  -- a thread between calls resumes nowhere, so it is none of the woken threads
  have hidle : s.Idle → ¬ (s.threads s.current).WokenOn r :=
    fun hi => not_wokenOn_of_waitsOn (by rw [hi.2]; rfl)
  have hc : (s.threads s.current).status ≠ .ready := by rw [h.running]; decide
  cases c with
  | lockAcquire l => exact (SemaFrame.lockAcquire key l (hidle he.1)).semaStep
  | lockTryAcquire l => exact semaStep_lockTryAcquire s l
  | lockRelease l => exact semaStep_lockRelease key h l
  | semaDown n => exact semaStep_semaDown (fun hw => absurd hw (hidle he)) rfl
  | semaTryDown n => exact semaStep_semaTryDown s _
  | semaUp n => exact semaStep_semaUp h false _
  | threadCreate p => exact (SemaFrame.threadCreate s p).semaStep
  | threadExit => exact (SemaFrame.threadExit s).semaStep
  | threadYield => exact (SemaFrame.threadYield s).semaStep
  | threadSetPriority p =>
    show SemaStep r s (threadSetPriority key s p) _ _
    unfold Pintos.threadSetPriority
    split
    · exact (SemaFrame.refl s).semaStep
    · exact ((SemaFrame.of_sameSched ((SameSched.modifyThread (f := ({ · with basePriority := p }))
        (fun _ => by exact ⟨rfl, rfl, rfl⟩) _).trans (sameSched_updatePriority key _ _))).trans
        (SemaFrame.tryThreadYield _)).semaStep
  | threadSetNice n =>
    show SemaStep r s (threadSetNice s n) _ _
    unfold Pintos.threadSetNice
    dsimp only
    have hss : SameSched s (s.modifyThread s.current ({ · with nice := n })) :=
      .modifyThread (fun _ => by exact ⟨rfl, rfl, rfl⟩) _
    exact ((SemaFrame.of_sameSched (hss.trans (sameSched_threadUpdatePriorityMlfqs _ _
      (by rwa [hss.status])))).trans (SemaFrame.tryThreadYield _)).semaStep
  | timerSleep t =>
    show SemaStep r s (timerSleep s t) _ _
    unfold Pintos.timerSleep
    split
    · exact (SemaFrame.refl s).semaStep
    · exact (SemaFrame.modify_not_woken (hidle he)).semaStep
  | resume => exact semaStep_resumeCall
  | timer =>
    refine semaStep_intrHandler ?_
    exact (SemaFrame.timerInterrupt (s := { s with yieldOnReturn := false }) hc).semaStep
  | intrSemaUp n =>
    show SemaStep r s (intrHandler (semaUp true · (.plain n)) s) _ _
    refine semaStep_intrHandler ?_
    exact semaStep_semaUp (h.of_sameSched (.yieldOnReturn false)) true _
  | idle =>
    have hi : s.current = s.idleThread := he
    exact (SemaFrame.threadBlock (not_wokenOn_of_waitsOn (by rw [hi, h.idle]; rfl))).semaStep

end Steps

section Tally

/-- Counts of the completed downs and ups of each semaphore. -/
structure SemaTally where
  downs : SemaRef → ℕ
  ups : SemaRef → ℕ

/-- The tally after a step from `s`. -/
def SemaTally.record (k : SemaTally) (s : KState) (c : Call) : SemaTally where
  downs r := k.downs r + hits (downOn s c) r
  ups r := k.ups r + hits (upOn c) r

/-- The thread system with each semaphore's tally carried along its runs. -/
def tallySystem (key : Tid → ℤ) (mlfqs : Bool) (semaInit : ℕ → ℕ) :
    Transition.System (KState × SemaTally) Call :=
  (threadSystem key mlfqs semaInit).withGhost ⟨fun _ => 0, fun _ => 0⟩ fun s c k => k.record s c

/-- Along a counted run from `s₀`: the state is well formed, and each semaphore keeps
`SemaInv` and the balance of its value, downs and ups. -/
def TallyInv (s₀ : KState) (p : KState × SemaTally) : Prop :=
  Wf p.1 ∧ ∀ r, SemaInv r p.1 ∧ (p.1.sema r).value + p.2.downs r = (s₀.sema r).value + p.2.ups r

theorem tallyInv_invariant (key : Tid → ℤ) (mlfqs : Bool) (semaInit : ℕ → ℕ) :
    (tallySystem key mlfqs semaInit).Invariant (TallyInv (initState mlfqs semaInit)) where
  init := ⟨wf_initState mlfqs semaInit,
    fun r => ⟨fun hw => by cases r <;> simp [tallySystem, Transition.System.withGhost, threadSystem,
      initState, KState.sema] at hw, rfl⟩⟩
  step := by
    rintro ⟨s, k⟩ c ⟨hw, hr⟩ he
    have he' : Enabled s c := he
    refine ⟨hw.step key he', fun r => ?_⟩
    have hs := semaStep_step key hw he' r
    obtain ⟨hi, hv⟩ := hr r
    refine ⟨hs.inv hi, ?_⟩
    -- the tally moves by the step's downs and ups, the value by its ups less its downs
    have h₁ := hs.value
    dsimp only at h₁ hv
    show ((step key s c).sema r).value + (k.downs r + hits (downOn s c) r) =
      _ + (k.ups r + hits (upOn c) r)
    omega

/-- Along every run, for every semaphore, free-standing or a lock's: the downs completed are at
most its initial value plus the ups completed; and while threads wait on it with units left, at
least as many threads as there are units have been woken by `sema_up` and have not yet tested
the value again. -/
theorem semaphore_downs_and_wakeups (key : Tid → ℤ) (mlfqs : Bool) (semaInit : ℕ → ℕ)
    {p : KState × SemaTally} (hp : (tallySystem key mlfqs semaInit).Reachable p) (r : SemaRef) :
    p.2.downs r ≤ ((initState mlfqs semaInit).sema r).value + p.2.ups r ∧
      ((p.1.sema r).waiters ≠ [] → 0 < (p.1.sema r).value →
        (p.1.sema r).value ≤ (woken p.1 r).card) := by
  obtain ⟨-, hr⟩ := (tallyInv_invariant key mlfqs semaInit).holds hp
  obtain ⟨hi, hv⟩ := hr r
  exact ⟨by omega, fun hw _ => hi hw⟩

/-- `main` creates threads 3 and 4; `main` and 3 block in `sema_down` on semaphore 0, and 4's
`sema_up` wakes `main`, which has not yet tested the value again. -/
def upWithWaiter : List Call :=
  [.threadCreate 31, .threadCreate 31, .semaDown 0, .semaDown 0, .semaUp 0]

theorem semaphore_downs_and_wakeups_woken :
    ∃ p : KState × SemaTally, (tallySystem (fun _ => 0) false (fun _ => 0)).Reachable p ∧
      (p.1.sema (.plain 0)).waiters = [3] ∧ (p.1.sema (.plain 0)).value = 1 ∧
      p.2.downs (.plain 0) ≤ ((initState false (fun _ => 0)).sema (.plain 0)).value +
        p.2.ups (.plain 0) ∧
      ((p.1.sema (.plain 0)).waiters ≠ [] → 0 < (p.1.sema (.plain 0)).value →
        (p.1.sema (.plain 0)).value ≤ (woken p.1 (.plain 0)).card) := by
  obtain ⟨s, hs, hw, hv⟩ :=
    Transition.System.exists_reachable_of_replay (S := threadSystem (fun _ => 0) false (fun _ => 0))
      (P := fun s => (s.sema (.plain 0)).waiters = [3] ∧ (s.sema (.plain 0)).value = 1)
      upWithWaiter (by decide)
  obtain ⟨k, hk⟩ : ∃ k, (tallySystem (fun _ => 0) false (fun _ => 0)).Reachable (s, k) :=
    hs.exists_ghost
  exact ⟨(s, k), hk, hw, hv, semaphore_downs_and_wakeups (fun _ => 0) false (fun _ => 0) hk (.plain 0)⟩

end Tally

end Pintos
