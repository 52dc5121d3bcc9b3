import Pintos.Threads.ReadyOrder
import Mathlib.Order.Bounds.Defs

/-! # Priority donation

What donation is for: a thread's effective priority should be the largest of
its base priority and the priorities of the threads blocked waiting for the
locks it holds (`DonationInv`; since the waiters' priorities are themselves
effective ones, nested donation is included).

`donate_priority` does its part at the moment a thread finds a lock held: the
holder ends with at least the donor's priority, and donation never lowers a
priority. But it is the only place donation happens. `remove_priority` takes
every donor waiting on the released lock off the holder's list and clears its
`waiting_on`, although only one of them will get the lock; and a woken waiter
that finds the lock taken again re-blocks in the `sema_down` loop, which
donates nothing. The run `reacquireRace` reaches a state where a thread
blocked on a lock out-ranks the lock's holder.
-/

namespace Pintos

open KState Transition

/-- Thread `w` is blocked in `lock_acquire` on lock `l`. -/
def BlockedOn (s : KState) (w : Tid) (l : LockId) : Prop :=
  (s.threads w).status = .blocked ∧ (s.threads w).resume = .lockWait l

instance (s : KState) (w : Tid) (l : LockId) : Decidable (BlockedOn s w l) :=
  inferInstanceAs (Decidable (_ ∧ _))

/-- Every live thread's priority is the largest of its base priority and the priorities of
the threads blocked on the locks it holds. -/
def DonationInv (s : KState) : Prop :=
  ∀ t ∈ s.allList, IsGreatest {p | p = (s.threads t).basePriority ∨
    ∃ w l, BlockedOn s w l ∧ (s.locks l).holder = some t ∧ p = s.prio w} (s.prio t)

variable {s : KState}

theorem DonationInv.waiter_le (h : DonationInv s) {t w : Tid} {l : LockId}
    (ht : t ∈ s.allList) (hw : BlockedOn s w l) (hl : (s.locks l).holder = some t) :
    s.prio w ≤ s.prio t :=
  (h t ht).2 (Or.inr ⟨w, l, hw, hl, rfl⟩)

section Chain

@[simp] theorem current_donateChain (s : KState) (n : ℕ) (l : LockId) :
    (donateChain s n l).current = s.current := by
  induction n generalizing s l with
  | zero => rfl
  | succ n ih =>
    unfold donateChain
    split
    · rfl
    · split
      · dsimp only
        split
        · exact ih _ _
        · rfl
      · rfl

@[simp] theorem locks_donateChain (s : KState) (n : ℕ) (l : LockId) :
    (donateChain s n l).locks = s.locks := by
  induction n generalizing s l with
  | zero => rfl
  | succ n ih =>
    unfold donateChain
    split
    · rfl
    · split
      · dsimp only
        split
        · exact ih _ _
        · rfl
      · rfl

/-- Donation only raises priorities. -/
theorem le_prio_donateChain (s : KState) (n : ℕ) (l : LockId) (u : Tid) :
    s.prio u ≤ (donateChain s n l).prio u := by
  induction n generalizing s l with
  | zero => exact le_rfl
  | succ n ih =>
    unfold donateChain
    split
    · exact le_rfl
    · next h _ =>
      split
      · next hlt =>
        have hs : s.prio u ≤ (s.setPriority h (s.prio s.current)).prio u := by
          rw [prio_setPriority]
          split
          · next he => rw [he]; exact hlt.le
          · exact le_rfl
        dsimp only
        split
        · exact hs.trans (ih _ _)
        · exact hs
      · exact le_rfl

/-- The holder of the lock asked for ends with at least the donor's priority. -/
theorem holder_le_donateChain (s : KState) (n : ℕ) {l : LockId} {h : Tid}
    (hl : (s.locks l).holder = some h) : s.prio s.current ≤ (donateChain s (n + 1) l).prio h := by
  unfold donateChain
  rw [hl]
  dsimp only
  split
  · have hs : (s.setPriority h (s.prio s.current)).prio h = s.prio s.current := by
      simp [prio_setPriority]
    split
    · exact hs.ge.trans (le_prio_donateChain _ _ _ h)
    · exact hs.ge
  · next hn => exact not_lt.mp hn

end Chain

/-- `donate_priority` raises the holder of the lock to at least the donor's priority. -/
theorem holder_le_donatePriority (key : Tid → ℤ) (hm : s.threadMlfqs = false) {l : LockId}
    {h : Tid} (hl : (s.locks l).holder = some h) :
    s.prio s.current ≤ (donatePriority key s l).prio h := by
  let s₀ := s.modifyThread s.current ({ · with waitingOn := some l })
  have h₀ : s₀.prio s₀.current = s.prio s.current := by simp [s₀, prio]
  have hc := holder_le_donateChain s₀ 19 (l := l) (h := h) (by simpa [s₀] using hl)
  have hl₁ : ((donateChain s₀ 20 l).locks l).holder = some h := by simpa [s₀] using hl
  unfold donatePriority
  simp only [hm, Bool.false_eq_true, if_false]
  rw [hl₁, prio_modifyThread, if_pos rfl, ← h₀]
  exact hc

/-- A waiter re-testing in the `sema_down` loop of `lock_acquire` changes no priority: it
takes the lock or blocks again, donating nothing. -/
theorem prio_lockAcquireDown (s : KState) (l : LockId) (u : Tid) :
    (lockAcquireDown s l).prio u = s.prio u := by
  unfold lockAcquireDown semaDown threadBlock
  dsimp only
  split
  · rw [prio_schedule, prio_setStatus, prio_setResume]
    simp [prio]
  · rw [prio_setResume]
    simp [prio]

/-- The loop of `remove_priority` only clears links to `l`, and only of the donors it sees. -/
theorem waitingOn_removeDonors (l : LockId) (ds : List Tid) (s : KState) {u : Tid}
    (h : ((removeDonors l ds s).2.threads u).waitingOn = some l) :
    u ∉ ds ∧ (s.threads u).waitingOn = some l := by
  induction ds generalizing s with
  | nil => exact ⟨List.not_mem_nil, by simpa [removeDonors] using h⟩
  | cons d ds ih =>
    unfold removeDonors at h
    split at h
    · next hd =>
      obtain ⟨hu, hw⟩ := ih _ h
      have hne : u ≠ d := by rintro rfl; simp at hw
      simp only [threads_modifyThread, if_neg hne] at hw
      exact ⟨by simp [hne, hu], hw⟩
    · next hd =>
      obtain ⟨hu, hw⟩ := ih s h
      have hne : u ≠ d := by rintro rfl; exact hd hw
      exact ⟨by simp [hne, hu], hw⟩

/-- `remove_priority` unlinks every donor it sees from the released lock, although at most one
of them will get it. -/
theorem removeDonors_unlinks (l : LockId) (ds : List Tid) (s : KState) :
    ∀ d ∈ ds, ((removeDonors l ds s).2.threads d).waitingOn ≠ some l :=
  fun _ hd h => (waitingOn_removeDonors l ds s h).1 hd

/-- `main` holds locks 0 and 1. `W` (40) blocks on lock 0 and `H` (50) on lock 1, both
donating to `main`. `main` releases lock 0, which wakes `W` but, at 50, keeps running and
takes lock 0 back. Releasing lock 1 hands the CPU to `H`, which takes the lock and exits;
`W` runs, finds lock 0 held, and blocks again without donating. -/
def reacquireRace : List Call :=
  [.lockAcquire 0, .resume, .resume, .lockAcquire 1, .resume, .resume,
   .threadCreate 40, .lockAcquire 0, .resume, .threadCreate 50, .lockAcquire 1, .resume,
   .lockRelease 0, .lockAcquire 0, .resume, .resume, .lockRelease 1, .resume, .resume,
   .threadExit, .resume]

/-- A reachable state breaks the donation invariant: `W` (40) is blocked on lock 0, which
`main` holds at its base priority 31. -/
theorem reacquire_loses_donation :
    ∃ s, (threadSystem (fun _ => 0) false (fun _ => 0)).Reachable s ∧
      BlockedOn s 3 0 ∧ (s.locks 0).holder = some 1 ∧ s.prio 1 = 31 ∧
      (s.threads 1).basePriority = 31 ∧ s.prio 3 = 40 ∧ ¬ DonationInv s := by
  obtain ⟨s, hs, hb, hh, ha, h₁, hbase, h₃⟩ :=
    System.exists_reachable_of_replay (S := threadSystem (fun _ => 0) false (fun _ => 0))
      (P := fun s => BlockedOn s 3 0 ∧ (s.locks 0).holder = some 1 ∧ 1 ∈ s.allList ∧
        s.prio 1 = 31 ∧ (s.threads 1).basePriority = 31 ∧ s.prio 3 = 40)
      reacquireRace (by decide +kernel)
  refine ⟨s, hs, hb, hh, h₁, hbase, h₃, fun hi => ?_⟩
  have hle := hi.waiter_le ha hb hh
  rw [h₁, h₃] at hle
  exact absurd hle (by decide)

end Pintos
