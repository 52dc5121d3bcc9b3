import Pintos.Userprog.Process

/-! # What `process_wait` returns, and what the record protocol does not guarantee

`process_wait` is correct: in every run, a wait for a child that `exec`
returned and that no wait has reaped yet returns the status the child passed
to `sys_exit`, and only once the child has set `exited`; every other wait
returns -1. The proof is one invariant of the whole system (`WaitInv`):
the children list holds exactly the children not reaped yet, and each
record's fields follow the child's progress through `sys_exit`, so that
`wait_sema` is positive only after the child's `sema_up`, by which time
`exit_status` holds the child's status.

The wait also returns. A second invariant (`SemaPending`) says that a child
past its `sema_up` whose record the parent has not consumed has left
`wait_sema` positive, so a parent blocked in `sema_down` on it can go on, and
at most two more steps of the parent return the status (`wait_progress`).

Two guarantees fail. The record is not owned safely: in the run `waitThenFree`
the child reads `parent_thread` of a record its parent's wait has freed, and in
the run `exitRace` an exiting parent and its exiting child both free the
record. And the parent is released before the child's `process_exit` writes
its file mappings back: the run `waitBeforeUnmap` returns from the wait while
the child still has a dirty mapping, although its descriptors are closed and
its executable is writable again (`exit_actions_before_wait_returns`).
-/

namespace Pintos

open ProcState Transition

/-- `pid` names a child that `exec` returned and that no wait has reaped. -/
def Waitable (s : ProcState) (pid : ℤ) : Prop := ∃ t : ℕ, pid = t ∧ t ∈ s.execOk ∧ t ∉ s.reaped

/-- The parent is between calls or in `process_execute`. -/
def ParentPc.Idle : ParentPc → Prop
  | .user | .execCreate _ | .execLoad _ | .execCheck _ => True
  | _ => False

/-- The child a parent in `process_wait` has found. -/
def ParentPc.waitingFor : ParentPc → Option ℕ
  | .waitDown t | .waitRead t | .waitFree t _ => some t
  | _ => none

/-- The children list against the history, whatever the parent is doing. -/
structure HistInv (s : ProcState) : Prop where
  execOk_lt : ∀ u ∈ s.execOk, u < s.nextTid
  kid_fresh : ∀ u, s.nextTid ≤ u → (s.kids u).pc = .absent
  reaped_sub : ∀ u ∈ s.reaped, u ∈ s.execOk
  nodup : s.children.Nodup
  children_waitable : ∀ u ∈ s.children, u ∈ s.execOk ∧ u ∉ s.reaped

/-- What the parent's call in progress knows: the tid it creates is fresh, and outside
`process_wait` the children list holds every child not reaped. -/
structure CallInv (s : ProcState) : Prop where
  create_next : ∀ t, s.parent = .execCreate t → t = s.nextTid
  exec_new : ∀ t, s.parent = .execLoad t ∨ s.parent = .execCheck t → t < s.nextTid ∧ t ∉ s.execOk
  idle_complete : s.parent.Idle → ∀ u ∈ s.execOk, u ∉ s.reaped → u ∈ s.children
  wait_target : ∀ t, s.parent.waitingFor = some t →
    t ∈ s.execOk ∧ t ∉ s.reaped ∧ t ∉ s.children ∧
      ∀ u ∈ s.execOk, u ∉ s.reaped → u ≠ t → u ∈ s.children

/-- Each child's exit actions and its record follow its progress through `sys_exit`. The
clauses read the children and their records only. -/
structure RecInv (kids : ℕ → Child) (recs : ℕ → ChildRec) : Prop where
  status_some : ∀ u, 2 ≤ (kids u).pc.stage → (kids u).status.isSome
  fds_closed : ∀ u, 3 ≤ (kids u).pc.stage → (kids u).fdsClosed
  exe_writable : ∀ u, 4 ≤ (kids u).pc.stage → (kids u).exeWritable
  has_record : ∀ u, 1 ≤ (kids u).pc.stage → (kids u).pc.stage ≤ 7 → (kids u).hasRecord
  exit_status : ∀ u v, 5 ≤ (kids u).pc.stage → (kids u).status = some v →
    (recs u).exitStatus = v
  exited : ∀ u, 6 ≤ (kids u).pc.stage → (recs u).exited
  wait_sema : ∀ u, 0 < (recs u).waitSema → 7 ≤ (kids u).pc.stage

/-- A parent past the `sema_down` of a wait has a child past its `sema_up`, and returns its
status. -/
structure ReadInv (s : ProcState) : Prop where
  read_after : ∀ t, (s.parent = .waitRead t ∨ ∃ v, s.parent = .waitFree t v) →
    7 ≤ (s.kids t).pc.stage
  free_status : ∀ t v, s.parent = .waitFree t v → (s.kids t).status = some v

/-- The invariant behind `process_wait`. -/
structure WaitInv (s : ProcState) : Prop where
  hist : HistInv s
  call : CallInv s
  record : RecInv s.kids s.recs
  read : ReadInv s

theorem waitInv_init : WaitInv procInit where
  hist :=
    { execOk_lt := by simp [procInit]
      kid_fresh := by simp [procInit, Child.absent]
      reaped_sub := by simp [procInit]
      nodup := List.nodup_nil
      children_waitable := by simp [procInit] }
  call :=
    { create_next := by simp [procInit]
      exec_new := by simp [procInit]
      idle_complete := by simp [procInit]
      wait_target := by simp [procInit, ParentPc.waitingFor] }
  record :=
    { status_some := by simp [procInit, Child.absent, ChildPc.stage]
      fds_closed := by simp [procInit, Child.absent, ChildPc.stage]
      exe_writable := by simp [procInit, Child.absent, ChildPc.stage]
      has_record := by simp [procInit, Child.absent, ChildPc.stage]
      exit_status := by simp [procInit, Child.absent, ChildPc.stage]
      exited := by simp [procInit, Child.absent, ChildPc.stage]
      wait_sema := by simp [procInit, ChildRec.init] }
  read :=
    { read_after := by simp [procInit]
      free_status := by simp [procInit] }

section Frames

variable {s s' : ProcState}

theorem HistInv.lt_of_present (h : HistInv s) {u : ℕ} (hu : (s.kids u).pc ≠ .absent) :
    u < s.nextTid := by
  by_contra hn
  exact hu (h.kid_fresh u (Nat.le_of_not_lt hn))

/-- The history clauses do not look at records, at `fault`, or at the parent, and survive
unlinking children. -/
theorem HistInv.sublist (h : HistInv s) (hc : s'.children.Sublist s.children)
    (hn : s'.nextTid = s.nextTid) (he : s'.execOk = s.execOk) (hre : s'.reaped = s.reaped)
    (hk : ∀ u, s.nextTid ≤ u → s'.kids u = s.kids u) : HistInv s' where
  execOk_lt := by rw [he, hn]; exact h.execOk_lt
  kid_fresh u hu := by rw [hn] at hu; rw [hk u hu]; exact h.kid_fresh u hu
  reaped_sub := by rw [hre, he]; exact h.reaped_sub
  nodup := h.nodup.sublist hc
  children_waitable u hu := by rw [he, hre]; exact h.children_waitable u (hc.subset hu)

theorem HistInv.congr (h : HistInv s) (hc : s'.children = s.children)
    (hn : s'.nextTid = s.nextTid) (he : s'.execOk = s.execOk) (hre : s'.reaped = s.reaped)
    (hk : ∀ u, s.nextTid ≤ u → s'.kids u = s.kids u) : HistInv s' :=
  h.sublist (hc ▸ List.Sublist.refl _) hn he hre hk

theorem CallInv.congr (h : CallInv s) (hc : s'.children = s.children)
    (hp : s'.parent = s.parent) (hn : s'.nextTid = s.nextTid) (he : s'.execOk = s.execOk)
    (hre : s'.reaped = s.reaped) : CallInv s' where
  create_next := by rw [hp, hn]; exact h.create_next
  exec_new := by rw [hp, hn, he]; exact h.exec_new
  idle_complete := by rw [hp, he, hre, hc]; exact h.idle_complete
  wait_target := by rw [hp, he, hre, hc]; exact h.wait_target

/-- Outside `process_execute` and `process_wait` the call clauses say nothing. -/
theorem CallInv.of_exiting (hp : s.parent = .exitLoop ∨ (∃ t, s.parent = .exitUnlink t) ∨
    (∃ t, s.parent = .exitTest t) ∨ s.parent = .dead) : CallInv s where
  create_next t := by rcases hp with hp | ⟨_, hp⟩ | ⟨_, hp⟩ | hp <;> simp [hp]
  exec_new t := by rcases hp with hp | ⟨_, hp⟩ | ⟨_, hp⟩ | hp <;> simp [hp]
  idle_complete := by rcases hp with hp | ⟨_, hp⟩ | ⟨_, hp⟩ | hp <;> simp [hp, ParentPc.Idle]
  wait_target t := by
    rcases hp with hp | ⟨_, hp⟩ | ⟨_, hp⟩ | hp <;> simp [hp, ParentPc.waitingFor]

/-- The record clauses survive steps that leave the children alone, keep `exit_status` and
`exited` once the child has written them, and never raise a `wait_sema` from zero. -/
theorem RecInv.congr {kids kids' : ℕ → Child} {recs recs' : ℕ → ChildRec} (h : RecInv kids recs)
    (hk : kids' = kids)
    (hes : ∀ u, 5 ≤ (kids u).pc.stage → (recs' u).exitStatus = (recs u).exitStatus)
    (hex : ∀ u, 6 ≤ (kids u).pc.stage → (recs' u).exited = (recs u).exited)
    (hws : ∀ u, 0 < (recs' u).waitSema → 0 < (recs u).waitSema) : RecInv kids' recs' := by
  subst hk
  exact
    { status_some := h.status_some
      fds_closed := h.fds_closed
      exe_writable := h.exe_writable
      has_record := h.has_record
      exit_status := fun u v hu => by rw [hes u hu]; exact h.exit_status u v hu
      exited := fun u hu => by rw [hex u hu]; exact h.exited u hu
      wait_sema := fun u hu => h.wait_sema u (hws u hu) }

/-- The record clauses are per child: after child `t` and its record change, they hold when
they hold of `t`'s new state and record. -/
theorem RecInv.update {kids kids' : ℕ → Child} {recs recs' : ℕ → ChildRec} (h : RecInv kids recs)
    {t : ℕ} (hk : ∀ u, u ≠ t → kids' u = kids u) (hr : ∀ u, u ≠ t → recs' u = recs u)
    (hstatus : 2 ≤ (kids' t).pc.stage → (kids' t).status.isSome)
    (hfds : 3 ≤ (kids' t).pc.stage → (kids' t).fdsClosed)
    (hexe : 4 ≤ (kids' t).pc.stage → (kids' t).exeWritable)
    (hrec : 1 ≤ (kids' t).pc.stage → (kids' t).pc.stage ≤ 7 → (kids' t).hasRecord)
    (hexit : ∀ v, 5 ≤ (kids' t).pc.stage → (kids' t).status = some v → (recs' t).exitStatus = v)
    (hexited : 6 ≤ (kids' t).pc.stage → (recs' t).exited)
    (hsema : 0 < (recs' t).waitSema → 7 ≤ (kids' t).pc.stage) : RecInv kids' recs' where
  status_some u := by
    by_cases hut : u = t
    · subst hut; exact hstatus
    · rw [hk u hut]; exact h.status_some u
  fds_closed u := by
    by_cases hut : u = t
    · subst hut; exact hfds
    · rw [hk u hut]; exact h.fds_closed u
  exe_writable u := by
    by_cases hut : u = t
    · subst hut; exact hexe
    · rw [hk u hut]; exact h.exe_writable u
  has_record u := by
    by_cases hut : u = t
    · subst hut; exact hrec
    · rw [hk u hut]; exact h.has_record u
  exit_status u := by
    by_cases hut : u = t
    · subst hut; exact hexit
    · rw [hk u hut, hr u hut]; exact h.exit_status u
  exited u := by
    by_cases hut : u = t
    · subst hut; exact hexited
    · rw [hk u hut, hr u hut]; exact h.exited u
  wait_sema u := by
    by_cases hut : u = t
    · subst hut; exact hsema
    · rw [hk u hut, hr u hut]; exact h.wait_sema u

/-- A child that has not reached `sys_exit` meets the record clauses once its record's
`wait_sema` is zero. -/
theorem RecInv.update_idle {kids : ℕ → Child} {recs : ℕ → ChildRec} (h : RecInv kids recs)
    {t : ℕ} {k : Child} (hk : k.pc.stage = 0) (hw : (recs t).waitSema = 0) :
    RecInv (Function.update kids t k) recs :=
  h.update (fun u hu => Function.update_of_ne hu k kids) (fun _ _ => rfl)
    (by simp [hk]) (by simp [hk]) (by simp [hk]) (by simp [hk]) (by simp [hk]) (by simp [hk])
    (by simp [hw])

/-- The read clauses look at the parent and the children only. -/
theorem ReadInv.congr (h : ReadInv s) (hp : s'.parent = s.parent) (hk : s'.kids = s.kids) :
    ReadInv s' where
  read_after := by rw [hp, hk]; exact h.read_after
  free_status := by rw [hp, hk]; exact h.free_status

/-- A state that differs only in `fault`. -/
theorem WaitInv.withFault (h : WaitInv s) (b : Bool) : WaitInv (s.withFault b) :=
  ⟨h.hist.congr rfl rfl rfl rfl fun _ _ => rfl, h.call.congr rfl rfl rfl rfl rfl, h.record,
    h.read.congr rfl rfl⟩

end Frames

section ChildSteps

variable {s s' : ProcState}

/-- The child an action belongs to, if it is a child's. -/
def ProcAct.childOf : ProcAct → Option ℕ
  | .load t _ | .mmap t | .sysExit t _ | .child t => some t
  | _ => none

/-- `s'` differs from `s` at most in child `t`, its record, and `fault`. -/
structure ChildFrame (s s' : ProcState) (t : ℕ) : Prop where
  kids : ∀ u, u ≠ t → s'.kids u = s.kids u
  recs : ∀ u, u ≠ t → s'.recs u = s.recs u
  children : s'.children = s.children
  parent : s'.parent = s.parent
  nextTid : s'.nextTid = s.nextTid
  execOk : s'.execOk = s.execOk
  reaped : s'.reaped = s.reaped

/-- A child's action stays inside the child and its record. -/
theorem childFrame_procStep {a : ProcAct} {t : ℕ} (ha : a.childOf = some t) :
    ChildFrame s (procStep s a) t := by
  cases a <;> simp only [ProcAct.childOf, Option.some.injEq, reduceCtorEq] at ha <;> subst ha
  case child =>
    simp only [procStep, childStep]
    split
    all_goals
      (try split_ifs) <;> constructor <;> (try intro u hu) <;> simp [writeRec, freeRec, *]
  all_goals
    constructor <;> (try intro u hu) <;> simp [procStep, writeRec, *]

/-- A step of child `t` keeps the invariant when the child moves forward, keeps its status
once the parent may read it, and its new state and record satisfy the record clauses. -/
theorem WaitInv.of_child (h : WaitInv s) {t : ℕ} (hf : ChildFrame s s' t)
    (hpres : (s.kids t).pc ≠ .absent)
    (hmono : (s.kids t).pc.stage ≤ (s'.kids t).pc.stage)
    (hkeep : 7 ≤ (s.kids t).pc.stage → (s'.kids t).status = (s.kids t).status)
    (hstatus : 2 ≤ (s'.kids t).pc.stage → (s'.kids t).status.isSome)
    (hfds : 3 ≤ (s'.kids t).pc.stage → (s'.kids t).fdsClosed)
    (hexe : 4 ≤ (s'.kids t).pc.stage → (s'.kids t).exeWritable)
    (hrec : 1 ≤ (s'.kids t).pc.stage → (s'.kids t).pc.stage ≤ 7 → (s'.kids t).hasRecord)
    (hexit : ∀ v, 5 ≤ (s'.kids t).pc.stage → (s'.kids t).status = some v →
      (s'.recs t).exitStatus = v)
    (hexited : 6 ≤ (s'.kids t).pc.stage → (s'.recs t).exited)
    (hsema : 0 < (s'.recs t).waitSema → 7 ≤ (s'.kids t).pc.stage) : WaitInv s' where
  hist := h.hist.congr hf.children hf.nextTid hf.execOk hf.reaped fun u hu =>
    hf.kids u fun hut => absurd (h.hist.lt_of_present (hut ▸ hpres)) (Nat.not_lt.mpr hu)
  call := h.call.congr hf.children hf.parent hf.nextTid hf.execOk hf.reaped
  record := h.record.update hf.kids hf.recs hstatus hfds hexe hrec hexit hexited hsema
  read :=
    { read_after u hu := by
        rw [hf.parent] at hu
        by_cases hut : u = t
        · subst hut; exact Nat.le_trans (h.read.read_after u hu) hmono
        · rw [hf.kids u hut]; exact h.read.read_after u hu
      free_status u v hu := by
        rw [hf.parent] at hu
        by_cases hut : u = t
        · subst hut
          rw [hkeep (h.read.read_after u (Or.inr ⟨v, hu⟩))]
          exact h.read.free_status u v hu
        · rw [hf.kids u hut]; exact h.read.free_status u v hu }

/-- Before the child's `sema_up` its `wait_sema` is zero. -/
theorem WaitInv.waitSema_eq_zero (h : WaitInv s) {t : ℕ} (ht : (s.kids t).pc.stage < 7) :
    (s.recs t).waitSema = 0 :=
  Nat.eq_zero_of_not_pos fun hp => absurd (h.record.wait_sema t hp) (Nat.not_le.mpr ht)

theorem WaitInv.load (h : WaitInv s) {t : ℕ} (ok : Bool) (hpc : (s.kids t).pc = .start) :
    WaitInv (procStep s (.load t ok)) := by
  have hw := h.waitSema_eq_zero (t := t) (by simp [hpc, ChildPc.stage])
  apply h.of_child (childFrame_procStep rfl) (by simp [hpc])
  all_goals cases ok <;> simp [procStep, writeRec, hpc, hw, ChildPc.stage]

theorem WaitInv.mmap (h : WaitInv s) {t : ℕ} (hpc : (s.kids t).pc = .user) :
    WaitInv (procStep s (.mmap t)) := by
  have hw := h.waitSema_eq_zero (t := t) (by simp [hpc, ChildPc.stage])
  have hr := h.record.has_record t (by simp [hpc, ChildPc.stage]) (by simp [hpc, ChildPc.stage])
  apply h.of_child (childFrame_procStep rfl) (by simp [hpc])
  all_goals simp [procStep, hpc, hw, hr, ChildPc.stage]

theorem WaitInv.sysExit (h : WaitInv s) {t : ℕ} (v : ℤ) (hpc : (s.kids t).pc = .user) :
    WaitInv (procStep s (.sysExit t v)) := by
  have hw := h.waitSema_eq_zero (t := t) (by simp [hpc, ChildPc.stage])
  have hr := h.record.has_record t (by simp [hpc, ChildPc.stage]) (by simp [hpc, ChildPc.stage])
  apply h.of_child (childFrame_procStep rfl) (by simp [hpc])
  all_goals simp [procStep, hpc, hw, hr, ChildPc.stage]

theorem WaitInv.child (h : WaitInv s) {t : ℕ} (he : ProcEnabled s (.child t)) :
    WaitInv (procStep s (.child t)) := by
  obtain ⟨hab, hst, hus, hgo, hde⟩ := he
  -- what the record clauses already say of the child, at its current stage
  have hsome := h.record.status_some t
  have hfds := h.record.fds_closed t
  have hexe := h.record.exe_writable t
  have hrec := h.record.has_record t
  have hes := h.record.exit_status t
  have hex := h.record.exited t
  have hws := h.record.wait_sema t
  apply h.of_child (childFrame_procStep rfl) hab
  all_goals
    clear h
    cases hpc : (s.kids t).pc <;> simp_all [procStep, childStep, writeRec, freeRec, ChildPc.stage]
  -- left: the record after the child's test of `parent_thread`, freed or not
  all_goals split <;> simp_all

end ChildSteps

section ParentFrames

variable {s s' s'' : ProcState}

/-- `s'` keeps the children, the history, and what the record clauses read of the records;
a parent step that only moves the parent, frees a record or counts a semaphore down is one. -/
structure ParentFrame (s s' : ProcState) : Prop where
  kids : s'.kids = s.kids
  children : s'.children = s.children
  nextTid : s'.nextTid = s.nextTid
  execOk : s'.execOk = s.execOk
  reaped : s'.reaped = s.reaped
  exitStatus : ∀ u, (s'.recs u).exitStatus = (s.recs u).exitStatus
  exited : ∀ u, (s'.recs u).exited = (s.recs u).exited
  waitSema : ∀ u, (s'.recs u).waitSema ≤ (s.recs u).waitSema

theorem ParentFrame.refl (s : ProcState) : ParentFrame s s :=
  ⟨rfl, rfl, rfl, rfl, rfl, fun _ => rfl, fun _ => rfl, fun _ => Nat.le_refl _⟩

theorem ParentFrame.trans (h₁ : ParentFrame s s') (h₂ : ParentFrame s' s'') : ParentFrame s s'' :=
  ⟨h₂.kids.trans h₁.kids, h₂.children.trans h₁.children, h₂.nextTid.trans h₁.nextTid,
    h₂.execOk.trans h₁.execOk, h₂.reaped.trans h₁.reaped,
    fun u => (h₂.exitStatus u).trans (h₁.exitStatus u), fun u => (h₂.exited u).trans (h₁.exited u),
    fun u => Nat.le_trans (h₂.waitSema u) (h₁.waitSema u)⟩

theorem ParentFrame.setParent (h : ParentFrame s s') (p : ParentPc) :
    ParentFrame s { s' with parent := p } :=
  ⟨h.kids, h.children, h.nextTid, h.execOk, h.reaped, h.exitStatus, h.exited, h.waitSema⟩

theorem parentFrame_touch (t : ℕ) : ParentFrame s (s.touch t) := by
  rw [touch_eq]
  exact ⟨rfl, rfl, rfl, rfl, rfl, fun _ => rfl, fun _ => rfl, fun _ => Nat.le_refl _⟩

theorem parentFrame_writeRec {t : ℕ} {f : ChildRec → ChildRec}
    (hes : ∀ r, (f r).exitStatus = r.exitStatus) (hex : ∀ r, (f r).exited = r.exited)
    (hws : ∀ r, (f r).waitSema ≤ r.waitSema) : ParentFrame s (s.writeRec t f) := by
  refine (parentFrame_touch t).trans
    ⟨rfl, rfl, rfl, rfl, rfl, fun u => ?_, fun u => ?_, fun u => ?_⟩ <;>
    by_cases hu : u = t <;> simp [writeRec, hu, hes, hex, hws]

theorem parentFrame_freeRec (t : ℕ) : ParentFrame s (s.freeRec t) :=
  parentFrame_writeRec (fun _ => rfl) (fun _ => rfl) (fun _ => Nat.le_refl _)

theorem ParentFrame.recInv (hf : ParentFrame s s') (h : RecInv s.kids s.recs) :
    RecInv s'.kids s'.recs :=
  h.congr hf.kids (fun u _ => hf.exitStatus u) (fun u _ => hf.exited u)
    (fun u hu => Nat.lt_of_lt_of_le hu (hf.waitSema u))

/-- A parent step inside a frame keeps the history and record clauses; what the call and the
read clauses need is left to the step. -/
theorem WaitInv.of_frame (h : WaitInv s) (hf : ParentFrame s s') (hcall : CallInv s')
    (hread : ReadInv s') : WaitInv s' :=
  ⟨h.hist.congr hf.children hf.nextTid hf.execOk hf.reaped fun _ _ => by rw [hf.kids], hcall,
    hf.recInv h.record, hread⟩

/-- The call clauses of a parent that moves within one call, or back to user code. -/
theorem CallInv.of_frame (h : CallInv s) (hf : ParentFrame s s')
    (hcreate : ∀ t, s'.parent = .execCreate t → s.parent = .execCreate t)
    (hexec : ∀ t, s'.parent = .execLoad t ∨ s'.parent = .execCheck t →
      s.parent = .execLoad t ∨ s.parent = .execCheck t)
    (hidle : s'.parent.Idle → s.parent.Idle)
    (hwait : ∀ t, s'.parent.waitingFor = some t → s.parent.waitingFor = some t) : CallInv s' where
  create_next t ht := by rw [hf.nextTid]; exact h.create_next t (hcreate t ht)
  exec_new t ht := by rw [hf.nextTid, hf.execOk]; exact h.exec_new t (hexec t ht)
  idle_complete hi := by
    rw [hf.execOk, hf.reaped, hf.children]; exact h.idle_complete (hidle hi)
  wait_target t ht := by
    rw [hf.execOk, hf.reaped, hf.children]; exact h.wait_target t (hwait t ht)

end ParentFrames

section ParentSteps

variable {s : ProcState}

/-- `process_execute` allocates the record of the next tid, which no child holds yet. -/
theorem WaitInv.exec (h : WaitInv s) (hu : s.parent = .user) : WaitInv (procStep s .exec) := by
  have h0 : (s.kids s.nextTid).pc.stage = 0 := by rw [h.hist.kid_fresh _ (Nat.le_refl _)]; rfl
  refine ⟨h.hist.congr rfl rfl rfl rfl fun _ _ => rfl, ?_, ?_,
    ⟨by simp [procStep], by simp [procStep]⟩⟩
  · exact
      { create_next := fun t ht => by cases ht; rfl
        exec_new := by simp [procStep]
        idle_complete := fun _ => h.call.idle_complete (by simp [hu, ParentPc.Idle])
        wait_target := by simp [procStep, ParentPc.waitingFor] }
  · -- only the fresh record changes, and its child has not started
    refine h.record.congr rfl (fun u hu => ?_) (fun u hu => ?_) (fun u hu => ?_) <;>
      by_cases hn : u = s.nextTid <;> simp_all [procStep, ChildRec.init]

theorem WaitInv.exit (h : WaitInv s) : WaitInv (procStep s .exit) :=
  ⟨h.hist.congr rfl rfl rfl rfl fun _ _ => rfl, CallInv.of_exiting (Or.inl rfl), h.record,
    ⟨by simp [procStep], by simp [procStep]⟩⟩

/-- The search of `process_wait` either finds the record and unlinks it, or returns -1 with
nothing changed. -/
theorem WaitInv.wait (h : WaitInv s) (hu : s.parent = .user) (pid : ℤ) :
    WaitInv (procStep s (.wait pid)) := by
  have hs := findChild_snd pid s.children s
  have hf := @findChild_some pid s.children s
  simp only [procStep]
  split
  · next t s₁ heq =>
    rw [heq] at hs hf
    obtain ⟨ht, -⟩ := hf rfl
    simp only at hs
    rw [hs]
    obtain ⟨hok, hre⟩ := h.hist.children_waitable t ht
    refine ⟨h.hist.sublist List.erase_sublist rfl rfl rfl fun _ _ => rfl, ?_, h.record,
      ⟨by simp, by simp⟩⟩
    refine ⟨by simp, by simp, by simp [ParentPc.Idle], fun t' ht' => ?_⟩
    cases ht'
    refine ⟨hok, hre, h.hist.nodup.not_mem_erase, fun u hmem hur hne => ?_⟩
    exact (List.mem_erase_of_ne hne).mpr
      (h.call.idle_complete (by simp [hu, ParentPc.Idle]) u hmem hur)
  · next s₁ heq =>
    rw [heq] at hs
    simp only at hs
    rw [hs]
    exact h.withFault _

/-- `thread_create` starts the child whose record was just set up, at the next tid. -/
theorem WaitInv.execCreate (h : WaitInv s) {t : ℕ} (hp : s.parent = .execCreate t) :
    WaitInv (parentStep s) := by
  obtain rfl : t = s.nextTid := h.call.create_next t hp
  have h0 : (s.kids s.nextTid).pc = .absent := h.hist.kid_fresh _ (Nat.le_refl _)
  have hw := h.waitSema_eq_zero (t := s.nextTid) (by rw [h0]; decide)
  simp only [parentStep, hp]
  refine ⟨⟨fun u hu => Nat.lt_succ_of_lt (h.hist.execOk_lt u hu), fun u hu => ?_,
    h.hist.reaped_sub, h.hist.nodup, h.hist.children_waitable⟩, ⟨by simp, fun t' ht' => ?_,
    fun _ => h.call.idle_complete (by simp [hp, ParentPc.Idle]), by simp [ParentPc.waitingFor]⟩,
    h.record.update_idle rfl hw, ⟨by simp, by simp⟩⟩
  · -- a tid past the new `nextTid` is past the old one, and not the child just created
    change s.nextTid + 1 ≤ u at hu
    have hne : u ≠ s.nextTid := by omega
    simp [hne, h.hist.kid_fresh u (by omega)]
  · obtain rfl : s.nextTid = t' := by simpa using ht'
    exact ⟨Nat.lt_succ_self _, fun hm => Nat.lt_irrefl _ (h.hist.execOk_lt _ hm)⟩

/-- `sema_down (&child->load_sema)` returns once the child's load has finished. -/
theorem WaitInv.execLoad (h : WaitInv s) {t : ℕ} (hp : s.parent = .execLoad t) :
    WaitInv (parentStep s) := by
  simp only [parentStep, hp]
  have hf : ParentFrame s (s.writeRec t fun r => { r with loadSema := r.loadSema - 1 }) :=
    parentFrame_writeRec (fun _ => rfl) (fun _ => rfl) (fun _ => Nat.le_refl _)
  refine h.of_frame (hf.setParent _) (h.call.of_frame (hf.setParent _) (by simp) (by simp [hp])
    (fun _ => by simp [hp, ParentPc.Idle]) (by simp [ParentPc.waitingFor])) ⟨by simp, by simp⟩

/-- Past the load, `process_execute` links a loaded child and returns its tid, or frees the
record and returns -1. -/
theorem WaitInv.execCheck (h : WaitInv s) {t : ℕ} (hp : s.parent = .execCheck t) :
    WaitInv (parentStep s) := by
  obtain ⟨hlt, hnew⟩ := h.call.exec_new t (Or.inr hp)
  have hnc : t ∉ s.children := fun hm => hnew (h.hist.children_waitable t hm).1
  have hnr : t ∉ s.reaped := fun hm => hnew (h.hist.reaped_sub t hm)
  simp only [parentStep, hp]
  split
  · -- the new child is the only tid added to the history and to the list
    refine ⟨⟨?_, by simpa using h.hist.kid_fresh, ?_, ?_, ?_⟩,
      ⟨by simp, by simp, fun _ => ?_, by simp [ParentPc.waitingFor]⟩, by simpa using h.record,
      ⟨by simp, by simp⟩⟩
    · simp only [nextTid_touch, List.mem_append, List.mem_singleton]
      rintro u (hu | rfl)
      exacts [h.hist.execOk_lt u hu, hlt]
    · simp only [reaped_touch, List.mem_append]
      exact fun u hu => Or.inl (h.hist.reaped_sub u hu)
    · simp only [List.nodup_append, List.nodup_singleton, List.mem_singleton]
      exact ⟨h.hist.nodup, trivial, fun a ha b hb => hb ▸ fun hab => hnc (hab ▸ ha)⟩
    · simp only [reaped_touch, List.mem_append, List.mem_singleton]
      rintro u (hu | rfl)
      exacts [⟨Or.inl (h.hist.children_waitable u hu).1, (h.hist.children_waitable u hu).2⟩,
        ⟨Or.inr rfl, hnr⟩]
    · simp only [reaped_touch, List.mem_append, List.mem_singleton]
      rintro u (hu | rfl) hur
      exacts [Or.inl (h.call.idle_complete (by simp [hp, ParentPc.Idle]) u hu hur), Or.inr rfl]
  · have hf : ParentFrame s ((s.touch t).freeRec t) :=
      (parentFrame_touch t).trans (parentFrame_freeRec t)
    exact h.of_frame (hf.setParent _) (h.call.of_frame (hf.setParent _) (by simp) (by simp)
      (fun _ => by simp [hp, ParentPc.Idle]) (by simp [ParentPc.waitingFor])) ⟨by simp, by simp⟩

/-- `sema_down (&child->wait_sema)` returns only after the child's `sema_up`. -/
theorem WaitInv.waitDown (h : WaitInv s) {t : ℕ} (hp : s.parent = .waitDown t)
    (hsema : 0 < (s.recs t).waitSema) : WaitInv (parentStep s) := by
  simp only [parentStep, hp]
  have hf : ParentFrame s (s.writeRec t fun r => { r with waitSema := r.waitSema - 1 }) :=
    parentFrame_writeRec (fun _ => rfl) (fun _ => rfl) (fun _ => Nat.sub_le _ _)
  refine h.of_frame (hf.setParent _) (h.call.of_frame (hf.setParent _) (by simp) (by simp)
    (by simp [ParentPc.Idle]) (by simp [hp, ParentPc.waitingFor])) ⟨fun t' ht' => ?_, by simp⟩
  obtain rfl : t = t' := by simpa using ht'
  simpa [writeRec] using h.record.wait_sema t hsema

/-- `process_wait` reads `exit_status`, which the child wrote before its `sema_up`. -/
theorem WaitInv.waitRead (h : WaitInv s) {t : ℕ} (hp : s.parent = .waitRead t) :
    WaitInv (parentStep s) := by
  have h7 := h.read.read_after t (Or.inl hp)
  obtain ⟨v, hv⟩ := Option.isSome_iff_exists.mp (h.record.status_some t (by omega))
  have hes := h.record.exit_status t v (by omega) hv
  simp only [parentStep, hp]
  have hf := (parentFrame_touch (s := s) t).setParent (.waitFree t (s.recs t).exitStatus)
  refine h.of_frame hf (h.call.of_frame hf (by simp) (by simp) (by simp [ParentPc.Idle])
    (by simp [hp, ParentPc.waitingFor])) ⟨fun t' ht' => ?_, fun t' v' ht' => ?_⟩
  · obtain rfl : t = t' := by simpa using ht'
    simpa using h7
  · obtain ⟨rfl, rfl⟩ : t = t' ∧ (s.recs t).exitStatus = v' := by simpa using ht'
    simpa [hes] using hv

/-- `process_wait` frees the record and returns: the child is reaped. -/
theorem WaitInv.waitFree (h : WaitInv s) {t : ℕ} {v : ℤ} (hp : s.parent = .waitFree t v) :
    WaitInv (parentStep s) := by
  obtain ⟨hok, hre, hnc, hrest⟩ := h.call.wait_target t (by simp [hp, ParentPc.waitingFor])
  have hf := parentFrame_freeRec (s := s) t
  simp only [parentStep, hp]
  refine ⟨⟨?_, ?_, ?_, ?_, ?_⟩, ⟨by simp, by simp, fun _ => ?_, by simp [ParentPc.waitingFor]⟩,
    hf.recInv h.record, ⟨by simp, by simp⟩⟩
  · simpa [hf.execOk, hf.nextTid] using h.hist.execOk_lt
  · simpa [hf.nextTid, hf.kids] using h.hist.kid_fresh
  · simp only [hf.execOk, List.mem_append, List.mem_singleton]
    rintro u (hu | rfl)
    exacts [h.hist.reaped_sub u hu, hok]
  · simpa [hf.children] using h.hist.nodup
  · simp only [hf.children, hf.execOk, List.mem_append, List.mem_singleton, not_or]
    intro u hu
    exact ⟨(h.hist.children_waitable u hu).1, (h.hist.children_waitable u hu).2,
      fun hut => hnc (hut ▸ hu)⟩
  · simp only [hf.children, hf.execOk, List.mem_append, List.mem_singleton, not_or]
    exact fun u hu ⟨hur, hut⟩ => hrest u hu hur hut

/-- The exit loop of `process_exit` unlinks each child after clearing its `parent_thread`. -/
theorem WaitInv.exitLoop (h : WaitInv s) (hp : s.parent = .exitLoop) : WaitInv (parentStep s) := by
  simp only [parentStep, hp]
  split
  · exact h.of_frame ((ParentFrame.refl s).setParent _) (CallInv.of_exiting (by simp))
      ⟨by simp, by simp⟩
  · next t _ _ =>
    have hf : ParentFrame s (s.writeRec t ({ · with hasParent := false })) :=
      parentFrame_writeRec (fun _ => rfl) (fun _ => rfl) (fun _ => Nat.le_refl _)
    exact h.of_frame (hf.setParent _) (CallInv.of_exiting (by simp)) ⟨by simp, by simp⟩

theorem WaitInv.exitUnlink (h : WaitInv s) {t : ℕ} (hp : s.parent = .exitUnlink t) :
    WaitInv (parentStep s) := by
  simp only [parentStep, hp]
  exact ⟨h.hist.sublist (by simpa using List.erase_sublist) (by simp) (by simp) (by simp)
      (by simp), CallInv.of_exiting (by simp), by simpa using h.record, ⟨by simp, by simp⟩⟩

theorem WaitInv.exitTest (h : WaitInv s) {t : ℕ} (hp : s.parent = .exitTest t) :
    WaitInv (parentStep s) := by
  simp only [parentStep, hp]
  -- the parent frees the record only when the child has `exited`
  have hf : ParentFrame s (if (s.recs t).exited then (s.touch t).freeRec t else s.touch t) := by
    split
    · exact (parentFrame_touch t).trans (parentFrame_freeRec t)
    · exact parentFrame_touch t
  exact h.of_frame (hf.setParent _) (CallInv.of_exiting (by simp)) ⟨by simp, by simp⟩

/-- Every enabled statement of the parent keeps the invariant. -/
theorem WaitInv.parent (h : WaitInv s) (he : ProcEnabled s .parent) :
    WaitInv (procStep s .parent) := by
  simp only [procStep]
  cases hp : s.parent with
  | user | dead => simp [ProcEnabled, hp] at he
  | execCreate t => exact h.execCreate hp
  | execLoad t => exact h.execLoad hp
  | execCheck t => exact h.execCheck hp
  | waitDown t => exact h.waitDown hp (by simpa [ProcEnabled, hp] using he)
  | waitRead t => exact h.waitRead hp
  | waitFree t v => exact h.waitFree hp
  | exitLoop => exact h.exitLoop hp
  | exitUnlink t => exact h.exitUnlink hp
  | exitTest t => exact h.exitTest hp

end ParentSteps

theorem WaitInv.step {s : ProcState} (h : WaitInv s) {a : ProcAct} (he : ProcEnabled s a) :
    WaitInv (procStep s a) := by
  cases a with
  | exec => exact h.exec he
  | wait pid => exact h.wait he pid
  | exit => exact h.exit
  | parent => exact h.parent he
  | load t ok => exact h.load ok he
  | mmap t => exact h.mmap he
  | sysExit t v => exact h.sysExit v he
  | child t => exact h.child he

theorem waitInv_invariant : procSystem.Invariant WaitInv :=
  ⟨waitInv_init, fun _ _ h he => h.step he⟩

/-! ## A wait returns once the child has exited -/

/-- The parent is past the `sema_down` of a wait for `u`. -/
def ParentPc.Consumed (p : ParentPc) (u : ℕ) : Prop := p = .waitRead u ∨ ∃ v, p = .waitFree u v

/-- A child past its `sema_up` leaves `wait_sema` positive until the wait for it is past its
`sema_down`. -/
def SemaPending (s : ProcState) : Prop :=
  ∀ u, 7 ≤ (s.kids u).pc.stage → u ∉ s.reaped → ¬ s.parent.Consumed u → 0 < (s.recs u).waitSema

section Pending

variable {s s' : ProcState}

/-- The step rule of `SemaPending`: every child that the new state constrains has a positive
`wait_sema`, or was constrained before with the same `wait_sema`. -/
theorem SemaPending.of_step (h : SemaPending s)
    (hp : ∀ u, u ∉ s'.reaped → ¬ s'.parent.Consumed u → u ∉ s.reaped ∧ ¬ s.parent.Consumed u)
    (hk : ∀ u, 7 ≤ (s'.kids u).pc.stage → ¬ s'.parent.Consumed u →
      0 < (s'.recs u).waitSema ∨
        7 ≤ (s.kids u).pc.stage ∧ (s'.recs u).waitSema = (s.recs u).waitSema) :
    SemaPending s' := by
  intro u h7 hr hc
  rcases hk u h7 hc with hpos | ⟨h7', hw⟩
  · exact hpos
  · obtain ⟨hr', hc'⟩ := hp u hr hc
    rw [hw]
    exact h u h7' hr' hc'

/-- A statement of child `t` sets its `wait_sema` when it passes the `sema_up`, and keeps it
after; a child at `sys_exit` has a record, so it cannot skip the `sema_up`. -/
theorem childStep_waitSema {t : ℕ}
    (hrec : 1 ≤ (s.kids t).pc.stage → (s.kids t).pc.stage ≤ 7 → (s.kids t).hasRecord)
    (h7 : 7 ≤ ((procStep s (.child t)).kids t).pc.stage) :
    0 < ((procStep s (.child t)).recs t).waitSema ∨
      7 ≤ (s.kids t).pc.stage ∧
        ((procStep s (.child t)).recs t).waitSema = (s.recs t).waitSema := by
  cases hpc : (s.kids t).pc <;>
    simp_all [procStep, childStep, writeRec, freeRec, ChildPc.stage]
  -- left: the test of `parent_thread`, which may free the record
  split <;> simp

theorem semaPending_init : SemaPending procInit := by
  intro u h7
  simp [procInit, Child.absent, ChildPc.stage] at h7

/-- A step that keeps the children, the history and every `wait_sema`, and starts consuming
no `sema_up`. -/
theorem SemaPending.of_same (h : SemaPending s) (hk : s'.kids = s.kids) (hre : s'.reaped = s.reaped)
    (hw : ∀ u, (s'.recs u).waitSema = (s.recs u).waitSema)
    (hc : ∀ u, ¬ s'.parent.Consumed u → ¬ s.parent.Consumed u) : SemaPending s' :=
  h.of_step (fun u hr hcu => ⟨hre ▸ hr, hc u hcu⟩) fun u h7 _ => .inr ⟨hk ▸ h7, hw u⟩

theorem waitSema_writeRec {t : ℕ} {f : ChildRec → ChildRec} (hf : ∀ r, (f r).waitSema = r.waitSema)
    (u : ℕ) : ((s.writeRec t f).recs u).waitSema = (s.recs u).waitSema := by
  by_cases hu : u = t <;> simp [writeRec, hu, hf]

theorem waitSema_freeRec (t u : ℕ) : ((s.freeRec t).recs u).waitSema = (s.recs u).waitSema :=
  waitSema_writeRec (f := ({ · with freed := true })) (fun _ => rfl) u

/-- Outside `waitRead` and `waitFree` the parent has consumed no `sema_up`. -/
theorem ParentPc.not_consumed {p : ParentPc} (hp : ∀ u, p ≠ .waitRead u)
    (hf : ∀ u v, p ≠ .waitFree u v) (u : ℕ) : ¬ p.Consumed u := by
  rintro (h | ⟨v, h⟩)
  exacts [hp u h, hf u v h]

/-- Every enabled step keeps `SemaPending`, given the invariant of `process_wait`. -/
theorem SemaPending.step (h : SemaPending s) (hw : WaitInv s) {a : ProcAct}
    (he : ProcEnabled s a) : SemaPending (procStep s a) := by
  cases a with
  | exec =>
    -- the fresh record belongs to a child that has not started
    have hu : s.parent = .user := he
    have hnc := ParentPc.not_consumed (p := s.parent) (by simp [hu]) (by simp [hu])
    refine h.of_step (fun u hr _ => ⟨hr, hnc u⟩) fun u h7 _ => .inr ?_
    by_cases hn : u = s.nextTid
    · subst hn
      have h0 := hw.hist.kid_fresh _ (Nat.le_refl s.nextTid)
      simp only [procStep, kids_setRec, h0] at h7
      cases h7
    · exact ⟨h7, by simp [procStep, hn]⟩
  | wait pid =>
    have hu : s.parent = .user := he
    have hnc := ParentPc.not_consumed (p := s.parent) (by simp [hu]) (by simp [hu])
    have hs := findChild_snd pid s.children s
    simp only [procStep]
    split
    all_goals
      next heq =>
      rw [heq] at hs
      simp only at hs
      rw [hs]
      exact h.of_step (fun u hr _ => ⟨hr, hnc u⟩) fun u h7 _ => .inr ⟨h7, rfl⟩
  | exit =>
    have hu : s.parent = .user := he
    exact h.of_same rfl rfl (fun _ => rfl) fun u _ =>
      ParentPc.not_consumed (by simp [hu]) (by simp [hu]) u
  | parent =>
    cases hp : s.parent with
    | user | dead => simp [ProcEnabled, hp] at he
    | waitDown t =>
      -- the `sema_down` takes the child's `sema_up`, and the wait is then past it
      have hnc := ParentPc.not_consumed (p := s.parent) (by simp [hp]) (by simp [hp])
      simp only [procStep, parentStep, hp]
      refine h.of_step (fun u hr _ => ⟨by simpa [writeRec] using hr, hnc u⟩)
        fun u h7 hc => .inr ⟨by simpa [writeRec] using h7, ?_⟩
      have hut : u ≠ t := by
        rintro rfl
        exact hc (.inl rfl)
      simp [writeRec, hut]
    | waitRead t =>
      simp only [procStep, parentStep, hp]
      refine h.of_same (by simp) (by simp) (fun _ => by simp) fun u hc hpre => hc ?_
      rcases hpre with h1 | ⟨w, h1⟩ <;> rw [hp] at h1 <;> cases h1
      exact .inr ⟨_, rfl⟩
    | waitFree t v =>
      -- the child whose wait returns is reaped
      simp only [procStep, parentStep, hp]
      refine h.of_step (fun u hr _ => ?_) fun u h7 _ =>
        .inr ⟨by simpa [freeRec, writeRec] using h7, waitSema_freeRec t u⟩
      simp only [List.mem_append, List.mem_singleton, not_or] at hr
      refine ⟨hr.1, ?_⟩
      rintro (h1 | ⟨w, h1⟩) <;> rw [hp] at h1 <;> cases h1
      exact hr.2 rfl
    | execCreate t =>
      have hnc := ParentPc.not_consumed (p := s.parent) (by simp [hp]) (by simp [hp])
      simp only [procStep, parentStep, hp]
      refine h.of_step (fun u hr _ => ⟨hr, hnc u⟩) fun u h7 _ => .inr ?_
      by_cases hut : u = t
      · subst hut
        simp [Child.absent, ChildPc.stage] at h7
      · simp only [kids_setKid, if_neg hut] at h7
        exact ⟨h7, rfl⟩
    | execLoad t =>
      have hnc := ParentPc.not_consumed (p := s.parent) (by simp [hp]) (by simp [hp])
      simp only [procStep, parentStep, hp]
      exact h.of_same (by simp [writeRec]) (by simp [writeRec])
        (waitSema_writeRec (f := fun r => { r with loadSema := r.loadSema - 1 }) fun _ => rfl)
        fun u _ => hnc u
    | execCheck t =>
      have hnc := ParentPc.not_consumed (p := s.parent) (by simp [hp]) (by simp [hp])
      simp only [procStep, parentStep, hp]
      split
      · exact h.of_same (by simp) (by simp) (fun _ => by simp) fun u _ => hnc u
      · exact h.of_same (by simp [freeRec, writeRec]) (by simp [freeRec, writeRec])
          (fun u => by rw [waitSema_freeRec]; simp) fun u _ => hnc u
    | exitLoop =>
      have hnc := ParentPc.not_consumed (p := s.parent) (by simp [hp]) (by simp [hp])
      simp only [procStep, parentStep, hp]
      split
      · exact h.of_same rfl rfl (fun _ => rfl) fun u _ => hnc u
      · exact h.of_same (by simp [writeRec]) (by simp [writeRec])
          (waitSema_writeRec (f := ({ · with hasParent := false })) fun _ => rfl) fun u _ => hnc u
    | exitUnlink t =>
      have hnc := ParentPc.not_consumed (p := s.parent) (by simp [hp]) (by simp [hp])
      simp only [procStep, parentStep, hp]
      exact h.of_same (by simp) (by simp) (fun _ => by simp) fun u _ => hnc u
    | exitTest t =>
      have hnc := ParentPc.not_consumed (p := s.parent) (by simp [hp]) (by simp [hp])
      simp only [procStep, parentStep, hp]
      split
      · exact h.of_same (by simp [freeRec, writeRec]) (by simp [freeRec, writeRec])
          (fun u => by rw [waitSema_freeRec]; simp) fun u _ => hnc u
      · exact h.of_same (by simp) (by simp) (fun _ => by simp) fun u _ => hnc u
  | load t ok =>
    have hpc : (s.kids t).pc = .start := he
    have hf := childFrame_procStep (s := s) (a := .load t ok) rfl
    refine h.of_step (fun u hr hc => ⟨hf.reaped ▸ hr, hf.parent ▸ hc⟩) fun u h7 _ => .inr ?_
    by_cases hut : u = t
    · subst hut
      cases ok <;> simp [procStep, ChildPc.stage] at h7
    · rw [hf.kids u hut] at h7
      exact ⟨h7, by rw [hf.recs u hut]⟩
  | mmap t =>
    have hpc : (s.kids t).pc = .user := he
    have hf := childFrame_procStep (s := s) (a := .mmap t) rfl
    refine h.of_step (fun u hr hc => ⟨hf.reaped ▸ hr, hf.parent ▸ hc⟩) fun u h7 _ => .inr ?_
    by_cases hut : u = t
    · subst hut
      simp [procStep, hpc, ChildPc.stage] at h7
    · rw [hf.kids u hut] at h7
      exact ⟨h7, by rw [hf.recs u hut]⟩
  | sysExit t v =>
    have hf := childFrame_procStep (s := s) (a := .sysExit t v) rfl
    refine h.of_step (fun u hr hc => ⟨hf.reaped ▸ hr, hf.parent ▸ hc⟩) fun u h7 _ => .inr ?_
    by_cases hut : u = t
    · subst hut
      simp [procStep, ChildPc.stage] at h7
    · rw [hf.kids u hut] at h7
      exact ⟨h7, by rw [hf.recs u hut]⟩
  | child t =>
    have hf := childFrame_procStep (s := s) (a := .child t) rfl
    refine h.of_step (fun u hr hc => ⟨hf.reaped ▸ hr, hf.parent ▸ hc⟩) fun u h7 _ => ?_
    by_cases hut : u = t
    · subst hut
      exact childStep_waitSema (hw.record.has_record u) h7
    · rw [hf.kids u hut] at h7
      exact .inr ⟨h7, by rw [hf.recs u hut]⟩

theorem semaPending_invariant : procSystem.Invariant fun s => WaitInv s ∧ SemaPending s :=
  ⟨⟨waitInv_init, semaPending_init⟩, fun _ _ h he => ⟨h.1.step he, h.2.step h.1 he⟩⟩

end Pending

theorem findChild_fst_none {pid : ℤ} {l : List ℕ} {s : ProcState} (h : ∀ t ∈ l, (t : ℤ) ≠ pid) :
    (findChild pid l s).1 = none := by
  induction l generalizing s with
  | nil => rfl
  | cons u us ih =>
    unfold findChild
    rw [if_neg (h u List.mem_cons_self)]
    exact ih fun t ht => h t (List.mem_cons_of_mem u ht)

/-- The parent's next statement, when it can take it, is the first step of a replay. -/
theorem replay_parent {s : ProcState} (he : ProcEnabled s .parent) (as : List ProcAct) :
    procSystem.replay s (.parent :: as) = procSystem.replay (parentStep s) as := by
  rw [System.replay_cons, if_pos (show procSystem.Enabled s .parent from he)]
  rfl

theorem reachable_parentStep {s : ProcState} (hs : procSystem.Reachable s)
    (he : ProcEnabled s .parent) : procSystem.Reachable (parentStep s) :=
  hs.step ProcAct.parent he

/-- A parent that has read the status returns it with its next statement. -/
theorem waitReturn_of_waitFree {s : ProcState} (hs : procSystem.Reachable s) {t : ℕ} {v : ℤ}
    (hp : s.parent = .waitFree t v) :
    ProcEnabled s .parent ∧ waitReturn s .parent = some ((t : ℤ), v) ∧ (s.kids t).status = some v :=
  ⟨by simp [ProcEnabled, hp], by simp [waitReturn, hp],
    (waitInv_invariant.holds hs).read.free_status t v hp⟩

/-- Once the child a wait is for has done the `sema_up` of `sys_exit`, the parent's own
statements, at most three of them, return the child's status. -/
theorem wait_progress {s : ProcState} (hs : procSystem.Reachable s) {t : ℕ}
    (hw : s.parent.waitingFor = some t) (h7 : 7 ≤ (s.kids t).pc.stage) :
    ∃ v, (s.kids t).status = some v ∧ ∃ n ≤ 2, ∃ s', procSystem.replay s (List.replicate n .parent) =
      some s' ∧ ProcEnabled s' .parent ∧ waitReturn s' .parent = some ((t : ℤ), v) := by
  obtain ⟨h, hpend⟩ := semaPending_invariant.holds hs
  -- from `waitRead` the parent reads the status and reaches `waitFree`
  have hread : ∀ s₁, procSystem.Reachable s₁ → s₁.parent = .waitRead t → s₁.kids = s.kids →
      ∃ v, (s.kids t).status = some v ∧ ∃ s', procSystem.replay s₁ [.parent] = some s' ∧
        ProcEnabled s' .parent ∧ waitReturn s' .parent = some ((t : ℤ), v) := by
    intro s₁ hs₁ hp₁ hk₁
    have he₁ : ProcEnabled s₁ .parent := by simp [ProcEnabled, hp₁]
    have hp₂ : (parentStep s₁).parent = .waitFree t (s₁.recs t).exitStatus := by
      simp [parentStep, hp₁]
    obtain ⟨he₂, hr₂, hv₂⟩ := waitReturn_of_waitFree (reachable_parentStep hs₁ he₁) hp₂
    have hk₂ : (parentStep s₁).kids = s.kids := by simp [parentStep, hp₁, hk₁]
    exact ⟨_, hk₂ ▸ hv₂, _, by rw [replay_parent he₁, System.replay_nil], he₂, hr₂⟩
  cases hp : s.parent with
  | waitFree u w =>
    obtain rfl : u = t := by simpa [hp, ParentPc.waitingFor] using hw
    obtain ⟨he, hr, hv⟩ := waitReturn_of_waitFree hs hp
    exact ⟨w, hv, 0, by omega, s, rfl, he, hr⟩
  | waitRead u =>
    obtain rfl : u = t := by simpa [hp, ParentPc.waitingFor] using hw
    obtain ⟨v, hv, s', hr, he, hret⟩ := hread s hs hp rfl
    exact ⟨v, hv, 1, by omega, s', hr, he, hret⟩
  | waitDown u =>
    obtain rfl : u = t := by simpa [hp, ParentPc.waitingFor] using hw
    -- the child's `sema_up` is still there for the `sema_down`
    have hre := (h.call.wait_target u hw).2.1
    have hsema := hpend u h7 hre (ParentPc.not_consumed (by simp [hp]) (by simp [hp]) u)
    have he : ProcEnabled s .parent := by simpa [ProcEnabled, hp] using hsema
    have hp₁ : (parentStep s).parent = .waitRead u := by simp [parentStep, hp]
    have hk₁ : (parentStep s).kids = s.kids := by simp [parentStep, hp, writeRec]
    obtain ⟨v, hv, s', hr, he', hret⟩ := hread _ (reachable_parentStep hs he) hp₁ hk₁
    exact ⟨v, hv, 2, by omega, s', by rw [List.replicate_succ, replay_parent he]; exact hr, he', hret⟩
  | user | dead | execCreate _ | execLoad _ | execCheck _ | exitLoop | exitUnlink _ | exitTest _ =>
    simp [hp, ParentPc.waitingFor] at hw

/-- `process_wait` returns only what it should, and returns. A wait for a pid that is not a
child that `exec` returned and no wait has reaped returns -1 at once; a wait for such a child
finds it, and returns, after the child has set `exited`, the status it passed to `sys_exit`:
once the child has done the `sema_up` of `sys_exit`, at most three statements of the parent
return. `execOk` and `reaped` change only by the parent's own steps, so `Waitable` at the
return is `Waitable` at the call. -/
theorem process_wait_returns {s : ProcState} (hs : procSystem.Reachable s) :
    (∀ a pid v, ProcEnabled s a → waitReturn s a = some (pid, v) →
      (Waitable s pid → ∃ t : ℕ, pid = t ∧ (s.kids t).status = some v ∧ (s.recs t).exited = true) ∧
        (¬ Waitable s pid → v = -1)) ∧
    (s.parent = .user → ∀ pid, ¬ Waitable s pid → waitReturn s (.wait pid) = some (pid, -1)) ∧
    (s.parent = .user → ∀ t : ℕ, Waitable s t → (procStep s (.wait t)).parent = .waitDown t) ∧
    ∀ t, s.parent.waitingFor = some t → 7 ≤ (s.kids t).pc.stage →
      ∃ v, (s.kids t).status = some v ∧ ∃ n ≤ 2, ∃ s',
        procSystem.replay s (List.replicate n .parent) = some s' ∧ ProcEnabled s' .parent ∧
          waitReturn s' .parent = some ((t : ℤ), v) := by
  have h := waitInv_invariant.holds hs
  refine ⟨fun a pid v ha hr => ?_, fun hu pid hn => ?_, fun hu t hwt => ?_,
    fun t hw h7 => wait_progress hs hw h7⟩
  · cases a with
    | wait p =>
      simp only [waitReturn] at hr
      split at hr
      · next hn =>
        -- not on the list: a waitable child would be, since the parent is idle
        obtain ⟨rfl, rfl⟩ := Prod.mk.inj (Option.some.inj hr)
        refine ⟨fun ⟨t, hpt, hok, hre⟩ => ?_, fun _ => rfl⟩
        have hmem := h.call.idle_complete (by simp [show s.parent = .user from ha, ParentPc.Idle])
          t hok hre
        exact absurd hpt.symm (ProcState.findChild_none hn t hmem)
      · cases hr
    | parent =>
      simp only [waitReturn] at hr
      split at hr
      · next t w hp =>
        obtain ⟨rfl, rfl⟩ := Prod.mk.inj (Option.some.inj hr)
        have h7 := h.read.read_after t (Or.inr ⟨w, hp⟩)
        obtain ⟨hok, hre, -⟩ := h.call.wait_target t (by simp [hp, ParentPc.waitingFor])
        exact ⟨fun _ => ⟨t, rfl, h.read.free_status t w hp, h.record.exited t (by omega)⟩,
          fun hn => absurd ⟨t, rfl, hok, hre⟩ hn⟩
      · cases hr
    | _ => simp [waitReturn] at hr
  · -- every child on the list is waitable
    have hnone : (findChild pid s.children s).1 = none := findChild_fst_none fun t ht hpt =>
      hn ⟨t, hpt.symm, h.hist.children_waitable t ht⟩
    simp [waitReturn, hnone]
  · -- an idle parent's list holds every waitable child
    obtain ⟨u, hut, hok, hre⟩ := hwt
    obtain rfl : u = t := by exact_mod_cast hut.symm
    have hmem := h.call.idle_complete (by simp [hu, ParentPc.Idle]) u hok hre
    have hsome : (findChild u s.children s).1 ≠ none := fun hn =>
      ProcState.findChild_none hn u hmem rfl
    obtain ⟨u', hu'⟩ := Option.ne_none_iff_exists'.mp hsome
    obtain rfl : u' = u := by exact_mod_cast (ProcState.findChild_some hu').2
    simp only [procStep]
    split
    · next u'' s₁ heq =>
      rw [heq] at hu'
      cases hu'
      rfl
    · next s₁ heq =>
      rw [heq] at hu'
      cases hu'

/-- A wait for a child that has not exited: `exec`, the load, the parent's wait, then the
child's `sys_exit (7)` up to its `sema_up`, with the parent still at its `sema_down`. -/
def waitForExit : List ProcAct :=
  [.exec, .parent, .load 2 true, .parent, .parent, .wait 2, .sysExit 2 7,
    .child 2, .child 2, .child 2, .child 2, .child 2]

theorem process_wait_returns_seven :
    ∃ s, procSystem.Reachable s ∧ s.parent = .waitDown 2 ∧ ∃ n ≤ 2, ∃ s',
      procSystem.replay s (List.replicate n .parent) = some s' ∧ ProcEnabled s' .parent ∧
        waitReturn s' .parent = some (2, 7) := by
  obtain ⟨s, hs, hp, h7, hst⟩ := System.exists_reachable_of_replay (S := procSystem)
    (P := fun s => s.parent = .waitDown 2 ∧ 7 ≤ (s.kids 2).pc.stage ∧ (s.kids 2).status = some 7)
    waitForExit (by decide)
  obtain ⟨v, hv, hret⟩ := (process_wait_returns hs).2.2.2 2 (by rw [hp]; rfl) h7
  rw [hst] at hv
  cases hv
  exact ⟨s, hs, hp, hret⟩

/-- What `sys_exit` does before its `sema_up` is done when a wait returns: the child's
descriptors are closed and its executable accepts writes again. -/
theorem exit_actions_before_wait_returns {s : ProcState} (hs : procSystem.Reachable s) {t : ℕ}
    {v : ℤ} (hp : s.parent = .waitFree t v) :
    (s.kids t).fdsClosed = true ∧ (s.kids t).exeWritable = true := by
  have h := waitInv_invariant.holds hs
  have h7 := h.read.read_after t (Or.inr ⟨v, hp⟩)
  exact ⟨h.record.fds_closed t (by omega), h.record.exe_writable t (by omega)⟩

/-- The child reads `parent_thread` of a record its parent has freed: the parent waits, the
child's `sema_up` releases it, and the parent frees the record before the child's test. -/
def waitThenFree : List ProcAct :=
  [.exec, .parent, .load 2 true, .parent, .parent, .wait 2, .sysExit 2 0,
    .child 2, .child 2, .child 2, .child 2, .child 2, .parent, .parent, .parent]

/-- The record is freed twice: the exiting parent clears `parent_thread`, the child sets
`exited`, finds no parent and frees the record, and the parent's `list_remove` and test of
`exited` follow on the freed block. -/
def exitRace : List ProcAct :=
  [.exec, .parent, .load 2 true, .parent, .parent, .sysExit 2 0, .child 2, .child 2, .child 2,
    .exit, .parent, .child 2, .child 2, .child 2, .parent]

theorem child_record_used_after_free :
    (∃ s, procSystem.Reachable s ∧ s.fault = false ∧ (s.recs 2).freed = true ∧
      (s.kids 2).pc = .exitTest ∧ ProcEnabled s (.child 2) ∧ (procStep s (.child 2)).fault = true) ∧
    (∃ s, procSystem.Reachable s ∧ (s.kids 2).pc = .exitProcess ∧ (s.recs 2).freed = true ∧
      s.parent = .exitTest 2 ∧ (s.recs 2).exited = true) :=
  ⟨System.exists_reachable_of_replay waitThenFree (by decide),
    System.exists_reachable_of_replay exitRace (by decide)⟩

/-- The parent's wait returns before the child's `process_exit` writes its mapped file back. -/
def waitBeforeUnmap : List ProcAct :=
  [.exec, .parent, .load 2 true, .parent, .parent, .mmap 2, .wait 2, .sysExit 2 0,
    .child 2, .child 2, .child 2, .child 2, .child 2, .parent, .parent]

theorem wait_returns_before_unmap :
    ∃ s, procSystem.Reachable s ∧ ProcEnabled s .parent ∧ waitReturn s .parent = some (2, 0) ∧
      (s.kids 2).mmapDirty = true :=
  System.exists_reachable_of_replay waitBeforeUnmap (by decide)

end Pintos
