import Pintos.Lib.Transition
import Mathlib.Data.List.Nodup
import Mathlib.Data.Int.Order.Basic

/-! # Process creation, exit and wait

`process_execute`, `start_process`, `process_wait` and `process_exit` of
`userprog/process.c`, and the record handling of `sys_exit` in
`userprog/syscall.c`, for one parent process `P` and the children it creates,
at the granularity of their C statements: any thread may be preempted
between two of them, and the interleaving is free.

A child's `struct child_process` is allocated by `P` before the child runs,
shared by the two, and freed by whichever of them finds, by two flags neither
protects, that it is the last user: `P` after a wait or in its exit loop when
the child has `exited`, the child in `sys_exit` when `parent_thread` is null.
Records are named by the child's tid. The heap state of each record is kept,
and every statement that touches a freed record, or frees one twice, raises
`fault`.

The child's exit actions that others can see are tracked as well: its
descriptors closed and its executable writable again (both in `sys_exit`),
and its dirty file mappings written back (`mmap_unmap_all`, in
`process_exit`, which runs after `sys_exit` has released the parent).
-/

namespace Pintos

/-- `struct child_process` and whether its block is allocated or freed. -/
structure ChildRec where
  exitStatus : ℤ
  exited : Bool
  loadStatus : Bool
  loadSema : ℕ
  waitSema : ℕ
  -- `parent_thread` is not null.
  hasParent : Bool
  freed : Bool
  deriving DecidableEq, Repr

/-- The record as `process_execute` initialises it. -/
def ChildRec.init : ChildRec :=
  { exitStatus := -1, exited := false, loadStatus := false, loadSema := 0, waitSema := 0,
    hasParent := true, freed := false }

/-- Where the parent is: between calls, or before the next statement of a call. -/
inductive ParentPc
  | user
  -- `process_execute`: the record for tid `t` is set up; next `thread_create`.
  | execCreate (t : ℕ)
  -- At `sema_down (&child->load_sema)`.
  | execLoad (t : ℕ)
  -- Past it: testing `load_status`.
  | execCheck (t : ℕ)
  -- `process_wait`: the record was found and unlinked; at `sema_down (&child->wait_sema)`.
  | waitDown (t : ℕ)
  -- Past it: reading `exit_status`.
  | waitRead (t : ℕ)
  -- Freeing the record, then returning `status`.
  | waitFree (t : ℕ) (status : ℤ)
  -- `process_exit`: at the test of its loop over the children.
  | exitLoop
  -- `parent_thread` of `t` cleared; next `list_remove`.
  | exitUnlink (t : ℕ)
  -- Unlinked; next the test of `exited`.
  | exitTest (t : ℕ)
  | dead
  deriving DecidableEq, Repr

/-- Where a child is. -/
inductive ChildPc
  | absent
  -- In `start_process`, loading.
  | start
  -- The load failed; `thread_exit` follows.
  | failed
  -- Exited after a failed load.
  | gone
  -- Running user code.
  | user
  -- In `sys_exit`: next `fd_close_all`.
  | exitFds
  -- Next: `file_allow_write` and `file_close` of the executable.
  | exitExe
  -- Next: `child_rec->exit_status = status`.
  | exitStatus
  -- Next: `child_rec->exited = true`.
  | exitFlag
  -- Next: `sema_up (&child_rec->wait_sema)`.
  | exitUp
  -- Next: the test of `parent_thread` and the `free`.
  | exitTest
  -- In `thread_exit`, next `process_exit`: `mmap_unmap_all` and the rest.
  | exitProcess
  | dead
  deriving DecidableEq, Repr

/-- How far a child has gone through `sys_exit` and `process_exit`. -/
def ChildPc.stage : ChildPc → ℕ
  | .absent | .start | .failed | .gone => 0
  | .user => 1
  | .exitFds => 2
  | .exitExe => 3
  | .exitStatus => 4
  | .exitFlag => 5
  | .exitUp => 6
  | .exitTest => 7
  | .exitProcess => 8
  | .dead => 9

/-- A child thread. -/
structure Child where
  pc : ChildPc
  -- `my_record` is not null.
  hasRecord : Bool
  -- The status passed to `sys_exit`.
  status : Option ℤ
  fdsClosed : Bool
  exeWritable : Bool
  -- A file mapping with pages not yet written back.
  mmapDirty : Bool
  deriving DecidableEq, Repr

def Child.absent : Child :=
  { pc := .absent, hasRecord := false, status := none, fdsClosed := false, exeWritable := false,
    mmapDirty := false }

/-- The parent, its children and their records. `execOk` lists the tids that `exec` returned
and `reaped` the children whose wait returned their status: both are history, read by the
specification of `process_wait` only. -/
structure ProcState where
  parent : ParentPc
  -- `P`'s `children` list.
  children : List ℕ
  recs : ℕ → ChildRec
  kids : ℕ → Child
  nextTid : ℕ
  fault : Bool
  execOk : List ℕ
  reaped : List ℕ

namespace ProcState

variable (s : ProcState)

def setRec (t : ℕ) (r : ChildRec) : ProcState := { s with recs := Function.update s.recs t r }

def setKid (t : ℕ) (k : Child) : ProcState := { s with kids := Function.update s.kids t k }

/-- A statement reads or writes record `t`. -/
def touch (t : ℕ) : ProcState := if (s.recs t).freed then { s with fault := true } else s

/-- A statement changes record `t` (the write lands even if the block was freed). -/
def writeRec (t : ℕ) (f : ChildRec → ChildRec) : ProcState := (s.touch t).setRec t (f (s.recs t))

/-- `free (child)`. -/
def freeRec (t : ℕ) : ProcState := s.writeRec t ({ · with freed := true })

/-- The search loop of `process_wait`: read each record's `pid` until one matches. -/
def findChild (pid : ℤ) : List ℕ → ProcState → Option ℕ × ProcState
  | [], s => (none, s)
  | t :: ts, s =>
    if (t : ℤ) = pid then (some t, s.touch t) else findChild pid ts (s.touch t)

/-- The state with only its `fault` flag replaced. -/
def withFault (b : Bool) : ProcState := { s with fault := b }

variable {s}

theorem touch_eq (t : ℕ) : s.touch t = s.withFault (s.touch t).fault := by
  unfold touch withFault
  split <;> rfl

@[simp] theorem recs_withFault (b : Bool) : (s.withFault b).recs = s.recs := rfl
@[simp] theorem kids_withFault (b : Bool) : (s.withFault b).kids = s.kids := rfl
@[simp] theorem children_withFault (b : Bool) : (s.withFault b).children = s.children := rfl
@[simp] theorem parent_withFault (b : Bool) : (s.withFault b).parent = s.parent := rfl
@[simp] theorem nextTid_withFault (b : Bool) : (s.withFault b).nextTid = s.nextTid := rfl
@[simp] theorem execOk_withFault (b : Bool) : (s.withFault b).execOk = s.execOk := rfl
@[simp] theorem reaped_withFault (b : Bool) : (s.withFault b).reaped = s.reaped := rfl

@[simp] theorem recs_touch (t : ℕ) : (s.touch t).recs = s.recs := by rw [touch_eq]; rfl
@[simp] theorem kids_touch (t : ℕ) : (s.touch t).kids = s.kids := by rw [touch_eq]; rfl
@[simp] theorem children_touch (t : ℕ) : (s.touch t).children = s.children := by rw [touch_eq]; rfl
@[simp] theorem parent_touch (t : ℕ) : (s.touch t).parent = s.parent := by rw [touch_eq]; rfl
@[simp] theorem nextTid_touch (t : ℕ) : (s.touch t).nextTid = s.nextTid := by rw [touch_eq]; rfl
@[simp] theorem execOk_touch (t : ℕ) : (s.touch t).execOk = s.execOk := by rw [touch_eq]; rfl
@[simp] theorem reaped_touch (t : ℕ) : (s.touch t).reaped = s.reaped := by rw [touch_eq]; rfl

@[simp] theorem recs_setRec (t u : ℕ) (r : ChildRec) :
    (s.setRec t r).recs u = if u = t then r else s.recs u := by
  simp [setRec, Function.update_apply]
@[simp] theorem kids_setRec (t : ℕ) (r : ChildRec) : (s.setRec t r).kids = s.kids := rfl
@[simp] theorem children_setRec (t : ℕ) (r : ChildRec) : (s.setRec t r).children = s.children := rfl
@[simp] theorem parent_setRec (t : ℕ) (r : ChildRec) : (s.setRec t r).parent = s.parent := rfl
@[simp] theorem nextTid_setRec (t : ℕ) (r : ChildRec) : (s.setRec t r).nextTid = s.nextTid := rfl
@[simp] theorem execOk_setRec (t : ℕ) (r : ChildRec) : (s.setRec t r).execOk = s.execOk := rfl
@[simp] theorem reaped_setRec (t : ℕ) (r : ChildRec) : (s.setRec t r).reaped = s.reaped := rfl

@[simp] theorem kids_setKid (t u : ℕ) (k : Child) :
    (s.setKid t k).kids u = if u = t then k else s.kids u := by
  simp [setKid, Function.update_apply]
@[simp] theorem recs_setKid (t : ℕ) (k : Child) : (s.setKid t k).recs = s.recs := rfl
@[simp] theorem children_setKid (t : ℕ) (k : Child) : (s.setKid t k).children = s.children := rfl
@[simp] theorem parent_setKid (t : ℕ) (k : Child) : (s.setKid t k).parent = s.parent := rfl
@[simp] theorem nextTid_setKid (t : ℕ) (k : Child) : (s.setKid t k).nextTid = s.nextTid := rfl
@[simp] theorem execOk_setKid (t : ℕ) (k : Child) : (s.setKid t k).execOk = s.execOk := rfl
@[simp] theorem reaped_setKid (t : ℕ) (k : Child) : (s.setKid t k).reaped = s.reaped := rfl

/-- The search changes nothing but `fault`. -/
theorem findChild_snd (pid : ℤ) (l : List ℕ) (s : ProcState) :
    (findChild pid l s).2 = s.withFault (findChild pid l s).2.fault := by
  induction l generalizing s with
  | nil => rfl
  | cons t ts ih =>
    unfold findChild
    split
    · rw [touch_eq]; rfl
    · rw [ih, touch_eq]; rfl

theorem findChild_some {pid : ℤ} {l : List ℕ} {s : ProcState} {t : ℕ}
    (h : (findChild pid l s).1 = some t) : t ∈ l ∧ (t : ℤ) = pid := by
  induction l generalizing s with
  | nil => cases h
  | cons u us ih =>
    unfold findChild at h
    split at h
    · next hu =>
      cases h
      exact ⟨List.mem_cons_self, hu⟩
    · obtain ⟨hm, he⟩ := ih h
      exact ⟨List.mem_cons_of_mem u hm, he⟩

theorem findChild_none {pid : ℤ} {l : List ℕ} {s : ProcState}
    (h : (findChild pid l s).1 = none) : ∀ t ∈ l, (t : ℤ) ≠ pid := by
  induction l generalizing s with
  | nil => simp
  | cons u us ih =>
    unfold findChild at h
    split at h
    · cases h
    · next hu =>
      intro t ht
      rcases List.mem_cons.mp ht with rfl | ht
      · exact hu
      · exact ih h t ht

end ProcState

/-- The steps: a call made by user code, the next statement of a thread, or a child's load
finishing. -/
inductive ProcAct
  | exec
  | wait (pid : ℤ)
  | exit
  -- The parent's next statement.
  | parent
  | load (t : ℕ) (ok : Bool)
  -- User code of child `t` maps a file and dirties a page of it.
  | mmap (t : ℕ)
  -- User code of child `t` calls `exit`, or faults and `kill` calls `sys_exit (-1)`.
  | sysExit (t : ℕ) (status : ℤ)
  -- Child `t`'s next statement.
  | child (t : ℕ)
  deriving DecidableEq, Repr

open ProcState

/-- The parent's next statement. -/
def parentStep (s : ProcState) : ProcState :=
  match s.parent with
  | .execCreate t =>
    -- `thread_create`, then `child->pid = tid`
    { s.setKid t { Child.absent with pc := .start } with
      nextTid := s.nextTid + 1, parent := .execLoad t }
  | .execLoad t =>
    { s.writeRec t fun r => { r with loadSema := r.loadSema - 1 } with parent := .execCheck t }
  | .execCheck t =>
    let s₁ := s.touch t
    if (s.recs t).loadStatus then
      { s₁ with children := s.children ++ [t], execOk := s.execOk ++ [t], parent := .user }
    else { s₁.freeRec t with parent := .user }
  | .waitDown t =>
    { s.writeRec t fun r => { r with waitSema := r.waitSema - 1 } with parent := .waitRead t }
  | .waitRead t => { s.touch t with parent := .waitFree t (s.recs t).exitStatus }
  | .waitFree t _ => { s.freeRec t with reaped := s.reaped ++ [t], parent := .user }
  | .exitLoop =>
    match s.children with
    | [] => { s with parent := .dead }
    | t :: _ => { s.writeRec t ({ · with hasParent := false }) with parent := .exitUnlink t }
  | .exitUnlink t => { s.touch t with children := s.children.erase t, parent := .exitTest t }
  | .exitTest t =>
    let s₁ := s.touch t
    { (if (s.recs t).exited then s₁.freeRec t else s₁) with parent := .exitLoop }
  | .user | .dead => s

/-- Child `t`'s next statement. -/
def childStep (s : ProcState) (t : ℕ) : ProcState :=
  let k := s.kids t
  match k.pc with
  | .failed => s.setKid t { k with pc := .gone }
  | .exitFds => s.setKid t { k with fdsClosed := true, pc := .exitExe }
  | .exitExe => s.setKid t { k with exeWritable := true, pc := .exitStatus }
  | .exitStatus =>
    if k.hasRecord then
      (s.writeRec t ({ · with exitStatus := k.status.getD 0 })).setKid t { k with pc := .exitFlag }
    else s.setKid t { k with pc := .exitProcess }
  | .exitFlag => (s.writeRec t ({ · with exited := true })).setKid t { k with pc := .exitUp }
  | .exitUp =>
    (s.writeRec t fun r => { r with waitSema := r.waitSema + 1 }).setKid t
      { k with pc := .exitTest }
  | .exitTest =>
    let s₁ := s.touch t
    let s₂ := if (s.recs t).hasParent then s₁ else s₁.freeRec t
    s₂.setKid t { k with hasRecord := false, pc := .exitProcess }
  | .exitProcess => s.setKid t { k with mmapDirty := false, pc := .dead }
  | _ => s

/-- The effect of each step. -/
def procStep (s : ProcState) : ProcAct → ProcState
  | .exec =>
    -- `malloc` and initialise the record of the child about to be created
    { s.setRec s.nextTid ChildRec.init with parent := .execCreate s.nextTid }
  | .wait pid =>
    match findChild pid s.children s with
    | (some t, s₁) => { s₁ with children := s.children.erase t, parent := .waitDown t }
    | (none, s₁) => s₁
  | .exit => { s with parent := .exitLoop }
  | .parent => parentStep s
  | .load t ok =>
    let k := s.kids t
    (s.writeRec t fun r => { r with loadStatus := ok, loadSema := r.loadSema + 1 }).setKid t
      { k with hasRecord := ok, pc := if ok then .user else .failed }
  | .mmap t => s.setKid t { s.kids t with mmapDirty := true }
  | .sysExit t status => s.setKid t { s.kids t with status := some status, pc := .exitFds }
  | .child t => childStep s t

/-- The pid and the value of a `process_wait` call that the step completes, if any: a wait
for a pid not on the list returns -1 at once, and a wait that found its record returns the
status it read once it has freed the record. -/
def waitReturn (s : ProcState) : ProcAct → Option (ℤ × ℤ)
  | .wait pid => if (findChild pid s.children s).1 = none then some (pid, -1) else none
  | .parent =>
    match s.parent with
    | .waitFree t status => some (t, status)
    | _ => none
  | _ => none

/-- When each step can be taken: calls from user code, the parent unless it is blocked in a
`sema_down` whose semaphore is zero, and a child where its code is. -/
def ProcEnabled (s : ProcState) : ProcAct → Prop
  | .exec | .wait _ | .exit => s.parent = .user
  | .parent =>
    match s.parent with
    | .user | .dead => False
    | .execLoad t => 0 < (s.recs t).loadSema
    | .waitDown t => 0 < (s.recs t).waitSema
    | _ => True
  | .load t _ => (s.kids t).pc = .start
  | .mmap t | .sysExit t _ => (s.kids t).pc = .user
  | .child t => (s.kids t).pc ≠ .absent ∧ (s.kids t).pc ≠ .start ∧ (s.kids t).pc ≠ .user ∧
      (s.kids t).pc ≠ .gone ∧ (s.kids t).pc ≠ .dead

instance (s : ProcState) (a : ProcAct) : Decidable (ProcEnabled s a) :=
  match a with
  | .exec | .wait _ | .exit => inferInstanceAs (Decidable (_ = _))
  | .parent =>
    match h : s.parent with
    | .user | .dead => isFalse (by simp [ProcEnabled, h])
    | .execLoad t => decidable_of_iff (0 < (s.recs t).loadSema) (by simp [ProcEnabled, h])
    | .waitDown t => decidable_of_iff (0 < (s.recs t).waitSema) (by simp [ProcEnabled, h])
    | .execCreate _ | .execCheck _ | .waitRead _ | .waitFree _ _ | .exitLoop | .exitUnlink _
    | .exitTest _ => isTrue (by simp [ProcEnabled, h])
  | .load _ _ | .mmap _ | .sysExit _ _ => inferInstanceAs (Decidable (_ = _))
  | .child _ => inferInstanceAs (Decidable (_ ∧ _))

/-- The parent between calls, with no children yet; tids from 2 on are free. -/
def procInit : ProcState where
  parent := .user
  children := []
  recs _ := { ChildRec.init with freed := true }
  kids _ := Child.absent
  nextTid := 2
  fault := false
  execOk := []
  reaped := []

def procSystem : Transition.System ProcState ProcAct where
  init := procInit
  Enabled := ProcEnabled
  step := procStep

instance (s : ProcState) (a : ProcAct) : Decidable (procSystem.Enabled s a) :=
  inferInstanceAs (Decidable (ProcEnabled s a))

end Pintos
