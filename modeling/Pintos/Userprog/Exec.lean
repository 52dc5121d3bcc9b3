import Pintos.Filesys.Inode
import Pintos.Lib.Transition
import Pintos.Userprog.Syscall

/-! # Executables and write denial

`load` in `userprog/process.c` and `sys_open`, `sys_write`, `sys_close` and
`sys_exit` in `userprog/syscall.c`, over the open files of `Filesys.Inode`,
for any number of processes. `load` opens the executable and denies writes to
it before it reads the ELF header; on success the file becomes the thread's
`executable`, which `sys_exit` lets be written again and closes. `kill` of a
user process goes through `sys_exit (-1)`.

Each call runs to its end as one step. A call that takes `file_lock` runs
only while the lock is free, since `lock_acquire` waits otherwise. How `load`
ends depends on the executable's contents and on memory, and is part of the
call.

Two failure paths of `load` go wrong. A bad ELF header closes the file and
closes it again at `done` (`exec_badHeader_faults`): the second `file_close`
reads and frees a `struct file` that `free` has already taken back. A bad
program header jumps to `done` with `file_lock` held, and the thread exits
holding it, so no call that needs the lock runs again
(`fileLock_held_forever`).
-/

namespace Pintos

/-- How `load` ends. -/
inductive LoadResult
  -- `filesys_open` finds no file
  | openFailed
  -- the ELF header is rejected
  | badHeader
  -- a program header is rejected or `load_segment` fails
  | badPhdr
  -- `setup_stack` fails
  | noStack
  | ok
  deriving DecidableEq, Repr

/-- A process: whether it runs, the handle of its `executable`, and its descriptor table of
file handles. -/
structure ExecProc where
  live : Bool
  executable : Option ℕ
  fds : ℕ → Option ℕ

/-- A pid no process has. -/
def ExecProc.dead : ExecProc := ⟨false, none, fun _ => none⟩

/-- The slot the search of `sys_open` takes: the smallest free one in `[2, FD_MAX)`. -/
def ExecProc.freeFd (q : ExecProc) : Option ℕ :=
  (List.range' 2 (fdMax - 2)).find? fun fd => q.fds fd = none

/-- The open files, the processes by pid in creation order, the holder of `file_lock`, and
whether the kernel has used a freed file or failed an `ASSERT`. -/
structure ExecState where
  ft : FileTable
  procs : List ExecProc
  fileLock : Option ℕ
  fault : Bool

inductive ExecCall
  -- a new process loads the executable at a sector
  | exec (sector : ℕ) (r : LoadResult)
  | openFile (p sector : ℕ)
  | write (p : ℕ) (fd : ℤ) (size : ℕ)
  | close (p : ℕ) (fd : ℤ)
  -- `sys_exit`, from the call or from `kill`
  | exit (p : ℕ)
  deriving DecidableEq, Repr

/-- `filesys_open` and `file_deny_write` on the new file: its handle and the table. -/
def FileTable.openDenied (t : FileTable) (sector : ℕ) : Option (ℕ × FileTable) :=
  let (h, t₁) := t.fileOpen sector
  (t₁.fileDenyWrite h).map fun t₂ => (h, t₂)

/-- `load` from `filesys_open` on: the table it leaves, whether it leaves `file_lock` held,
and the executable's handle when it succeeds. -/
def load (t : FileTable) (sector : ℕ) : LoadResult → Option (FileTable × Bool × Option ℕ)
  | .openFailed => some (t, false, none)
  | .badHeader => do
    let (h, t₁) ← t.openDenied sector
    -- the header check closes the file, and `done` closes it again
    let t₂ ← t₁.fileClose h
    let t₃ ← t₂.fileClose h
    return (t₃, false, none)
  | .badPhdr => do
    let (h, t₁) ← t.openDenied sector
    -- `goto done` with `file_lock` still held
    return (← t₁.fileClose h, true, none)
  | .noStack => do
    let (h, t₁) ← t.openDenied sector
    return (← t₁.fileClose h, false, none)
  | .ok => do
    let (h, t₁) ← t.openDenied sector
    return (t₁, false, some h)

namespace ExecState

variable (s : ExecState)

def proc (p : ℕ) : ExecProc := s.procs.getD p .dead

def setProc (p : ℕ) (q : ExecProc) : ExecState := { s with procs := s.procs.set p q }

def setFd (p fd : ℕ) (h : Option ℕ) : ExecState :=
  s.setProc p { s.proc p with fds := Function.update (s.proc p).fds fd h }

/-- `fd_get`, and the range check of `fd_detach`. -/
def fdGet (p : ℕ) (fd : ℤ) : Option ℕ :=
  if fd < 2 ∨ fdMax ≤ fd then none else (s.proc p).fds fd.toNat

/-- `process_execute` with `load` in the new thread, which gets the next pid: it lives on
only if `load` succeeds. -/
def exec (sector : ℕ) (r : LoadResult) : Option ExecState := do
  let (ft, locked, executable) ← load s.ft sector r
  return { s with
    ft := ft
    procs := s.procs ++ [⟨executable.isSome, executable, fun _ => none⟩]
    fileLock := if locked then some s.procs.length else none }

/-- `sys_open` from `filesys_open` on: the first free slot from 2 gets the file, or it is
closed again. -/
def openFile (p sector : ℕ) : Option ExecState :=
  let (h, ft) := s.ft.fileOpen sector
  match (s.proc p).freeFd with
  | some fd => some ({ s with ft := ft }.setFd p fd (some h))
  | none => (ft.fileClose h).map fun ft' => { s with ft := ft' }

/-- Whether `sys_write` reaches `file_write`, under `file_lock`. -/
def writeTakesLock (p : ℕ) (fd : ℤ) (size : ℕ) : Bool :=
  size ≠ 0 && fd ≠ 0 && fd ≠ 1 && (s.fdGet p fd).isSome

/-- What `sys_write` of `size` bytes from a good buffer returns. Each round of its loop
writes a chunk through `file_write`, and stops at the first that writes nothing: all
`size` bytes, or none while writes are denied. -/
def sysWrite (p : ℕ) (fd : ℤ) (size : ℕ) : Option ℤ :=
  if size = 0 then some 0
  else if fd = 0 then some (-1)
  else if fd = 1 then some size
  else
    match s.fdGet p fd with
    | none => some (-1)
    | some h => (s.ft.fileWrite h size).map fun n => (n : ℤ)

def write (p : ℕ) (fd : ℤ) (size : ℕ) : Option ExecState :=
  (s.sysWrite p fd size).map fun _ => s

/-- `sys_close`: `fd_detach`, then `file_close`. -/
def close (p : ℕ) (fd : ℤ) : Option ExecState :=
  if fd = 0 ∨ fd = 1 then some s
  else
    match s.fdGet p fd with
    | none => some s
    | some h =>
      let s₁ := s.setFd p fd.toNat none
      (s₁.ft.fileClose h).map fun ft => { s₁ with ft := ft }

/-- One round of `fd_close_all`: close the file in slot `fd`, if any, and clear the slot. -/
def closeSlot (p : ℕ) (s : ExecState) (fd : ℕ) : Option ExecState :=
  match (s.proc p).fds fd with
  | none => some s
  | some h => (s.ft.fileClose h).map fun ft => { s with ft := ft }.setFd p fd none

/-- `sys_exit`: `fd_close_all`, then `file_allow_write` and `file_close` on the executable;
`thread_exit` ends the process. -/
def exit (p : ℕ) : Option ExecState := do
  let s₁ ← (List.range' 2 (fdMax - 2)).foldlM (closeSlot p) s
  let s₂ ← match (s₁.proc p).executable with
    | none => some s₁
    | some h => do
      let ft₁ ← s₁.ft.fileAllowWrite h
      let ft₂ ← ft₁.fileClose h
      return { s₁ with ft := ft₂ }
  return s₂.setProc p { s₂.proc p with live := false, executable := none }

end ExecState

open ExecState

def execRun (s : ExecState) : ExecCall → Option ExecState
  | .exec sector r => s.exec sector r
  | .openFile p sector => s.openFile p sector
  | .write p fd size => s.write p fd size
  | .close p fd => s.close p fd
  | .exit p => s.exit p

/-- A call that uses a freed file or fails an `ASSERT` leaves the state as it found it and
raises `fault`. -/
def execStep (s : ExecState) (c : ExecCall) : ExecState :=
  (execRun s c).getD { s with fault := true }

/-- A process's calls run while it lives, and those that take `file_lock` only while no
one holds it. -/
def ExecEnabled (s : ExecState) : ExecCall → Prop
  | .exec _ _ => s.fileLock = none
  | .openFile p _ | .exit p => (s.proc p).live ∧ s.fileLock = none
  | .write p fd size => (s.proc p).live ∧ (s.writeTakesLock p fd size → s.fileLock = none)
  | .close p fd => (s.proc p).live ∧ (fd ≠ 0 ∧ fd ≠ 1 ∧ (s.fdGet p fd).isSome → s.fileLock = none)

instance (s : ExecState) (c : ExecCall) : Decidable (ExecEnabled s c) :=
  match c with
  | .exec _ _ => inferInstanceAs (Decidable (_ = _))
  | .openFile _ _ | .exit _ | .write _ _ _ | .close _ _ => inferInstanceAs (Decidable (_ ∧ _))

/-- No file open, no process. -/
def execInit : ExecState where
  ft := ⟨fun _ => ⟨0, 0⟩, fun _ => none, 0⟩
  procs := []
  fileLock := none
  fault := false

def execSystem : Transition.System ExecState ExecCall where
  init := execInit
  Enabled := ExecEnabled
  step := execStep

instance (s : ExecState) (c : ExecCall) : Decidable (execSystem.Enabled s c) :=
  inferInstanceAs (Decidable (ExecEnabled s c))

section Load

theorem load_badHeader (t : FileTable) (sector : ℕ) : load t sector .badHeader = none := by
  simp only [load]
  cases hd : t.openDenied sector with
  | none => rfl
  | some r =>
    obtain ⟨h, t₁⟩ := r
    cases hc : t₁.fileClose h with
    | none => simp [hc]
    | some t₂ => simp [hc, FileTable.fileClose_of_files_none (FileTable.files_fileClose hc)]

/-- A `load` that fails on the ELF header never gets back to its caller: its second
`file_close` reads the `struct file` the first one freed. -/
theorem exec_badHeader_faults (s : ExecState) (sector : ℕ) :
    (execStep s (.exec sector .badHeader)).fault = true := by
  simp [execStep, execRun, ExecState.exec, load_badHeader]

theorem load_badPhdr {t t' : FileTable} {sector : ℕ} {locked : Bool} {e : Option ℕ}
    (h : load t sector .badPhdr = some (t', locked, e)) : locked = true ∧ e = none := by
  simp only [load] at h
  cases hd : t.openDenied sector with
  | none => simp [hd] at h
  | some r =>
    obtain ⟨h₀, t₁⟩ := r
    cases hc : t₁.fileClose h₀ with
    | none => simp [hd, hc] at h
    | some t₂ =>
      simp [hd, hc] at h
      exact ⟨h.2.1, h.2.2.symm⟩

/-- A `load` that fails on a program header leaves `file_lock` held by its thread, which
has exited. -/
theorem exec_badPhdr_holds_lock {s s' : ExecState} {sector : ℕ}
    (h : s.exec sector .badPhdr = some s') :
    s'.fileLock = some s.procs.length ∧ (s'.proc s.procs.length).live = false := by
  simp only [ExecState.exec] at h
  cases hl : load s.ft sector .badPhdr with
  | none => simp [hl] at h
  | some r =>
    obtain ⟨t', locked, e⟩ := r
    obtain ⟨rfl, rfl⟩ := load_badPhdr hl
    simp only [hl] at h
    cases h
    simp [ExecState.proc]

end Load

section Lock

theorem close_of_locked {s : ExecState} {p q : ℕ} {fd : ℤ} (hl : s.fileLock = some p)
    (hc : fd ≠ 0 ∧ fd ≠ 1 ∧ (s.fdGet q fd).isSome → s.fileLock = none) : s.close q fd = some s := by
  unfold ExecState.close
  split
  · rfl
  · next hfd =>
    split
    · rfl
    · next h hg =>
      have := hc ⟨fun h0 => hfd (.inl h0), fun h1 => hfd (.inr h1), by simp [hg]⟩
      simp [hl] at this

/-- While anyone holds `file_lock`, a call that can run changes nothing but, at most,
`fault`: every call that would change the files takes the lock. -/
theorem execStep_of_locked {s : ExecState} {p : ℕ} (hl : s.fileLock = some p) {c : ExecCall}
    (hc : ExecEnabled s c) : execStep s c = s ∨ execStep s c = { s with fault := true } := by
  cases c with
  | exec => simp [ExecEnabled, hl] at hc
  | openFile q _ => simp [ExecEnabled, hl] at hc
  | exit q => simp [ExecEnabled, hl] at hc
  | write q fd size =>
    rcases hw : s.sysWrite q fd size with _ | _ <;> simp [execStep, execRun, ExecState.write, hw]
  | close q fd => exact .inl (by simp [execStep, execRun, close_of_locked hl hc.2])

/-- A held `file_lock` is never released: no call that can run touches it. -/
theorem fileLock_held_forever {s : ExecState} {p : ℕ} (hl : s.fileLock = some p) {t : ExecState}
    (ht : (execSystem.startingAt s).Reachable t) : t.fileLock = some p := by
  induction ht with
  | init => exact hl
  | step c _ hc ih =>
    change (execStep _ c).fileLock = some p
    rcases execStep_of_locked ih hc with h | h <;> rw [h] <;> exact ih

/-- After a `load` that fails on a program header, no write that would reach `file_write`
runs again, whichever process makes it. -/
theorem exec_badPhdr_blocks_writes {s s' : ExecState} {sector : ℕ}
    (h : s.exec sector .badPhdr = some s') {t : ExecState}
    (ht : (execSystem.startingAt s').Reachable t) {p : ℕ} {fd : ℤ} {size : ℕ}
    (hw : t.writeTakesLock p fd size = true) : ¬ ExecEnabled t (.write p fd size) := by
  rintro ⟨-, hc⟩
  have hl := fileLock_held_forever (exec_badPhdr_holds_lock h).1 ht
  simp [hc hw] at hl

end Lock

/-- The first program run has a bad ELF header: from the initial state, which has not
faulted, its `load` frees the executable's `struct file` and then closes it again. -/
theorem exec_double_close :
    ∃ s, execSystem.Reachable s ∧ s.fault = false ∧ ExecEnabled s (.exec 5 .badHeader) ∧
      (execStep s (.exec 5 .badHeader)).fault = true :=
  ⟨execInit, .init, rfl, rfl, exec_badHeader_faults _ _⟩

end Pintos
