import Pintos.Lib.StateExcept
import Pintos.Libc.String
import Pintos.Filesys.File
import Pintos.Filesys.Directory
import Pintos.Userprog.Uaccess

/-! # The system-call handler

`userprog/syscall.c` in the `VM` build, for one process: `syscall_handler`
fetches the number and the arguments from the user stack with `uarg`,
`uarg_ptr` and `uarg_cstr`, and the `sys_*` functions check buffers with
`valid_urange`, copy them with `copy_in`, `copy_out` and `copy_in_cstr`, and
call the file system, the console and the process layer.

A run of the handler ends by returning (with the value put in `eax`, if any)
or stops: `sys_exit`, `shutdown_power_off`, a kernel page fault that `kill`
turns into a `PANIC`, or a failed `ASSERT`. Every touch of a user byte goes
through `kernelAccess`, in the order the C code touches them.

What lies below the system-call layer (the file system, the console, process
creation and waiting, the mapping of files) is a parameter: `Services` over a
state `σ`, taken to run without interference. `file_lock` is then never
contended and is not modelled; `unpin_buffer` only clears frame pins, which
this layer does not track.
-/

namespace Pintos

def fdMax : ℕ := 128

/-- The chunk size of the read and write loops. -/
def chunkSize : ℕ := 512

/-- A user process as the handler sees it: its address space and descriptor table. -/
structure Proc extends AddrSpace where
  fds : ℕ → Option File

/-- Why a run of the handler stopped. -/
inductive Halt
  -- `sys_exit (status)`: the process is terminated.
  | exit (status : ℤ)
  -- `sys_halt`.
  | powerOff
  -- A page fault in kernel code at a user address that `page_fault` did not resolve.
  | kernelFault (addr : ℕ)
  -- A failed `ASSERT`.
  | assertFail
  deriving DecidableEq, Repr

/-- The layers below the system calls, over their state `σ`. -/
structure Services (σ : Type) where
  inputGetc : σ → UInt8 × σ
  putbuf : σ → List UInt8 → σ
  filesysCreate : σ → List UInt8 → ℤ → Except Halt (Bool × σ)
  filesysRemove : σ → List UInt8 → Bool × σ
  filesysOpen : σ → List UInt8 → Option File × σ
  fileReopen : σ → File → Option File × σ
  fileClose : σ → File → σ
  fileLength : σ → File → ℤ
  -- `inode_read_at (inode, buffer, size, offset)`: the bytes it copies, at most `size`.
  inodeReadAt : σ → ℕ → ℕ → ℤ → List UInt8
  -- `inode_write_at (inode, buffer, size, offset)`: the count it returns.
  inodeWriteAt : σ → ℕ → List UInt8 → ℤ → ℤ × σ
  -- `process_execute` from `thread_create` on, once the thread name is found.
  processExecute : σ → List UInt8 → ℤ × σ
  processWait : σ → ℤ → ℤ × σ
  mmapMap : σ → AddrSpace → ℕ → File → ℤ → ℤ × AddrSpace × σ
  mmapUnmap : σ → AddrSpace → ℤ → AddrSpace × σ

/-- The handler's state: the calling process and the state of the layers below. -/
structure SysState (σ : Type) where
  proc : Proc
  fs : σ

/-- A piece of the handler. -/
abbrev SysM (σ α : Type) := StateT (SysState σ) (Except Halt) α

/-- A 32-bit word read as a C `int` (or `off_t`). -/
def toInt32 (w : ℕ) : ℤ := if w < 2 ^ 31 then w else (w : ℤ) - 2 ^ 32

/-- A C `int` stored into the 32-bit `eax`. -/
def toWord (v : ℤ) : ℕ := (v % 2 ^ 32).toNat

variable {σ α : Type}

section Primitives

def modifyProc (f : Proc → Proc) : SysM σ Unit := modify fun s => { s with proc := f s.proc }

def modifyFs (f : σ → σ) : SysM σ Unit := modify fun s => { s with fs := f s.fs }

/-- Run a service that answers and changes the state below. -/
def withFs (f : σ → α × σ) : SysM σ α := do
  let s ← get
  let r := f s.fs
  set { s with fs := r.2 }
  return r.1

/-- `sys_exit`, as far as the handler is concerned: the call does not return. -/
def sysExit (status : ℤ) : SysM σ α := throw (.exit status)

def sysHalt : SysM σ α := throw .powerOff

/-- The kernel touches user byte `a`. -/
def touch (a : ℕ) (write : Bool) : SysM σ Unit := do
  let s ← get
  match s.proc.kernelAccess a write with
  | some m => set { s with proc := { s.proc with toAddrSpace := m } }
  | none => throw (.kernelFault a)

def readUserByte (a : ℕ) : SysM σ UInt8 := do
  touch a false
  return (← get).proc.mem a

def writeUserByte (a : ℕ) (v : UInt8) : SysM σ Unit := do
  touch a true
  modifyProc fun p => { p with mem := Function.update p.mem a v }

/-- `memcpy` from user memory, in ascending order. -/
def readUserBytes (a : ℕ) : ℕ → SysM σ (List UInt8)
  | 0 => pure []
  | n + 1 => do
    let v ← readUserByte a
    let vs ← readUserBytes (ptrAdd a 1) n
    return v :: vs

/-- `memcpy` to user memory, in ascending order. -/
def writeUserBytes (a : ℕ) : List UInt8 → SysM σ Unit
  | [] => pure ()
  | v :: vs => do
    writeUserByte a v
    writeUserBytes (ptrAdd a 1) vs

/-- A little-endian `uint32_t` load from user memory. -/
def readUserWord (a : ℕ) : SysM σ ℕ := do
  let b0 ← readUserByte a
  let b1 ← readUserByte (ptrAdd a 1)
  let b2 ← readUserByte (ptrAdd a 2)
  let b3 ← readUserByte (ptrAdd a 3)
  return b0.toNat + 2 ^ 8 * b1.toNat + 2 ^ 16 * b2.toNat + 2 ^ 24 * b3.toNat

end Primitives

section Arguments

def uaddrCheck (u : ℕ) : SysM σ Unit := do
  if !(← get).proc.validUaddr u false then sysExit (-1)

/-- `uarg`: the `i`th word above `esp`; only its first and last byte are checked, and only
for being below `PHYS_BASE`. -/
def uarg (esp i : ℕ) : SysM σ ℕ := do
  let p := ptrAdd esp (4 * i)
  if p = 0 || !isUserVaddr p then sysExit (-1)
  if !isUserVaddr (ptrAdd p 3) then sysExit (-1)
  readUserWord p

/-- `uarg_ptr` (and `uarg_cstr`): its test can never hold, since address 0 is a user
address. -/
def uargPtr (esp i : ℕ) : SysM σ ℕ := do
  let raw ← uarg esp i
  if raw = 0 && !isUserVaddr raw then sysExit (-1)
  return raw

def copyIn (usrc n : ℕ) : SysM σ (Option (List UInt8)) := do
  if !(← get).proc.validUrange usrc n false then return none
  let bytes ← readUserBytes usrc n
  return some bytes

def copyOut (udst : ℕ) (ks : List UInt8) : SysM σ Bool := do
  if !(← get).proc.validUrange udst ks.length true then return false
  writeUserBytes udst ks
  return true

/-- The loop of `copy_in_cstr` from index `i`, with `k` indices left below the capacity:
each byte is checked before it is read. -/
def copyInCstrLoop (ustr : ℕ) (i : ℕ) : ℕ → List UInt8 → SysM σ (ℤ × List UInt8)
  | 0, acc => return (-2, acc)
  | k + 1, acc => do
    let up := ptrAdd ustr i
    if !(← get).proc.validUaddr up false then return (-1, acc)
    let c ← readUserByte up
    if c = 0 then return (i, acc)
    copyInCstrLoop ustr (i + 1) k (acc ++ [c])

/-- `copy_in_cstr`: the length (or -1 for a bad byte, -2 when no terminator fits) and the
bytes copied before the terminator. -/
def copyInCstr (ustr cap : ℕ) : SysM σ (ℤ × List UInt8) := do
  if !(← get).proc.validUaddr ustr false then return (-1, [])
  copyInCstrLoop ustr 0 cap []

end Arguments

section Specs

open StateExcept

variable {s : SysState σ} {a : ℕ}

theorem touch_of_mmuOk {w : Bool} (h : s.proc.mmuOk a w = true) : touch a w s = .ok ((), s) := by
  unfold touch
  rw [bind_of_ok (get_apply s), AddrSpace.kernelAccess_of_mmuOk h]
  rfl

theorem touch_of_kernelAccess {w : Bool} (h : s.proc.kernelAccess a w = none) :
    touch a w s = .error (.kernelFault a) := by
  unfold touch
  rw [bind_of_ok (get_apply s), h]
  rfl

theorem readUserByte_of_mmuOk (h : s.proc.mmuOk a false = true) :
    readUserByte a s = .ok (s.proc.mem a, s) := by
  unfold readUserByte
  rw [bind_of_ok (touch_of_mmuOk h)]
  rfl

theorem readUserByte_of_kernelAccess (h : s.proc.kernelAccess a false = none) :
    readUserByte a s = .error (.kernelFault a) := by
  unfold readUserByte
  rw [bind_of_error (touch_of_kernelAccess h)]

/-- A word load whose four bytes are installed reads `wordAt` and changes nothing. -/
theorem readUserWord_of_mmuOk (h₀ : s.proc.mmuOk a false = true)
    (h₁ : s.proc.mmuOk (ptrAdd a 1) false = true) (h₂ : s.proc.mmuOk (ptrAdd a 2) false = true)
    (h₃ : s.proc.mmuOk (ptrAdd a 3) false = true) :
    readUserWord a s = .ok (s.proc.wordAt a, s) := by
  unfold readUserWord
  rw [bind_of_ok (readUserByte_of_mmuOk h₀), bind_of_ok (readUserByte_of_mmuOk h₁),
    bind_of_ok (readUserByte_of_mmuOk h₂), bind_of_ok (readUserByte_of_mmuOk h₃)]
  rfl

theorem uaddrCheck_of_valid (h : s.proc.validUaddr a false = true) :
    uaddrCheck a s = .ok ((), s) := by
  unfold uaddrCheck
  rw [bind_of_ok (get_apply s)]
  simp [h]

/-- `uarg` of a word on installed pages below `PHYS_BASE` reads it. -/
theorem uarg_of_mmuOk {esp i : ℕ} (hp : ptrAdd esp (4 * i) ≠ 0)
    (hu : ptrAdd esp (4 * i) + 3 < physBase)
    (h : ∀ j < 4, s.proc.mmuOk (ptrAdd esp (4 * i) + j) false = true) :
    uarg esp i s = .ok (s.proc.wordAt (ptrAdd esp (4 * i)), s) := by
  unfold uarg
  generalize ptrAdd esp (4 * i) = p at hp hu h ⊢
  have hr : ∀ j < 4, ptrAdd p j = p + j := fun j hj =>
    ptrAdd_of_lt (by unfold physBase at hu; unfold ptrRange; omega)
  have hw : readUserWord p s = .ok (s.proc.wordAt p, s) := by
    refine readUserWord_of_mmuOk (by simpa using h 0 (by omega)) ?_ ?_ ?_
    · rw [hr 1 (by omega)]; exact h 1 (by omega)
    · rw [hr 2 (by omega)]; exact h 2 (by omega)
    · rw [hr 3 (by omega)]; exact h 3 (by omega)
  have hc₀ : (decide (p = 0) || !isUserVaddr p) = false := by
    simp only [isUserVaddr, hp, decide_false, Bool.false_or, Bool.not_eq_false', decide_eq_true_eq]
    omega
  have hc₃ : (!isUserVaddr (ptrAdd p 3)) = false := by
    rw [hr 3 (by omega)]
    simp only [isUserVaddr, Bool.not_eq_false', decide_eq_true_eq]
    omega
  simp only [hc₀, hc₃, Bool.false_eq_true, if_false]
  exact hw

end Specs

section Descriptors

def fdGet (p : Proc) (fd : ℤ) : Option File :=
  if fd < 2 ∨ fdMax ≤ fd then none else p.fds fd.toNat

def setFd (fd : ℕ) (f : Option File) : SysM σ Unit :=
  modifyProc fun p => { p with fds := Function.update p.fds fd f }

def fdDetach (fd : ℤ) : SysM σ (Option File) := do
  if fd < 2 ∨ fdMax ≤ fd then return none
  let f := (← get).proc.fds fd.toNat
  setFd fd.toNat none
  return f

/-- The slot the search of `sys_open` takes: the smallest free one in `[2, FD_MAX)`. -/
def freeFd (p : Proc) : Option ℕ := (List.range' 2 (fdMax - 2)).find? fun fd => p.fds fd = none

end Descriptors

section Calls

variable (S : Services σ)

/-- `sys_seek`: the unsigned position becomes the `off_t` argument of `file_seek`. -/
def sysSeek (fd : ℤ) (position : ℕ) : SysM σ Unit := do
  match fdGet (← get).proc fd with
  | none => return ()
  | some f =>
    match fileSeek f (toInt32 position) with
    | some f' => setFd fd.toNat (some f')
    | none => throw .assertFail

def sysTell (fd : ℤ) : SysM σ ℕ := do
  if fd ≤ 1 then return 0
  match fdGet (← get).proc fd with
  | none => return 0
  | some f => return toWord (fileTell f)

def sysFilesize (fd : ℤ) : SysM σ ℤ := do
  if fd ≤ 1 then return -1
  let s ← get
  match fdGet s.proc fd with
  | none => return -1
  | some f => return S.fileLength s.fs f

def sysClose (fd : ℤ) : SysM σ Unit := do
  if fd = 0 ∨ fd = 1 then return ()
  match ← fdDetach fd with
  | none => return ()
  | some f => modifyFs (S.fileClose · f)

def sysOpen (ufile : ℕ) : SysM σ ℤ := do
  if ufile = 0 then sysExit (-1)
  let (len, kname) ← copyInCstr ufile 256
  if len = -1 then sysExit (-1)
  if len = -2 then return -1
  if kname = [] then return -1
  match ← withFs (S.filesysOpen · kname) with
  | none => return -1
  | some f =>
    match freeFd (← get).proc with
    | some fd =>
      setFd fd (some f)
      return fd
    | none =>
      modifyFs (S.fileClose · f)
      return -1

/-- `sys_create`: the name buffer holds `NAME_MAX` bytes and the terminator; the unsigned
size becomes the `off_t` argument of `filesys_create`. -/
def sysCreate (ufile initialSize : ℕ) : SysM σ Bool := do
  if ufile = 0 then sysExit (-1)
  let (len, kname) ← copyInCstr ufile (nameMax + 1)
  if len = -1 then sysExit (-1)
  if len = -2 then return false
  if kname = [] then return false
  let s ← get
  match S.filesysCreate s.fs kname (toInt32 initialSize) with
  | .ok (ok, fs') =>
    set { s with fs := fs' }
    return ok
  | .error e => throw e

def sysRemove (ufile : ℕ) : SysM σ Bool := do
  if ufile = 0 then sysExit (-1)
  let (len, kname) ← copyInCstr ufile 256
  if len = -1 then sysExit (-1)
  if len = -2 then return false
  if kname = [] then return false
  withFs (S.filesysRemove · kname)

/-- `process_execute` up to `thread_create`: the thread name is the first token of the
command line, and `init_thread` asserts that it is not null. -/
def processExecute (cmd : List UInt8) : SysM σ ℤ :=
  match (strtokR [spaceChar] cmd).1 with
  | none => throw .assertFail
  | some _ => withFs (S.processExecute · cmd)

def sysExec (cmdLine : ℕ) : SysM σ ℤ := do
  uaddrCheck cmdLine
  let (len, kcmd) ← copyInCstr cmdLine 256
  if len < 0 then sysExit (-1)
  if len = 0 then return -1
  processExecute S kcmd

/-- `pin_buffer`, as far as the address space goes: every page of the buffer that is not
installed is loaded, if it can be. -/
def pinPages : List ℕ → AddrSpace → AddrSpace
  | [], m => m
  | pg :: pgs, m => pinPages pgs (if m.mmuOk pg false then m else (m.sptLoadPage pg).getD m)

/-- The pages from the one of `buffer` to the one of its last byte. -/
def bufferPages (buffer size : ℕ) : List ℕ :=
  let start := pgRoundDown buffer
  let stop := pgRoundDown (ptrAdd buffer (size - 1))
  if size ≠ 0 ∧ start ≤ stop then
    (List.range ((stop - start) / pgSize + 1)).map fun i => start + i * pgSize
  else []

def pinBuffer (buffer size : ℕ) : SysM σ Unit :=
  modifyProc fun p => { p with toAddrSpace := pinPages (bufferPages buffer size) p.toAddrSpace }

/-- The keyboard loop of `sys_read`: one byte at a time, each copied out on its own. -/
def readKeyboardLoop (ubuf : ℕ) : List ℕ → SysM σ Unit
  | [] => pure ()
  | i :: is => do
    let c ← withFs S.inputGetc
    if !(← copyOut (ptrAdd ubuf i) [c]) then sysExit (-1)
    readKeyboardLoop ubuf is

/-- The file loop of `sys_read`, with `k` rounds of fuel: read a chunk into the kernel
buffer, then copy it out. -/
def readFileLoop (fd : ℕ) (ubuf size : ℕ) : ℕ → File → ℕ → SysM σ ℤ
  | 0, _, total => return total
  | k + 1, f, total => do
    if total < size then
      let want := min (size - total) chunkSize
      let r := fileRead (S.inodeReadAt (← get).fs) f want
      setFd fd (some r.2)
      if r.1 = [] then return total
      if !(← copyOut (ptrAdd ubuf total) r.1) then sysExit (-1)
      readFileLoop fd ubuf size k r.2 (total + r.1.length)
    else return total

def sysRead (fd : ℤ) (ubuf size : ℕ) : SysM σ ℤ := do
  if size = 0 then return 0
  if fd = 1 then return -1
  if !(← get).proc.validUrange ubuf size true then sysExit (-1)
  pinBuffer ubuf size
  if fd = 0 then
    readKeyboardLoop S ubuf (List.range size)
    return size
  match fdGet (← get).proc fd with
  | none => return -1
  | some f => readFileLoop S fd.toNat ubuf size size f 0

/-- The console loop of `sys_write`, with `k` rounds of fuel. -/
def writeConsoleLoop (ubuf size : ℕ) : ℕ → ℕ → SysM σ ℤ
  | 0, done => return done
  | k + 1, done => do
    if done < size then
      let n := min (size - done) chunkSize
      match ← copyIn (ptrAdd ubuf done) n with
      | none => sysExit (-1)
      | some kbuf =>
        modifyFs (S.putbuf · kbuf)
        writeConsoleLoop ubuf size k (done + n)
    else return done

/-- The file loop of `sys_write`, with `k` rounds of fuel: copy a chunk in, then write it. -/
def writeFileLoop (fd : ℕ) (ubuf size : ℕ) : ℕ → File → ℕ → SysM σ ℤ
  | 0, _, total => return total
  | k + 1, f, total => do
    if total < size then
      let want := min (size - total) chunkSize
      match ← copyIn (ptrAdd ubuf total) want with
      | none => sysExit (-1)
      | some kbuf =>
        let r ← withFs fun fs => match fileWrite (S.inodeWriteAt fs) f kbuf with
          | (n, f', fs') => ((n, f'), fs')
        setFd fd (some r.2)
        if r.1 < 0 then return -1
        if r.1 = 0 then return total
        writeFileLoop fd ubuf size k r.2 (total + r.1.toNat)
    else return total

def sysWrite (fd : ℤ) (ubuf size : ℕ) : SysM σ ℤ := do
  if size = 0 then return 0
  if !(← get).proc.validUrange ubuf size false then sysExit (-1)
  if fd = 0 then return -1
  pinBuffer ubuf size
  if fd = 1 then writeConsoleLoop S ubuf size size 0
  else
    match fdGet (← get).proc fd with
    | none => return -1
    | some f => writeFileLoop S fd.toNat ubuf size size f 0

/-- `sys_mmap` up to `mmap_map`. -/
def sysMmap (fd : ℤ) (addr : ℕ) : SysM σ ℤ := do
  if addr = 0 ∨ pgOfs addr ≠ 0 then return -1
  if fd = 0 ∨ fd = 1 then return -1
  if !isUserVaddr addr then return -1
  let s ← get
  match fdGet s.proc fd with
  | none => return -1
  | some f =>
    let length := S.fileLength s.fs f
    if length = 0 then return -1
    let pageCount := toWord ((length + pgSize - 1).tdiv pgSize)
    -- a page installed in the page directory always has an entry
    if (List.range pageCount).any fun i => (s.proc.entry (ptrAdd addr (i * pgSize))).isSome then
      return -1
    match ← withFs (S.fileReopen · f) with
    | none => return -1
    | some copy =>
      let s ← get
      let r := S.mmapMap s.fs s.proc.toAddrSpace addr copy length
      set { s with proc := { s.proc with toAddrSpace := r.2.1 }, fs := r.2.2 }
      if r.1 = -1 then modifyFs (S.fileClose · copy)
      return r.1

def sysMunmap (mapid : ℤ) : SysM σ Unit := do
  if mapid < 0 then return ()
  let s ← get
  let r := S.mmapUnmap s.fs s.proc.toAddrSpace mapid
  set { s with proc := { s.proc with toAddrSpace := r.1 }, fs := r.2 }

/-- `syscall_handler` entered with user stack pointer `esp`: the value it leaves in `eax`,
if any. -/
def syscallHandler (esp : ℕ) : SysM σ (Option ℕ) := do
  modifyProc fun p => { p with espOnSyscall := esp }
  uaddrCheck esp
  let no ← uarg esp 0
  match no with
  | 0 => sysHalt
  | 1 => do
    let status ← uarg esp 1
    sysExit (toInt32 status)
  | 2 => do
    let cmdLine ← uargPtr esp 1
    return some (toWord (← sysExec S cmdLine))
  | 3 => do
    let pid ← uarg esp 1
    return some (toWord (← withFs (S.processWait · (toInt32 pid))))
  | 4 => do
    let uname ← uargPtr esp 1
    let initial ← uarg esp 2
    return some (if ← sysCreate S uname initial then 1 else 0)
  | 5 => do
    let uname ← uargPtr esp 1
    return some (if ← sysRemove S uname then 1 else 0)
  | 6 => do
    let uname ← uargPtr esp 1
    return some (toWord (← sysOpen S uname))
  | 7 => do
    let fd ← uarg esp 1
    return some (toWord (← sysFilesize S (toInt32 fd)))
  | 8 => do
    let fd ← uarg esp 1
    let ubuf ← uargPtr esp 2
    let size ← uarg esp 3
    return some (toWord (← sysRead S (toInt32 fd) ubuf size))
  | 9 => do
    let fd ← uarg esp 1
    let ubuf ← uargPtr esp 2
    let size ← uarg esp 3
    return some (toWord (← sysWrite S (toInt32 fd) ubuf size))
  | 10 => do
    let fd ← uarg esp 1
    let position ← uarg esp 2
    sysSeek (toInt32 fd) position
    return none
  | 11 => do
    let fd ← uarg esp 1
    return some (← sysTell (toInt32 fd))
  | 12 => do
    let fd ← uarg esp 1
    sysClose S (toInt32 fd)
    return none
  | 13 => do
    let fd ← uarg esp 1
    let addr ← uargPtr esp 2
    return some (toWord (← sysMmap S (toInt32 fd) addr))
  | 14 => do
    let mapid ← uarg esp 1
    sysMunmap S (toInt32 mapid)
    return none
  | _ => sysExit (-1)

end Calls

end Pintos
