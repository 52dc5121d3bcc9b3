import Pintos.Filesys.File
import Mathlib.Logic.Function.Basic

/-! # Open inodes and open files

`filesys/inode.c` and `filesys/file.c` as far as opening, closing and write
denial go. An open inode counts its openers (`open_cnt`) and the openers that
deny writes to it (`deny_write_cnt`); `inode_write_at` writes nothing while
the latter is positive. A `struct file` lives in the kernel heap from
`file_open` to `file_close`, which lets its inode accept writes again,
closes the inode and frees the file.

Inodes are named by their sector and files by a handle, the address of their
`struct file`. A result of `none` is a failed `ASSERT` or a use of a file
already freed. An inode whose last opener closes it is freed; the next
`inode_open` of its sector allocates a fresh one.
-/

namespace Pintos

/-- The counters of an in-memory `struct inode`; `openCnt = 0` is an inode not open. -/
structure InodeCnt where
  openCnt : ℕ
  denyWriteCnt : ℕ
  deriving DecidableEq, Repr

structure FileTable where
  inodes : ℕ → InodeCnt
  files : ℕ → Option File
  nextHandle : ℕ

namespace FileTable

variable (t : FileTable)

def setInode (sector : ℕ) (c : InodeCnt) : FileTable :=
  { t with inodes := Function.update t.inodes sector c }

def setFile (h : ℕ) (f : Option File) : FileTable :=
  { t with files := Function.update t.files h f }

/-- `inode_open`: a sector already open gets one more opener, another a fresh inode. -/
def inodeOpen (sector : ℕ) : FileTable :=
  let c := t.inodes sector
  t.setInode sector (if c.openCnt = 0 then ⟨1, 0⟩ else { c with openCnt := c.openCnt + 1 })

/-- `inode_close`: one opener fewer; the last one frees the inode. -/
def inodeClose (sector : ℕ) : FileTable :=
  let c := t.inodes sector
  t.setInode sector { c with openCnt := c.openCnt - 1 }

def inodeDenyWrite (sector : ℕ) : Option FileTable :=
  let c := t.inodes sector
  if c.denyWriteCnt + 1 ≤ c.openCnt then
    some (t.setInode sector { c with denyWriteCnt := c.denyWriteCnt + 1 })
  else none

def inodeAllowWrite (sector : ℕ) : Option FileTable :=
  let c := t.inodes sector
  if 0 < c.denyWriteCnt ∧ c.denyWriteCnt ≤ c.openCnt then
    some (t.setInode sector { c with denyWriteCnt := c.denyWriteCnt - 1 })
  else none

/-- What `inode_write_at` writes of `size` bytes: nothing while writes are denied. The bytes
that fit before the end of the inode are the layer below's; here they are all of them. -/
def inodeWriteAt (sector size : ℕ) : ℕ :=
  if (t.inodes sector).denyWriteCnt ≠ 0 then 0 else size

/-- `filesys_open` of the file at `sector` through `file_open`: a new `struct file`. -/
def fileOpen (sector : ℕ) : ℕ × FileTable :=
  let h := t.nextHandle
  (h, { (t.inodeOpen sector).setFile h (some ⟨sector, 0, false⟩) with nextHandle := h + 1 })

def fileDenyWrite (h : ℕ) : Option FileTable :=
  match t.files h with
  | none => none
  | some f =>
    if !f.denyWrite then
      (t.setFile h (some { f with denyWrite := true })).inodeDenyWrite f.inode
    else some t

def fileAllowWrite (h : ℕ) : Option FileTable :=
  match t.files h with
  | none => none
  | some f =>
    if f.denyWrite then
      (t.setFile h (some { f with denyWrite := false })).inodeAllowWrite f.inode
    else some t

def fileClose (h : ℕ) : Option FileTable :=
  match t.fileAllowWrite h with
  | none => none
  | some t₁ =>
    match t₁.files h with
    | none => none
    | some f => some ((t₁.inodeClose f.inode).setFile h none)

/-- `file_write` of `size` bytes: the count `inode_write_at` returns. -/
def fileWrite (h size : ℕ) : Option ℕ := (t.files h).map fun f => t.inodeWriteAt f.inode size

variable {t} {h : ℕ}

@[simp] theorem files_setFile (f : Option File) (h' : ℕ) :
    (t.setFile h f).files h' = if h' = h then f else t.files h' := by
  simp [setFile, Function.update_apply]

@[simp] theorem files_setInode (sector : ℕ) (c : InodeCnt) : (t.setInode sector c).files = t.files :=
  rfl

@[simp] theorem files_inodeClose (sector : ℕ) : (t.inodeClose sector).files = t.files := rfl

/-- `file_close` frees the file. -/
theorem files_fileClose {t' : FileTable} (hc : t.fileClose h = some t') : t'.files h = none := by
  unfold fileClose at hc
  split at hc
  · cases hc
  · split at hc
    · cases hc
    · cases hc
      simp

/-- `file_close` of a file already freed reads the freed `struct file`. -/
theorem fileClose_of_files_none (hf : t.files h = none) : t.fileClose h = none := by
  simp [fileClose, fileAllowWrite, hf]

end FileTable

end Pintos
