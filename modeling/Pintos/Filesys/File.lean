import Mathlib.Data.Int.Order.Basic

/-! # Open files

`filesys/file.c`: a `struct file` is an inode, a byte position and whether it
denies writes to its inode. Positions are `off_t`, a signed 32-bit value, and
`file_seek` asserts that the new one is not negative. `file_read` and
`file_write` go to `inode_read_at` and `inode_write_at` at the file's position
and move it by what they transferred, so of a file they change the position
only (`rewind_fileRead`, `rewind_fileWrite`).

Inodes are named by their sector; their contents belong to the file-system
state, which the system-call layer reaches through `Services`.
-/

namespace Pintos

structure File where
  inode : ℕ
  pos : ℤ
  denyWrite : Bool
  deriving DecidableEq, Repr

/-- `file_seek`; `none` when `ASSERT (new_pos >= 0)` fails. -/
def fileSeek (f : File) (newPos : ℤ) : Option File :=
  if 0 ≤ newPos then some { f with pos := newPos } else none

def fileTell (f : File) : ℤ := f.pos

/-- `file_read`: `inode_read_at` from the file's position, which then moves past the bytes
read. `readAt inode size offset` is what `inode_read_at` copies to the buffer. -/
def fileRead (readAt : ℕ → ℕ → ℤ → List UInt8) (file : File) (size : ℕ) : List UInt8 × File :=
  let bytes := readAt file.inode size file.pos
  (bytes, { file with pos := file.pos + bytes.length })

/-- `file_write`: `inode_write_at` at the file's position, which then moves by the count
`inode_write_at` returns. -/
def fileWrite {σ : Type} (writeAt : ℕ → List UInt8 → ℤ → ℤ × σ) (file : File)
    (buffer : List UInt8) : ℤ × File × σ :=
  let r := writeAt file.inode buffer file.pos
  (r.1, { file with pos := file.pos + r.1 }, r.2)

/-- A file with its position set back to 0: what a read, a write or a seek leaves of it. -/
def File.rewind (f : File) : File := { f with pos := 0 }

theorem fileSeek_eq_none_iff (f : File) (newPos : ℤ) : fileSeek f newPos = none ↔ newPos < 0 := by
  unfold fileSeek
  split <;> simp_all

theorem fileTell_fileSeek {f f' : File} {newPos : ℤ} (h : fileSeek f newPos = some f') :
    fileTell f' = newPos := by
  unfold fileSeek at h
  split at h
  · cases h
    rfl
  · cases h

/-! `file_read`, `file_write` and `file_seek` move the position and nothing else. -/

@[simp] theorem rewind_fileRead (readAt : ℕ → ℕ → ℤ → List UInt8) (f : File) (size : ℕ) :
    (fileRead readAt f size).2.rewind = f.rewind := rfl

@[simp] theorem rewind_fileWrite {σ : Type} (writeAt : ℕ → List UInt8 → ℤ → ℤ × σ) (f : File)
    (buffer : List UInt8) : (fileWrite writeAt f buffer).2.1.rewind = f.rewind := rfl

theorem rewind_fileSeek {f f' : File} {newPos : ℤ} (h : fileSeek f newPos = some f') :
    f'.rewind = f.rewind := by
  unfold fileSeek at h
  split at h
  · cases h
    rfl
  · cases h

end Pintos
