import Pintos.Userprog.Load
import Pintos.Userprog.Exec

/-! # Reading an executable

`load` in `userprog/process.c` over the bytes of the executable. The ELF
header is one `file_read` of `sizeof ehdr` bytes from the start, checked
field by field; then each of `e_phnum` program headers is read at
`file_ofs`, an `off_t` that starts at `e_phoff` and moves by
`sizeof phdr`. A `PT_LOAD` header registers its pages as in
`Userprog.Load`; `PT_DYNAMIC`, `PT_INTERP` and `PT_SHLIB`, an offset out of
the file, a short read and a rejected or failing segment `goto done`. The
outcome is the `LoadResult` with which `Userprog.Exec` runs the call.

`load` takes `file_lock` before `filesys_open` and releases it on a failed
open, on a rejected ELF header and after the loop; every `goto done` inside
the loop skips the release (`load_returns_holding_lock`). Every outcome that
`Userprog.Exec` takes as given is the outcome of `load` on some executable
(`loadElf_outcomes`).
-/

namespace Pintos

/-- The little-endian unsigned field of `n` bytes at offset `i`. -/
def leField (bs : List UInt8) (i n : ℕ) : ℕ :=
  ((List.range n).map fun j => (bs.getD (i + j) 0).toNat * 256 ^ j).sum

/-- `struct Elf32_Ehdr`, the fields `load` reads. -/
structure Elf32Ehdr where
  eIdent : List UInt8
  eType : ℕ
  eMachine : ℕ
  eVersion : ℕ
  eEntry : ℕ
  ePhoff : ℕ
  ePhentsize : ℕ
  ePhnum : ℕ
  deriving DecidableEq, Repr

def ehdrSize : ℕ := 52

def phdrSize : ℕ := 32

def ptDynamic : ℕ := 2

def ptInterp : ℕ := 3

def ptShlib : ℕ := 5

def Elf32Ehdr.ofBytes (bs : List UInt8) : Elf32Ehdr where
  eIdent := bs.take 16
  eType := leField bs 16 2
  eMachine := leField bs 18 2
  eVersion := leField bs 20 4
  eEntry := leField bs 24 4
  ePhoff := leField bs 28 4
  ePhentsize := leField bs 42 2
  ePhnum := leField bs 44 2

def Elf32Phdr.ofBytes (bs : List UInt8) : Elf32Phdr :=
  ⟨leField bs 0 4, leField bs 4 4, leField bs 8 4, leField bs 12 4, leField bs 16 4,
    leField bs 20 4, leField bs 24 4, leField bs 28 4⟩

/-- The test of the ELF header; a file shorter than the header fails its `file_read`. -/
def ehdrOk (bs : List UInt8) : Bool :=
  let e := Elf32Ehdr.ofBytes bs
  decide (ehdrSize ≤ bs.length) && e.eIdent.take 7 == [0x7f, 0x45, 0x4c, 0x46, 1, 1, 1] &&
    e.eType == 2 && e.eMachine == 3 && e.eVersion == 1 && e.ePhentsize == phdrSize &&
    decide (e.ePhnum ≤ 1024)

/-- One round of the loop over the program headers, at `fileOfs`: `none` is a `goto done`,
and `some` the address space the loop goes on with. -/
def loadPhdr (bs : List UInt8) (fileOfs : ℤ) (m : AddrSpace) : Option AddrSpace :=
  if fileOfs < 0 ∨ (bs.length : ℤ) < fileOfs then none
  else
    let raw := (bs.drop fileOfs.toNat).take phdrSize
    if raw.length ≠ phdrSize then none
    else
      let phdr := Elf32Phdr.ofBytes raw
      if phdr.pType = ptDynamic ∨ phdr.pType = ptInterp ∨ phdr.pType = ptShlib then none
      else if phdr.pType = ptLoad then m.loadPtLoad phdr bs.length
      else some m

/-- The loop over the program headers, with `n` left to read from `fileOfs` on. -/
def loadPhdrs (bs : List UInt8) : ℕ → ℤ → AddrSpace → Option AddrSpace
  | 0, _, m => some m
  | n + 1, fileOfs, m => (loadPhdr bs fileOfs m).bind (loadPhdrs bs n (fileOfs + phdrSize))

/-- `load` from `filesys_open` on: `file` is the executable's bytes, or `none` when the open
fails, and `stackOk` whether `setup_stack` gets its page. On failure the address space is
returned as it came, since the process dies with it. -/
def loadElf (file : Option (List UInt8)) (m : AddrSpace) (stackOk : Bool) :
    LoadResult × AddrSpace :=
  match file with
  | none => (.openFailed, m)
  | some bs =>
    if !ehdrOk bs then (.badHeader, m)
    else
      let e := Elf32Ehdr.ofBytes bs
      match loadPhdrs bs e.ePhnum (toInt32 e.ePhoff) m with
      | none => (.badPhdr, m)
      | some m' => (if stackOk then .ok else .noStack, m')

section Exits

variable {bs : List UInt8} {n : ℕ} {fileOfs : ℤ} {m : AddrSpace}

/-- A program header of a type that names a dynamic object ends the loop at `done`. -/
theorem loadPhdr_dynamic (h₀ : 0 ≤ fileOfs) (hl : fileOfs ≤ bs.length)
    (hr : ((bs.drop fileOfs.toNat).take phdrSize).length = phdrSize)
    (ht : (Elf32Phdr.ofBytes ((bs.drop fileOfs.toNat).take phdrSize)).pType = ptDynamic) :
    loadPhdr bs fileOfs m = none := by
  rw [loadPhdr, if_neg (by omega)]
  dsimp only
  rw [if_neg (not_not.mpr hr), if_pos (.inl ht)]

/-- A program header that starts past the end of the file ends the loop at `done`. -/
theorem loadPhdr_past_end (hl : (bs.length : ℤ) < fileOfs) : loadPhdr bs fileOfs m = none := by
  rw [loadPhdr, if_pos (.inr hl)]

theorem loadPhdrs_of_none (h : loadPhdr bs fileOfs m = none) :
    loadPhdrs bs (n + 1) fileOfs m = none := by
  rw [loadPhdrs, h, Option.bind_none]

theorem loadElf_badPhdr (hb : ehdrOk bs = true)
    (h : loadPhdrs bs (Elf32Ehdr.ofBytes bs).ePhnum (toInt32 (Elf32Ehdr.ofBytes bs).ePhoff) m =
      none) (stackOk : Bool) : (loadElf (some bs) m stackOk).1 = .badPhdr := by
  simp [loadElf, hb, h]

end Exits

/-- An executable whose ELF header is good and whose one program header, right after it, is
of type `PT_DYNAMIC`. -/
def dynamicElf : List UInt8 :=
  [0x7f, 0x45, 0x4c, 0x46, 1, 1, 1, 0, 0, 0, 0, 0, 0, 0, 0, 0, 2, 0, 3, 0, 1, 0, 0, 0,
    0, 0, 0, 0, 52, 0, 0, 0, 0, 0, 0, 0, 0, 0, 0, 0, 52, 0, 32, 0, 1, 0, 0, 0, 0, 0, 0, 0] ++
  [2, 0, 0, 0] ++ List.replicate 28 0

/-- `dynamicElf`'s one program header ends the loop at `done`. -/
theorem loadPhdrs_dynamicElf (m : AddrSpace) :
    loadPhdrs dynamicElf (Elf32Ehdr.ofBytes dynamicElf).ePhnum
      (toInt32 (Elf32Ehdr.ofBytes dynamicElf).ePhoff) m = none :=
  loadPhdrs_of_none (n := 0) (loadPhdr_dynamic (by decide) (by decide) (by decide) (by decide))

/-- The first program, loading `dynamicElf`, returns from `load` with `file_lock` held by its
thread, which then exits. -/
theorem load_returns_holding_lock (m : AddrSpace) (stackOk : Bool) :
    (Elf32Phdr.ofBytes (dynamicElf.drop ehdrSize)).pType = ptDynamic ∧
      (loadElf (some dynamicElf) m stackOk).1 = .badPhdr ∧
      execSystem.Reachable execInit ∧ ExecEnabled execInit (.exec 5 .badPhdr) ∧
      (execStep execInit (.exec 5 .badPhdr)).fileLock = some 0 ∧
      ((execStep execInit (.exec 5 .badPhdr)).proc 0).live = false := by
  exact ⟨by decide, loadElf_badPhdr (by decide) (loadPhdrs_dynamicElf m) stackOk, .init, rfl,
    by decide, by decide⟩

/-- An executable with a good ELF header and no program headers. -/
def emptyElf : List UInt8 :=
  [0x7f, 0x45, 0x4c, 0x46, 1, 1, 1, 0, 0, 0, 0, 0, 0, 0, 0, 0, 2, 0, 3, 0, 1, 0, 0, 0,
    0, 0, 0, 0, 52, 0, 0, 0, 0, 0, 0, 0, 0, 0, 0, 0, 52, 0, 32, 0, 0, 0, 0, 0, 0, 0, 0, 0]

/-- `load` of `emptyElf` registers nothing and ends as `setup_stack` does. -/
theorem loadElf_emptyElf (m : AddrSpace) (stackOk : Bool) :
    loadElf (some emptyElf) m stackOk = (if stackOk then .ok else .noStack, m) := by
  have hb : ehdrOk emptyElf = true := by decide
  have hn : (Elf32Ehdr.ofBytes emptyElf).ePhnum = 0 := by decide
  simp only [loadElf, hb, Bool.not_true, Bool.false_eq_true, if_false, hn, loadPhdrs]

/-- Every way in which `Userprog.Exec` lets `load` end is one in which `load` ends on some
executable, in any address space: the outcome an `exec` call of `execSystem` carries ranges
over exactly what `loadElf` returns. -/
theorem loadElf_outcomes (m : AddrSpace) (r : LoadResult) :
    ∃ file stackOk, (loadElf file m stackOk).1 = r := by
  cases r with
  | openFailed => exact ⟨none, true, rfl⟩
  | badHeader => exact ⟨some [], true, rfl⟩
  | badPhdr => exact ⟨some dynamicElf, true, loadElf_badPhdr (by decide) (loadPhdrs_dynamicElf m) true⟩
  | noStack => exact ⟨some emptyElf, false, by rw [loadElf_emptyElf]; rfl⟩
  | ok => exact ⟨some emptyElf, true, by rw [loadElf_emptyElf]; rfl⟩

end Pintos
