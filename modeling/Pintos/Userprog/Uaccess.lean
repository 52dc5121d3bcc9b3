import Mathlib.Logic.Function.Basic
import Mathlib.Data.Int.Order.Basic
import Mathlib.Algebra.Group.Nat.Defs
import Mathlib.Algebra.Group.Int.Defs
import Mathlib.Algebra.GroupWithZero.Nat

/-! # User addresses, `valid_uaddr` and page faults

The `VM` build's view of a user address space, as the system-call layer and
the page-fault handler see it: `threads/vaddr.h`, `valid_uaddr` and
`valid_urange` of `userprog/syscall.c`, and `page_fault` with `kill` of
`userprog/exception.c`. Addresses are 32-bit pointers kept as naturals below
`2 ^ 32`; pointer arithmetic wraps explicitly.

A user page is described by its supplemental page table entry: whether it is
writable and whether it is installed in the page directory (`loaded`). The
processor touches a byte without a fault when its page is installed, and for
a write also writable. Otherwise `page_fault` runs: it grows the stack by a
zero page when the address is close enough below `esp` and within 8 MB of
`PHYS_BASE`, or loads the page from its entry; frame allocation and file
reads are taken to succeed. A fault it does not resolve goes to `kill`, which
terminates a user process but `PANIC`s when the fault came from kernel code.
-/

namespace Pintos

def pgSize : ℕ := 4096

def physBase : ℕ := 0xC0000000

/-- The 8 MB stack limit of `valid_uaddr` and `page_fault`. -/
def stackLimit : ℕ := 8 * 1024 * 1024

/-- The lowest address `page_fault` resolves. -/
def codeBase : ℕ := 0x08048000

/-- Pointers are 32 bits wide. -/
def ptrRange : ℕ := 2 ^ 32

def pgRoundDown (a : ℕ) : ℕ := a / pgSize * pgSize

def pgOfs (a : ℕ) : ℕ := a % pgSize

def isUserVaddr (a : ℕ) : Bool := decide (a < physBase)

/-- `p + n` on a pointer. -/
def ptrAdd (a n : ℕ) : ℕ := (a + n) % ptrRange

/-- `p - n` on a pointer. -/
def ptrSub (a n : ℕ) : ℕ := (a + ptrRange - n) % ptrRange

theorem ptrAdd_of_lt {a n : ℕ} (h : a + n < ptrRange) : ptrAdd a n = a + n := Nat.mod_eq_of_lt h

theorem pgRoundDown_le (a : ℕ) : pgRoundDown a ≤ a := Nat.div_mul_le_self a pgSize

/-- What the supplemental page table and the page directory hold for one user page. -/
structure PageInfo where
  writable : Bool
  -- Installed in the page directory (`loaded`).
  present : Bool
  deriving DecidableEq, Repr

/-- A user address space: the supplemental page table by page address, the user stack
pointer saved on system-call entry, and the bytes of user memory. -/
structure AddrSpace where
  spt : ℕ → Option PageInfo
  espOnSyscall : ℕ
  mem : ℕ → UInt8

namespace AddrSpace

variable (m : AddrSpace)

/-- The entry for the page of `a` (`spt_get_entry` rounds down). -/
def entry (a : ℕ) : Option PageInfo := m.spt (pgRoundDown a)

/-- `valid_uaddr`, `VM` branch: an entry for the page, writable if asked for; or, without
one, an address in the stack window: within 8 MB of `PHYS_BASE`, at most 32 bytes below
`esp`, with `esp`'s own page registered. -/
def validUaddr (a : ℕ) (writable : Bool) : Bool :=
  if a = 0 || !isUserVaddr a then false
  else
    match m.entry a with
    | some e => !(writable && !e.writable)
    | none =>
      let esp := m.espOnSyscall
      decide (physBase - stackLimit ≤ a) && decide (a < physBase) &&
        decide (ptrSub esp 32 ≤ a) && (m.entry esp).isSome

/-- `valid_urange`: only the first and the last byte are checked. -/
def validUrange (a size : ℕ) (writable : Bool) : Bool :=
  if a = 0 then false
  else if size = 0 then true
  else m.validUaddr a writable && m.validUaddr (ptrAdd a (size - 1)) writable

/-- The processor touches the byte without a fault. -/
def mmuOk (a : ℕ) (write : Bool) : Bool :=
  match m.entry a with
  | some e => e.present && (!write || e.writable)
  | none => false

/-- `spt_set_zero`: register a zero page, unless the page already has an entry. Its bytes
read as zero from now on. -/
def sptSetZero (page : ℕ) (writable : Bool) : Option AddrSpace :=
  match m.spt page with
  | some _ => none
  | none =>
    some { m with
      spt := Function.update m.spt page (some ⟨writable, false⟩)
      mem := fun b => if pgRoundDown b = page then 0 else m.mem b }

/-- `spt_load_page`: install a registered page that is not loaded yet. -/
def sptLoadPage (a : ℕ) : Option AddrSpace :=
  match m.entry a with
  | some e => if e.present then none else
      some { m with spt := Function.update m.spt (pgRoundDown a) (some { e with present := true }) }
  | none => none

/-- `page_fault` on address `a`: `user` says whether the fault came from user code, whose
`esp` is `userEsp`; kernel code uses the `esp` saved at system-call entry. `none` means the
fault goes to `kill`. -/
def pageFault (a : ℕ) (user : Bool) (userEsp : ℕ) : Option AddrSpace :=
  let notPresent := !(m.entry a).any (·.present)
  if isUserVaddr a && decide (codeBase ≤ a) then
    let esp := if user then userEsp else m.espOnSyscall
    let page := pgRoundDown a
    let grown :=
      if ptrSub esp 32 ≤ a ∧ a < physBase ∧ physBase - page ≤ stackLimit then
        (m.sptSetZero page true).bind (·.sptLoadPage page)
      else none
    match grown with
    | some m' => some m'
    | none => if notPresent then m.sptLoadPage a else none
  else none

/-- A kernel access to user byte `a`: it goes through, possibly after `page_fault` installs
the page; `none` is a kernel page fault that `kill` turns into a `PANIC`. After a resolved
fault the instruction runs again, and a second fault on the now present page is a rights
violation that `page_fault` does not resolve. -/
def kernelAccess (a : ℕ) (write : Bool) : Option AddrSpace :=
  if m.mmuOk a write then some m
  else
    match m.pageFault a false 0 with
    | some m' => if m'.mmuOk a write then some m' else none
    | none => none

/-- The little-endian word at `a`. -/
def wordAt (a : ℕ) : ℕ :=
  (m.mem a).toNat + 2 ^ 8 * (m.mem (ptrAdd a 1)).toNat + 2 ^ 16 * (m.mem (ptrAdd a 2)).toNat +
    2 ^ 24 * (m.mem (ptrAdd a 3)).toNat

variable {m}

theorem kernelAccess_of_mmuOk {a : ℕ} {w : Bool} (h : m.mmuOk a w = true) :
    m.kernelAccess a w = some m := by
  simp [kernelAccess, h]

/-- An installed page passes `valid_uaddr` for reading. -/
theorem validUaddr_of_mmuOk {a : ℕ} (h : m.mmuOk a false = true) (h0 : a ≠ 0)
    (hu : a < physBase) : m.validUaddr a false = true := by
  unfold mmuOk at h
  unfold validUaddr
  split at h
  · simp [h0, isUserVaddr, hu]
  · cases h

theorem wordAt_lt (a : ℕ) : m.wordAt a < 2 ^ 32 := by
  unfold wordAt
  have h₀ := (m.mem a).toNat_lt
  have h₁ := (m.mem (ptrAdd a 1)).toNat_lt
  have h₂ := (m.mem (ptrAdd a 2)).toNat_lt
  have h₃ := (m.mem (ptrAdd a 3)).toNat_lt
  omega

/-- A byte of an unregistered page below the stack window cannot be faulted in: stack growth
needs the page within 8 MB of `PHYS_BASE`, and `spt_load_page` needs an entry. -/
theorem pageFault_eq_none {a : ℕ} (user : Bool) (userEsp : ℕ) (he : m.entry a = none)
    (hs : a < physBase - stackLimit) : m.pageFault a user userEsp = none := by
  have hg : ¬ physBase - pgRoundDown a ≤ stackLimit := by
    have := pgRoundDown_le a
    omega
  have hload : m.sptLoadPage a = none := by simp [sptLoadPage, he]
  unfold pageFault
  simp [he, hload, hg]

theorem kernelAccess_eq_none {a : ℕ} (w : Bool) (he : m.entry a = none)
    (hs : a < physBase - stackLimit) : m.kernelAccess a w = none := by
  have hm : m.mmuOk a w = false := by simp [mmuOk, he]
  simp [kernelAccess, hm, pageFault_eq_none false 0 he hs]

/-- `valid_uaddr` rejects such a byte too. -/
theorem validUaddr_eq_false {a : ℕ} (w : Bool) (he : m.entry a = none)
    (hs : a < physBase - stackLimit) : m.validUaddr a w = false := by
  have hw : ¬ physBase - stackLimit ≤ a := by omega
  unfold validUaddr
  simp [he, hw]

end AddrSpace

end Pintos
