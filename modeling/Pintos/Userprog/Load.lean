import Pintos.Userprog.Uaccess

/-! # Loading an executable's segments

`validate_segment`, the `PT_LOAD` case of `load` and the `VM` branch of
`load_segment` in `userprog/process.c`: a program header accepted by
`validate_segment` becomes a run of pages, each registered in the
supplemental page table by `spt_set_file` as not yet loaded. The file offset
and byte counts an entry records are read only when the page is faulted in,
and are not kept here. The header's fields are `uint32_t`s; the masks with
`PGMASK` are `%` and `pg_round_down`.

Three places decide which user addresses are good: `validate_segment` takes
any segment at or above `PGSIZE`, `valid_uaddr` any address with an entry,
and `page_fault` resolves nothing below `0x08048000`. Above that address the
last two agree (`pageFault_of_validUaddr`); below it a page registered by
`load` passes `valid_uaddr` and kills the process, or panics the kernel, when
touched (`loaded_page_not_faultable`).
-/

namespace Pintos

/-- `struct Elf32_Phdr`. -/
structure Elf32Phdr where
  pType : ℕ
  pOffset : ℕ
  pVaddr : ℕ
  pPaddr : ℕ
  pFilesz : ℕ
  pMemsz : ℕ
  pFlags : ℕ
  pAlign : ℕ
  deriving DecidableEq, Repr

def ptLoad : ℕ := 1

/-- `validate_segment`; `fileLength` is `file_length (file)`. The sum of `p_vaddr` and
`p_memsz` is formed in `uint32_t`. -/
def validateSegment (phdr : Elf32Phdr) (fileLength : ℕ) : Bool :=
  let vend := (phdr.pVaddr + phdr.pMemsz) % ptrRange
  decide (phdr.pOffset % pgSize = phdr.pVaddr % pgSize) && decide (phdr.pOffset ≤ fileLength) &&
    decide (phdr.pFilesz ≤ phdr.pMemsz) && decide (phdr.pMemsz ≠ 0) && isUserVaddr phdr.pVaddr &&
    isUserVaddr vend && decide (phdr.pVaddr ≤ vend) && decide (pgSize ≤ phdr.pVaddr)

/-- `ROUND_UP (x, PGSIZE)`. -/
def roundUpPage (x : ℕ) : ℕ := (x + pgSize - 1) / pgSize * pgSize

/-- The `read_bytes` and `zero_bytes` that `load` computes for a `PT_LOAD` header. -/
def segmentBytes (phdr : Elf32Phdr) : ℕ × ℕ :=
  let pageOffset := pgOfs phdr.pVaddr
  if 0 < phdr.pFilesz then
    (pageOffset + phdr.pFilesz, roundUpPage (pageOffset + phdr.pMemsz) - (pageOffset + phdr.pFilesz))
  else (0, roundUpPage (pageOffset + phdr.pMemsz))

namespace AddrSpace

/-- `spt_set_file`: register a file page, unless the page already has an entry. -/
def sptSetFile (m : AddrSpace) (upage : ℕ) (writable : Bool) : Option AddrSpace :=
  match m.spt (pgRoundDown upage) with
  | some _ => none
  | none => some { m with spt := Function.update m.spt (pgRoundDown upage) (some ⟨writable, false⟩) }

/-- The loop of `load_segment` with `n` pages left, from `upage` on: one entry per page;
`none` is a return of `false`. -/
def loadSegmentPages (m : AddrSpace) (upage : ℕ) (writable : Bool) : ℕ → Option AddrSpace
  | 0 => some m
  | n + 1 =>
    match m.sptSetFile upage writable with
    | none => none
    | some m' => m'.loadSegmentPages (upage + pgSize) writable n

/-- `load_segment` under `VM`: as many pages as `read_bytes + zero_bytes` spans. -/
def loadSegment (m : AddrSpace) (upage readBytes zeroBytes : ℕ) (writable : Bool) :
    Option AddrSpace :=
  m.loadSegmentPages upage writable ((readBytes + zeroBytes) / pgSize)

/-- The `PT_LOAD` case of `load`: validate, then register the segment's pages from
`mem_page` on; `none` is a `goto done`. -/
def loadPtLoad (m : AddrSpace) (phdr : Elf32Phdr) (fileLength : ℕ) : Option AddrSpace :=
  if validateSegment phdr fileLength then
    let writable := phdr.pFlags.testBit 1
    let (readBytes, zeroBytes) := segmentBytes phdr
    m.loadSegment (pgRoundDown phdr.pVaddr) readBytes zeroBytes writable
  else none

variable {m : AddrSpace}

theorem entry_sptSetFile {upage : ℕ} {w : Bool} {m' : AddrSpace}
    (h : m.sptSetFile upage w = some m') (a : ℕ) :
    m'.entry a = if pgRoundDown a = pgRoundDown upage then some ⟨w, false⟩ else m.entry a := by
  unfold sptSetFile at h
  split at h
  · cases h
  · cases h
    simp [entry, Function.update_apply]

/-- A page that has an entry keeps it through `spt_set_file`, which fails rather than
overwrite it. -/
theorem entry_sptSetFile_of_isSome {upage a : ℕ} {w : Bool} {m' : AddrSpace}
    (h : m.sptSetFile upage w = some m') (ha : (m.entry a).isSome) : m'.entry a = m.entry a := by
  rw [entry_sptSetFile h]
  split
  · next he =>
    unfold sptSetFile at h
    split at h
    · cases h
    · next hn =>
      rw [entry, he, hn] at ha
      cases ha
  · rfl

theorem entry_loadSegmentPages_of_isSome {upage a : ℕ} {w : Bool} {n : ℕ} {m' : AddrSpace}
    (h : m.loadSegmentPages upage w n = some m') (ha : (m.entry a).isSome) :
    m'.entry a = m.entry a := by
  induction n generalizing m upage with
  | zero =>
    cases h
    rfl
  | succ n ih =>
    simp only [loadSegmentPages] at h
    split at h
    · cases h
    · next m₁ h₁ =>
      have he := entry_sptSetFile_of_isSome h₁ ha
      rw [ih h (he ▸ ha), he]

/-- Every page the loop walks over ends with an entry. -/
theorem entry_loadSegmentPages {upage : ℕ} {w : Bool} {n : ℕ} {m' : AddrSpace}
    (h : m.loadSegmentPages upage w n = some m') {k : ℕ} (hk : k < n) :
    (m'.entry (upage + k * pgSize)).isSome := by
  induction n generalizing m upage k with
  | zero => omega
  | succ n ih =>
    simp only [loadSegmentPages] at h
    split at h
    · cases h
    · next m₁ h₁ =>
      cases k with
      | zero =>
        -- the first page: `spt_set_file` registers it, the rest of the loop keeps it
        have h₀ : (m₁.entry upage).isSome := by simp [entry_sptSetFile h₁]
        rw [Nat.zero_mul, Nat.add_zero, entry_loadSegmentPages_of_isSome h h₀]
        exact h₀
      | succ k =>
        have hk' := ih h (k := k) (by omega)
        rwa [show upage + (k + 1) * pgSize = upage + pgSize + k * pgSize by
          rw [Nat.succ_mul]; ac_rfl]

theorem pgRoundDown_pgRoundDown (a : ℕ) : pgRoundDown (pgRoundDown a) = pgRoundDown a := by
  unfold pgRoundDown
  rw [Nat.mul_div_cancel _ (by decide : 0 < pgSize)]

theorem sptSetZero_of_some {page : ℕ} {w : Bool} {e : PageInfo} (h : m.spt page = some e) :
    m.sptSetZero page w = none := by
  simp [sptSetZero, h]

/-- `spt_set_zero` of a page without an entry registers it as not loaded. -/
theorem sptSetZero_of_none {page : ℕ} (w : Bool) (h : m.spt page = none) :
    ∃ m', m.sptSetZero page w = some m' ∧ m'.spt page = some ⟨w, false⟩ :=
  ⟨{ m with
      spt := Function.update m.spt page (some ⟨w, false⟩)
      mem := fun b => if pgRoundDown b = page then 0 else m.mem b },
    by simp [sptSetZero, h], by simp⟩

theorem sptLoadPage_isSome {a : ℕ} {e : PageInfo} (he : m.entry a = some e)
    (hp : e.present = false) : (m.sptLoadPage a).isSome := by
  simp [sptLoadPage, he, hp]

/-- Where `page_fault` starts from, `PHYS_BASE` less 8 MB is a page boundary: an address in
the stack window of `valid_uaddr` has its page in the window of `page_fault`. -/
theorem stack_page_le {a : ℕ} (h : physBase - stackLimit ≤ a) :
    physBase - pgRoundDown a ≤ stackLimit := by
  unfold pgRoundDown
  simp only [physBase, stackLimit, pgSize, Nat.reduceMul, Nat.reduceSub] at h ⊢
  omega

/-- Above `0x08048000` a not-present fault on a page with an entry is resolved, whatever the
`esp`: stack growth fails on the registered page, and `spt_load_page` installs it. -/
theorem pageFault_of_entry {a : ℕ} {e : PageInfo} (hc : codeBase ≤ a) (hu : a < physBase)
    (he : m.entry a = some e) (hp : e.present = false) (user : Bool) (esp : ℕ) :
    (m.pageFault a user esp).isSome := by
  have hcond : (isUserVaddr a && decide (codeBase ≤ a)) = true := by simp [isUserVaddr, hu, hc]
  have hg : (m.sptSetZero (pgRoundDown a) true).bind (·.sptLoadPage (pgRoundDown a)) = none := by
    rw [sptSetZero_of_some he]
    rfl
  unfold pageFault
  simp only [hcond, if_true, hg, ite_self, he, Option.any_some, hp, Bool.not_false]
  exact sptLoadPage_isSome he hp

/-- Above `0x08048000` the two checks agree: a not-present fault at an address `valid_uaddr`
accepts, with the `esp` it used, is resolved by `page_fault`, from user or kernel mode. -/
theorem pageFault_of_validUaddr {a : ℕ} {w : Bool} (hc : codeBase ≤ a)
    (hv : m.validUaddr a w = true) (hp : (m.entry a).any (·.present) = false) (user : Bool) :
    (m.pageFault a user m.espOnSyscall).isSome := by
  unfold validUaddr at hv
  split at hv
  · cases hv
  · next h0 =>
    have hu : a < physBase := by
      by_contra hn
      exact h0 (by simp [isUserVaddr, hn])
    split at hv
    · next e he =>
      exact pageFault_of_entry hc hu he (by simpa [he] using hp) user _
    · next he =>
      -- no entry: the stack window of `valid_uaddr` is inside that of `page_fault`
      simp only [Bool.and_eq_true, decide_eq_true_eq] at hv
      obtain ⟨⟨⟨hlo, -⟩, hesp⟩, -⟩ := hv
      obtain ⟨m', hz, hz'⟩ := sptSetZero_of_none (m := m) true he
      have hl : (m'.sptLoadPage (pgRoundDown a)).isSome := by
        refine sptLoadPage_isSome (e := ⟨true, false⟩) ?_ rfl
        rw [entry, pgRoundDown_pgRoundDown]
        exact hz'
      obtain ⟨m'', hm''⟩ := Option.isSome_iff_exists.mp hl
      have hcond : (isUserVaddr a && decide (codeBase ≤ a)) = true := by
        simp [isUserVaddr, hu, hc]
      have hesp' : (if user then m.espOnSyscall else m.espOnSyscall) = m.espOnSyscall := by
        cases user <;> rfl
      unfold pageFault
      simp only [hcond, if_true, hesp']
      rw [if_pos ⟨hesp, hu, stack_page_le hlo⟩, hz, Option.bind_some, hm'']
      rfl

end AddrSpace

/-- A read-only segment of one byte at `p_vaddr = 0x1000`, from offset `0x1000` of the
file. -/
def lowSegment : Elf32Phdr := ⟨ptLoad, 0x1000, 0x1000, 0, 1, 1, 4, 0x1000⟩

/-- The address space `load` starts from: no entries. -/
def emptySpace : AddrSpace := ⟨fun _ => none, 0xbffffff0, fun _ => 0⟩

/-- What `load` leaves for `lowSegment`: its page registered, read-only and not loaded. -/
def lowSpace : AddrSpace :=
  ⟨Function.update (fun _ => none) 0x1000 (some ⟨false, false⟩), 0xbffffff0, fun _ => 0⟩

/-- `validate_segment` accepts `lowSegment` of an 8 kB file, and `load` registers its page;
`valid_uaddr` then accepts the page's first byte for reading, while a fault on it, from user
or kernel mode and with any `esp`, goes to `kill`, and a system call touching it panics. -/
theorem loaded_page_not_faultable :
    validateSegment lowSegment 0x2000 = true ∧
      ∃ m, emptySpace.loadPtLoad lowSegment 0x2000 = some m ∧ m.validUaddr 0x1000 false = true ∧
        (∀ user esp, m.pageFault 0x1000 user esp = none) ∧ m.kernelAccess 0x1000 false = none := by
  refine ⟨by decide, lowSpace, rfl, by decide, fun user esp => ?_, by decide⟩
  simp [AddrSpace.pageFault, codeBase]

end Pintos
