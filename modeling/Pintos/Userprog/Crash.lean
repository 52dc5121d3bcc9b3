import Pintos.Userprog.Syscall

/-! # System calls that bring the kernel down

Two ways a user process can make `syscall_handler` stop the kernel rather
than return or terminate the process.

`uarg` checks only that the first and the last byte of an argument word lie
below `PHYS_BASE`, not that they are mapped, and `uaddr_check` looks at the
first byte of `esp` only. A system-call number whose first byte is the last
byte of a mapped page and whose other bytes lie on an unmapped page below the
stack window is read by the kernel, the load faults in kernel code, and
`page_fault` can neither grow the stack nor load the page: `kill` panics.

`sys_seek` hands its unsigned position to `file_seek`, whose parameter is the
signed `off_t`: a position of `2 ^ 31` or more becomes negative and fails
`ASSERT (new_pos >= 0)`. Likewise a command line of spaces only reaches
`thread_create` with no thread name.
-/

namespace Pintos

open StateExcept

variable {σ : Type} (S : Services σ)

/-- The state `syscall_handler` works in after recording `esp`. -/
def SysState.onEntry (s : SysState σ) (esp : ℕ) : SysState σ :=
  { s with proc := { s.proc with espOnSyscall := esp } }

theorem modifyProc_onEntry (s : SysState σ) (esp : ℕ) :
    (modifyProc fun p => { p with espOnSyscall := esp }) s = .ok ((), s.onEntry esp) := rfl

/-- With its first byte mapped, `esp` passes `uaddr_check`. -/
theorem uaddrCheck_onEntry {s : SysState σ} {esp : ℕ} (hesp : s.proc.mmuOk esp false = true)
    (h0 : esp ≠ 0) (hu : esp < physBase) :
    uaddrCheck esp (s.onEntry esp) = .ok ((), s.onEntry esp) :=
  uaddrCheck_of_valid (AddrSpace.validUaddr_of_mmuOk hesp h0 hu)

section Straddle

variable {s : SysState σ} {esp : ℕ}

/-- The system-call number's load faults on the first byte of the next page. -/
theorem uarg_straddle_faults (hofs : pgOfs esp = pgSize - 1)
    (hesp : s.proc.mmuOk esp false = true) (hnext : s.proc.entry (esp + 1) = none)
    (hlow : esp + 1 < physBase - stackLimit) :
    uarg esp 0 s = .error (.kernelFault (esp + 1)) := by
  have hu : esp + 3 < physBase := by unfold stackLimit at hlow; omega
  have hlt : esp + 3 < ptrRange := by unfold physBase at hu; unfold ptrRange; omega
  have he : ptrAdd esp (4 * 0) = esp := ptrAdd_of_lt (by omega)
  have h1 : ptrAdd esp 1 = esp + 1 := ptrAdd_of_lt (by omega)
  have h3 : ptrAdd esp 3 = esp + 3 := ptrAdd_of_lt hlt
  have h0 : esp ≠ 0 := by unfold pgOfs pgSize at hofs; omega
  have hfault : s.proc.kernelAccess (esp + 1) false = none :=
    AddrSpace.kernelAccess_eq_none false hnext hlow
  unfold uarg
  rw [he]
  have hc₀ : (decide (esp = 0) || !isUserVaddr esp) = false := by
    simp only [isUserVaddr, h0, decide_false, Bool.false_or, Bool.not_eq_false', decide_eq_true_eq]
    omega
  have hc₃ : (!isUserVaddr (ptrAdd esp 3)) = false := by
    rw [h3]
    simp only [isUserVaddr, Bool.not_eq_false', decide_eq_true_eq]
    exact hu
  simp only [hc₀, hc₃, Bool.false_eq_true, if_false]
  unfold readUserWord
  rw [bind_of_ok (readUserByte_of_mmuOk hesp), h1,
    bind_of_error (readUserByte_of_kernelAccess hfault)]

/-- `syscall_handler` panics when the number straddles into an unmapped page below the stack
window, although `uaddr_check` passed. -/
theorem syscallHandler_straddle_panics (hofs : pgOfs esp = pgSize - 1)
    (hesp : s.proc.mmuOk esp false = true) (hnext : s.proc.entry (esp + 1) = none)
    (hlow : esp + 1 < physBase - stackLimit) :
    syscallHandler S esp s = .error (.kernelFault (esp + 1)) := by
  have h0 : esp ≠ 0 := by unfold pgOfs pgSize at hofs; omega
  have hu : esp < physBase := by omega
  unfold syscallHandler
  rw [bind_of_ok (modifyProc_onEntry s esp), bind_of_ok (uaddrCheck_onEntry hesp h0 hu),
    bind_of_error (uarg_straddle_faults (s := s.onEntry esp) hofs hesp hnext hlow)]

end Straddle

section Seek

variable {s : SysState σ} {esp fd : ℕ} {f : File}

theorem toInt32_of_lt {w : ℕ} (h : w < 2 ^ 31) : toInt32 w = w := by
  unfold toInt32
  rw [if_pos h]

theorem toInt32_neg {w : ℕ} (h : 2 ^ 31 ≤ w) (h' : w < 2 ^ 32) : toInt32 w < 0 := by
  have hn : ¬ w < 2 ^ 31 := by omega
  simp only [toInt32, hn, if_false]
  omega

/-- `sys_seek` on an open descriptor with a position of `2 ^ 31` or more fails the `ASSERT`
of `file_seek`. -/
theorem sysSeek_asserts (hfd : 2 ≤ fd) (hfd' : fd < fdMax) (hf : s.proc.fds fd = some f)
    {position : ℕ} (hp : 2 ^ 31 ≤ position) (hp' : position < 2 ^ 32) :
    sysSeek (toInt32 fd) position s = .error .assertFail := by
  have hi : toInt32 fd = fd := toInt32_of_lt (by unfold fdMax at hfd'; omega)
  have hget : fdGet s.proc fd = some f := by
    have hr : ¬ ((fd : ℤ) < 2 ∨ (fdMax : ℤ) ≤ fd) := by omega
    unfold fdGet
    rw [if_neg hr]
    simpa using hf
  have hseek : fileSeek f (toInt32 position) = none :=
    (fileSeek_eq_none_iff _ _).mpr (toInt32_neg hp hp')
  unfold sysSeek
  rw [bind_of_ok (get_apply s), hi, hget]
  simp [hseek]

/-- The first three argument words of a call whose twelve bytes are installed. -/
theorem uarg_onEntry (hesp : esp ≠ 0) (hu : esp + 11 < physBase)
    (hm : ∀ j < 12, s.proc.mmuOk (esp + j) false = true) {i : ℕ} (hi : i < 3) :
    uarg esp i (s.onEntry esp) = .ok (s.proc.wordAt (esp + 4 * i), s.onEntry esp) := by
  have he : ptrAdd esp (4 * i) = esp + 4 * i :=
    ptrAdd_of_lt (by unfold physBase at hu; unfold ptrRange; omega)
  have h : uarg esp i (s.onEntry esp) =
      .ok ((s.onEntry esp).proc.wordAt (ptrAdd esp (4 * i)), s.onEntry esp) :=
    uarg_of_mmuOk (by omega) (by omega)
      (fun j hj => by rw [he, Nat.add_assoc]; exact hm (4 * i + j) (by omega))
  rw [h, he]
  rfl

/-- `syscall_handler` for `SYS_SEEK` with a position of `2 ^ 31` or more on an open
descriptor fails an `ASSERT`. -/
theorem syscallHandler_seek_asserts (hesp : esp ≠ 0) (hu : esp + 11 < physBase)
    (hm : ∀ j < 12, s.proc.mmuOk (esp + j) false = true)
    (hno : s.proc.wordAt esp = 10) (hfdw : s.proc.wordAt (esp + 4) = fd)
    (hfd : 2 ≤ fd) (hfd' : fd < fdMax) (hf : s.proc.fds fd = some f)
    (hpos : 2 ^ 31 ≤ s.proc.wordAt (esp + 8)) :
    syscallHandler S esp s = .error .assertFail := by
  have h₀ : uarg esp 0 (s.onEntry esp) = .ok (10, s.onEntry esp) := by
    rw [uarg_onEntry hesp hu hm (by omega), Nat.mul_zero, Nat.add_zero, hno]
  have h₁ : uarg esp 1 (s.onEntry esp) = .ok (fd, s.onEntry esp) := by
    rw [uarg_onEntry hesp hu hm (by omega), hfdw]
  have h₂ := uarg_onEntry hesp hu hm (i := 2) (by omega)
  have hseek := sysSeek_asserts (s := s.onEntry esp) hfd hfd' hf hpos
    (AddrSpace.wordAt_lt _)
  have hc : uaddrCheck esp (s.onEntry esp) = .ok ((), s.onEntry esp) :=
    uaddrCheck_onEntry (hm 0 (by omega)) hesp (by omega)
  unfold syscallHandler
  rw [bind_of_ok (modifyProc_onEntry s esp), bind_of_ok hc, bind_of_ok h₀]
  simp only []
  rw [bind_of_ok h₁, bind_of_ok h₂, bind_of_error hseek]

end Seek

/-- `process_execute` of a command line with no non-space byte reaches `thread_create` with no
name, and `init_thread` asserts. -/
theorem processExecute_blank_asserts {s : SysState σ} {cmd : List UInt8}
    (h : ∀ c ∈ cmd, c = spaceChar) : processExecute S cmd s = .error .assertFail := by
  have hn : (strtokR [spaceChar] cmd).1 = none :=
    (strtokR_eq_none_iff _ _).mpr fun c hc => by simp [isDelim, h c hc]
  unfold processExecute
  rw [hn]
  rfl

/-- A process whose user page `0x0804B000` is the last one mapped, with `esp` on its last
byte, as `sc-boundary-3` sets it up. -/
def boundaryProc : Proc where
  spt pg := if pg = 0x0804B000 then some ⟨true, true⟩ else none
  espOnSyscall := 0x0804BFFF
  mem _ := 0
  fds _ := none

theorem syscall_number_past_last_page :
    ∃ (p : Proc) (esp : ℕ), p.validUaddr esp false = true ∧
      p.validUaddr (esp + 1) false = false ∧
      ∀ (σ : Type) (S : Services σ) (fs : σ),
        syscallHandler S esp ⟨p, fs⟩ = .error (.kernelFault (esp + 1)) := by
  have hesp : boundaryProc.mmuOk 0x0804BFFF false = true := by decide
  have hnext : boundaryProc.entry (0x0804BFFF + 1) = none := by decide
  refine ⟨boundaryProc, 0x0804BFFF, by decide, by decide, fun σ S fs => ?_⟩
  exact syscallHandler_straddle_panics S (s := ⟨boundaryProc, fs⟩) (by decide) hesp hnext
    (by decide)

/-- A process with a file open at descriptor 2 and the words of `seek (2, 0x80000000)` at
the bottom of its stack page. -/
def seekProc : Proc where
  spt pg := if pg = 0x0804B000 then some ⟨true, true⟩ else none
  espOnSyscall := 0x0804B000
  mem a := if a = 0x0804B000 then 10 else if a = 0x0804B004 then 2
    else if a = 0x0804B00B then 0x80 else 0
  fds fd := if fd = 2 then some ⟨0, 0, false⟩ else none

theorem seek_past_int_max_asserts :
    ∃ (p : Proc) (esp : ℕ), p.wordAt esp = 10 ∧ p.wordAt (esp + 4) = 2 ∧ p.fds 2 ≠ none ∧
      p.wordAt (esp + 8) = 2 ^ 31 ∧
      ∀ (σ : Type) (S : Services σ) (fs : σ),
        syscallHandler S esp ⟨p, fs⟩ = .error .assertFail := by
  have hm : ∀ j < 12, seekProc.mmuOk (0x0804B000 + j) false = true := by decide
  have hno : seekProc.wordAt 0x0804B000 = 10 := by decide
  have hfd : seekProc.wordAt (0x0804B000 + 4) = 2 := by decide
  have hf : seekProc.fds 2 = some ⟨0, 0, false⟩ := rfl
  have hpos : seekProc.wordAt (0x0804B000 + 8) = 2 ^ 31 := by decide
  refine ⟨seekProc, 0x0804B000, hno, hfd, by simp [hf], hpos, fun σ S fs => ?_⟩
  exact syscallHandler_seek_asserts S (s := ⟨seekProc, fs⟩) (by decide) (by decide) hm hno hfd
    (by decide) (by decide) hf hpos.ge

end Pintos
