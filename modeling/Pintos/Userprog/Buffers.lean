import Pintos.Userprog.Syscall

/-! # Buffers of `read` and `write`

`sys_read` and `sys_write` check a buffer with `valid_urange`, which looks at
its first and its last byte only, and then move it chunk by chunk: each chunk
is copied with `copy_in` or `copy_out`, which check that chunk's own first
and last byte. A buffer with an unmapped page between two mapped ones passes
the first check, and the chunk loop goes on doing real input and output
until the first chunk that starts in the hole.

A run of the handler that ends in `sys_exit` drops the handler's state, so
the output already done is shown on the run itself: the call is the rest of
its loop from a state in which the console has been written, and that rest
exits (`console_write_before_exit`).
-/

namespace Pintos

open StateExcept

variable {σ : Type}

theorem ptrAdd_ptrAdd (a m n : ℕ) : ptrAdd (ptrAdd a m) n = ptrAdd a (m + n) := by
  unfold ptrAdd
  rw [Nat.mod_add_mod, Nat.add_assoc]

theorem ptrAdd_zero {a : ℕ} (ha : a < ptrRange) : ptrAdd a 0 = a := ptrAdd_of_lt (by omega)

section Copy

variable {s : SysState σ}

/-- The bytes of user memory from `a` on, as `memcpy` reads them. -/
def userBytes (p : Proc) (a n : ℕ) : List UInt8 := (List.range n).map fun j => p.mem (ptrAdd a j)

theorem readUserBytes_of_mmuOk : ∀ {a n : ℕ}, a < ptrRange →
    (∀ j < n, s.proc.mmuOk (ptrAdd a j) false = true) →
    readUserBytes a n s = .ok (userBytes s.proc a n, s)
  | _, 0, _, _ => rfl
  | a, n + 1, ha, h => by
    have h₀ : s.proc.mmuOk a false = true := by simpa [ptrAdd_zero ha] using h 0 (by omega)
    have hrest : readUserBytes (ptrAdd a 1) n s = .ok (userBytes s.proc (ptrAdd a 1) n, s) :=
      readUserBytes_of_mmuOk (Nat.mod_lt _ (by unfold ptrRange; omega)) fun j hj => by
        rw [ptrAdd_ptrAdd, Nat.add_comm]
        exact h (j + 1) (by omega)
    unfold readUserBytes
    rw [bind_of_ok (readUserByte_of_mmuOk h₀), bind_of_ok hrest]
    simp only [userBytes, List.range_succ_eq_map, List.map_cons, List.map_map, ptrAdd_zero ha,
      ptrAdd_ptrAdd, Nat.add_comm 1]
    rfl

theorem copyIn_of_mmuOk {a n : ℕ} (ha : a < ptrRange)
    (hv : s.proc.validUrange a n false = true)
    (h : ∀ j < n, s.proc.mmuOk (ptrAdd a j) false = true) :
    copyIn a n s = .ok (some (userBytes s.proc a n), s) := by
  unfold copyIn
  rw [bind_of_ok (get_apply s)]
  simp only [hv, Bool.not_true, Bool.false_eq_true, if_false]
  rw [bind_of_ok (readUserBytes_of_mmuOk ha h)]
  rfl

theorem copyIn_of_invalid {a n : ℕ} (hv : s.proc.validUrange a n false = false) :
    copyIn a n s = .ok (none, s) := by
  unfold copyIn
  rw [bind_of_ok (get_apply s)]
  simp [hv]

end Copy

section Console

variable (S : Services σ) {s : SysState σ} {ubuf size done k : ℕ}

/-- A chunk that `copy_in` takes goes to the console, and the loop goes on after it. -/
theorem writeConsoleLoop_chunk (hd : done < size) {kb : List UInt8}
    (hc : copyIn (ptrAdd ubuf done) (min (size - done) chunkSize) s = .ok (some kb, s)) :
    writeConsoleLoop S ubuf size (k + 1) done s =
      writeConsoleLoop S ubuf size k (done + min (size - done) chunkSize)
        { s with fs := S.putbuf s.fs kb } := by
  rw [writeConsoleLoop]
  simp only [hd, if_true]
  rw [bind_of_ok hc]
  rfl

/-- A chunk that `copy_in` refuses ends the process. -/
theorem writeConsoleLoop_refused (hd : done < size)
    (hc : copyIn (ptrAdd ubuf done) (min (size - done) chunkSize) s = .ok (none, s)) :
    writeConsoleLoop S ubuf size (k + 1) done s = .error (.exit (-1)) := by
  unfold writeConsoleLoop
  simp only [hd, if_true]
  rw [bind_of_ok hc]
  rfl

/-- Past the buffer check, `write` to the console pins the buffer and runs the chunk loop. -/
theorem sysWrite_console (hs : size ≠ 0) (hv : s.proc.validUrange ubuf size false = true)
    {s₁ : SysState σ} (hp : pinBuffer ubuf size s = .ok ((), s₁)) :
    sysWrite S 1 ubuf size s = writeConsoleLoop S ubuf size size 0 s₁ := by
  unfold sysWrite
  simp only [hs, if_false]
  rw [bind_of_ok (get_apply s)]
  simp only [hv, Bool.not_true, Bool.false_eq_true, if_false]
  rw [if_neg (by decide), bind_of_ok hp]
  rfl

end Console

/-- A process with user pages `0x0804A000` and `0x0804C000` installed and the page between them
not registered. -/
def holeProc : Proc where
  spt pg := if pg = 0x0804A000 ∨ pg = 0x0804C000 then some ⟨true, true⟩ else none
  espOnSyscall := 0x0804A000
  mem _ := 0
  fds _ := none

theorem console_write_before_exit :
    ∃ (p : Proc) (buf size : ℕ), p.validUrange buf size false = true ∧
      p.validUaddr (buf + chunkSize) false = false ∧
      ∀ (σ : Type) (S : Services σ) (fs : σ),
        sysWrite S 1 buf size ⟨p, fs⟩ =
            writeConsoleLoop S buf size (size - 1) chunkSize
              ⟨p, S.putbuf fs (List.replicate chunkSize 0)⟩ ∧
          writeConsoleLoop S buf size (size - 1) chunkSize
              ⟨p, S.putbuf fs (List.replicate chunkSize 0)⟩ = .error (.exit (-1)) := by
  have hv : holeProc.validUrange 0x0804AE00 4609 false = true := by decide
  have hv₁ : holeProc.validUrange 0x0804AE00 chunkSize false = true := by decide
  have hv₂ : holeProc.validUrange (0x0804AE00 + chunkSize) chunkSize false = false := by decide
  refine ⟨holeProc, 0x0804AE00, 4609, hv, by decide, fun σ S fs => ?_⟩
  have hpin : pinBuffer (σ := σ) 0x0804AE00 4609 ⟨holeProc, fs⟩ = .ok ((), ⟨holeProc, fs⟩) := rfl
  have hmapped : ∀ j < chunkSize, holeProc.mmuOk (ptrAdd 0x0804AE00 j) false = true := by
    intro j hj
    have hpg : pgRoundDown (ptrAdd 0x0804AE00 j) = 0x0804A000 := by
      rw [ptrAdd_of_lt (by unfold chunkSize at hj; unfold ptrRange; omega)]
      unfold pgRoundDown pgSize
      unfold chunkSize at hj
      omega
    simp [AddrSpace.mmuOk, AddrSpace.entry, holeProc, hpg]
  have hzero : userBytes holeProc 0x0804AE00 chunkSize = List.replicate chunkSize 0 := by
    simp [userBytes, holeProc, List.map_const']
  have hc₁ : copyIn (σ := σ) (ptrAdd 0x0804AE00 0) (min (4609 - 0) chunkSize) ⟨holeProc, fs⟩ =
      .ok (some (List.replicate chunkSize 0), ⟨holeProc, fs⟩) := by
    rw [← hzero]
    exact copyIn_of_mmuOk (by decide) hv₁ hmapped
  have hc₂ : copyIn (σ := σ) (ptrAdd 0x0804AE00 chunkSize) (min (4609 - chunkSize) chunkSize)
      ⟨holeProc, S.putbuf fs (List.replicate chunkSize 0)⟩ =
      .ok (none, ⟨holeProc, S.putbuf fs (List.replicate chunkSize 0)⟩) :=
    copyIn_of_invalid hv₂
  refine ⟨?_, writeConsoleLoop_refused S (by decide) hc₂⟩
  rw [sysWrite_console S (by decide) hv hpin, writeConsoleLoop_chunk S (by decide) hc₁]
  rfl

end Pintos
