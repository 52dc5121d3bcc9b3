import Pintos.Libc.String
import Pintos.Userprog.Syscall

/-! # The kernel command line

`threads/init.c`, `read_command_line`. The loader leaves the number of
arguments as a 32-bit word at `LOADER_ARG_CNT`, read into an `int`, and the
arguments, each ended by a null byte, in the `LOADER_ARGS_LEN` bytes at
`LOADER_ARGS`. The kernel points `argv[i]` at each argument in turn and moves
past it with `strnlen`, PANICs once it has run off the end of the area, and
ends `argv` with a null pointer. `argv` is a static array of
`LOADER_ARGS_LEN / 2 + 1` pointers.

Memory from `LOADER_ARGS` on is a function of the offset; the offsets from
`LOADER_ARGS_LEN` on lie past the area. The function is modelled by the list
of memory accesses it makes. The printing of the command line that follows
the loop is left out.
-/

namespace Pintos

/-- `LOADER_ARGS_LEN`. -/
def loaderArgsLen : ℕ := 128

/-- The entries of the static `argv`: `LOADER_ARGS_LEN / 2 + 1`. -/
def argvLen : ℕ := loaderArgsLen / 2 + 1

/-- A memory access of `read_command_line`: a read of the byte at an offset from
`LOADER_ARGS`, or a store into `argv[i]` of a pointer to an offset from `LOADER_ARGS`, or of
`NULL`. -/
inductive CmdAccess
  | read (ofs : ℕ)
  | write (i : ℤ) (ptr : Option ℕ)
  deriving DecidableEq, Repr

/-- The `for` loop with `n` rounds left, at argument `i` with `p` at offset `ofs`. -/
def readArgs (mem : ℕ → UInt8) : ℕ → ℕ → ℕ → Except String (List CmdAccess)
  | 0, _, _ => .ok []
  | n + 1, i, ofs =>
    if loaderArgsLen ≤ ofs then .error "command line arguments overflow"
    else
      let len := strnlen (fun k => mem (ofs + k)) (loaderArgsLen - ofs)
      (readArgs mem n (i + 1) (ofs + len.1 + 1)).map fun acc =>
        .write i (some ofs) :: len.2.map (fun k => .read (ofs + k)) ++ acc

/-- `read_command_line`, given the word at `LOADER_ARG_CNT` and the memory from `LOADER_ARGS`:
a PANIC, or the accesses made. The loop runs `argc` times, not at all when `argc` is
negative. -/
def readCommandLine (mem : ℕ → UInt8) (argCnt : UInt32) : Except String (List CmdAccess) :=
  let argc := toInt32 argCnt.toNat
  (readArgs mem argc.toNat 0 0).map fun acc => acc ++ [.write argc none]

namespace CmdAccess

/-- A store lands in `argv`; a read is no store. -/
def storeInArgv : CmdAccess → Bool
  | .read _ => true
  | .write i _ => decide (0 ≤ i) && decide (i < argvLen)

/-- A read stays in the argument area; a store is no read. -/
def readInArea : CmdAccess → Bool
  | .read ofs => decide (ofs < loaderArgsLen)
  | .write _ _ => true

end CmdAccess

section Loop

variable {mem : ℕ → UInt8}

theorem readArgs_succ {n i ofs : ℕ} (hofs : ofs < loaderArgsLen) :
    readArgs mem (n + 1) i ofs =
      (readArgs mem n (i + 1) (ofs + (strnlen (fun k => mem (ofs + k)) (loaderArgsLen - ofs)).1 + 1)).map
        fun acc => .write i (some ofs) ::
          (strnlen (fun k => mem (ofs + k)) (loaderArgsLen - ofs)).2.map (fun k => .read (ofs + k)) ++ acc := by
  rw [readArgs, if_neg (Nat.not_le.mpr hofs)]

theorem readArgs_error {n i ofs : ℕ} (hofs : loaderArgsLen ≤ ofs) :
    readArgs mem (n + 1) i ofs = .error "command line arguments overflow" := by
  rw [readArgs, if_pos hofs]

/-- Each argument takes at least a byte, so a loop that does not PANIC has started each of its
rounds inside the area. -/
theorem readArgs_fits : ∀ {n i ofs : ℕ} {acc : List CmdAccess},
    readArgs mem n i ofs = .ok acc → n ≤ loaderArgsLen - ofs
  | 0, _, _, _, _ => Nat.zero_le _
  | n + 1, i, ofs, acc, h => by
    by_cases hofs : loaderArgsLen ≤ ofs
    · rw [readArgs_error hofs] at h
      cases h
    · rw [readArgs_succ (Nat.lt_of_not_le hofs)] at h
      obtain ⟨acc', h', -⟩ := StateExcept.map_eq_ok.mp h
      have := readArgs_fits h'
      omega

/-- The loop stores `argv[i]` to `argv[i + n - 1]`, each pointing inside the area, and reads at
most one byte past it. -/
theorem readArgs_accesses : ∀ {n i ofs : ℕ} {acc : List CmdAccess},
    readArgs mem n i ofs = .ok acc → ∀ a ∈ acc,
      (∃ j o, a = .write j (some o) ∧ i ≤ j ∧ j < i + n ∧ o < loaderArgsLen) ∨
      ∃ o, a = .read o ∧ o ≤ loaderArgsLen
  | 0, _, _, acc, h => by
    cases h
    simp
  | n + 1, i, ofs, acc, h => by
    by_cases hofs : loaderArgsLen ≤ ofs
    · rw [readArgs_error hofs] at h
      cases h
    · rw [readArgs_succ (Nat.lt_of_not_le hofs)] at h
      obtain ⟨acc', h', rfl⟩ := StateExcept.map_eq_ok.mp h
      obtain ⟨hlen, -, -, hreads⟩ := strnlen_spec (fun k => mem (ofs + k)) (loaderArgsLen - ofs)
      intro a ha
      rcases List.mem_cons.mp ha with rfl | ha
      · exact .inl ⟨i, ofs, rfl, le_rfl, by omega, Nat.lt_of_not_le hofs⟩
      rcases List.mem_append.mp ha with ha | ha
      · rw [hreads, List.mem_map] at ha
        obtain ⟨k, hk, rfl⟩ := ha
        rw [List.mem_range] at hk
        exact .inr ⟨ofs + k, rfl, by omega⟩
      · rcases readArgs_accesses h' a ha with ⟨j, o, rfl, hj, hjn, ho⟩ | hr
        · exact .inl ⟨j, o, rfl, by omega, by omega, ho⟩
        · exact .inr hr

end Loop

/-- When `read_command_line` returns, it has stored only into `argv[0]` to `argv[argc]`, and
every store lands in `argv` exactly when `0 ≤ argc < LOADER_ARGS_LEN / 2 + 1`. -/
theorem readCommandLine_stores_iff {mem : ℕ → UInt8} {argCnt : UInt32} {acc : List CmdAccess}
    (h : readCommandLine mem argCnt = .ok acc) :
    (∀ a ∈ acc, a.storeInArgv = true) ↔ 0 ≤ toInt32 argCnt.toNat ∧ toInt32 argCnt.toNat < argvLen := by
  obtain ⟨acc', h', rfl⟩ := StateExcept.map_eq_ok.mp h
  have hfit := readArgs_fits h'
  have hacc := readArgs_accesses h'
  constructor
  · intro hall
    have hlast := hall _ (List.mem_append_right _ (List.mem_singleton_self _))
    simpa [CmdAccess.storeInArgv] using hlast
  · rintro ⟨h0, hlt⟩ a ha
    rcases List.mem_append.mp ha with ha | ha
    · rcases hacc a ha with ⟨j, o, rfl, hj, hjn, -⟩ | ⟨o, rfl, -⟩
      · simp only [CmdAccess.storeInArgv, Bool.and_eq_true, decide_eq_true_eq]
        omega
      · rfl
    · rw [List.mem_singleton.mp ha]
      simp [CmdAccess.storeInArgv, h0, hlt]

/-- A zero word at `LOADER_ARG_CNT` aside, every argument takes at least one byte of the area,
so `read_command_line` never returns with more than `LOADER_ARGS_LEN` arguments. -/
theorem readCommandLine_argc_le {mem : ℕ → UInt8} {argCnt : UInt32} {acc : List CmdAccess}
    (h : readCommandLine mem argCnt = .ok acc) : toInt32 argCnt.toNat ≤ loaderArgsLen := by
  obtain ⟨acc', h', -⟩ := StateExcept.map_eq_ok.mp h
  have := readArgs_fits h'
  omega

/-- An argument with no null byte before the end of the area makes `strnlen` read the byte just
past it. -/
theorem readCommandLine_reads_past_area {mem : ℕ → UInt8} (hmem : ∀ k < loaderArgsLen, mem k ≠ 0) :
    ∃ acc, readCommandLine mem 1 = .ok acc ∧ CmdAccess.read loaderArgsLen ∈ acc := by
  obtain ⟨-, -, hend, hreads⟩ := strnlen_spec (fun k => mem (0 + k)) (loaderArgsLen - 0)
  have hn : (strnlen (fun k => mem (0 + k)) (loaderArgsLen - 0)).1 = loaderArgsLen := by
    by_contra hne
    have hlt : (strnlen (fun k => mem (0 + k)) (loaderArgsLen - 0)).1 < loaderArgsLen - 0 := by
      have := (strnlen_spec (fun k => mem (0 + k)) (loaderArgsLen - 0)).1
      omega
    exact hmem _ (by omega) (by simpa using hend hlt)
  refine ⟨(.write 0 (some 0) :: (strnlen (fun k => mem (0 + k)) (loaderArgsLen - 0)).2.map
    (fun k => .read (0 + k)) ++ []) ++ [.write 1 none], ?_, ?_⟩
  · show (readArgs mem 1 0 0).map (fun acc => acc ++ [.write 1 none]) = _
    rw [readArgs_succ (by decide)]
    rfl
  · simp only [hreads, hn, List.append_nil, List.cons_append, List.mem_cons, List.mem_append,
      List.mem_map, List.mem_range]
    exact .inr (.inl ⟨loaderArgsLen, Nat.lt_succ_self _, by rw [Nat.zero_add]⟩)

/-- Empty arguments take one byte each: over an area of null bytes the loop runs to its end
whenever it starts no later than `LOADER_ARGS_LEN - n`. -/
theorem readArgs_nul {n i ofs : ℕ} (hfit : n ≤ loaderArgsLen - ofs) :
    ∃ acc, readArgs (fun _ => 0) n i ofs = .ok acc := by
  induction n generalizing i ofs with
  | zero => exact ⟨[], rfl⟩
  | succ n ih =>
    have hofs : ofs < loaderArgsLen := by omega
    have hlen : (strnlen (fun _ => (0 : UInt8)) (loaderArgsLen - ofs)).1 = 0 := by
      simp [strnlen, strnlenLoop]
    rw [readArgs_succ hofs]
    simp only [hlen]
    obtain ⟨acc, hacc⟩ := @ih (i + 1) (ofs + 0 + 1) (by omega)
    exact ⟨_, by rw [hacc]; rfl⟩

/-- With 128 arguments in an area of null bytes, `read_command_line` returns without a PANIC
after storing into `argv[128]`, past the 65 entries of `argv`. -/
theorem command_line_overflows_argv :
    ∃ acc, readCommandLine (fun _ => 0) 128 = .ok acc ∧
      CmdAccess.write 128 none ∈ acc ∧ (CmdAccess.write 128 none).storeInArgv = false := by
  obtain ⟨acc, hacc⟩ := @readArgs_nul 128 0 0 (by decide)
  refine ⟨acc ++ [.write 128 none], ?_, List.mem_append_right _ (List.mem_singleton_self _), by decide⟩
  show (readArgs (fun _ => 0) 128 0 0).map (fun acc => acc ++ [.write 128 none]) = _
  rw [hacc]
  rfl

end Pintos
