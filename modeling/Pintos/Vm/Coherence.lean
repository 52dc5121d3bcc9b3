import Pintos.Vm.Page
import Mathlib.Algebra.Group.Nat.Defs
import Mathlib.Algebra.Group.Int.Defs
import Mathlib.Algebra.GroupWithZero.Nat

/-! # What the VM does not keep: frames, contents and swap slots

Two guarantees one expects of `vm/` fail.

Coherence. `spt_load_page` allocates its frame, then blocks in `file_read`
with the frame in the frame table and not pinned. Another process's
`frame_alloc` can evict it and install it for one of its own pages; the
blocked read then lands in that process's page, and both page tables map the
frame (`fill_into_stolen_frame`).

Swap-slot accounting. `spt_destroy_func` and `spt_remove_entry` free a swap
slot only when it is not 0, and `bitmap_scan_and_flip` hands out slot 0
first: a process that exits with a page in slot 0 leaks it. And `swap_in`
frees the slot but leaves the entry's type and slot, so a later
`spt_destroy_func` frees a slot that may hold another page by then; the
other process's next fault on that page reads a free slot and panics
(`swap_slot_accounting_fails`).
-/

namespace Pintos

open VmState Transition

/-- The live entries of processes `0 … nprocs - 1` that hold their page in swap slot `slot`. -/
def swapHolders (s : VmState) (nprocs slot : ℕ) : ℕ :=
  ((List.range nprocs).map fun p =>
    ((s.proc p).spt.filter fun e =>
      e.type = .swap ∧ e.loaded = false ∧ e.swapSlot = slot).length).sum

/-- A slot is in use exactly when one live entry holds its page there. -/
def SwapAccounting (s : VmState) (nprocs : ℕ) : Prop :=
  ∀ slot < s.swapTable.bitCnt, s.swapTable.test slot = true ↔ swapHolders s nprocs slot = 1

instance (s : VmState) (nprocs : ℕ) : Decidable (SwapAccounting s nprocs) :=
  inferInstanceAs (Decidable (∀ slot < s.swapTable.bitCnt, _ ↔ _))

section Slots

variable {s s' : VmState} {p : ℕ} {e : SptEntry}

/-- `spt_destroy_func` never frees slot 0. -/
theorem swapTable_sptDestroyFunc_of_slot_zero (he : e.swapSlot = 0)
    (h : s.sptDestroyFunc p e = some s') : s'.swapTable = s.swapTable := by
  unfold sptDestroyFunc at h
  simp only [he, ne_eq, not_true_eq_false, and_false, if_false] at h
  split at h
  · simp only [Option.bind_eq_bind, Option.bind_eq_some_iff, Option.some.injEq] at h
    obtain ⟨s₁, h₁, rfl⟩ := h
    rw [swapTable_frameFree h₁]
    rfl
  · simp only [Option.bind_eq_bind, Option.bind_some, Option.some.injEq] at h
    rw [h]

/-- `spt_destroy_func` frees the slot an entry of type `PAGE_SWAP` names, whether the page is
there or, loaded again, in a frame. -/
theorem test_sptDestroyFunc_of_swap (ht : e.type = .swap) (hn : e.swapSlot ≠ 0)
    (h : s.sptDestroyFunc p e = some s') : s'.swapTable.test e.swapSlot = false := by
  unfold sptDestroyFunc at h
  simp only [ht, hn, ne_eq, not_false_eq_true, and_self, if_true, Option.bind_eq_bind] at h
  split at h
  · obtain ⟨s₁, -, hs⟩ := Option.bind_eq_some_iff.mp h
    cases hs
    simp
  · cases h
    simp

/-- `swap_in` frees its slot and leaves the entry's type and slot as they were: the page is
loaded, and its entry still names a slot that the next `swap_out` may give to another page. -/
theorem fillPage_swap_stale {upage kpage slot fd rb : ℕ} {w : Bool}
    (hpc : (s.proc p).pc = .fill upage kpage .swap w fd rb slot)
    (he : sptGetEntry (s.proc p).spt upage = some e) (h : s.fillPage p = some s') :
    s'.swapTable.test slot = false ∧
      sptGetEntry (s'.proc p).spt upage = some { e with kpage := some kpage, loaded := true } := by
  unfold fillPage at h
  rw [hpc] at h
  simp only [Option.bind_eq_bind, Option.bind_eq_some_iff] at h
  obtain ⟨s₁, h₁, pd, hpd, hs⟩ := h
  cases hs
  unfold swapIn at h₁
  split at h₁
  · cases h₁
    constructor
    · simp [VmState.updateEntry, VmState.modifyProc]
    · have he' : sptGetEntry (s.procs p).spt upage = some e := he
      simp [VmState.updateEntry, VmState.modifyProc, VmState.setProc, VmState.proc,
        VmState.setFrame, sptGetEntry_sptUpdate, he']
  · cases h₁

end Slots

/-- A read-only file page (a code page) of process 0, and a stack page of process 1. -/
def codePage : SptEntry := ⟨1, none, .file, false, false, 7, 4096, 0, -1⟩

def zeroPage (upage : ℕ) : SptEntry := ⟨upage, none, .zero, true, false, 0, 0, 0, -1⟩

/-- Process 0 faults on its code page and blocks reading it into frame 0; process 1 faults on
its stack page, evicts frame 0, zeroes it and writes 5 to it; process 0's read completes. -/
def stealRun : List VmAct := [.fault 0 1, .fault 1 2, .fill 1, .write 1 2 5, .fill 0]

theorem fill_into_stolen_frame :
    ∃ s, (vmSystem [[codePage], [zeroPage 2]] 1 2).Reachable s ∧
      pagedirGetPage (s.proc 0).pagedir 1 = some 0 ∧ pagedirGetPage (s.proc 1).pagedir 2 = some 0 ∧
      s.readValue 1 2 = some 7 ∧ s.expected 1 2 = 5 :=
  System.exists_reachable_of_replay stealRun (by decide)

/-- Process 0's stack page is evicted to slot 0 for process 1's, and process 0 exits. -/
def slotZeroRun : List VmAct := [.fault 0 1, .fill 0, .fault 1 2, .fill 1, .exit 0]

/-- With two frames: process 1's page 2 is swapped out to slot 1 and back in, keeping slot 1
in its entry; process 0's page then goes to slot 1, and process 1 exits. -/
def staleSlotRun : List VmAct :=
  [.fault 0 1, .fill 0, .fault 1 2, .fill 1, .fault 1 3, .fill 1, .fault 0 1, .fill 0,
    .fault 1 2, .fill 1, .fault 1 3, .fill 1, .exit 1]

theorem swap_slot_accounting_fails :
    (∃ s, (vmSystem [[zeroPage 1], [zeroPage 2]] 1 2).Reachable s ∧
      (s.proc 0).pc = .dead ∧ s.swapTable.test 0 = true ∧ ¬ SwapAccounting s 2) ∧
    (∃ s, (vmSystem [[zeroPage 1], [zeroPage 2, zeroPage 3]] 2 3).Reachable s ∧
      sptGetEntry (s.proc 0).spt 1 = some { zeroPage 1 with type := .swap, swapSlot := 1 } ∧
      s.swapTable.test 1 = false ∧ ¬ SwapAccounting s 2 ∧
      (vmStep (vmStep s (.fault 0 1)) (.fill 0)).panicked = true) :=
  ⟨System.exists_reachable_of_replay slotZeroRun (by decide),
    System.exists_reachable_of_replay staleSlotRun (by decide)⟩

end Pintos
