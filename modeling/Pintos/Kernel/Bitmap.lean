import Mathlib.Logic.Function.Basic
import Mathlib.Data.List.Range

/-! # Bitmaps

`lib/kernel/bitmap.c`: `bit_cnt` bits, set and tested one at a time or over a
range, and the first-fit scan with which `palloc` picks a free page of a pool
and `swap_out` a free swap slot. Index ASSERTs of the C code are left out:
every index the kernel passes is below `bit_cnt`.
-/

namespace Pintos

structure Bitmap where
  bitCnt : ℕ
  bits : ℕ → Bool

namespace Bitmap

/-- `bitmap_create` followed by `bitmap_set_all (b, false)`. -/
def create (bitCnt : ℕ) : Bitmap := ⟨bitCnt, fun _ => false⟩

def test (b : Bitmap) (idx : ℕ) : Bool := b.bits idx

def set (b : Bitmap) (idx : ℕ) (value : Bool) : Bitmap :=
  { b with bits := Function.update b.bits idx value }

def setMultiple (b : Bitmap) (start cnt : ℕ) (value : Bool) : Bitmap :=
  (List.range cnt).foldl (fun b i => b.set (start + i) value) b

/-- Whether some bit of `[start, start + cnt)` is `value`. -/
def contains (b : Bitmap) (start cnt : ℕ) (value : Bool) : Bool :=
  (List.range cnt).any fun i => b.test (start + i) == value

/-- `bitmap_all`: every bit of `[start, start + cnt)` is set. -/
def all (b : Bitmap) (start cnt : ℕ) : Bool := !b.contains start cnt false

/-- `bitmap_scan`: the first `i ≥ start` whose `cnt` bits are all `value`; `none` is
`BITMAP_ERROR`. -/
def scan (b : Bitmap) (start cnt : ℕ) (value : Bool) : Option ℕ :=
  if cnt ≤ b.bitCnt then
    (List.range' start (b.bitCnt - cnt + 1 - start)).find? fun i => !b.contains i cnt !value
  else none

def scanAndFlip (b : Bitmap) (start cnt : ℕ) (value : Bool) : Option (ℕ × Bitmap) :=
  (b.scan start cnt value).map fun idx => (idx, b.setMultiple idx cnt !value)

/-- Bits `[i, i + cnt)` lie in the bitmap and all hold `value`: a group `bitmap_scan` may
return. -/
def RunAt (b : Bitmap) (cnt : ℕ) (value : Bool) (i : ℕ) : Prop :=
  i + cnt ≤ b.bitCnt ∧ ∀ k < cnt, b.test (i + k) = value

instance (b : Bitmap) (cnt : ℕ) (value : Bool) (i : ℕ) : Decidable (b.RunAt cnt value i) :=
  inferInstanceAs (Decidable (_ ∧ _))

variable {b : Bitmap}

@[simp] theorem bitCnt_set (idx : ℕ) (value : Bool) : (b.set idx value).bitCnt = b.bitCnt := rfl

@[simp] theorem test_set (idx j : ℕ) (value : Bool) :
    (b.set idx value).test j = if j = idx then value else b.test j := by
  simp [set, test, Function.update_apply]

theorem setMultiple_one (idx : ℕ) (value : Bool) : b.setMultiple idx 1 value = b.set idx value := by
  simp [setMultiple]

theorem contains_one (idx : ℕ) (value : Bool) : b.contains idx 1 value = (b.test idx == value) := by
  simp [contains]

theorem all_one (idx : ℕ) : b.all idx 1 = b.test idx := by
  cases h : b.test idx <;> simp [all, contains_one, h]

@[simp] theorem bitCnt_setMultiple (start cnt : ℕ) (value : Bool) :
    (b.setMultiple start cnt value).bitCnt = b.bitCnt := by
  induction cnt with
  | zero => rfl
  | succ cnt ih => simpa [setMultiple, List.range_succ] using ih

/-- `bitmap_set_multiple` sets exactly the bits `[start, start + cnt)`. -/
theorem test_setMultiple (start cnt : ℕ) (value : Bool) (j : ℕ) :
    (b.setMultiple start cnt value).test j =
      if start ≤ j ∧ j < start + cnt then value else b.test j := by
  induction cnt with
  | zero => simp [setMultiple]
  | succ cnt ih =>
    have hstep : b.setMultiple start (cnt + 1) value =
        (b.setMultiple start cnt value).set (start + cnt) value := by
      simp [setMultiple, List.range_succ]
    rw [hstep, test_set, ih]
    by_cases hj : j = start + cnt
    · simp [hj]
    · simp only [if_neg hj]
      congr 1
      apply propext
      omega

/-- The loop of `bitmap_scan` accepts `i` exactly when bits `[i, i + cnt)` all hold `value`. -/
theorem not_contains_iff {i cnt : ℕ} {value : Bool} :
    (!b.contains i cnt !value) = true ↔ ∀ k < cnt, b.test (i + k) = value := by
  rw [Bool.not_eq_true', contains, List.any_eq_false]
  simp only [List.mem_range, beq_iff_eq]
  refine forall_congr' fun k => imp_congr_right fun _ => ?_
  cases b.test (i + k) <;> cases value <;> decide

/-- `bitmap_scan` finds the first group at or after `start` of `cnt` bits that all hold `value`
and fit in the bitmap. -/
theorem scan_eq_some_iff {start cnt i : ℕ} {value : Bool} :
    b.scan start cnt value = some i ↔
      start ≤ i ∧ b.RunAt cnt value i ∧ ∀ j, start ≤ j → j < i → ¬ b.RunAt cnt value j := by
  unfold scan
  split
  · next hcnt =>
    rw [List.find?_range'_eq_some, List.mem_range'_1, not_contains_iff]
    constructor
    · rintro ⟨hrun, ⟨hs, hi⟩, hbefore⟩
      refine ⟨hs, ⟨by omega, hrun⟩, fun j hj hji hrunj => ?_⟩
      have hp := hbefore j hj hji
      rw [Bool.not_eq_true', ← Bool.not_eq_true, not_contains_iff] at hp
      exact hp hrunj.2
    · rintro ⟨hs, ⟨hfit, hrun⟩, hbefore⟩
      refine ⟨hrun, ⟨hs, by omega⟩, fun j hj hji => ?_⟩
      rw [Bool.not_eq_true', ← Bool.not_eq_true, not_contains_iff]
      exact fun hrunj => hbefore j hj hji ⟨by omega, hrunj⟩
  · next hcnt =>
    simp only [reduceCtorEq, false_iff]
    rintro ⟨-, ⟨hfit, -⟩, -⟩
    omega

/-- `bitmap_scan` returns `BITMAP_ERROR` exactly when no such group starts at or after
`start`. -/
theorem scan_eq_none_iff {start cnt : ℕ} {value : Bool} :
    b.scan start cnt value = none ↔ ∀ i, start ≤ i → ¬ b.RunAt cnt value i := by
  unfold scan
  split
  · next hcnt =>
    rw [List.find?_eq_none]
    constructor
    · intro h i hs hrun
      refine h i (List.mem_range'_1.mpr ⟨hs, by have := hrun.1; omega⟩) ?_
      exact not_contains_iff.mpr hrun.2
    · intro h i hi hp
      rw [List.mem_range'_1] at hi
      exact h i hi.1 ⟨by omega, not_contains_iff.mp hp⟩
  · next hcnt =>
    simp only [true_iff]
    rintro i - ⟨hfit, -⟩
    omega

/-- A single-bit scan finds a bit below `bit_cnt` holding `value`, and none before it. -/
theorem scan_one_eq_some {start i : ℕ} {value : Bool} (h : b.scan start 1 value = some i) :
    start ≤ i ∧ i < b.bitCnt ∧ b.test i = value ∧
      ∀ j, start ≤ j → j < i → b.test j ≠ value := by
  unfold scan at h
  split at h
  · obtain ⟨hi, hm, hbefore⟩ := List.find?_range'_eq_some.mp h
    rw [List.mem_range'_1] at hm
    refine ⟨hm.1, by omega, ?_, fun j hj hji => ?_⟩
    · simpa [contains_one] using hi
    · have hj' : b.test j = !value := by simpa [contains_one] using hbefore j hj hji
      rw [hj']
      cases value <;> decide
  · cases h

/-- `bitmap_scan_and_flip (b, 0, 1, false)`: the first clear bit is returned and set. -/
theorem scanAndFlip_eq_some {i : ℕ} {b' : Bitmap} (h : b.scanAndFlip 0 1 false = some (i, b')) :
    i < b.bitCnt ∧ b.test i = false ∧ (∀ j < i, b.test j = true) ∧ b' = b.set i true := by
  simp only [scanAndFlip, Option.map_eq_some_iff, Prod.mk.injEq] at h
  obtain ⟨i', hs, rfl, rfl⟩ := h
  obtain ⟨-, hlt, hi, hbefore⟩ := scan_one_eq_some hs
  refine ⟨hlt, hi, fun j hj => ?_, setMultiple_one _ _⟩
  simpa using hbefore j (Nat.zero_le j) hj

/-- With a clear bit below `bit_cnt`, `bitmap_scan_and_flip (b, 0, 1, false)` finds one. -/
theorem scanAndFlip_isSome {slot : ℕ} (hlt : slot < b.bitCnt) (hf : b.test slot = false) :
    (b.scanAndFlip 0 1 false).isSome := by
  have hrun : b.RunAt 1 false slot := ⟨hlt, fun k hk => by rw [Nat.lt_one_iff.mp hk]; exact hf⟩
  cases hs : b.scan 0 1 false with
  | none => exact absurd hrun (scan_eq_none_iff.mp hs slot (Nat.zero_le _))
  | some i => rw [scanAndFlip, hs, Option.map_some, Option.isSome_some]

/-- Two nonempty runs, one of set bits and one of clear bits, do not overlap. -/
theorem RunAt.disjoint {n m i j : ℕ} (h : b.RunAt n true i) (h' : b.RunAt m false j)
    (hn : 0 < n) (hm : 0 < m) : i + n ≤ j ∨ j + m ≤ i := by
  by_contra hover
  have hi : b.test (max i j) = true := by
    have := h.2 (max i j - i) (by omega)
    rwa [Nat.add_sub_cancel' (Nat.le_max_left i j)] at this
  have hj : b.test (max i j) = false := by
    have := h'.2 (max i j - j) (by omega)
    rwa [Nat.add_sub_cancel' (Nat.le_max_right i j)] at this
  rw [hi] at hj
  cases hj

/-- Setting the bits of a run elsewhere keeps a run. -/
theorem RunAt.setMultiple {n m i j : ℕ} {value : Bool} (h : b.RunAt n value i)
    (hdis : i + n ≤ j ∨ j + m ≤ i) (v : Bool) : (b.setMultiple j m v).RunAt n value i := by
  refine ⟨by simpa using h.1, fun k hk => ?_⟩
  rw [test_setMultiple, if_neg (by omega)]
  exact h.2 k hk

/-- Setting bits keeps a run of set bits. -/
theorem RunAt.setMultiple_true {n m i j : ℕ} (h : b.RunAt n true i) :
    (b.setMultiple j m true).RunAt n true i := by
  refine ⟨by simpa using h.1, fun k hk => ?_⟩
  rw [test_setMultiple]
  split
  · rfl
  · exact h.2 k hk

/-- The run `bitmap_set_multiple` writes. -/
theorem runAt_setMultiple {m j : ℕ} (hfit : j + m ≤ b.bitCnt) (v : Bool) :
    (b.setMultiple j m v).RunAt m v j := by
  refine ⟨by simpa using hfit, fun k hk => ?_⟩
  rw [test_setMultiple, if_pos (by omega)]

/-- `bitmap_all` over a run of set bits. -/
theorem RunAt.all {n i : ℕ} (h : b.RunAt n true i) : b.all i n = true := by
  have hrun : (!b.contains i n !true) = true := not_contains_iff.mpr h.2
  simpa [Bitmap.all] using hrun

end Bitmap

end Pintos
