import Pintos.Kernel.Bitmap

/-! # Bitmaps in machine words

`bitmap.c` keeps the bits of a bitmap in an array of `elem_type`, an
`unsigned long` of `ELEM_BITS` = 32 bits: bit `idx` is bit `idx % 32` of
element `idx / 32`, set by OR-ing and cleared by AND-ing with the mask
`bit_mask` builds. `bitmap_test` is the only reader; `bitmap_contains`,
`bitmap_scan` and `bitmap_scan_and_flip` read and write bits through
`bitmap_test` and `bitmap_set`.

Reading a word bitmap through `bitmap_test` gives a `Bitmap`, and every
operation on words acts on that reading as the operation of `Kernel.Bitmap`
does; so the first-fit search of `Kernel.Bitmap` is the one the word code runs.
The array is a function from element indices; the kernel only touches the
`elem_cnt (bit_cnt)` elements below the bitmap's end.
-/

namespace Pintos

/-- `ELEM_BITS`. -/
def elemBits : ℕ := 32

/-- `elem_idx`: the element holding bit `bitIdx`. -/
def elemIdx (bitIdx : ℕ) : ℕ := bitIdx / elemBits

/-- `bit_mask`: only the bit of `bitIdx` within its element. -/
def bitMask (bitIdx : ℕ) : BitVec 32 := 1#32 <<< (bitIdx % elemBits)

/-- `elem_cnt`: `DIV_ROUND_UP (bit_cnt, ELEM_BITS)` elements hold `bit_cnt` bits. -/
def elemCnt (bitCnt : ℕ) : ℕ := (bitCnt + elemBits - 1) / elemBits

/-- `struct bitmap`: `bit_cnt` and the array of elements. -/
structure WordBitmap where
  bitCnt : ℕ
  bits : ℕ → BitVec 32

namespace WordBitmap

/-- `bitmap_mark`: `b->bits[idx] |= mask`. -/
def mark (b : WordBitmap) (bitIdx : ℕ) : WordBitmap :=
  { b with bits := Function.update b.bits (elemIdx bitIdx) (b.bits (elemIdx bitIdx) ||| bitMask bitIdx) }

/-- `bitmap_reset`: `b->bits[idx] &= ~mask`. -/
def reset (b : WordBitmap) (bitIdx : ℕ) : WordBitmap :=
  { b with bits := Function.update b.bits (elemIdx bitIdx) (b.bits (elemIdx bitIdx) &&& ~~~bitMask bitIdx) }

def set (b : WordBitmap) (idx : ℕ) (value : Bool) : WordBitmap :=
  if value then b.mark idx else b.reset idx

def test (b : WordBitmap) (idx : ℕ) : Bool := (b.bits (elemIdx idx) &&& bitMask idx) != 0#32

/-- What `bitmap_test` reads: the bitmap as `Kernel.Bitmap` sees it. -/
def toBitmap (b : WordBitmap) : Bitmap := ⟨b.bitCnt, b.test⟩

def setMultiple (b : WordBitmap) (start cnt : ℕ) (value : Bool) : WordBitmap :=
  (List.range cnt).foldl (fun b i => b.set (start + i) value) b

/-- `bitmap_contains` reads the bits through `bitmap_test` only. -/
def contains (b : WordBitmap) (start cnt : ℕ) (value : Bool) : Bool :=
  b.toBitmap.contains start cnt value

/-- `bitmap_scan`, whose loop tests groups with `bitmap_contains`. -/
def scan (b : WordBitmap) (start cnt : ℕ) (value : Bool) : Option ℕ :=
  if cnt ≤ b.bitCnt then
    (List.range' start (b.bitCnt - cnt + 1 - start)).find? fun i => !b.contains i cnt !value
  else none

def scanAndFlip (b : WordBitmap) (start cnt : ℕ) (value : Bool) : Option (ℕ × WordBitmap) :=
  (b.scan start cnt value).map fun idx => (idx, b.setMultiple idx cnt !value)

end WordBitmap

section Mask

/-- An index is rebuilt from its element and its bit within the element. -/
theorem eq_iff_elemIdx_and_mod {i j : ℕ} :
    elemIdx j = elemIdx i ∧ j % elemBits = i % elemBits ↔ j = i := by
  unfold elemIdx elemBits
  omega

theorem mod_elemBits_lt (i : ℕ) : i % elemBits < 32 := Nat.mod_lt _ (by decide)

/-- The mask of `bitIdx` is the power of two of its bit. -/
theorem bitMask_eq (bitIdx : ℕ) : bitMask bitIdx = BitVec.twoPow 32 (bitIdx % elemBits) := rfl

theorem getLsbD_bitMask (bitIdx k : ℕ) :
    (bitMask bitIdx).getLsbD k = decide (bitIdx % elemBits = k) := by
  rw [bitMask_eq, BitVec.getLsbD_twoPow, decide_eq_true (mod_elemBits_lt bitIdx), Bool.true_and]

/-- Masking a word with the mask of `bitIdx` is non-zero exactly when its bit is set. -/
theorem and_bitMask_ne_zero (x : BitVec 32) (bitIdx : ℕ) :
    (x &&& bitMask bitIdx != 0#32) = x.getLsbD (bitIdx % elemBits) := by
  rw [bitMask_eq, BitVec.and_twoPow]
  split
  · next h =>
    have hne : BitVec.twoPow 32 (bitIdx % elemBits) ≠ 0#32 := fun h0 => by
      have := congrArg (·.getLsbD (bitIdx % elemBits)) h0
      simp [mod_elemBits_lt] at this
    simp [hne, h]
  · next h => simpa using h

end Mask

namespace WordBitmap

variable {b : WordBitmap}

theorem test_eq_getLsbD (idx : ℕ) : b.test idx = (b.bits (elemIdx idx)).getLsbD (idx % elemBits) :=
  and_bitMask_ne_zero _ _

/-- `bitmap_mark` sets its bit and no other. -/
theorem test_mark (idx j : ℕ) : (b.mark idx).test j = (decide (j = idx) || b.test j) := by
  rw [test_eq_getLsbD, test_eq_getLsbD]
  by_cases hw : elemIdx j = elemIdx idx
  · simp only [mark, hw, Function.update_self, BitVec.getLsbD_or, getLsbD_bitMask]
    by_cases hb : j % elemBits = idx % elemBits
    · have hj : j = idx := eq_iff_elemIdx_and_mod.mp ⟨hw, hb⟩
      simp [hj]
    · have hj : j ≠ idx := fun h => hb (h ▸ rfl)
      simp [hj, Ne.symm hb]
  · have hj : j ≠ idx := fun h => hw (h ▸ rfl)
    simp [mark, Function.update_of_ne hw, hj]

/-- `bitmap_reset` clears its bit and no other. -/
theorem test_reset (idx j : ℕ) : (b.reset idx).test j = (!decide (j = idx) && b.test j) := by
  rw [test_eq_getLsbD, test_eq_getLsbD]
  by_cases hw : elemIdx j = elemIdx idx
  · simp only [reset, hw, Function.update_self, BitVec.getLsbD_and, BitVec.getLsbD_not,
      getLsbD_bitMask, mod_elemBits_lt, decide_true, Bool.true_and]
    by_cases hb : j % elemBits = idx % elemBits
    · have hj : j = idx := eq_iff_elemIdx_and_mod.mp ⟨hw, hb⟩
      simp [hj]
    · have hj : j ≠ idx := fun h => hb (h ▸ rfl)
      simp [hj, Ne.symm hb, Bool.and_comm]
  · have hj : j ≠ idx := fun h => hw (h ▸ rfl)
    simp [reset, Function.update_of_ne hw, hj]

theorem test_set (idx j : ℕ) (value : Bool) :
    (b.set idx value).test j = if j = idx then value else b.test j := by
  unfold set
  cases value <;> by_cases hj : j = idx <;> simp [test_mark, test_reset, hj]

/-- `bitmap_set` on words is `bitmap_set` on the bits they hold. -/
theorem toBitmap_set (idx : ℕ) (value : Bool) :
    (b.set idx value).toBitmap = b.toBitmap.set idx value := by
  have hcnt : (b.set idx value).bitCnt = b.bitCnt := by unfold set mark reset; split <;> rfl
  simp only [toBitmap, Bitmap.set, hcnt, Bitmap.mk.injEq, true_and]
  funext j
  rw [test_set, Function.update_apply]

theorem toBitmap_setMultiple (start cnt : ℕ) (value : Bool) :
    (b.setMultiple start cnt value).toBitmap = b.toBitmap.setMultiple start cnt value := by
  induction cnt with
  | zero => rfl
  | succ cnt ih =>
    simp only [setMultiple, Bitmap.setMultiple, List.range_succ, List.foldl_append, List.foldl_cons,
      List.foldl_nil] at ih ⊢
    rw [toBitmap_set, ih]

theorem scan_eq (start cnt : ℕ) (value : Bool) :
    b.scan start cnt value = b.toBitmap.scan start cnt value :=
  rfl

theorem test_toBitmap (j : ℕ) : b.toBitmap.test j = b.test j := rfl

theorem bitCnt_setMultiple (start cnt : ℕ) (value : Bool) :
    (b.setMultiple start cnt value).bitCnt = b.bitCnt := by
  have h := congrArg Bitmap.bitCnt (toBitmap_setMultiple (b := b) start cnt value)
  rwa [Bitmap.bitCnt_setMultiple] at h

/-- `bitmap_scan` on words returns the first group at or after `start` of `cnt` bits that all
hold `value` and fit in the bitmap, and `BITMAP_ERROR` when there is none;
`bitmap_scan_and_flip` returns that group with exactly its bits set to `!value`, and
`BITMAP_ERROR` when there is none. -/
theorem bitmap_scan_first_fit (b : WordBitmap) (start cnt : ℕ) (value : Bool) :
    (∀ i, b.scan start cnt value = some i ↔
      start ≤ i ∧ b.toBitmap.RunAt cnt value i ∧
        ∀ j, start ≤ j → j < i → ¬ b.toBitmap.RunAt cnt value j) ∧
    (b.scan start cnt value = none ↔ ∀ i, start ≤ i → ¬ b.toBitmap.RunAt cnt value i) ∧
    (∀ i, b.scan start cnt value = some i → ∃ b', b.scanAndFlip start cnt value = some (i, b') ∧
      b'.bitCnt = b.bitCnt ∧ ∀ j, b'.test j = if i ≤ j ∧ j < i + cnt then !value else b.test j) ∧
    (b.scan start cnt value = none → b.scanAndFlip start cnt value = none) := by
  refine ⟨fun i => by rw [scan_eq]; exact Bitmap.scan_eq_some_iff, by
    rw [scan_eq]; exact Bitmap.scan_eq_none_iff, fun i hs => ?_, fun hs => ?_⟩
  · refine ⟨_, by rw [scanAndFlip, hs, Option.map_some], bitCnt_setMultiple _ _ _, fun j => ?_⟩
    rw [← test_toBitmap, toBitmap_setMultiple, Bitmap.test_setMultiple, test_toBitmap]
  · rw [scanAndFlip, hs, Option.map_none]

end WordBitmap

end Pintos
