import Mathlib.Data.Nat.Notation
import Mathlib.Logic.Function.Basic

/-! # Ring buffers that waste a slot

A ring of `n` slots with a write position `head` and a read position `tail`,
both below `n`. The contents are the slots from `tail` up to `head`, wrapping
around: the ring is empty when `head = tail` and full when the slot after
`head` is `tail`, so it holds at most `n - 1` elements. Storing at `head` and
moving it on appends; reading at `tail` and moving it on takes the oldest.
-/

namespace Ring

variable {α : Type*} (n : ℕ)

/-- The slot after `pos`. -/
def next (pos : ℕ) : ℕ := (pos + 1) % n

/-- The number of slots from `tail` up to `head`. -/
def count (head tail : ℕ) : ℕ := (head + n - tail) % n

/-- The elements from `tail` up to `head`, oldest first. -/
def contents (buf : ℕ → α) (head tail : ℕ) : List α :=
  (List.range (count n head tail)).map fun i => buf ((tail + i) % n)

variable {n} {head tail : ℕ}

theorem next_eq {pos : ℕ} (hpos : pos < n) : next n pos = if pos + 1 < n then pos + 1 else 0 := by
  unfold next
  split
  · exact Nat.mod_eq_of_lt ‹_›
  · rw [show pos + 1 = n by omega, Nat.mod_self]

theorem next_lt {pos : ℕ} (hpos : pos < n) : next n pos < n := by
  rw [next_eq hpos]
  split <;> omega

/-- A slot `i` places after `tail`, for `i < n`. -/
theorem slot_eq {i : ℕ} (ht : tail < n) (hi : i < n) :
    (tail + i) % n = if tail + i < n then tail + i else tail + i - n := by
  split
  · exact Nat.mod_eq_of_lt ‹_›
  · rw [Nat.mod_eq_sub_mod (by omega), Nat.mod_eq_of_lt (by omega)]

theorem count_eq (hh : head < n) (ht : tail < n) :
    count n head tail = if tail ≤ head then head - tail else head + n - tail := by
  unfold count
  split
  · rw [show head + n - tail = head - tail + n by omega, Nat.add_mod_right,
      Nat.mod_eq_of_lt (by omega)]
  · exact Nat.mod_eq_of_lt (by omega)

theorem count_lt (hh : head < n) (ht : tail < n) : count n head tail < n := by
  rw [count_eq hh ht]
  split <;> omega

theorem count_eq_zero_iff (hh : head < n) (ht : tail < n) : count n head tail = 0 ↔ head = tail := by
  rw [count_eq hh ht]
  split <;> omega

/-- The ring is full exactly when it holds `n - 1` elements. -/
theorem next_eq_iff_count (hh : head < n) (ht : tail < n) :
    next n head = tail ↔ count n head tail = n - 1 := by
  rw [next_eq hh, count_eq hh ht]
  split <;> split <;> omega

theorem length_contents (buf : ℕ → α) : (contents n buf head tail).length = count n head tail := by
  simp [contents]

/-- Storing at `head` and moving it on appends, when the ring is not full. -/
theorem contents_push (buf : ℕ → α) (a : α) (hh : head < n) (ht : tail < n)
    (hfull : next n head ≠ tail) :
    contents n (Function.update buf head a) (next n head) tail = contents n buf head tail ++ [a] := by
  have hcount : count n (next n head) tail = count n head tail + 1 := by
    have hnot := (next_eq_iff_count hh ht).not.mp hfull
    have hc := count_eq hh ht
    have hc' := count_eq (next_lt hh) ht
    have hnext := next_eq hh
    split at hc <;> split at hc' <;> split at hnext <;> omega
  -- the slots before `head` keep their elements; the one at `head` holds `a`
  have hslot : ∀ i ≤ count n head tail, (tail + i) % n = head ↔ i = count n head tail := by
    intro i hi
    have hlt := count_lt hh ht
    have hc := count_eq hh ht
    have hs := slot_eq (i := i) ht (by omega)
    split at hc <;> split at hs <;> omega
  rw [contents, contents, hcount, List.range_succ, List.map_append, List.map_singleton,
    (hslot _ (Nat.le_refl _)).mpr rfl, Function.update_self]
  congr 1
  apply List.map_congr_left
  intro i hi
  have hi := List.mem_range.mp hi
  exact Function.update_of_ne (fun h => absurd ((hslot i (Nat.le_of_lt hi)).mp h) (Nat.ne_of_lt hi)) _ _

/-- Reading at `tail` and moving it on takes the oldest element, when the ring is not empty. -/
theorem contents_pop (buf : ℕ → α) (hh : head < n) (ht : tail < n) (hne : head ≠ tail) :
    contents n buf head tail = buf tail :: contents n buf head (next n tail) := by
  have hcount : count n head tail = count n head (next n tail) + 1 := by
    have hpos := (count_eq_zero_iff hh ht).not.mpr hne
    have hc := count_eq hh ht
    have hc' := count_eq hh (next_lt ht)
    have hnext := next_eq ht
    split at hc <;> split at hc' <;> split at hnext <;> omega
  rw [contents, contents, hcount, List.range_succ_eq_map, List.map_cons, List.map_map,
    Nat.add_zero, Nat.mod_eq_of_lt ht]
  congr 1
  apply List.map_congr_left
  intro i _
  simp only [Function.comp_apply, next]
  rw [Nat.mod_add_mod, Nat.add_right_comm, Nat.add_assoc]

end Ring
