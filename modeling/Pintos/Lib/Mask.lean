import Mathlib.Data.Nat.Bitwise

/-! # Flag words

A word that packs a field and some flag bits is read through masks: a mask `m` selects bits,
`w &&& m = 0` says that `w` has none of them, and setting or clearing the bits of `c` leaves
the bits of every mask disjoint from `c` as they were. These are the facts that decoding such a
word rests on, for bit vectors of any width.
-/

namespace Mask

variable {w : ℕ} {x y c m : BitVec w}

/-- Bits that `m` does not select in `x` do not show through `m` after an or. -/
theorem or_and_of_and_eq_zero_left (h : x &&& m = 0) : (x ||| y) &&& m = y &&& m := by
  rw [BitVec.and_or_distrib_right, h]
  exact BitVec.zero_or

theorem or_and_of_and_eq_zero_right (h : y &&& m = 0) : (x ||| y) &&& m = x &&& m := by
  rw [BitVec.and_or_distrib_right, h]
  exact BitVec.or_zero

/-- Setting the bits of `c` sets every bit of a mask that `c` covers. -/
theorem or_and_of_and_eq_self (h : c &&& m = m) : (x ||| c) &&& m = m := by
  rw [BitVec.and_or_distrib_right, h]
  apply BitVec.eq_of_getLsbD_eq
  intro i _
  simp only [BitVec.getLsbD_or, BitVec.getLsbD_and]
  cases x.getLsbD i <;> cases m.getLsbD i <;> rfl

/-- A complement covers every mask disjoint from what it complements. -/
theorem not_and_of_and_eq_zero (h : c &&& m = 0) : ~~~c &&& m = m := by
  calc ~~~c &&& m = (c ||| ~~~c) &&& m := by
        rw [BitVec.and_or_distrib_right, h]
        exact BitVec.zero_or.symm
    _ = m := by rw [BitVec.or_not_self, BitVec.and_comm, BitVec.and_allOnes]

/-- Clearing the bits of `c` leaves the bits of a mask disjoint from `c`. -/
theorem and_not_and_of_and_eq_zero (h : c &&& m = 0) : x &&& ~~~c &&& m = x &&& m := by
  rw [BitVec.and_assoc, not_and_of_and_eq_zero h]

/-- Clearing the bits of `c` clears them. -/
theorem and_not_and_self_eq_zero : x &&& ~~~c &&& c = 0 := by
  rw [BitVec.and_assoc, BitVec.not_and_self]
  exact BitVec.and_zero

/-- A word with none of the bits of `c` is kept by a mask that, with `c`, covers every bit. -/
theorem and_eq_self_of_and_eq_zero (h : x &&& c = 0) (hm : m ||| c = BitVec.allOnes w) :
    x &&& m = x := by
  calc x &&& m = x &&& m ||| x &&& c := by
        rw [h]
        exact BitVec.or_zero.symm
    _ = x := by rw [← BitVec.and_or_distrib_left, hm, BitVec.and_allOnes]

/-- A word with none of the bits of `c` has none of the bits of a mask within `c`. -/
theorem and_eq_zero_of_and_eq_zero (h : x &&& c = 0) (hm : m &&& c = m) : x &&& m = 0 := by
  rw [← hm, ← BitVec.and_assoc, BitVec.and_comm x m, BitVec.and_assoc, h]
  exact BitVec.and_zero

end Mask
