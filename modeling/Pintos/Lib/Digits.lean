import Mathlib.Data.Nat.Digits.Lemmas

/-! # Fixed-width digit strings

A number written most significant digit first in base `b` and padded on the
left with zeros to at least `w` digits, as `printf`'s `%0wo` writes it for
`b = 8`; and the loop that reads such a string back one digit at a time, each
digit added to `b` times the value so far. Reading the padded digits gives
the number back, and before each digit the accumulator is at most the final
value divided by `b`, which is what an overflow check in such a loop needs.
-/

namespace Positional

/-- The digits of `n` in base `b`, most significant first, padded with zeros on the left to
at least `w` digits. -/
def padDigits (b w n : ℕ) : List ℕ := (Nat.digitsAppend b w n).reverse

/-- The value read from `ds` starting from the accumulator `acc`. -/
def readDigits (b acc : ℕ) (ds : List ℕ) : ℕ := ds.foldl (fun v d => d + v * b) acc

variable {b : ℕ}

@[simp] theorem readDigits_nil (acc : ℕ) : readDigits b acc [] = acc := rfl

@[simp] theorem readDigits_cons (acc d : ℕ) (ds : List ℕ) :
    readDigits b acc (d :: ds) = readDigits b (d + acc * b) ds := rfl

theorem readDigits_eq (acc : ℕ) (ds : List ℕ) :
    readDigits b acc ds = acc * b ^ ds.length + Nat.ofDigits b ds.reverse := by
  induction ds generalizing acc with
  | nil => simp
  | cons d ds ih =>
    rw [readDigits_cons, ih, Nat.ofDigits_reverse_cons, List.length_cons, pow_succ]
    ring

theorem readDigits_padDigits (w n : ℕ) : readDigits b 0 (padDigits b w n) = n := by
  rw [readDigits_eq, zero_mul, zero_add, padDigits, List.reverse_reverse, Nat.digitsAppend,
    Nat.ofDigits_append_replicate_zero, Nat.ofDigits_digits]

theorem length_padDigits (hb : 1 < b) {w n : ℕ} (h : n < b ^ w) : (padDigits b w n).length = w := by
  rw [padDigits, List.length_reverse, Nat.length_digitsAppend hb w h]

/-- Padding to `w` digits puts zeros before the digits written at the least width, one. -/
theorem padDigits_eq_replicate_append {w : ℕ} (hw : 0 < w) (n : ℕ) :
    padDigits b w n = List.replicate (w - (padDigits b 1 n).length) 0 ++ padDigits b 1 n := by
  rcases Nat.eq_zero_or_pos n with rfl | hn
  · -- zero is written as the one digit 0
    simp only [padDigits, Nat.digitsAppend, Nat.digits_zero, List.nil_append, List.length_nil,
      Nat.sub_zero, List.reverse_replicate, List.length_replicate, ← List.replicate_add,
      Nat.sub_add_cancel hw]
  · have hd := List.length_pos_of_ne_nil (Nat.digits_ne_nil_iff_ne_zero.mpr hn.ne' : b.digits n ≠ [])
    have h1 : 1 - (b.digits n).length = 0 := by omega
    simp [padDigits, Nat.digitsAppend, h1, List.reverse_append, List.reverse_replicate]

theorem lt_of_mem_padDigits (hb : 1 < b) {w n d : ℕ} (hd : d ∈ padDigits b w n) : d < b :=
  Nat.lt_of_mem_digitsAppend hb w d (List.mem_reverse.1 hd)

theorem le_readDigits (hb : 0 < b) (acc : ℕ) (ds : List ℕ) : acc ≤ readDigits b acc ds := by
  rw [readDigits_eq]
  have : 1 ≤ b ^ ds.length := Nat.one_le_pow _ _ hb
  calc acc = acc * 1 := (mul_one acc).symm
    _ ≤ acc * b ^ ds.length := Nat.mul_le_mul_left acc this
    _ ≤ _ := Nat.le_add_right _ _

/-- Before a digit is read, `b` times the accumulator is at most the final value. -/
theorem mul_le_readDigits_cons (hb : 0 < b) (acc d : ℕ) (ds : List ℕ) :
    acc * b ≤ readDigits b acc (d :: ds) :=
  (Nat.le_add_left _ d).trans (le_readDigits hb _ ds)

end Positional
