import Mathlib.Logic.Function.Basic
import Mathlib.Data.Int.Basic

/-! # Moving and comparing bytes

`lib/string.c`: `memmove` and `strcmp`. `memmove` copies forward when the destination lies
below the source and backward otherwise, so that a byte of the source is read before the
copy overwrites it: the result is a copy of the source as it was, overlapping or not
(`memmove_eq`). It returns its `dst` pointer after the loop, which the forward loop has moved
to the end of the block. `strcmp` stops at the first byte that differs or at the end of the
first string; its sign is the lexicographic order of the strings (`strcmp_eq`).

Memory is a function from addresses to bytes; a pointer is an address, 0 being `NULL`, and a
block does not wrap around the address space. A string for `strcmp` is the list of the bytes
from its pointer on, the end of the list reading as a null byte. `none` is a failed `ASSERT`.
-/

namespace Pintos

/-! ## `memmove` -/

/-- The forward loop of `memmove`: `*dst++ = *src++`, `size` times. -/
def memmoveForward : ℕ → (ℕ → UInt8) → ℕ → ℕ → (ℕ → UInt8) × ℕ
  | 0, mem, dst, _ => (mem, dst)
  | size + 1, mem, dst, src =>
    memmoveForward size (Function.update mem dst (mem src)) (dst + 1) (src + 1)

/-- The backward loop of `memmove` from the ends of the blocks: `*--dst = *--src`, `size`
times. -/
def memmoveBackward : ℕ → (ℕ → UInt8) → ℕ → ℕ → (ℕ → UInt8) × ℕ
  | 0, mem, dst, _ => (mem, dst)
  | size + 1, mem, dst, src =>
    memmoveBackward size (Function.update mem (dst - 1) (mem (src - 1))) (dst - 1) (src - 1)

/-- `memmove (dst, src, size)`: memory after it and the pointer it returns. -/
def memmove (mem : ℕ → UInt8) (dst src size : ℕ) : Option ((ℕ → UInt8) × ℕ) :=
  if (dst = 0 ∧ size ≠ 0) ∨ (src = 0 ∧ size ≠ 0) then none
  else if dst < src then some (memmoveForward size mem dst src)
  else some (memmoveBackward size mem (dst + size) (src + size))

/-- `size` bytes at `dst` replaced by those at `src` in `mem`. -/
def copyBlock (mem : ℕ → UInt8) (dst src size : ℕ) : ℕ → UInt8 :=
  fun a => if dst ≤ a ∧ a < dst + size then mem (src + (a - dst)) else mem a

/-- Copying forward never overwrites a byte of the source not yet read, when the destination
does not lie above the source. -/
theorem memmoveForward_eq : ∀ (size : ℕ) (mem : ℕ → UInt8) {dst src : ℕ}, dst ≤ src →
    memmoveForward size mem dst src = (copyBlock mem dst src size, dst + size)
  | 0, mem, dst, src, _ => by
    simp only [memmoveForward, Nat.add_zero, Prod.mk.injEq, and_true]
    funext a
    rw [copyBlock, if_neg (by omega)]
  | size + 1, mem, dst, src, h => by
    rw [memmoveForward, memmoveForward_eq size _ (by omega : dst + 1 ≤ src + 1)]
    refine Prod.ext ?_ (by simp only; omega)
    funext a
    simp only [copyBlock]
    by_cases ha : a = dst
    · subst ha
      rw [if_neg (by omega), if_pos (by omega), Function.update_self, Nat.sub_self, Nat.add_zero]
    · -- a later byte of the block is read from above `dst`, where nothing was written
      have hsrc : src + 1 + (a - (dst + 1)) ≠ dst := by omega
      by_cases hin : dst + 1 ≤ a ∧ a < dst + 1 + size
      · rw [if_pos hin, if_pos (by omega), Function.update_of_ne hsrc]
        congr 1
        omega
      · rw [if_neg hin, if_neg (by omega), Function.update_of_ne ha]

/-- Copying backward from the ends never overwrites a byte of the source not yet read, when
the destination does not lie below the source. -/
theorem memmoveBackward_eq : ∀ (size : ℕ) (mem : ℕ → UInt8) {dst src : ℕ}, src ≤ dst →
    memmoveBackward size mem (dst + size) (src + size) = (copyBlock mem dst src size, dst)
  | 0, mem, dst, src, _ => by
    simp only [memmoveBackward, Nat.add_zero, Prod.mk.injEq, and_true]
    funext a
    rw [copyBlock, if_neg (by omega)]
  | size + 1, mem, dst, src, h => by
    rw [← Nat.add_assoc, ← Nat.add_assoc, memmoveBackward, Nat.add_sub_cancel, Nat.add_sub_cancel,
      memmoveBackward_eq size _ h]
    refine Prod.ext ?_ rfl
    funext a
    simp only [copyBlock]
    by_cases ha : a = dst + size
    · subst ha
      rw [if_neg (by omega), Function.update_self, if_pos (by omega)]
      congr 1
      omega
    · -- an earlier byte of the block is read from below `dst + size`, where nothing was written
      by_cases hin : dst ≤ a ∧ a < dst + size
      · rw [if_pos hin, if_pos (by omega), Function.update_of_ne (by omega)]
      · rw [if_neg hin, if_neg (by omega), Function.update_of_ne ha]

/-- `memmove` leaves at `dst` a copy of the `size` bytes the source held before the call,
however the blocks overlap, and changes nothing else; it returns `dst` when the destination
lies above the source and `dst + size` when it lies below. -/
theorem memmove_eq (mem : ℕ → UInt8) {dst src size : ℕ} (hdst : dst ≠ 0 ∨ size = 0)
    (hsrc : src ≠ 0 ∨ size = 0) :
    memmove mem dst src size =
      some (copyBlock mem dst src size, if dst < src then dst + size else dst) := by
  rw [memmove, if_neg (by omega)]
  by_cases hlt : dst < src
  · rw [if_pos hlt, if_pos hlt, memmoveForward_eq size mem (Nat.le_of_lt hlt)]
  · rw [if_neg hlt, if_neg hlt, memmoveBackward_eq size mem (by omega)]

/-- Four bytes moved two down over themselves: the forward loop, returning `dst + 4`. -/
theorem memmove_eq_overlap_down :
    (3 ≠ 0 ∨ 4 = 0) ∧ (5 ≠ 0 ∨ 4 = 0) ∧
      memmove (fun a => a.toUInt8) 3 5 4 = some (copyBlock (fun a => a.toUInt8) 3 5 4, 7) :=
  ⟨by decide, by decide, memmove_eq _ (by decide) (by decide)⟩

/-! ## `strcmp` -/

/-- `*a < *b ? -1 : *a > *b`. -/
def cmpBytes (x y : UInt8) : ℤ := if x < y then -1 else if x > y then 1 else 0

/-- `strcmp (a, b)` on the bytes of the two strings: while `*a != '\0' && *a == *b` step both. -/
def strcmp : List UInt8 → List UInt8 → ℤ
  | [], b => cmpBytes 0 (b.headD 0)
  | x :: a, b => if x ≠ 0 ∧ x = b.headD 0 then strcmp a b.tail else cmpBytes x (b.headD 0)

theorem cmpBytes_self (x : UInt8) : cmpBytes x x = 0 := by
  simp [cmpBytes]

theorem cmpBytes_of_lt {x y : UInt8} (h : x < y) : cmpBytes x y = -1 := by
  simp [cmpBytes, h]

theorem cmpBytes_of_gt {x y : UInt8} (h : y < x) : cmpBytes x y = 1 := by
  have hn : ¬x < y := by
    rw [UInt8.lt_iff_toNat_lt] at h ⊢
    omega
  simp [cmpBytes, hn, h]

theorem lt_or_gt_of_ne_byte {x y : UInt8} (h : x ≠ y) : x < y ∨ y < x := by
  simp only [UInt8.lt_iff_toNat_lt]
  have : x.toNat ≠ y.toNat := fun e => h (UInt8.toNat_inj.mp e)
  omega

theorem zero_lt_of_ne {x : UInt8} (hx : x ≠ 0) : (0 : UInt8) < x :=
  (lt_or_gt_of_ne_byte hx.symm).resolve_right fun h => by
    rw [UInt8.lt_iff_toNat_lt] at h
    simp at h

/-- For strings without null bytes `strcmp` is negative, zero or positive as the first string
comes before, equals or comes after the second in lexicographic order, a proper prefix first. -/
theorem strcmp_eq : ∀ (a b : List UInt8), (∀ x ∈ a, x ≠ 0) → (∀ y ∈ b, y ≠ 0) →
    strcmp a b = if a < b then -1 else if a = b then 0 else 1
  | [], [], _, _ => by simp [strcmp, cmpBytes_self, List.not_lt_nil]
  | [], y :: b, _, hb => by
    rw [strcmp, List.headD_cons, cmpBytes_of_lt (zero_lt_of_ne (hb y List.mem_cons_self)),
      if_pos (List.nil_lt_cons y b)]
  | x :: a, [], ha, _ => by
    rw [strcmp, List.headD_nil, if_neg (fun h => h.1 h.2),
      cmpBytes_of_gt (zero_lt_of_ne (ha x List.mem_cons_self)), if_neg (List.not_lt_nil _),
      if_neg (List.cons_ne_nil x a)]
  | x :: a, y :: b, ha, hb => by
    have hx := ha x List.mem_cons_self
    by_cases hxy : x = y
    · subst hxy
      rw [strcmp, List.headD_cons, if_pos ⟨hx, rfl⟩, List.tail_cons,
        strcmp_eq a b (fun z hz => ha z (List.mem_cons_of_mem x hz))
          (fun z hz => hb z (List.mem_cons_of_mem x hz))]
      simp
    · rw [strcmp, List.headD_cons, if_neg (fun h => hxy h.2)]
      rcases lt_or_gt_of_ne_byte hxy with hlt | hgt
      · rw [cmpBytes_of_lt hlt, if_pos (List.cons_lt_cons_iff.mpr (.inl hlt))]
      · have hn : ¬x :: a < y :: b := by
          rw [List.cons_lt_cons_iff]
          rintro (h | ⟨h, -⟩)
          · rw [UInt8.lt_iff_toNat_lt] at h hgt
            omega
          · exact hxy h
        rw [cmpBytes_of_gt hgt, if_neg hn, if_neg (fun h => hxy (List.cons.inj h).1)]

/-- "ab" against "abc": a proper prefix comes first. -/
theorem strcmp_eq_prefix :
    (∀ x ∈ [(97 : UInt8), 98], x ≠ 0) ∧ (∀ y ∈ [(97 : UInt8), 98, 99], y ≠ 0) ∧
      strcmp [97, 98] [97, 98, 99] = -1 := by
  have ha : ∀ x ∈ [(97 : UInt8), 98], x ≠ 0 := by decide +kernel
  have hb : ∀ y ∈ [(97 : UInt8), 98, 99], y ≠ 0 := by decide +kernel
  refine ⟨ha, hb, ?_⟩
  rw [strcmp_eq _ _ ha hb]
  decide +kernel

end Pintos
