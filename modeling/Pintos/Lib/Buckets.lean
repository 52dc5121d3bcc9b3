import Mathlib.Data.List.Perm.Basic
import Mathlib.Logic.Function.Basic

/-! # Arrays of buckets

An array of `n` buckets, each a list, indexed by `ℕ`: its contents are the
elements of buckets `0` to `n - 1` in index order. Writing one bucket changes
the contents by what the write takes out and puts in, up to order
(`contents_update_perm`).

A search by a test that at most one element passes finds the same element in
any list holding every element that passes it (`find?_eq_of_unique`): a
bucket finds what the whole contents would, and a permuted list what the
original would.
-/

namespace Buckets

variable {α : Type*}

/-- The elements of buckets `0` to `n - 1`, in index order. -/
def contents (n : ℕ) (f : ℕ → List α) : List α := (List.range n).flatMap f

theorem mem_contents {n : ℕ} {f : ℕ → List α} {e : α} :
    e ∈ contents n f ↔ ∃ i < n, e ∈ f i := by
  simp [contents]

@[simp] theorem contents_nil (n : ℕ) : contents n (fun _ => ([] : List α)) = [] := by
  simp [contents]

theorem contents_succ (n : ℕ) (f : ℕ → List α) : contents (n + 1) f = contents n f ++ f n := by
  simp [contents, List.range_succ]

/-- Writing bucket `i` with `l`: the new contents and the old bucket are the old contents and
`l`, up to order. -/
theorem contents_update_perm {n i : ℕ} (hi : i < n) (f : ℕ → List α)
    (l : List α) : (contents n (Function.update f i l) ++ f i).Perm (l ++ contents n f) := by
  induction n with
  | zero => omega
  | succ n ih =>
    rw [contents_succ, contents_succ]
    rcases Nat.lt_succ_iff_lt_or_eq.mp hi with hi | rfl
    · rw [Function.update_of_ne (by omega), List.append_assoc, ← List.append_assoc l]
      exact List.perm_append_comm.append_left _ |>.trans (by
        rw [← List.append_assoc]; exact (ih hi).append_right _)
    · have hc : contents i (Function.update f i l) = contents i f :=
        List.flatMap_congr fun j hj => Function.update_of_ne (by simp at hj; omega) _ _
      rw [hc, Function.update_self, List.append_assoc]
      exact List.perm_append_comm.trans
        (by rw [List.append_assoc]; exact List.perm_append_comm.append_left l)

open List in
/-- Pushing onto a bucket adds the element to the contents. -/
theorem contents_push_perm {n i : ℕ} (hi : i < n) (f : ℕ → List α) (e : α) :
    (contents n (Function.update f i (e :: f i))).Perm (e :: contents n f) := by
  rw [← List.perm_append_right_iff (f i)]
  calc contents n (Function.update f i (e :: f i)) ++ f i
      _ ~ e :: (f i ++ contents n f) := contents_update_perm hi f (e :: f i)
      _ ~ e :: (contents n f ++ f i) := List.perm_append_comm.cons e
      _ = (e :: contents n f) ++ f i := rfl

open List in
/-- Erasing an element from its bucket erases it from the contents. -/
theorem contents_erase_perm [DecidableEq α] {n i : ℕ} (hi : i < n) (f : ℕ → List α) {e : α}
    (he : e ∈ f i) : (contents n (Function.update f i ((f i).erase e))).Perm
      ((contents n f).erase e) := by
  have hc : e ∈ contents n f := mem_contents.mpr ⟨i, hi, he⟩
  rw [← List.perm_append_right_iff (e :: (f i).erase e)]
  calc contents n (Function.update f i ((f i).erase e)) ++ e :: (f i).erase e
      _ ~ contents n (Function.update f i ((f i).erase e)) ++ f i :=
        (List.perm_cons_erase he).symm.append_left _
      _ ~ (f i).erase e ++ contents n f := contents_update_perm hi f _
      _ ~ (f i).erase e ++ e :: (contents n f).erase e := (List.perm_cons_erase hc).append_left _
      _ ~ (contents n f).erase e ++ e :: (f i).erase e := by
        refine List.perm_middle.trans (List.Perm.trans ?_ List.perm_middle.symm)
        exact (List.perm_append_comm).cons e

/-- A search by a test that at most one element of `l'` passes: a list whose elements are in
`l'` and which holds every element of `l'` that passes finds the same. -/
theorem find?_eq_of_unique {p : α → Bool} {l l' : List α}
    (hu : ∀ x ∈ l', ∀ y ∈ l', p x = true → p y = true → x = y)
    (h₁ : ∀ x ∈ l, x ∈ l') (h₂ : ∀ x ∈ l', p x = true → x ∈ l) : l.find? p = l'.find? p := by
  cases h : l'.find? p with
  | none =>
    rw [List.find?_eq_none] at h ⊢
    exact fun x hx => h x (h₁ x hx)
  | some y =>
    have hy := List.find?_some h
    have hyl := h₂ y (List.mem_of_find?_eq_some h) hy
    obtain ⟨z, hz⟩ := Option.isSome_iff_exists.mp (List.find?_isSome.mpr ⟨y, hyl, hy⟩)
    rw [hz, hu z (h₁ z (List.mem_of_find?_eq_some hz)) y (List.mem_of_find?_eq_some h)
      (List.find?_some hz) hy]

end Buckets
