import Mathlib.Data.List.Perm.Basic
import Mathlib.Data.List.Pairwise
import Mathlib.Data.Prod.Lex
import Mathlib.Order.Basic

/-! # Kernel lists as sequences

`lib/kernel/list.c` threads its elements through embedded `list_elem`s. At
the level the scheduler needs, a `struct list` is the sequence of the
elements between its head and tail, and each operation is a function on that
sequence. The ordering operations take the caller's `list_less_func` as a
Boolean relation.

`list_sort` is the natural merge sort of `list.c`: a pass finds two adjacent
runs (stretches in which no element is `less` than its predecessor), merges
them and moves on, and passes repeat until one run is left. The pass count is
bounded by the list's length here; the C loop has no bound of its own.
-/

namespace Pintos

variable {α : Type*} (less : α → α → Bool)

/-- `list_insert_ordered`: insert `x` just before the first element it is `less` than. -/
def listInsertOrdered (x : α) : List α → List α
  | [] => [x]
  | e :: es => if less x e then x :: e :: es else e :: listInsertOrdered x es

/-- `find_end_of_run`: split `a :: l` after its first run. -/
def findEndOfRun (a : α) : List α → List α × List α
  | [] => ([a], [])
  | b :: l =>
    if less b a then ([a], b :: l)
    else
      let r := findEndOfRun b l
      (a :: r.1, r.2)

/-- Merge `a :: as` into a run, given how `as` merges into any run. -/
def mergeCons (a : α) (as : List α) (rest : List α → List α) : List α → List α
  | [] => a :: as
  | b :: bs => if less b a then b :: mergeCons a as rest bs else a :: rest (b :: bs)

/-- `inplace_merge`: take from the first run unless the second run's head is `less`. -/
def inplaceMerge : List α → List α → List α
  | [], bs => bs
  | a :: as, bs => mergeCons less a as (inplaceMerge as) bs

/-- One pass of `list_sort`: the merged sequence and `output_run_cnt`. -/
def sortPass : ℕ → List α → List α × ℕ
  | 0, l => (l, 0)
  | _, [] => ([], 0)
  | n + 1, a :: l =>
    let r := findEndOfRun less a l
    match r.2 with
    | [] => (r.1, 1)
    | b :: l' =>
      let r' := findEndOfRun less b l'
      let p := sortPass n r'.2
      (inplaceMerge less r.1 r'.1 ++ p.1, p.2 + 1)

/-- The `do ... while (output_run_cnt > 1)` loop of `list_sort`, with a bound on passes. -/
def sortLoop : ℕ → List α → List α
  | 0, l => l
  | n + 1, l =>
    let p := sortPass less l.length l
    if 1 < p.2 then sortLoop n p.1 else p.1

def listSort (l : List α) : List α := sortLoop less l.length l

/-- `list_remove` of an element known to be on the list. -/
def listRemove [DecidableEq α] (x : α) (l : List α) : List α := l.erase x

/-- `list_splice` of the range `r` just before `b`, or at the end when `b` is not an element
but the tail; `list_insert` is the range of one element. -/
def listSplice [DecidableEq α] (b : α) (r : List α) : List α → List α
  | [] => r
  | e :: es => if e = b then r ++ e :: es else e :: listSplice b r es

/-- The loop of `list_unique` after the kept element `e`: the elements kept and, in order,
those removed as equal to the kept element before them. -/
def uniqueFrom (e : α) : List α → List α × List α
  | [] => ([], [])
  | n :: ns =>
    if !less e n && !less n e then
      let r := uniqueFrom e ns
      (r.1, n :: r.2)
    else
      let r := uniqueFrom n ns
      (n :: r.1, r.2)

/-- `list_unique`: the list left and the elements it moves to `duplicates`. -/
def listUnique : List α → List α × List α
  | [] => ([], [])
  | e :: es =>
    let r := uniqueFrom less e es
    (e :: r.1, r.2)

variable {less}

@[simp] theorem listInsertOrdered_nil (x : α) : listInsertOrdered less x [] = [x] := rfl

theorem listInsertOrdered_cons (x e : α) (es : List α) :
    listInsertOrdered less x (e :: es) =
      if less x e then x :: e :: es else e :: listInsertOrdered less x es := rfl

theorem listInsertOrdered_perm (x : α) (l : List α) :
    (listInsertOrdered less x l).Perm (x :: l) := by
  induction l with
  | nil => exact .refl _
  | cons e es ih =>
    rw [listInsertOrdered_cons]
    split
    · exact .refl _
    · exact (ih.cons e).trans (.swap x e es)

@[simp] theorem mem_listInsertOrdered {x y : α} {l : List α} :
    y ∈ listInsertOrdered less x l ↔ y = x ∨ y ∈ l := by
  rw [(listInsertOrdered_perm x l).mem_iff, List.mem_cons]

@[simp] theorem length_listInsertOrdered (x : α) (l : List α) :
    (listInsertOrdered less x l).length = l.length + 1 :=
  (listInsertOrdered_perm x l).length_eq

/-- `list_insert_ordered` goes past every element `x` is not `less` than: those elements stay
ahead of `x`, which is what makes insertion first-in first-out among equals. -/
theorem listInsertOrdered_eq_append (x : α) (l : List α) :
    ∃ l₁ l₂, l = l₁ ++ l₂ ∧ listInsertOrdered less x l = l₁ ++ x :: l₂ ∧
      ∀ e ∈ l₁, less x e = false := by
  induction l with
  | nil => exact ⟨[], [], rfl, rfl, by simp⟩
  | cons e es ih =>
    rw [listInsertOrdered_cons]
    split
    · exact ⟨[], e :: es, rfl, rfl, by simp⟩
    · next hx =>
      obtain ⟨l₁, l₂, rfl, h, hl₁⟩ := ih
      refine ⟨e :: l₁, l₂, rfl, by rw [h]; rfl, fun e' he' => ?_⟩
      rcases List.mem_cons.mp he' with rfl | he'
      · simpa using hx
      · exact hl₁ e' he'

/-! `list_sort` only reorders: each pass splits the list into runs and merges them. -/

theorem findEndOfRun_append (a : α) (l : List α) :
    (findEndOfRun less a l).1 ++ (findEndOfRun less a l).2 = a :: l := by
  induction l generalizing a with
  | nil => rfl
  | cons b l ih =>
    rw [findEndOfRun]
    split
    · rfl
    · rw [List.cons_append, ih]

theorem inplaceMerge_perm (as bs : List α) : (inplaceMerge less as bs).Perm (as ++ bs) := by
  induction as generalizing bs with
  | nil => exact .refl _
  | cons a as ih =>
    -- the merge of `a :: as` walks `bs` until `a` goes first
    induction bs with
    | nil => simp [inplaceMerge, mergeCons]
    | cons b bs ihb =>
      simp only [inplaceMerge, mergeCons] at ihb ⊢
      split
      · exact (ihb.cons b).trans List.perm_middle.symm
      · exact (ih (b :: bs)).cons a

theorem sortPass_perm (n : ℕ) (l : List α) : (sortPass less n l).1.Perm l := by
  induction n generalizing l with
  | zero => exact .refl _
  | succ n ih =>
    cases l with
    | nil => exact .refl _
    | cons a l =>
      have hr := @findEndOfRun_append _ less a l
      rw [sortPass]
      split
      · next h =>
        rw [h, List.append_nil] at hr
        rw [hr]
      · next b l' h =>
        -- the two runs merged, then the rest of the pass
        have hr' := @findEndOfRun_append _ less b l'
        rw [h] at hr
        have hp := (@inplaceMerge_perm _ less (findEndOfRun less a l).1 (findEndOfRun less b l').1).append
          (ih (findEndOfRun less b l').2)
        rwa [List.append_assoc, hr', hr] at hp

theorem listSort_perm (l : List α) : (listSort less l).Perm l := by
  unfold listSort
  generalize l.length = n
  induction n generalizing l with
  | zero => exact .refl _
  | succ n ih =>
    rw [sortLoop]
    split
    · exact (ih _).trans (sortPass_perm _ _)
    · exact sortPass_perm _ _

section Sorted

variable (less) in
/-- No element is `less` than one before it: the order `list_insert_ordered` expects. -/
def LessSorted (l : List α) : Prop := l.Pairwise fun a b => less b a = false

instance : DecidablePred (LessSorted less) :=
  fun l => inferInstanceAs (Decidable (l.Pairwise _))

variable [IsStrictWeakOrder α fun a b => less a b = true]

/-- In a strict weak order, `a` below `c` puts every `b` above `a` or below `c`. -/
theorem less_or_less {a b c : α} (h : less a c = true) : less a b = true ∨ less b c = true := by
  by_contra hn
  obtain ⟨hab, hbc⟩ := not_or.mp hn
  have hba : ¬ less b a = true := fun hba => hbc (trans_of (fun a b => less a b = true) hba h)
  have hcb : ¬ less c b = true := fun hcb => hab (trans_of (fun a b => less a b = true) h hcb)
  have hac : ¬ less a c = true ∧ ¬ less c a = true :=
    @IsStrictWeakOrder.incomp_trans α (fun a b => less a b = true) _ a b c ⟨hab, hba⟩ ⟨hbc, hcb⟩
  exact hac.1 h

/-- Ordered insertion into a `less`-sorted list keeps it sorted. -/
theorem LessSorted.listInsertOrdered {l : List α} (hs : LessSorted less l) (x : α) :
    LessSorted less (Pintos.listInsertOrdered less x l) := by
  induction l with
  | nil => exact List.pairwise_singleton _ x
  | cons e es ih =>
    obtain ⟨he, hes⟩ := List.pairwise_cons.mp hs
    rw [listInsertOrdered_cons]
    split
    · next hxe =>
      refine List.pairwise_cons.mpr ⟨fun b hb => Bool.eq_false_iff.mpr fun hbx => ?_, hs⟩
      rcases List.mem_cons.mp hb with rfl | hb
      · exact irrefl_of (fun a b => less a b = true) x
          (trans_of (fun a b => less a b = true) hxe hbx)
      · exact Bool.false_ne_true ((he b hb).symm.trans (trans_of (fun a b => less a b = true) hbx hxe))
    · next hxe =>
      refine List.pairwise_cons.mpr ⟨fun b hb => ?_, ih hes⟩
      rcases mem_listInsertOrdered.mp hb with rfl | hb
      · simpa using hxe
      · exact he b hb

/-- In a `less`-sorted list, ordered insertion puts `x` after every element it is not `less`
than and before every element it is `less` than: after its equals, which arrived before it. -/
theorem LessSorted.listInsertOrdered_eq_append {l : List α} (hs : LessSorted less l) (x : α) :
    ∃ l₁ l₂, l = l₁ ++ l₂ ∧ Pintos.listInsertOrdered less x l = l₁ ++ x :: l₂ ∧
      (∀ e ∈ l₁, less x e = false) ∧ ∀ e ∈ l₂, less x e = true := by
  induction l with
  | nil => exact ⟨[], [], rfl, rfl, by simp, by simp⟩
  | cons e es ih =>
    obtain ⟨he, hes⟩ := List.pairwise_cons.mp hs
    rw [listInsertOrdered_cons]
    split
    · next hxe =>
      refine ⟨[], e :: es, rfl, rfl, by simp, fun b hb => ?_⟩
      rcases List.mem_cons.mp hb with rfl | hb
      · exact hxe
      · exact (less_or_less hxe).resolve_right (by simp [he b hb])
    · next hxe =>
      obtain ⟨l₁, l₂, rfl, h, h₁, h₂⟩ := ih hes
      refine ⟨e :: l₁, l₂, rfl, by rw [h]; rfl, fun b hb => ?_, h₂⟩
      rcases List.mem_cons.mp hb with rfl | hb
      · simpa using hxe
      · exact h₁ b hb

end Sorted

section Unique

/-- `list_unique` moves elements and drops none: kept and moved together are the list. -/
theorem uniqueFrom_perm (e : α) (ns : List α) :
    ((uniqueFrom less e ns).1 ++ (uniqueFrom less e ns).2).Perm ns := by
  induction ns generalizing e with
  | nil => exact .refl _
  | cons n ns ih =>
    rw [uniqueFrom]
    split
    · exact List.perm_middle.trans ((ih e).cons n)
    · exact (ih n).cons n

/-- After the kept element `e`, no kept element is equivalent to the one kept before it. -/
theorem isChain_uniqueFrom (e : α) (ns : List α) :
    (e :: (uniqueFrom less e ns).1).IsChain fun a b => (!less a b && !less b a) = false := by
  induction ns generalizing e with
  | nil => exact .singleton e
  | cons n ns ih =>
    rw [uniqueFrom]
    split
    · exact ih e
    · next heq => exact .cons_cons (by simpa using heq) (ih n)

theorem listUnique_perm (l : List α) : ((listUnique less l).1 ++ (listUnique less l).2).Perm l := by
  cases l with
  | nil => exact .refl _
  | cons e es => exact ((uniqueFrom_perm e es).cons e)

theorem isChain_listUnique (l : List α) :
    (listUnique less l).1.IsChain fun a b => (!less a b && !less b a) = false := by
  cases l with
  | nil => exact .nil
  | cons e es => exact isChain_uniqueFrom e es

end Unique

section Key

variable {β : Type*} [LinearOrder β] (k : α → β)

/-- A sequence ordered by non-increasing key, as the ready list is meant to be. -/
def KeySorted (l : List α) : Prop := l.Pairwise fun a b => k b ≤ k a

variable {k}

@[simp] theorem keySorted_nil : KeySorted k ([] : List α) := List.Pairwise.nil

theorem keySorted_cons {a : α} {l : List α} :
    KeySorted k (a :: l) ↔ (∀ b ∈ l, k b ≤ k a) ∧ KeySorted k l :=
  List.pairwise_cons

theorem KeySorted.sublist {l l' : List α} (h : KeySorted k l) (hs : l'.Sublist l) :
    KeySorted k l' :=
  List.Pairwise.sublist hs h

theorem KeySorted.erase [DecidableEq α] {l : List α} (h : KeySorted k l) (x : α) :
    KeySorted k (l.erase x) :=
  h.sublist (List.erase_sublist)

/-- The head of a key-sorted sequence has the greatest key. -/
theorem KeySorted.head_max {a b : α} {l : List α} (h : KeySorted k (a :: l)) (hb : b ∈ a :: l) :
    k b ≤ k a := by
  rcases List.mem_cons.mp hb with rfl | hb
  · exact le_rfl
  · exact (keySorted_cons.mp h).1 b hb

/-- Ordered insertion under the strict comparison of keys keeps the order. -/
theorem KeySorted.listInsertOrdered (hless : ∀ a b, less a b = true ↔ k b < k a)
    {l : List α} (h : KeySorted k l) (x : α) : KeySorted k (listInsertOrdered less x l) := by
  induction l with
  | nil => exact List.pairwise_singleton _ x
  | cons e es ih =>
    obtain ⟨he, hes⟩ := keySorted_cons.mp h
    rw [listInsertOrdered_cons]
    split
    · next hx =>
      have hlt := (hless x e).mp hx
      refine keySorted_cons.mpr ⟨fun b hb => ?_, h⟩
      rcases List.mem_cons.mp hb with rfl | hb
      · exact hlt.le
      · exact (he b hb).trans hlt.le
    · next hx =>
      have hle : k x ≤ k e := not_lt.mp fun hlt => hx ((hless x e).mpr hlt)
      refine keySorted_cons.mpr ⟨fun b hb => ?_, ih hes⟩
      rcases mem_listInsertOrdered.mp hb with rfl | hb
      · exact hle
      · exact he b hb

end Key

section Stamped

variable {β γ : Type*} [LinearOrder β] [LinearOrder γ] (k : α → β) (st : α → γ)

/-- A sequence in increasing order of key, and among equal keys of stamp. -/
def StampSorted (l : List α) : Prop := l.Pairwise fun a b => toLex (k a, st a) < toLex (k b, st b)

variable {k st}

theorem StampSorted.sublist {l l' : List α} (h : StampSorted k st l) (hs : l'.Sublist l) :
    StampSorted k st l' :=
  List.Pairwise.sublist hs h

theorem key_le_of_lex {a b : α} (h : toLex (k a, st a) < toLex (k b, st b)) : k a ≤ k b := by
  rcases Prod.Lex.toLex_lt_toLex.1 h with h | ⟨h, -⟩
  · exact h.le
  · exact h.le

/-- Ordered insertion under the strict comparison of keys, of an element stamped after every
other: among equal keys, first in, first out. -/
theorem StampSorted.listInsertOrdered (hless : ∀ a b, less a b = true ↔ k a < k b)
    {l : List α} (h : StampSorted k st l) {x : α} (hx : ∀ e ∈ l, st e < st x) :
    StampSorted k st (listInsertOrdered less x l) := by
  induction l with
  | nil => exact List.pairwise_singleton _ x
  | cons e es ih =>
    obtain ⟨he, hes⟩ := List.pairwise_cons.1 h
    rw [listInsertOrdered_cons]
    split
    · next hxe =>
      -- `x` goes before `e`, whose key is at most those of the elements after it
      have hlt := (hless x e).1 hxe
      refine List.pairwise_cons.2 ⟨fun b hb => ?_, h⟩
      have hkb : k e ≤ k b := by
        rcases List.mem_cons.1 hb with rfl | hb
        · exact le_rfl
        · exact key_le_of_lex (he b hb)
      exact Prod.Lex.toLex_lt_toLex.2 (Or.inl (hlt.trans_le hkb))
    · next hxe =>
      -- `x` goes after `e`: a smaller key, or an equal key and an earlier stamp
      have hle : k e ≤ k x := not_lt.1 fun hlt => hxe ((hless x e).2 hlt)
      refine List.pairwise_cons.2 ⟨fun b hb => ?_,
        ih hes fun e' he' => hx e' (List.mem_cons_of_mem e he')⟩
      rcases mem_listInsertOrdered.1 hb with rfl | hb
      · rcases hle.lt_or_eq with hlt | heq
        · exact Prod.Lex.toLex_lt_toLex.2 (Or.inl hlt)
        · exact Prod.Lex.toLex_lt_toLex.2 (Or.inr ⟨heq, hx e List.mem_cons_self⟩)
      · exact he b hb

end Stamped

section Splice

variable [DecidableEq α] {b : α} {r : List α}

theorem listSplice_of_not_mem : ∀ {xs : List α}, b ∉ xs → listSplice b r xs = xs ++ r
  | [], _ => rfl
  | e :: es, hb => by
    have he : e ≠ b := by
      rintro rfl
      exact hb List.mem_cons_self
    rw [listSplice, if_neg he, listSplice_of_not_mem (fun h => hb (List.mem_cons_of_mem e h))]
    rfl

theorem listSplice_append : ∀ {ys : List α} (zs : List α), b ∉ ys →
    listSplice b r (ys ++ b :: zs) = ys ++ r ++ b :: zs
  | [], zs, _ => by simp [listSplice]
  | e :: es, zs, hb => by
    have he : e ≠ b := by
      rintro rfl
      exact hb List.mem_cons_self
    rw [List.cons_append, listSplice, if_neg he,
      listSplice_append zs (fun h => hb (List.mem_cons_of_mem e h))]
    rfl

/-- Splicing before the first of the elements and the tail `t` puts the range in front. -/
theorem listSplice_front (t : α) (xs : List α) :
    listSplice ((xs ++ [t]).head (by simp)) r xs = r ++ xs := by
  cases xs with
  | nil => exact (List.append_nil r).symm
  | cons x xs => simpa using listSplice_append (r := r) xs (List.not_mem_nil : x ∉ ([] : List α))

theorem listRemove_append {x : α} {ys : List α} (zs : List α) (hx : x ∉ ys) :
    listRemove x (ys ++ x :: zs) = ys ++ zs := by
  rw [listRemove, List.erase_append_right _ hx, List.erase_cons_head]

end Splice

section Prefix

/-- On a sequence along which `p` can only stop holding, `dropWhile p` leaves no element
that satisfies `p`. -/
theorem not_of_mem_dropWhile {p : α → Bool} {l : List α}
    (hmono : l.Pairwise fun x y => p y = true → p x = true) {t : α} (ht : t ∈ l.dropWhile p) :
    p t = false := by
  induction l with
  | nil => cases ht
  | cons a l ih =>
    obtain ⟨ha, hl⟩ := List.pairwise_cons.1 hmono
    by_cases hpa : p a = true
    · rw [List.dropWhile_cons_of_pos hpa] at ht
      exact ih hl ht
    · rw [List.dropWhile_cons_of_neg hpa] at ht
      rcases List.mem_cons.1 ht with rfl | ht
      · simpa using hpa
      · exact Bool.eq_false_iff.2 fun hpt => hpa (ha t ht hpt)

end Prefix

end Pintos
