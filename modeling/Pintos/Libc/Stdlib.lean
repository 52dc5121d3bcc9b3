import Pintos.Lib.Heap

/-! # Sorting and searching: `lib/stdlib.c`

Memory is a function from addresses to bytes. An array of `cnt` elements of `size` bytes
each starts at `array`; `arrayElem` reads its element `k`, counted from one as `do_swap` and
`do_compare` count. A comparator is a function of the bytes of the two elements it is
passed, with `aux` taken into it, so `compare_thunk` is the comparator of `qsort` itself.
Addresses and the index arithmetic of `heapify` (`2 * i`, `2 * i + 1`) are in ℕ: they agree
with the code's `size_t` ones for arrays of fewer than `2 ^ 31` elements that fit below
`2 ^ 32`.

`sort` is a heap sort: `buildHeap` is its first loop and `sortHeap` its second. With
`BinaryHeap` read on the elements of the array, `heapify` sifts one element down
(`heapify_spec`), the first loop makes a heap (`buildHeap_spec`) and the second takes the
root off it into the sorted cells behind it (`sortHeap_spec`); only bytes of the array are
written. `binary_search` keeps the elements below `first` less than the key and those from
`last` on greater (`binarySearchLoop_spec`), and reads only elements of the array
(`binarySearchLoop_congr`).
-/

namespace Pintos

open BinaryHeap

section Model

/-- The `size` bytes from address `p` on. -/
def elemAt (mem : ℕ → UInt8) (p size : ℕ) : List UInt8 := (List.range size).map fun j => mem (p + j)

/-- Element `k` of the array at `array`, counted from one; there is no element `0`. -/
def arrayElem (mem : ℕ → UInt8) (array size k : ℕ) : List UInt8 :=
  if k = 0 then [] else elemAt mem (array + (k - 1) * size) size

/-- One round of the loop of `do_swap`: `t = a[i]; a[i] = b[i]; b[i] = t`. -/
def swapByte (mem : ℕ → UInt8) (a b : ℕ) : ℕ → UInt8 :=
  Function.update (Function.update mem a (mem b)) b (mem a)

/-- The first `n` rounds of the loop of `do_swap` on the bytes from `a` and from `b`. -/
def swapLoop (mem : ℕ → UInt8) (a b : ℕ) : ℕ → ℕ → UInt8
  | 0 => mem
  | i + 1 => swapByte (swapLoop mem a b i) (a + i) (b + i)

/-- `do_swap (array, a_idx, b_idx, size)`. -/
def doSwap (mem : ℕ → UInt8) (array aIdx bIdx size : ℕ) : ℕ → UInt8 :=
  swapLoop mem (array + (aIdx - 1) * size) (array + (bIdx - 1) * size) size

/-- `do_compare (array, a_idx, b_idx, size, compare, aux)`. -/
def doCompare (mem : ℕ → UInt8) (array aIdx bIdx size : ℕ)
    (compare : List UInt8 → List UInt8 → ℤ) : ℤ :=
  compare (elemAt mem (array + (aIdx - 1) * size) size) (elemAt mem (array + (bIdx - 1) * size) size)

/-- The `max` of a round of `heapify`: the index of the largest of element `i` and its
children. -/
def heapifyMax (mem : ℕ → UInt8) (array i cnt size : ℕ) (compare : List UInt8 → List UInt8 → ℤ) :
    ℕ :=
  let left := 2 * i
  let right := 2 * i + 1
  let max := if left ≤ cnt ∧ 0 < doCompare mem array left i size compare then left else i
  if right ≤ cnt ∧ 0 < doCompare mem array right max size compare then right else max

/-- `heapify (array, i, cnt, size, compare, aux)`, its loop with `fuel` rounds. -/
def heapify (array cnt size : ℕ) (compare : List UInt8 → List UInt8 → ℤ) :
    ℕ → (ℕ → UInt8) → ℕ → Option (ℕ → UInt8)
  | 0, _, _ => none
  | fuel + 1, mem, i =>
    let max := heapifyMax mem array i cnt size compare
    if max = i then some mem
    else heapify array cnt size compare fuel (doSwap mem array i max size) max

/-- The first loop of `sort`, `heapify` from element `i` down to element `1`. -/
def buildHeap (array cnt size : ℕ) (compare : List UInt8 → List UInt8 → ℤ) :
    ℕ → (ℕ → UInt8) → Option (ℕ → UInt8)
  | 0, mem => some mem
  | i + 1, mem =>
    (heapify array cnt size compare (cnt + 1) mem (i + 1)).bind fun mem =>
      buildHeap array cnt size compare i mem

/-- The second loop of `sort`, from `i` down to `2`: swap the first element with element `i`
and sift it down the first `i - 1`. -/
def sortHeap (array size : ℕ) (compare : List UInt8 → List UInt8 → ℤ) (fuel : ℕ) :
    ℕ → (ℕ → UInt8) → Option (ℕ → UInt8)
  | 0, mem => some mem
  | 1, mem => some mem
  | i + 2, mem =>
    (heapify array (i + 1) size compare fuel (doSwap mem array 1 (i + 2) size) 1).bind fun mem =>
      sortHeap array size compare fuel (i + 1) mem

/-- `sort (array, cnt, size, compare, aux)`. -/
def sort (mem : ℕ → UInt8) (array cnt size : ℕ) (compare : List UInt8 → List UInt8 → ℤ) :
    Option (ℕ → UInt8) :=
  -- `ASSERT (array != NULL || cnt == 0)` and `ASSERT (size > 0)`
  if array = 0 ∧ cnt ≠ 0 then none
  else if size = 0 then none
  else (buildHeap array cnt size compare (cnt / 2) mem).bind (sortHeap array size compare (cnt + 1) cnt)

/-- `compare_thunk`: the comparator of `qsort`, called without `aux`. -/
def compareThunk (compare : List UInt8 → List UInt8 → ℤ) (a b : List UInt8) : ℤ := compare a b

/-- `qsort (array, cnt, size, compare)`. -/
def qsort (mem : ℕ → UInt8) (array cnt size : ℕ) (compare : List UInt8 → List UInt8 → ℤ) :
    Option (ℕ → UInt8) :=
  sort mem array cnt size (compareThunk compare)

/-- The loop of `binary_search` between the addresses `first` and `last`: `some p` for the
address `p` of an element equal to the key, `none` for a null pointer. -/
def binarySearchLoop (mem : ℕ → UInt8) (key : List UInt8) (size : ℕ)
    (compare : List UInt8 → List UInt8 → ℤ) : ℕ → ℕ → ℕ → Option (Option ℕ)
  | 0, _, _ => none
  | fuel + 1, first, last =>
    if first < last then
      let range := (last - first) / size
      let middle := first + range / 2 * size
      let cmp := compare key (elemAt mem middle size)
      if cmp < 0 then binarySearchLoop mem key size compare fuel first middle
      else if 0 < cmp then binarySearchLoop mem key size compare fuel (middle + size) last
      else some (some middle)
    else some none

/-- `binary_search (key, array, cnt, size, compare, aux)`. -/
def binarySearch (mem : ℕ → UInt8) (key : List UInt8) (array cnt size : ℕ)
    (compare : List UInt8 → List UInt8 → ℤ) : Option (Option ℕ) :=
  binarySearchLoop mem key size compare (cnt + 1) array (array + size * cnt)

/-- `bsearch (key, array, cnt, size, compare)`. -/
def bsearch (mem : ℕ → UInt8) (key : List UInt8) (array cnt size : ℕ)
    (compare : List UInt8 → List UInt8 → ℤ) : Option (Option ℕ) :=
  binarySearch mem key array cnt size (compareThunk compare)

end Model

section Bytes

/-- Two blocks of `size` bytes at different indices do not overlap. -/
theorem block_disjoint (size : ℕ) {x y : ℕ} (hxy : x ≠ y) :
    x * size + size ≤ y * size ∨ y * size + size ≤ x * size := by
  rcases Nat.lt_or_gt_of_ne hxy with h | h
  · left
    have hle := Nat.mul_le_mul_right size (show x + 1 ≤ y from h)
    rwa [Nat.succ_mul] at hle
  · right
    have hle := Nat.mul_le_mul_right size (show y + 1 ≤ x from h)
    rwa [Nat.succ_mul] at hle

/-- The loop of `do_swap` on two ranges that do not overlap exchanges them. -/
theorem swapLoop_apply (mem : ℕ → UInt8) {a b : ℕ} : ∀ {n : ℕ}, a + n ≤ b ∨ b + n ≤ a → ∀ q,
    swapLoop mem a b n q =
      if a ≤ q ∧ q < a + n then mem (q - a + b)
      else if b ≤ q ∧ q < b + n then mem (q - b + a) else mem q
  | 0, _, q => by
    rw [swapLoop, if_neg (by omega), if_neg (by omega)]
  | n + 1, hd, q => by
    have ih := @swapLoop_apply mem a b n (by omega)
    simp only [swapLoop, swapByte, Function.update_apply, ih]
    split_ifs <;> first | rfl | omega | (congr 1; omega)

/-- `do_swap` exchanges two elements of the array. -/
theorem arrayElem_doSwap (mem : ℕ → UInt8) {array size i j : ℕ} (hi : 1 ≤ i) (hj : 1 ≤ j)
    (hij : i ≠ j) (k : ℕ) :
    arrayElem (doSwap mem array i j size) array size k = arrayElem mem array size (Equiv.swap i j k) := by
  have hd : array + (i - 1) * size + size ≤ array + (j - 1) * size ∨
      array + (j - 1) * size + size ≤ array + (i - 1) * size := by
    rcases block_disjoint size (show i - 1 ≠ j - 1 by omega) with h | h <;> omega
  by_cases hk : k = 0
  · rw [hk, Equiv.swap_apply_of_ne_of_ne (by omega) (by omega)]
    simp [arrayElem]
  have hsk : Equiv.swap i j k ≠ 0 := by
    rw [Equiv.swap_apply_def]
    split_ifs <;> omega
  simp only [arrayElem, if_neg hk, if_neg hsk, elemAt, doSwap]
  refine List.map_congr_left fun t ht => ?_
  rw [List.mem_range] at ht
  rw [swapLoop_apply mem hd, Equiv.swap_apply_def]
  by_cases hki : k = i
  · subst hki
    simp only [if_true]
    rw [if_pos (by omega)]
    congr 1
    omega
  · by_cases hkj : k = j
    · subst hkj
      rw [if_neg hki, if_pos rfl, if_neg (by omega), if_pos (by omega)]
      congr 1
      omega
    · rw [if_neg hki, if_neg hkj]
      rcases block_disjoint size (show k - 1 ≠ i - 1 by omega) with h₁ | h₁ <;>
        rcases block_disjoint size (show k - 1 ≠ j - 1 by omega) with h₂ | h₂ <;>
        rw [if_neg (by omega), if_neg (by omega)]

/-- `do_swap` of two elements of an array of `cnt` writes only bytes of the array. -/
theorem doSwap_frame (mem : ℕ → UInt8) {array cnt size i j : ℕ} (hi : 1 ≤ i) (hin : i ≤ cnt)
    (hj : 1 ≤ j) (hjn : j ≤ cnt) (hij : i ≠ j) {q : ℕ}
    (hq : q < array ∨ array + size * cnt ≤ q) : doSwap mem array i j size q = mem q := by
  have hd : array + (i - 1) * size + size ≤ array + (j - 1) * size ∨
      array + (j - 1) * size + size ≤ array + (i - 1) * size := by
    rcases block_disjoint size (show i - 1 ≠ j - 1 by omega) with h | h <;> omega
  have hend : ∀ x, x ≤ cnt - 1 → x * size + size ≤ size * cnt := fun x hx => by
    have hle := Nat.mul_le_mul_right size (show x + 1 ≤ cnt by omega)
    rw [Nat.succ_mul] at hle
    rw [Nat.mul_comm size]
    exact hle
  have hi' := hend (i - 1) (by omega)
  have hj' := hend (j - 1) (by omega)
  rw [doSwap, swapLoop_apply mem hd, if_neg (by omega), if_neg (by omega)]

theorem doCompare_eq (mem : ℕ → UInt8) {array size i j : ℕ} (hi : 1 ≤ i) (hj : 1 ≤ j)
    (compare : List UInt8 → List UInt8 → ℤ) :
    doCompare mem array i j size compare =
      compare (arrayElem mem array size i) (arrayElem mem array size j) := by
  simp [doCompare, arrayElem, Nat.pos_iff_ne_zero.mp hi, Nat.pos_iff_ne_zero.mp hj]

/-- An element past the first `n` is kept by a run that writes only the bytes of those. -/
theorem arrayElem_of_frame {mem mem' : ℕ → UInt8} {array size n k : ℕ} (hk : n < k)
    (hframe : ∀ q, q < array ∨ array + size * n ≤ q → mem' q = mem q) :
    arrayElem mem' array size k = arrayElem mem array size k := by
  have hle := Nat.mul_le_mul_right size (show n ≤ k - 1 by omega)
  simp only [arrayElem, if_neg (show k ≠ 0 by omega), elemAt]
  refine List.map_congr_left fun t _ => hframe _ (.inr ?_)
  rw [Nat.mul_comm size]
  omega

end Bytes

section Order

variable {β : Type*}

/-- `compare` is the `strcmp`-type result of a total preorder: `compare x y ≤ 0` is the
preorder, and `compare x y` is negative exactly when `compare y x` is positive. -/
structure CmpPreorder (compare : β → β → ℤ) : Prop where
  neg_iff_pos : ∀ x y, compare x y < 0 ↔ 0 < compare y x
  le_trans : ∀ x y z, compare x y ≤ 0 → compare y z ≤ 0 → compare x z ≤ 0

/-- `x` may come before `y`. -/
def CmpLe (compare : β → β → ℤ) (x y : β) : Prop := compare x y ≤ 0

namespace CmpPreorder

variable {compare : β → β → ℤ} (hc : CmpPreorder compare)
include hc

theorem le_of_pos {x y : β} (h : 0 < compare x y) : CmpLe compare y x :=
  Int.le_of_lt ((hc.neg_iff_pos y x).mpr h)

theorem le_refl (x : β) : CmpLe compare x x := by
  by_contra h
  have hpos : 0 < compare x x := by
    unfold CmpLe at h
    omega
  have hneg := (hc.neg_iff_pos x x).mpr hpos
  omega

theorem isPreorder : IsPreorder β (CmpLe compare) where
  refl := hc.le_refl
  trans := hc.le_trans

/-- A key below `y` is below everything `y` may come before. -/
theorem neg_of_neg_of_le {k y z : β} (hk : compare k y < 0) (hyz : CmpLe compare y z) :
    compare k z < 0 := by
  rw [hc.neg_iff_pos] at hk ⊢
  by_contra h
  have hzk : compare z k ≤ 0 := by omega
  have hyk := hc.le_trans y z k hyz hzk
  omega

/-- A key above `y` is above everything that may come before `y`. -/
theorem pos_of_pos_of_le {k y z : β} (hk : 0 < compare k y) (hzy : CmpLe compare z y) :
    0 < compare k z := by
  by_contra h
  have hkz : compare k z ≤ 0 := by omega
  have hky := hc.le_trans k z y hkz hzy
  omega

end CmpPreorder

theorem CmpPreorder.compareThunk {compare : List UInt8 → List UInt8 → ℤ}
    (hc : CmpPreorder compare) : CmpPreorder (Pintos.compareThunk compare) :=
  ⟨hc.neg_iff_pos, hc.le_trans⟩

end Order

section HeapSort

variable {compare : List UInt8 → List UInt8 → ℤ} (hc : CmpPreorder compare) {array size : ℕ}
include hc

/-- `max` is element `i` when no child of it is larger, and otherwise a child that `i` and
its other child may come before. -/
theorem heapifyMax_spec (mem : ℕ → UInt8) {i n : ℕ} (hi : 1 ≤ i) :
    (heapifyMax mem array i n size compare = i ∧ ∀ j, 2 ≤ j → j ≤ n → j / 2 = i →
        CmpLe compare (arrayElem mem array size j) (arrayElem mem array size i)) ∨
      (heapifyMax mem array i n size compare / 2 = i ∧ heapifyMax mem array i n size compare ≤ n ∧
        Dominates (CmpLe compare) (arrayElem mem array size) n i
          (heapifyMax mem array i n size compare)) := by
  set a := arrayElem mem array size
  have hcmp : ∀ x y, 1 ≤ x → 1 ≤ y → doCompare mem array x y size compare = compare (a x) (a y) :=
    fun x y hx hy => doCompare_eq mem hx hy compare
  have hchild : ∀ j, j / 2 = i → j = 2 * i ∨ j = 2 * i + 1 := fun j hj => by omega
  have hnot : ∀ x y, ¬ 0 < compare (a x) (a y) → CmpLe compare (a x) (a y) := fun x y h => by
    unfold CmpLe
    omega
  simp only [heapifyMax]
  by_cases hl : 2 * i ≤ n ∧ 0 < doCompare mem array (2 * i) i size compare
  · -- the left child is larger than `i`
    rw [if_pos hl]
    rw [hcmp _ _ (by omega) hi] at hl
    have hil := hc.le_of_pos hl.2
    by_cases hr : 2 * i + 1 ≤ n ∧ 0 < doCompare mem array (2 * i + 1) (2 * i) size compare
    · rw [if_pos hr]
      rw [hcmp _ _ (by omega) (by omega)] at hr
      have hlr := hc.le_of_pos hr.2
      refine .inr ⟨by omega, hr.1, hc.le_trans _ _ _ hil hlr, fun j hjn hj => ?_⟩
      rcases hchild j hj with rfl | rfl
      · exact hlr
      · exact hc.le_refl _
    · rw [if_neg hr]
      refine .inr ⟨by omega, hl.1, hil, fun j hjn hj => ?_⟩
      rcases hchild j hj with rfl | rfl
      · exact hc.le_refl _
      · rw [hcmp _ _ (by omega) (by omega)] at hr
        exact hnot _ _ fun h => hr ⟨hjn, h⟩
  · rw [if_neg hl]
    by_cases hr : 2 * i + 1 ≤ n ∧ 0 < doCompare mem array (2 * i + 1) i size compare
    · -- only the right child is larger than `i`
      rw [if_pos hr]
      rw [hcmp _ _ (by omega) hi] at hr
      have hir := hc.le_of_pos hr.2
      refine .inr ⟨by omega, hr.1, hir, fun j hjn hj => ?_⟩
      rcases hchild j hj with rfl | rfl
      · rw [hcmp _ _ (by omega) hi] at hl
        exact hc.le_trans _ _ _ (hnot _ _ fun h => hl ⟨hjn, h⟩) hir
      · exact hc.le_refl _
    · -- `i` is the largest
      rw [if_neg hr]
      refine .inl ⟨rfl, fun j _ hjn hj => ?_⟩
      rcases hchild j hj with rfl | rfl
      · rw [hcmp _ _ (by omega) hi] at hl
        exact hnot _ _ fun h => hl ⟨hjn, h⟩
      · rw [hcmp _ _ (by omega) hi] at hr
        exact hnot _ _ fun h => hr ⟨hjn, h⟩

/-- `heapify` sifts element `i` down a heap of `n` elements from element `k`: the heap is
restored, the elements are kept, and only bytes of the first `n` are written. -/
theorem heapify_spec {n k : ℕ} (hk : 1 ≤ k) : ∀ (fuel : ℕ) (mem : ℕ → UInt8) (i : ℕ), k ≤ i →
    n - i < fuel → SiftInv (CmpLe compare) (arrayElem mem array size) n k i →
    ∃ mem', heapify array n size compare fuel mem i = some mem' ∧
      HeapFrom (CmpLe compare) (arrayElem mem' array size) n k ∧
      (window (arrayElem mem' array size) n).Perm (window (arrayElem mem array size) n) ∧
      ∀ q, q < array ∨ array + size * n ≤ q → mem' q = mem q
  | 0, _, _, _, hf, _ => absurd hf (Nat.not_lt_zero _)
  | fuel + 1, mem, i, hki, hf, hs => by
    rcases heapifyMax_spec hc mem (n := n) (show 1 ≤ i by omega) with ⟨hm, hdom⟩ | ⟨hm, hmn, hd⟩
    · -- no child is larger: the loop stops
      refine ⟨mem, by simp [heapify, hm], hs.heapFrom hdom, List.Perm.refl _, fun _ _ => rfl⟩
    · -- swap with the larger child and go on from there
      set m := heapifyMax mem array i n size compare
      have him : i ≠ m := by omega
      have hview : arrayElem (doSwap mem array i m size) array size =
          swapAt (arrayElem mem array size) i m :=
        funext (arrayElem_doSwap mem (by omega) (by omega) him)
      have hs' := hs.swapAt (by omega) hki hm hmn hd
      rw [← hview] at hs'
      obtain ⟨mem', hrun, hheap, hperm, hframe⟩ :=
        heapify_spec hk fuel (doSwap mem array i m size) m (by omega) (by omega) hs'
      refine ⟨mem', ?_, hheap, ?_, fun q hq => ?_⟩
      · rw [heapify, if_neg (Ne.symm him)]
        exact hrun
      · rw [hview] at hperm
        exact hperm.trans (window_swapAt _ (by omega) (by omega) (by omega) hmn)
      · rw [hframe q hq, doSwap_frame mem (by omega) (by omega) (by omega) hmn him hq]

/-- The first loop of `sort` makes a heap of the whole array. -/
theorem buildHeap_spec {cnt : ℕ} : ∀ (i : ℕ) (mem : ℕ → UInt8),
    HeapFrom (CmpLe compare) (arrayElem mem array size) cnt (i + 1) →
    ∃ mem', buildHeap array cnt size compare i mem = some mem' ∧
      HeapFrom (CmpLe compare) (arrayElem mem' array size) cnt 1 ∧
      (window (arrayElem mem' array size) cnt).Perm (window (arrayElem mem array size) cnt) ∧
      ∀ q, q < array ∨ array + size * cnt ≤ q → mem' q = mem q
  | 0, mem, h => ⟨mem, rfl, h, List.Perm.refl _, fun _ _ => rfl⟩
  | i + 1, mem, h => by
    obtain ⟨mem₁, hrun₁, hheap₁, hperm₁, hframe₁⟩ :=
      heapify_spec hc (n := cnt) (show 1 ≤ i + 1 by omega) (cnt + 1) mem (i + 1)
        (Nat.le_refl _) (by omega) h.siftInv
    obtain ⟨mem₂, hrun₂, hheap₂, hperm₂, hframe₂⟩ := buildHeap_spec i mem₁ hheap₁
    exact ⟨mem₂, by rw [buildHeap, hrun₁, Option.bind_some, hrun₂], hheap₂, hperm₂.trans hperm₁,
      fun q hq => (hframe₂ q hq).trans (hframe₁ q hq)⟩

/-- The second loop of `sort`, from a heap of the first `i` elements behind which the elements
are in order and above it, puts the whole array in order. -/
theorem sortHeap_spec {cnt fuel : ℕ} (hfuel : cnt < fuel) : ∀ (i : ℕ) (mem : ℕ → UInt8), i ≤ cnt →
    HeapFrom (CmpLe compare) (arrayElem mem array size) i 1 →
    SortedFrom (CmpLe compare) (arrayElem mem array size) i cnt →
    ∃ mem', sortHeap array size compare fuel i mem = some mem' ∧
      (window (arrayElem mem' array size) cnt).Pairwise (CmpLe compare) ∧
      (window (arrayElem mem' array size) cnt).Perm (window (arrayElem mem array size) cnt) ∧
      ∀ q, q < array ∨ array + size * cnt ≤ q → mem' q = mem q
  | 0, mem, _, _, hs => ⟨mem, rfl, hs.pairwise (by omega), List.Perm.refl _, fun _ _ => rfl⟩
  | 1, mem, _, _, hs => ⟨mem, rfl, hs.pairwise (Nat.le_refl _), List.Perm.refl _, fun _ _ => rfl⟩
  | i + 2, mem, hi, hh, hs => by
    have := hc.isPreorder
    set mem₁ := doSwap mem array 1 (i + 2) size
    have hview : arrayElem mem₁ array size = swapAt (arrayElem mem array size) 1 (i + 2) :=
      funext (arrayElem_doSwap mem (Nat.le_refl _) (by omega) (by omega))
    -- the largest element goes behind the heap, whose first element is then out of place
    have hs₁ : SiftInv (CmpLe compare) (arrayElem mem₁ array size) (i + 1) 1 1 := by
      rw [hview]
      exact hh.siftInv_swapAt_root
    obtain ⟨mem₂, hrun, hheap, hperm, hframe⟩ :=
      heapify_spec hc (n := i + 1) (Nat.le_refl 1) fuel mem₁ 1 (Nat.le_refl _) (by omega) hs₁
    have hout : ∀ k, i + 1 < k → arrayElem mem₂ array size k = arrayElem mem₁ array size k :=
      fun k hk => arrayElem_of_frame hk hframe
    have hsorted : SortedFrom (CmpLe compare) (arrayElem mem₂ array size) (i + 1) cnt :=
      hs.swapAt_root hh (hview ▸ hperm) fun k hk => by rw [hout k hk, hview]
    obtain ⟨mem₃, hrun₃, hpair, hperm₃, hframe₃⟩ :=
      sortHeap_spec hfuel (i + 1) mem₂ (by omega) hheap hsorted
    have hcnt : size * (i + 1) ≤ size * cnt := Nat.mul_le_mul_left size (by omega)
    refine ⟨mem₃, ?_, hpair, ?_, fun q hq => ?_⟩
    · rw [sortHeap, hrun, Option.bind_some, hrun₃]
    · refine hperm₃.trans ((window_perm_of_front (by omega) hperm fun k hk _ => hout k hk).trans ?_)
      rw [hview]
      exact window_swapAt _ (Nat.le_refl _) (by omega) (by omega) hi
    · rw [hframe₃ q hq, hframe q (by omega)]
      exact doSwap_frame mem (Nat.le_refl _) (by omega) (by omega) hi (by omega) hq

/-- `sort` puts the elements of the array in order, keeps them, and writes only bytes of the
array. -/
theorem sort_spec (hsize : 0 < size) (mem : ℕ → UInt8) {cnt : ℕ} (harray : array ≠ 0 ∨ cnt = 0) :
    ∃ mem', sort mem array cnt size compare = some mem' ∧
      (window (arrayElem mem' array size) cnt).Perm (window (arrayElem mem array size) cnt) ∧
      (window (arrayElem mem' array size) cnt).Pairwise (CmpLe compare) ∧
      ∀ q, q < array ∨ array + size * cnt ≤ q → mem' q = mem q := by
  obtain ⟨mem₁, hrun₁, hheap₁, hperm₁, hframe₁⟩ :=
    buildHeap_spec hc (cnt / 2) mem (heapFrom_half _ _ cnt)
  obtain ⟨mem₂, hrun₂, hpair, hperm₂, hframe₂⟩ :=
    sortHeap_spec hc (Nat.lt_succ_self cnt) cnt mem₁ (Nat.le_refl _) hheap₁ (sortedFrom_self _ _ cnt)
  refine ⟨mem₂, ?_, hperm₂.trans hperm₁, hpair, fun q hq => (hframe₂ q hq).trans (hframe₁ q hq)⟩
  rw [sort, if_neg (by omega), if_neg (by omega), hrun₁, Option.bind_some, hrun₂]

end HeapSort

section Search

theorem arrayElem_succ (mem : ℕ → UInt8) (array size x : ℕ) :
    arrayElem mem array size (x + 1) = elemAt mem (array + size * x) size := by
  simp [arrayElem, Nat.mul_comm]

/-- `first`, `last` and `middle` of a round of `binary_search` between elements `lo` and `hi`. -/
theorem search_middle {array size lo hi : ℕ} (hsize : 0 < size) :
    array + size * lo + (array + size * hi - (array + size * lo)) / size / 2 * size =
      array + size * (lo + (hi - lo) / 2) := by
  rw [Nat.add_sub_add_left, ← Nat.mul_sub, Nat.mul_div_cancel_left _ hsize, Nat.mul_add,
    Nat.mul_comm ((hi - lo) / 2) size, Nat.add_assoc]

theorem search_lt {array size lo hi : ℕ} (hsize : 0 < size) :
    array + size * lo < array + size * hi ↔ lo < hi := by
  constructor
  · intro h
    by_contra hle
    have := Nat.mul_le_mul_left size (show hi ≤ lo by omega)
    omega
  · intro h
    have := Nat.mul_lt_mul_of_pos_left h hsize
    omega

variable {compare : List UInt8 → List UInt8 → ℤ} {array size : ℕ} (hsize : 0 < size)
include hsize

/-- The loop of `binary_search` between elements `lo` and `hi` of a sorted array, with the
elements up to `lo` below the key and those after `hi` above it, finds an element equal to
the key or shows there is none. -/
theorem binarySearchLoop_spec (hc : CmpPreorder compare) (mem : ℕ → UInt8) (key : List UInt8)
    {cnt : ℕ} (hsorted : ∀ p q, 1 ≤ p → p < q → q ≤ cnt →
      CmpLe compare (arrayElem mem array size p) (arrayElem mem array size q)) :
    ∀ (fuel lo hi : ℕ), lo ≤ hi → hi ≤ cnt → hi - lo < fuel →
    (∀ k, 1 ≤ k → k ≤ lo → 0 < compare key (arrayElem mem array size k)) →
    (∀ k, hi < k → k ≤ cnt → compare key (arrayElem mem array size k) < 0) →
    ∃ res, binarySearchLoop mem key size compare fuel (array + size * lo) (array + size * hi) =
        some res ∧
      (∀ p, res = some p → ∃ k, 1 ≤ k ∧ k ≤ cnt ∧ p = array + size * (k - 1) ∧
        compare key (arrayElem mem array size k) = 0) ∧
      (res = none → ∀ k, 1 ≤ k → k ≤ cnt → compare key (arrayElem mem array size k) ≠ 0)
  | 0, _, _, _, _, hf, _, _ => absurd hf (Nat.not_lt_zero _)
  | fuel + 1, lo, hi, hlh, hhi, hf, hbelow, habove => by
    by_cases hlt : lo < hi
    · rw [binarySearchLoop, if_pos ((search_lt hsize).mpr hlt)]
      dsimp only
      rw [search_middle hsize, ← arrayElem_succ]
      set mid := lo + (hi - lo) / 2
      rcases Int.lt_trichotomy (compare key (arrayElem mem array size (mid + 1))) 0 with
        hneg | hzero | hpos
      · -- the key is below the middle element: `last = middle`
        rw [if_pos hneg]
        refine binarySearchLoop_spec hc mem key hsorted fuel lo mid (by omega) (by omega) (by omega)
          hbelow fun k hk hkc => ?_
        by_cases hkm : k = mid + 1
        · rwa [hkm]
        · exact hc.neg_of_neg_of_le hneg (hsorted (mid + 1) k (by omega) (by omega) hkc)
      · -- the middle element is equal to the key
        rw [if_neg (by omega), if_neg (by omega)]
        refine ⟨some (array + size * mid), rfl, fun p hp => ?_, fun h => absurd h (by simp)⟩
        rw [Option.some.injEq] at hp
        exact ⟨mid + 1, by omega, by omega, by rw [← hp, Nat.add_sub_cancel], hzero⟩
      · -- the key is above the middle element: `first = middle + size`
        rw [if_neg (by omega), if_pos hpos, show array + size * mid + size = array + size * (mid + 1)
          by rw [Nat.mul_succ, Nat.add_assoc]]
        refine binarySearchLoop_spec hc mem key hsorted fuel (mid + 1) hi (by omega) hhi (by omega)
          (fun k hk hkm => ?_) habove
        by_cases hkm' : k = mid + 1
        · rwa [hkm']
        · exact hc.pos_of_pos_of_le hpos (hsorted k (mid + 1) hk (by omega) (by omega))
    · -- `first == last`: every element is below or above the key
      rw [binarySearchLoop, if_neg (fun h => hlt ((search_lt hsize).mp h))]
      refine ⟨none, rfl, fun p hp => absurd hp (by simp), fun _ k hk hkc => ?_⟩
      by_cases hkl : k ≤ lo
      · have := hbelow k hk hkl
        omega
      · have := habove k (by omega) hkc
        omega

/-- The loop of `binary_search` reads only elements of the array. -/
theorem binarySearchLoop_congr {mem mem' : ℕ → UInt8} (key : List UInt8) {cnt : ℕ}
    (hagree : ∀ q, array ≤ q → q < array + size * cnt → mem' q = mem q) :
    ∀ (fuel lo hi : ℕ), lo ≤ hi → hi ≤ cnt →
    binarySearchLoop mem' key size compare fuel (array + size * lo) (array + size * hi) =
      binarySearchLoop mem key size compare fuel (array + size * lo) (array + size * hi)
  | 0, _, _, _, _ => rfl
  | fuel + 1, lo, hi, hlh, hhi => by
    by_cases hlt : lo < hi
    · rw [binarySearchLoop, binarySearchLoop, if_pos ((search_lt hsize).mpr hlt),
        if_pos ((search_lt hsize).mpr hlt)]
      dsimp only
      rw [search_middle hsize]
      set mid := lo + (hi - lo) / 2
      have hend := Nat.mul_le_mul_left size (show mid + 1 ≤ cnt by omega)
      rw [Nat.mul_succ] at hend
      have helem : elemAt mem' (array + size * mid) size = elemAt mem (array + size * mid) size :=
        List.map_congr_left fun t ht => hagree _ (by omega) (by rw [List.mem_range] at ht; omega)
      rw [helem, binarySearchLoop_congr key hagree fuel lo mid (by omega) (by omega),
        show array + size * mid + size = array + size * (mid + 1) by rw [Nat.mul_succ, Nat.add_assoc],
        binarySearchLoop_congr key hagree fuel (mid + 1) hi (by omega) hhi]
    · rw [binarySearchLoop, binarySearchLoop, if_neg (fun h => hlt ((search_lt hsize).mp h)),
        if_neg (fun h => hlt ((search_lt hsize).mp h))]

end Search

/-- `sort` and `qsort`, for a comparator of a total preorder, leave the elements of the array
in order, keep them and write no byte outside the array; on a sorted array
`binary_search` and `bsearch` return an element equal to the key if there is one and a null
pointer if not, and read nothing outside the array. -/
theorem sort_and_binary_search (compare : List UInt8 → List UInt8 → ℤ) (hc : CmpPreorder compare)
    (mem : ℕ → UInt8) (array cnt size : ℕ) (hsize : 0 < size) (harray : array ≠ 0 ∨ cnt = 0) :
    (∃ mem', sort mem array cnt size compare = some mem' ∧
      qsort mem array cnt size compare = some mem' ∧
      (window (arrayElem mem' array size) cnt).Perm (window (arrayElem mem array size) cnt) ∧
      (window (arrayElem mem' array size) cnt).Pairwise (CmpLe compare) ∧
      ∀ q, q < array ∨ array + size * cnt ≤ q → mem' q = mem q) ∧
    ∀ key, (window (arrayElem mem array size) cnt).Pairwise (CmpLe compare) →
      ∃ res, binarySearch mem key array cnt size compare = some res ∧
        bsearch mem key array cnt size compare = some res ∧
        (∀ p, res = some p → ∃ k, 1 ≤ k ∧ k ≤ cnt ∧ p = array + size * (k - 1) ∧
          compare key (arrayElem mem array size k) = 0) ∧
        (res = none ↔ ∀ k, 1 ≤ k → k ≤ cnt → compare key (arrayElem mem array size k) ≠ 0) ∧
        ∀ mem', (∀ q, array ≤ q → q < array + size * cnt → mem' q = mem q) →
          binarySearch mem' key array cnt size compare = some res := by
  obtain ⟨mem', hsort, hperm, hpair, hframe⟩ := sort_spec hc hsize mem harray
  refine ⟨⟨mem', hsort, hsort, hperm, hpair, hframe⟩, fun key hsorted => ?_⟩
  -- the search starts with nothing known below `first = array` or above `last`
  obtain ⟨res, hrun, hfound, hnone⟩ := binarySearchLoop_spec hsize hc mem key
    (pairwise_window_iff.mp hsorted) (cnt + 1) 0 cnt (Nat.zero_le _) (Nat.le_refl _) (by omega)
    (fun k hk hk0 => absurd hk (by omega)) (fun k hk hkc => absurd hkc (by omega))
  simp only [Nat.mul_zero, Nat.add_zero] at hrun
  refine ⟨res, hrun, hrun, hfound, ⟨hnone, fun hall => ?_⟩, fun mem' hagree => ?_⟩
  · cases res with
    | none => rfl
    | some p =>
      obtain ⟨k, hk, hkc, -, heq⟩ := hfound p rfl
      exact absurd heq (hall k hk hkc)
  · have hcongr := @binarySearchLoop_congr compare array size hsize mem mem' key cnt hagree (cnt + 1)
      0 cnt (Nat.zero_le _) (Nat.le_refl _)
    simp only [Nat.mul_zero, Nat.add_zero] at hcongr
    exact hcongr.trans hrun

/-- Elements compared by their first byte. -/
def firstByteCompare (x y : List UInt8) : ℤ := ((x.headD 0).toNat : ℤ) - (y.headD 0).toNat

theorem firstByteCompare_preorder : CmpPreorder firstByteCompare where
  neg_iff_pos x y := by
    unfold firstByteCompare
    omega
  le_trans x y z hxy hyz := by
    unfold firstByteCompare at *
    omega

/-- Three two-byte elements at address 8 whose first bytes are 3, 1 and 2. -/
def threeKeys (q : ℕ) : UInt8 := if q = 8 then 3 else if q = 10 then 1 else if q = 12 then 2 else 0

theorem sort_and_binary_search_threeKeys :
    ∃ mem', sort threeKeys 8 3 2 firstByteCompare = some mem' ∧
      window (arrayElem mem' 8 2) 3 = [[1, 0], [2, 0], [3, 0]] ∧
      binarySearch mem' [2] 8 3 2 firstByteCompare = some (some 10) := by
  obtain ⟨⟨mem', hsort, -, -, hpair, -⟩, -⟩ := sort_and_binary_search firstByteCompare
    firstByteCompare_preorder threeKeys 8 3 2 (by decide) (by decide)
  have hw : window (arrayElem mem' 8 2) 3 = [[1, 0], [2, 0], [3, 0]] := by
    have heval : (sort threeKeys 8 3 2 firstByteCompare).map (fun m => window (arrayElem m 8 2) 3) =
        some [[1, 0], [2, 0], [3, 0]] := by decide
    rw [hsort, Option.map_some, Option.some.injEq] at heval
    exact heval
  have h1 : arrayElem mem' 8 2 1 = [1, 0] ∧ arrayElem mem' 8 2 2 = [2, 0] ∧
      arrayElem mem' 8 2 3 = [3, 0] := by
    simpa only [window, List.range'_succ, List.range'_zero, List.map_cons, List.map_nil,
      List.cons.injEq, and_true] using hw
  -- the sorted array is searched for the key whose first byte is 2
  obtain ⟨-, hsearch⟩ := sort_and_binary_search firstByteCompare firstByteCompare_preorder mem' 8 3 2
    (by decide) (by decide)
  obtain ⟨res, hrun, -, hfound, hnone, -⟩ := hsearch [2] hpair
  refine ⟨mem', hsort, hw, ?_⟩
  cases res with
  | none =>
    have h2 := (hnone.mp rfl) 2 (by decide) (by decide)
    rw [h1.2.1] at h2
    exact absurd rfl h2
  | some p =>
    obtain ⟨k, hk, hk3, rfl, hcmp⟩ := hfound p rfl
    obtain rfl | rfl | rfl : k = 1 ∨ k = 2 ∨ k = 3 := by omega
    · rw [h1.1] at hcmp
      exact absurd hcmp (by decide)
    · exact hrun
    · rw [h1.2.2] at hcmp
      exact absurd hcmp (by decide)

end Pintos
