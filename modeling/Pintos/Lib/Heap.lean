import Mathlib.Logic.Equiv.Basic
import Mathlib.Order.Defs.Unbundled
import Mathlib.Data.List.Perm.Basic
import Mathlib.Data.List.Nodup

/-! # Binary heaps in an array indexed from one

An array is a function `a : ℕ → α` read at `1, ..., n`. The children of cell `i` are `2 * i`
and `2 * i + 1`, and its parent is `i / 2`. A relation `r x y` says that `x` may stand below
`y` in a heap.

`SiftInv` is the invariant of sifting a cell down: the heap order holds from cell `k` on
except between `i` and its children, and `i`'s parent dominates them. Exchanging `i` with a
child that dominates it moves the one cell out of place down to that child
(`SiftInv.swapAt`); when `i` dominates its children the heap is restored
(`SiftInv.heapFrom`). For a preorder the first cell of a heap is an upper bound of it
(`HeapFrom.le_root`), and `SortedFrom` is the invariant of taking the root off a shrinking
heap: the cells past the heap are in order and above every cell of it.
-/

namespace BinaryHeap

variable {α : Type*}

section Window

/-- The cells `1, ..., n` of an array. -/
def window (a : ℕ → α) (n : ℕ) : List α := (List.range' 1 n).map a

/-- The array with cells `i` and `j` exchanged. -/
def swapAt (a : ℕ → α) (i j : ℕ) : ℕ → α := a ∘ Equiv.swap i j

theorem swapAt_left (a : ℕ → α) (i j : ℕ) : swapAt a i j i = a j := by
  simp [swapAt]

theorem swapAt_right (a : ℕ → α) (i j : ℕ) : swapAt a i j j = a i := by
  simp [swapAt]

theorem swapAt_of_ne {a : ℕ → α} {i j k : ℕ} (hi : k ≠ i) (hj : k ≠ j) : swapAt a i j k = a k := by
  simp [swapAt, Equiv.swap_apply_of_ne_of_ne hi hj]

theorem mem_window {a : ℕ → α} {n : ℕ} {x : α} :
    x ∈ window a n ↔ ∃ k, 1 ≤ k ∧ k ≤ n ∧ a k = x := by
  simp only [window, List.mem_map, List.mem_range'_1]
  constructor
  · rintro ⟨k, ⟨hk, hkn⟩, rfl⟩
    exact ⟨k, hk, by omega, rfl⟩
  · rintro ⟨k, hk, hkn, rfl⟩
    exact ⟨k, ⟨hk, by omega⟩, rfl⟩

/-- Exchanging two cells of the window keeps its elements. -/
theorem window_swapAt (a : ℕ → α) {n i j : ℕ} (hi : 1 ≤ i) (hin : i ≤ n) (hj : 1 ≤ j)
    (hjn : j ≤ n) : (window (swapAt a i j) n).Perm (window a n) := by
  have hmem : ∀ k, k ∈ List.range' 1 n ↔ 1 ≤ k ∧ k ≤ n := fun k => by
    rw [List.mem_range'_1]
    omega
  have hidx : ((List.range' 1 n).map (Equiv.swap i j)).Perm (List.range' 1 n) := by
    refine (List.perm_ext_iff_of_nodup (List.Nodup.map (Equiv.swap i j).injective List.nodup_range')
      List.nodup_range').mpr fun k => ?_
    rw [List.mem_map, hmem]
    constructor
    · rintro ⟨m, hm, rfl⟩
      rw [hmem] at hm
      rw [Equiv.swap_apply_def]
      split_ifs <;> omega
    · intro hk
      refine ⟨Equiv.swap i j k, (hmem _).mpr ?_, Equiv.swap_apply_self _ _ _⟩
      rw [Equiv.swap_apply_def]
      split_ifs <;> omega
  simpa [window, swapAt, List.map_map] using hidx.map a

/-- Windows whose first `m` cells hold the same elements and that agree after them hold the
same elements. -/
theorem window_perm_of_front {a b : ℕ → α} {m n : ℕ} (hm : m ≤ n)
    (hp : (window a m).Perm (window b m)) (he : ∀ k, m < k → k ≤ n → a k = b k) :
    (window a n).Perm (window b n) := by
  have hsplit : ∀ c : ℕ → α, window c n = window c m ++ (List.range' (1 + m) (n - m)).map c :=
    fun c => by rw [window, window, ← List.map_append, List.range'_append_1, Nat.add_sub_cancel' hm]
  rw [hsplit a, hsplit b]
  have hrest : (List.range' (1 + m) (n - m)).map a = (List.range' (1 + m) (n - m)).map b := by
    refine List.map_congr_left fun k hk => ?_
    rw [List.mem_range'_1] at hk
    exact he k (by omega) (by omega)
  rw [hrest]
  exact hp.append_right _

theorem pairwise_window_iff {r : α → α → Prop} {a : ℕ → α} {n : ℕ} :
    (window a n).Pairwise r ↔ ∀ p q, 1 ≤ p → p < q → q ≤ n → r (a p) (a q) := by
  rw [window, List.pairwise_map]
  constructor
  · intro h p q hp hpq hq
    have hrel := List.pairwise_iff_getElem.mp h (p - 1) (q - 1) (by simp; omega) (by simp; omega)
      (by omega)
    simp only [List.getElem_range'] at hrel
    rwa [show 1 + 1 * (p - 1) = p by omega, show 1 + 1 * (q - 1) = q by omega] at hrel
  · intro h
    refine List.Pairwise.imp_of_mem (fun {p q} hp hq hpq => ?_) List.pairwise_lt_range'
    rw [List.mem_range'_1] at hp hq
    exact h p q hp.1 hpq (by omega)

end Window

section Order

variable (r : α → α → Prop)

/-- Heap order from cell `k` on: every cell of the first `n` whose parent is `k` or later may
stand below its parent. -/
def HeapFrom (a : ℕ → α) (n k : ℕ) : Prop :=
  ∀ j, 2 ≤ j → j ≤ n → k ≤ j / 2 → r (a j) (a (j / 2))

/-- Sifting cell `i` down a heap from cell `k`: heap order except between `i` and its children,
which may stand below `i`'s parent. -/
def SiftInv (a : ℕ → α) (n k i : ℕ) : Prop :=
  (∀ j, 2 ≤ j → j ≤ n → k ≤ j / 2 → j / 2 ≠ i → r (a j) (a (j / 2))) ∧
    (k < i → ∀ j, j ≤ n → j / 2 = i → r (a j) (a (i / 2)))

/-- Cell `c` may take the place of `i`: `i` and its children may stand below it. -/
def Dominates (a : ℕ → α) (n i c : ℕ) : Prop :=
  r (a i) (a c) ∧ ∀ j, j ≤ n → j / 2 = i → r (a j) (a c)

/-- The cells after the first `n`, up to `cnt`, are in order, and no cell of the first `n`
stands above them. -/
def SortedFrom (a : ℕ → α) (n cnt : ℕ) : Prop :=
  (∀ p q, n < p → p ≤ q → q ≤ cnt → r (a p) (a q)) ∧
    ∀ p q, 1 ≤ p → p ≤ n → n < q → q ≤ cnt → r (a p) (a q)

variable {r} {a : ℕ → α} {n k i : ℕ}

/-- No cell past the middle has children. -/
theorem heapFrom_half (r : α → α → Prop) (a : ℕ → α) (n : ℕ) : HeapFrom r a n (n / 2 + 1) :=
  fun _ _ hjn hk => absurd hk (by omega)

theorem HeapFrom.mono {n' : ℕ} (h : HeapFrom r a n k) (hn : n' ≤ n) : HeapFrom r a n' k :=
  fun j hj hjn hk => h j hj (Nat.le_trans hjn hn) hk

theorem HeapFrom.siftInv (h : HeapFrom r a n (k + 1)) : SiftInv r a n k k :=
  ⟨fun j hj hjn hk hne => h j hj hjn (by omega), fun hk => absurd hk (Nat.lt_irrefl k)⟩

/-- A cell that dominates its children ends the sift. -/
theorem SiftInv.heapFrom (h : SiftInv r a n k i)
    (hi : ∀ j, 2 ≤ j → j ≤ n → j / 2 = i → r (a j) (a i)) : HeapFrom r a n k := by
  intro j hj hjn hk
  by_cases hji : j / 2 = i
  · rw [hji]
    exact hi j hj hjn hji
  · exact h.1 j hj hjn hk hji

/-- Exchanging `i` with a child that dominates it moves the sift down to that child. -/
theorem SiftInv.swapAt {c : ℕ} (h : SiftInv r a n k i) (hi : 1 ≤ i) (hki : k ≤ i)
    (hc : c / 2 = i) (hcn : c ≤ n) (hd : Dominates r a n i c) :
    SiftInv r (swapAt a i c) n k c := by
  have hci : c ≠ i := by omega
  constructor
  · intro j hj hjn hk hjc
    by_cases hp : j / 2 = i
    · -- `j` is a child of `i`, which now holds `a c`
      rw [hp, swapAt_left]
      by_cases hjc' : j = c
      · rw [hjc', swapAt_right]
        exact hd.1
      · rw [swapAt_of_ne (by omega) hjc']
        exact hd.2 j hjn hp
    · -- the parent of `j` is neither `i` nor `c`
      rw [swapAt_of_ne hp hjc]
      by_cases hji : j = i
      · rw [hji, swapAt_left]
        rw [hji] at hk
        exact h.2 (by omega) c hcn hc
      · rw [swapAt_of_ne hji (by omega)]
        exact h.1 j hj hjn hk hp
  · intro _ j hjn hj
    rw [hc, swapAt_left, swapAt_of_ne (by omega) (by omega)]
    have hrel := h.1 j (by omega) hjn (by omega) (by omega)
    rwa [hj] at hrel

/-- The first cell of a heap is an upper bound of it. -/
theorem HeapFrom.le_root [IsPreorder α r] (h : HeapFrom r a n 1) :
    ∀ j, 1 ≤ j → j ≤ n → r (a j) (a 1) := by
  intro j
  induction j using Nat.strongRecOn with
  | _ j ih =>
    intro hj hjn
    by_cases hj1 : j = 1
    · rw [hj1]
      exact refl_of r _
    · exact trans_of r (h j (by omega) hjn (by omega)) (ih (j / 2) (by omega) (by omega) (by omega))

/-- Moving the root of a heap of `n + 1` cells behind the first `n` leaves a heap with its first
cell out of place. -/
theorem HeapFrom.siftInv_swapAt_root (h : HeapFrom r a (n + 1) 1) :
    SiftInv r (swapAt a 1 (n + 1)) n 1 1 := by
  refine ⟨fun j hj hjn hk hne => ?_, fun h1 => absurd h1 (Nat.lt_irrefl 1)⟩
  rw [swapAt_of_ne (by omega) (by omega), swapAt_of_ne hne (by omega)]
  exact h j hj (by omega) hk

theorem sortedFrom_self (r : α → α → Prop) (a : ℕ → α) (cnt : ℕ) : SortedFrom r a cnt cnt :=
  ⟨fun _ _ hp hpq hq => absurd hpq (by omega), fun _ _ _ hp hq hq' => absurd hq' (by omega)⟩

/-- Taking the root off a heap of `n + 1` cells: it goes to cell `n + 1`, and whatever the
first `n` cells then hold, as long as they hold the same elements, the sorted cells grow by
one. -/
theorem SortedFrom.swapAt_root [IsPreorder α r] {cnt : ℕ} {b : ℕ → α}
    (hs : SortedFrom r a (n + 1) cnt) (hh : HeapFrom r a (n + 1) 1)
    (hperm : (window b n).Perm (window (swapAt a 1 (n + 1)) n))
    (hout : ∀ k, n < k → b k = swapAt a 1 (n + 1) k) : SortedFrom r b n cnt := by
  have hroot : b (n + 1) = a 1 := by rw [hout _ (by omega), swapAt_right]
  have hrest : ∀ q, n + 1 < q → b q = a q := fun q hq => by
    rw [hout _ (by omega), swapAt_of_ne (by omega) (by omega)]
  -- each of the first `n` cells holds an element of the old heap
  have hold : ∀ p, 1 ≤ p → p ≤ n → ∃ k, 1 ≤ k ∧ k ≤ n + 1 ∧ b p = a k := by
    intro p hp hpn
    obtain ⟨k, hk, hkn, hbk⟩ := mem_window.mp (hperm.subset (mem_window.mpr ⟨p, hp, hpn, rfl⟩))
    by_cases hk1 : k = 1
    · rw [hk1, swapAt_left] at hbk
      exact ⟨n + 1, by omega, (Nat.le_refl _), hbk.symm⟩
    · rw [swapAt_of_ne hk1 (by omega)] at hbk
      exact ⟨k, hk, by omega, hbk.symm⟩
  constructor
  · intro p q hp hpq hq
    by_cases hp1 : p = n + 1
    · rw [hp1, hroot]
      by_cases hq1 : q = n + 1
      · rw [hq1, hroot]
        exact refl_of r _
      · rw [hrest q (by omega)]
        exact hs.2 1 q (Nat.le_refl _) (by omega) (by omega) hq
    · rw [hrest p (by omega), hrest q (by omega)]
      exact hs.1 p q (by omega) hpq hq
  · intro p q hp hpn hq hqc
    obtain ⟨k, hk, hkn, hbp⟩ := hold p hp hpn
    rw [hbp]
    by_cases hq1 : q = n + 1
    · rw [hq1, hroot]
      exact hh.le_root k hk hkn
    · rw [hrest q (by omega)]
      exact hs.2 k q hk hkn (by omega) hqc

/-- With at most one cell of heap left, the whole array is in order. -/
theorem SortedFrom.pairwise {cnt : ℕ} (hs : SortedFrom r a n cnt) (hn : n ≤ 1) :
    (window a cnt).Pairwise r := by
  refine pairwise_window_iff.mpr fun p q hp hpq hq => ?_
  by_cases hpn : n < p
  · exact hs.1 p q hpn (by omega) hq
  · exact hs.2 p q hp (by omega) (by omega) hq

end Order

end BinaryHeap
