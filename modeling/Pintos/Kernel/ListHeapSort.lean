import Pintos.Kernel.ListHeap
import Pintos.Kernel.ListSort
import Pintos.Kernel.Hash

/-! # `list_sort` on the heap

`find_end_of_run`, `inplace_merge` and `list_sort` of `lib/kernel/list.c` as they run on the
links of a list in the heap of `Kernel.ListHeap`, each loop with fuel. A step of the merge
moves the head of the second run before the current element of the first with
`list_splice` inside one list (`listSplice_back_spec`). Each loop does on the heap what its
sequence version in `Kernel.List` does on the elements, so that `Kernel.ListSort` says what
the sort leaves: the same elements, in order, with equivalent ones in their first order.

The `ASSERT`s of `find_end_of_run` (`a != b`) and of `inplace_merge` (both ranges sorted) hold
at every call the sort makes and are not modelled.
-/

namespace Pintos.ListHeap

open DLink

variable {α : Type*} [DecidableEq α]

section Model

variable (less : α → α → Bool)

/-- `find_end_of_run (a, b, less, aux)`: step on from `a` until `b` or an element `less` than
its predecessor. -/
def findEndOfRun (h : Heap α) (b : α) : ℕ → α → Option α
  | 0, _ => none
  | n + 1, a =>
    (listNext h a).bind fun a =>
      if a = b then some a
      else (listPrev h a).bind fun p => if less a p then some a else findEndOfRun h b n a

/-- `inplace_merge (a0, a1b0, b1, less, aux)`: while both ranges are nonempty, step past the
head of the first unless the head of the second is `less`, which then moves before it. -/
def inplaceMerge : ℕ → Heap α → α → α → α → Option (Heap α)
  | 0, _, _, _, _ => none
  | n + 1, h, a0, a1b0, b1 =>
    if a0 ≠ a1b0 ∧ a1b0 ≠ b1 then
      if !less a1b0 a0 then (listNext h a0).bind fun a0 => inplaceMerge n h a0 a1b0 b1
      else
        (listNext h a1b0).bind fun a1b0 =>
          (listPrev h a1b0).bind fun p =>
            (listSplice h a0 p a1b0).bind fun h => inplaceMerge n h a0 a1b0 b1
    else some h

/-- The `for` loop of one pass of `list_sort` from `a0`: the heap and `output_run_cnt`. -/
def sortPass (tl : α) (fuel : ℕ) : ℕ → Heap α → α → ℕ → Option (Heap α × ℕ)
  | 0, _, _, _ => none
  | n + 1, h, a0, cnt =>
    if a0 = tl then some (h, cnt)
    else
      (findEndOfRun less h tl fuel a0).bind fun a1b0 =>
        if a1b0 = tl then some (h, cnt + 1)
        else
          (findEndOfRun less h tl fuel a1b0).bind fun b1 =>
            (inplaceMerge less fuel h a0 a1b0 b1).bind fun h => sortPass tl fuel n h b1 (cnt + 1)

/-- The `do ... while (output_run_cnt > 1)` loop of `list_sort`. -/
def sortLoop (l : KList α) (fuel : ℕ) : ℕ → Heap α → Option (Heap α)
  | 0, _ => none
  | n + 1, h =>
    (listBegin h l).bind fun a0 =>
      (sortPass less l.tail fuel fuel h a0 0).bind fun r =>
        if 1 < r.2 then sortLoop l fuel n r.1 else some r.1

end Model

/-- `list_sort (list, less, aux)`, with `fuel` for each of its loops. -/
def listSort (fuel : ℕ) (h : Heap α) (l : KList α) (less : α → α → Bool) : Option (Heap α) :=
  sortLoop less l fuel fuel h

section Move

variable {h : Heap α} {l : KList α}

omit [DecidableEq α] in
theorem KList.cells_perm {xs ys : List α} (hp : xs.Perm ys) : (l.cells xs).Perm (l.cells ys) :=
  (hp.cons _).append_right _

omit [DecidableEq α] in
theorem eq_head_of_head? {xs : List α} {t a : α} (ha : (xs ++ [t]).head? = some a) :
    (xs ++ [t]).head (by simp) = a :=
  Option.some.inj ((List.head?_eq_some_head _).symm.trans ha)

/-- `list_splice (a, b, list_next (b))` with `a` before `b` in one list: `b` moves to just
before `a`, and only cells of the list are written. -/
theorem listSplice_back_spec {ps qs rs : List α} {a b : α}
    (hl : DList h l.head l.tail (ps ++ a :: qs ++ b :: rs)) :
    ∃ h', listSplice h a b ((rs ++ [l.tail]).head (by simp)) = some h' ∧
      DList h' l.head l.tail (ps ++ b :: a :: qs ++ rs) ∧
      Within (l.cells (ps ++ a :: qs ++ b :: rs)) h h' := by
  set fp := (l.head :: (ps ++ a :: qs)).getLast (List.cons_ne_nil _ _)
  set last := (rs ++ [l.tail]).head (by simp)
  set bp := (l.head :: ps).getLast (List.cons_ne_nil _ _)
  have hc : l.cells (ps ++ a :: qs ++ b :: rs) =
      (l.head :: (ps ++ a :: qs)) ++ b :: (rs ++ [l.tail]) := by simp [KList.cells]
  have hnd : (l.cells (ps ++ a :: qs ++ b :: rs)).Nodup := hl.nodup
  rw [hc] at hnd
  obtain ⟨-, hndR, hLR⟩ := List.nodup_append.mp hnd
  -- where the written cells lie
  have hfp : fp ∈ l.head :: (ps ++ a :: qs) := List.getLast_mem _
  have hlast : last ∈ rs ++ [l.tail] := List.head_mem _
  have ha : a ∈ l.head :: (ps ++ a :: qs) := by simp
  have hbp : bp ∈ l.head :: (ps ++ a :: qs) := by
    rcases List.mem_cons.mp (List.getLast_mem (List.cons_ne_nil l.head ps)) with h' | h'
    · exact h' ▸ List.mem_cons_self
    · exact List.mem_cons_of_mem _ (List.mem_append_left _ h')
  have hb : b ∉ rs ++ [l.tail] := (List.nodup_cons.mp hndR).1
  have hne : ∀ q ∈ l.head :: (ps ++ a :: qs), q ≠ b := fun q hq => hLR q hq b List.mem_cons_self
  have hne' : ∀ q ∈ l.head :: (ps ++ a :: qs), q ≠ last := fun q hq =>
    hLR q hq last (List.mem_cons_of_mem _ hlast)
  -- the links `list_splice` reads
  have hlink₀ : Linked h bp a :=
    (show DList h l.head l.tail (ps ++ (a :: qs ++ b :: rs)) by simpa using hl).linked_split
  have hlink₁ : Linked h fp b :=
    (show DList h l.head l.tail ((ps ++ a :: qs) ++ b :: rs) by simpa using hl).linked_split
  have hlink₂ : Linked h b last := by
    have hg : (l.head :: (ps ++ a :: qs ++ [b])).getLast (List.cons_ne_nil _ _) = b := by simp
    exact hg ▸ (show DList h l.head l.tail ((ps ++ a :: qs ++ [b]) ++ rs) by
      simpa using hl).linked_split
  have hrun := listSplice_run (fun h' : b = last => hb (h' ▸ hlast)) hlink₀.2 hlink₁.2
    (by rw [hlink₂.1]; rfl) hlink₂.2 (by rw [hlink₁.2]; rfl) hlink₂.1
    (fun h' : b = fp => hne fp hfp h'.symm) (hne' a ha) (hne a ha)
  -- first `b` leaves the list
  set h₂ := setPrev (setNext h fp (some last)) last (some fp)
  have hl₁ : DList h₂ l.head l.tail (ps ++ (a :: qs ++ rs)) := by
    have hl' : DList h l.head l.tail ((ps ++ a :: qs) ++ [b] ++ rs) := by simpa using hl
    simpa using hl'.remove_range (fun q => by simp only [h₂, next_setPrev, next_setNext]; rfl)
      (fun q => by simp only [h₂, prev_setPrev, prev_setNext]; rfl)
  -- then it goes back in before `a`
  have hperm : (ps ++ b :: (a :: qs ++ rs)).Perm (ps ++ (a :: qs ++ b :: rs)) :=
    List.perm_middle.symm.append_left ps
  have hnd₂ : (l.cells (ps ++ [b] ++ (a :: qs ++ rs))).Nodup := by
    refine (KList.cells_perm ?_).nodup_iff.mpr hl.nodup
    simpa using hperm
  set h₃ := setPrev (setNext (setNext (setPrev h₂ b (some bp)) b (some a)) bp (some b)) a (some b)
  have hl₂ : DList h₃ l.head l.tail (ps ++ [b] ++ (a :: qs ++ rs)) :=
    hl₁.insert_range (List.cons_ne_nil b []) (.singleton b) hnd₂
      (fun q => by simp only [h₃, next_setPrev, next_setNext]; rfl)
      (fun q => by simp only [h₃, prev_setPrev, prev_setNext]; rfl)
  have hw₁ : Within ([fp] ++ [last]) h h₂ := (within_setNext h fp _).append (within_setPrev _ last _)
  have hw₂ : Within ([b] ++ [b] ++ [bp] ++ [a]) h₂ h₃ :=
    (((within_setPrev _ _ _).append (within_setNext _ _ _)).append (within_setNext _ _ _)).append
      (within_setPrev _ _ _)
  refine ⟨h₃, hrun, by simpa using hl₂, (hw₁.append hw₂).mono fun q hq => ?_⟩
  have hL : ∀ q ∈ l.head :: (ps ++ a :: qs), q ∈ l.cells (ps ++ a :: qs ++ b :: rs) :=
    fun q hq => hc ▸ List.mem_append_left _ hq
  simp only [List.mem_append, List.mem_singleton] at hq
  rcases hq with (rfl | rfl) | ((rfl | rfl) | rfl) | rfl
  · exact hL _ hfp
  · exact hc ▸ List.mem_append_right _ (List.mem_cons_of_mem _ hlast)
  · exact hc ▸ List.mem_append_right _ List.mem_cons_self
  · exact hc ▸ List.mem_append_right _ List.mem_cons_self
  · exact hL _ hbp
  · exact hL _ ha

end Move

section Runs

variable (less : α → α → Bool) {l : KList α}

/-- `find_end_of_run` from an element `a` followed by the cells `zs` stops at the first cell
after the run that starts at `a`, or at the tail. -/
theorem findEndOfRun_spec : ∀ {ys zs : List α} {a : α} {h : Heap α} {n : ℕ},
    DList h l.head l.tail (ys ++ a :: zs) → zs.length < n →
    findEndOfRun less h l.tail n a =
      some (((Pintos.findEndOfRun less a zs).2 ++ [l.tail]).head (by simp))
  | _, _, _, _, 0, _, hn => absurd hn (Nat.not_lt_zero _)
  | _, [], a, h, n + 1, hl, _ => by
    have hnext : (h a).next = some l.tail := hl.next_of_split
    simp [findEndOfRun, listNext_eq, hnext, Pintos.findEndOfRun]
  | ys, c :: zs, a, h, n + 1, hl, hn => by
    have hl' : DList h l.head l.tail ((ys ++ [a]) ++ c :: zs) := by simpa using hl
    have hnext : (h a).next = some c := hl.next_of_split
    have hprev : (h c).prev = some a := by
      have hg : (l.head :: (ys ++ [a])).getLast (List.cons_ne_nil _ _) = a := by simp
      exact hg ▸ hl'.linked_split.2
    have hct : c ≠ l.tail := by
      rintro rfl
      exact tail_not_mem (show (l.cells (ys ++ a :: l.tail :: zs)).Nodup from hl.nodup) (by simp)
    by_cases hless : less c a = true
    · simp [findEndOfRun, listNext_eq, listPrev_eq, hnext, hprev, hct, hless, Pintos.findEndOfRun]
    · have ih := findEndOfRun_spec hl' (by simpa using hn)
      simp only [findEndOfRun, listNext_eq, hnext, Option.bind_some, if_neg hct, listPrev_eq,
        hprev, hless, Bool.false_eq_true, if_false, ih, Pintos.findEndOfRun]

omit [DecidableEq α] in
theorem cells_subset_of_perm {xs ys : List α} (hp : xs.Perm ys) : l.cells xs ⊆ l.cells ys :=
  (KList.cells_perm hp).subset

omit [DecidableEq α] in
/-- A cell of a list is none of the cells after it. -/
theorem not_mem_after {ys zs : List α} {x : α} (hnd : (l.cells (ys ++ x :: zs)).Nodup) :
    x ∉ zs ++ [l.tail] := by
  have hc : l.cells (ys ++ x :: zs) = (l.head :: ys) ++ x :: (zs ++ [l.tail]) := by
    simp [KList.cells]
  rw [hc] at hnd
  exact (List.nodup_cons.mp (List.nodup_append.mp hnd).2.1).1

/-- The merge loop on two adjacent ranges `as` and `bs` followed by `rs` leaves in their place
their merge as `Kernel.List` computes it. -/
theorem inplaceMerge_spec : ∀ (n : ℕ) {ps as bs rs : List α} {h : Heap α} {a0 a1b0 b1 : α},
    DList h l.head l.tail (ps ++ as ++ bs ++ rs) → as.length + bs.length < n →
    (as ++ bs ++ rs ++ [l.tail]).head? = some a0 → (bs ++ rs ++ [l.tail]).head? = some a1b0 →
    (rs ++ [l.tail]).head? = some b1 →
    ∃ h', inplaceMerge less n h a0 a1b0 b1 = some h' ∧
      DList h' l.head l.tail (ps ++ Pintos.inplaceMerge less as bs ++ rs) ∧
      Within (l.cells (ps ++ as ++ bs ++ rs)) h h'
  | 0, _, _, _, _, _, _, _, _, _, hn, _, _, _ => absurd hn (Nat.not_lt_zero _)
  | n + 1, ps, [], bs, rs, h, a0, a1b0, b1, hl, _, ha0, ha1, _ => by
    -- the first range is empty: `a0 == a1b0`
    obtain rfl : a0 = a1b0 := by
      rw [List.nil_append] at ha0
      exact Option.some.inj (ha0.symm.trans ha1)
    exact ⟨h, by simp [inplaceMerge], by simpa [Pintos.inplaceMerge] using hl, Within.refl _ _⟩
  | n + 1, ps, a :: as, [], rs, h, a0, a1b0, b1, hl, _, _, ha1, hb1 => by
    -- the second range is empty: `a1b0 == b1`
    obtain rfl : a1b0 = b1 := by
      rw [List.nil_append] at ha1
      exact Option.some.inj (ha1.symm.trans hb1)
    exact ⟨h, by simp [inplaceMerge], by simpa [inplaceMerge_nil_right] using hl, Within.refl _ _⟩
  | n + 1, ps, a :: as, b :: bs, rs, h, a0, a1b0, b1, hl, hn, ha0, ha1, hb1 => by
    simp only [List.cons_append, List.head?_cons, Option.some.injEq] at ha0 ha1
    subst ha0 ha1
    have e : ps ++ a :: as ++ b :: bs ++ rs = ps ++ a :: (as ++ b :: (bs ++ rs)) := by simp
    have hnd : (l.cells (ps ++ a :: (as ++ b :: (bs ++ rs)))).Nodup := by
      rw [← e]
      exact hl.nodup
    have hab : a ≠ b := fun h' => not_mem_after hnd (by simp [h'])
    have hbb1 : b ≠ b1 := by
      have hnd' : (l.cells ((ps ++ a :: as) ++ b :: (bs ++ rs))).Nodup := by simpa using hnd
      rw [← eq_head_of_head? hb1]
      exact fun h' => not_mem_after hnd' (h' ▸ by simp [List.head_mem])
    by_cases hless : less b a = true
    · -- the head of the second range moves before `a`
      have hl' : DList h l.head l.tail ((ps ++ a :: as ++ [b]) ++ (bs ++ rs)) := by simpa using hl
      have hnext : (h b).next = some ((bs ++ rs ++ [l.tail]).head (by simp)) := by
        simpa using hl'.linked_split.1
      have hprev : (h ((bs ++ rs ++ [l.tail]).head (by simp))).prev = some b := by
        simpa using hl'.linked_split.2
      obtain ⟨h₁, hsplice, hl₁, hw₁⟩ :=
        listSplice_back_spec (show DList h l.head l.tail (ps ++ a :: as ++ b :: (bs ++ rs)) by
          simpa using hl)
      obtain ⟨h₂, hrun, hl₂, hw₂⟩ := inplaceMerge_spec n
        (show DList h₁ l.head l.tail ((ps ++ [b]) ++ (a :: as) ++ bs ++ rs) by simpa using hl₁)
        (by simp only [List.length_cons] at hn ⊢; omega)
        (show ((a :: as) ++ bs ++ rs ++ [l.tail]).head? = some a by simp)
        (List.head?_eq_some_head (by simp)) hb1
      have hperm : (ps ++ [b] ++ (a :: as) ++ bs ++ rs).Perm (ps ++ (a :: as) ++ (b :: bs) ++ rs) := by
        simpa using (@List.perm_middle _ b (a :: as) (bs ++ rs)).symm.append_left ps
      refine ⟨h₂, ?_, ?_, (by simpa using hw₁ : Within _ h h₁).trans
        (hw₂.mono (cells_subset_of_perm hperm))⟩
      · simp only [inplaceMerge, ne_eq, hab, hbb1, not_false_eq_true, and_self, if_true, hless,
          Bool.not_true, Bool.false_eq_true, if_false, listNext_eq, hnext, Option.bind_some,
          listPrev_eq, hprev, hsplice, hrun]
      · simpa [inplaceMerge_cons_cons, hless] using hl₂
    · -- `a` stays: step past it
      have hnext : (h a).next = some ((as ++ b :: bs ++ rs ++ [l.tail]).head (by simp)) :=
        (show DList h l.head l.tail (ps ++ a :: (as ++ b :: bs ++ rs)) by simpa using hl).next_of_split
      obtain ⟨h₂, hrun, hl₂, hw₂⟩ := inplaceMerge_spec n
        (show DList h l.head l.tail ((ps ++ [a]) ++ as ++ (b :: bs) ++ rs) by simpa using hl)
        (by simp only [List.length_cons] at hn ⊢; omega) (List.head?_eq_some_head (by simp))
        (show ((b :: bs) ++ rs ++ [l.tail]).head? = some b by simp) hb1
      refine ⟨h₂, ?_, ?_, by simpa using hw₂⟩
      · simp only [inplaceMerge, ne_eq, hab, hbb1, not_false_eq_true, and_self, if_true, hless,
          Bool.not_false, listNext_eq, hnext, Option.bind_some, hrun]
      · simpa [inplaceMerge_cons_cons, hless] using hl₂

/-- A pass from the first of the cells `xs`, after the cells `ds`, merges the runs of `xs` two
by two as the pass of `Kernel.List` does, and counts the runs it outputs. -/
theorem sortPass_spec (fuel : ℕ) : ∀ (n : ℕ) {ds xs : List α} {h : Heap α} {a0 : α} (cnt : ℕ),
    DList h l.head l.tail (ds ++ xs) → xs.length ≤ n → xs.length < fuel →
    (xs ++ [l.tail]).head? = some a0 →
    ∃ h', sortPass less l.tail fuel (n + 1) h a0 cnt =
        some (h', cnt + (Pintos.sortPass less n xs).2) ∧
      DList h' l.head l.tail (ds ++ (Pintos.sortPass less n xs).1) ∧
      Within (l.cells (ds ++ xs)) h h'
  | n, ds, [], h, a0, cnt, hl, _, _, ha0 => by
    -- `a0 == list_end (list)`: the pass is over
    obtain rfl : a0 = l.tail := by simpa using ha0.symm
    exact ⟨h, by simp [sortPass, sortPass_nil], by simpa [sortPass_nil] using hl, Within.refl _ _⟩
  | 0, _, _ :: _, _, _, _, _, hn, _, _ => absurd hn (by simp)
  | n + 1, ds, a :: xs, h, a0, cnt, hl, hn, hf, ha0 => by
    obtain rfl : a = a0 := by simpa using ha0
    have hat : a ≠ l.tail := fun h' =>
      tail_not_mem (show (l.cells (ds ++ a :: xs)).Nodup from hl.nodup) (by simp [h'])
    have hfind := findEndOfRun_spec less hl (show xs.length < fuel by simp at hf; omega)
    obtain ⟨run, rest, hr⟩ : ∃ run rest, Pintos.findEndOfRun less a xs = (run, rest) :=
      ⟨_, _, rfl⟩
    have happ : run ++ rest = a :: xs := by simpa [hr] using @findEndOfRun_append _ less a xs
    obtain ⟨t, ht⟩ : ∃ t, run = a :: t := by simpa [hr] using @findEndOfRun_fst _ less a xs
    rw [hr] at hfind
    cases rest with
    | nil =>
      -- the first run reaches the end: it is counted and the pass stops
      refine ⟨h, ?_, ?_, Within.refl _ _⟩
      · simp [sortPass, hat, hfind, Pintos.sortPass, hr]
      · simpa [Pintos.sortPass, hr, ← happ] using hl
    | cons b rest =>
      have hl' : DList h l.head l.tail ((ds ++ run) ++ b :: rest) := by
        rw [List.append_assoc, happ]
        exact hl
      have hbt : b ≠ l.tail := fun h' =>
        tail_not_mem (show (l.cells ((ds ++ run) ++ b :: rest)).Nodup from hl'.nodup) (by simp [h'])
      have hlen := congrArg List.length happ
      simp only [List.length_append, List.length_cons] at hlen hn hf
      have hfind' := findEndOfRun_spec less hl' (show rest.length < fuel by omega)
      obtain ⟨run', rest', hr'⟩ : ∃ run' rest', Pintos.findEndOfRun less b rest = (run', rest') :=
        ⟨_, _, rfl⟩
      have happ' : run' ++ rest' = b :: rest := by
        simpa [hr'] using @findEndOfRun_append _ less b rest
      obtain ⟨t', ht'⟩ : ∃ t', run' = b :: t' := by
        simpa [hr'] using @findEndOfRun_fst _ less b rest
      have hrest : rest'.length < xs.length := by
        simpa [hr, hr'] using @length_sortPass_rest _ less a b xs rest (by rw [hr])
      rw [hr'] at hfind'
      have hxs : ds ++ run ++ run' ++ rest' = ds ++ a :: xs := by
        rw [List.append_assoc (ds ++ run), happ', List.append_assoc, happ]
      have hlen' := congrArg List.length happ'
      simp only [List.length_append, List.length_cons] at hlen'
      -- merge the two runs found
      obtain ⟨h₁, hmerge, hl₁, hw₁⟩ := inplaceMerge_spec less fuel (hxs ▸ hl) (by omega)
        (show (run ++ run' ++ rest' ++ [l.tail]).head? = some a by rw [ht]; simp)
        (show (run' ++ rest' ++ [l.tail]).head? = some b by rw [ht']; simp)
        (List.head?_eq_some_head (by simp))
      -- and go on from the end of the second
      obtain ⟨h₂, hrun, hl₂, hw₂⟩ := sortPass_spec fuel n (cnt + 1)
        (show DList h₁ l.head l.tail ((ds ++ Pintos.inplaceMerge less run run') ++ rest') by
          simpa using hl₁)
        (by omega) (by omega) (List.head?_eq_some_head (by simp))
      have hperm : (ds ++ Pintos.inplaceMerge less run run' ++ rest').Perm (ds ++ a :: xs) := by
        rw [← hxs]
        simpa using ((@Pintos.inplaceMerge_perm _ less run run').append_right rest').append_left ds
      refine ⟨h₂, ?_, ?_, (hxs ▸ hw₁).trans (hw₂.mono (cells_subset_of_perm hperm))⟩
      · rw [sortPass, if_neg hat, hfind, Option.bind_some]
        simp only [List.cons_append, List.head_cons, if_neg hbt, hfind', Option.bind_some, hmerge,
          hrun, Pintos.sortPass, hr, hr', Option.some.injEq, Prod.mk.injEq, true_and]
        omega
      · simpa [Pintos.sortPass, hr, hr'] using hl₂

/-- One round of the `do ... while` loop: a pass over the whole list, after which the loop
goes on only if the pass output more than one run. -/
theorem sortLoop_round {fuel : ℕ} {xs : List α} {h : Heap α} (hl : DList h l.head l.tail xs)
    (hf : xs.length < fuel) :
    ∃ h₁, (∀ n, sortLoop less l fuel (n + 1) h =
        if 1 < (Pintos.sortPass less xs.length xs).2 then sortLoop less l fuel n h₁ else some h₁) ∧
      DList h₁ l.head l.tail (Pintos.sortPass less xs.length xs).1 ∧ Within (l.cells xs) h h₁ := by
  obtain ⟨m, rfl⟩ : ∃ m, fuel = m + 1 := ⟨fuel - 1, by omega⟩
  obtain ⟨h₁, hpass, hl₁, hw₁⟩ := sortPass_spec less (m + 1) m 0
    (show DList h l.head l.tail ([] ++ xs) from hl) (by omega) hf (List.head?_eq_some_head (by simp))
  have hfuel := @sortPass_fuel _ less m xs.length xs (by omega) (Nat.le_refl _)
  rw [hfuel, Nat.zero_add] at hpass
  rw [hfuel, List.nil_append] at hl₁
  refine ⟨h₁, fun n => ?_, hl₁, by simpa using hw₁⟩
  rw [sortLoop, listBegin, hl.head_next, Option.bind_some, hpass, Option.bind_some]

end Runs

section Loop

variable (less : α → α → Bool) [IsStrictWeakOrder α fun a b => less a b = true] {l : KList α}

/-- With fuel for the runs of the list, the `do ... while` loop stops where the unbounded loop
of `Kernel.ListSort` stops. -/
theorem sortLoop_spec {fuel : ℕ} (n : ℕ) : ∀ {xs : List α} {h : Heap α},
    DList h l.head l.tail xs → runCount less xs ≤ n → xs.length < fuel →
    ∃ h' ys, sortLoop less l fuel (n + 1) h = some h' ∧ SortsTo less xs ys ∧
      DList h' l.head l.tail ys ∧ Within (l.cells xs) h h' := by
  induction n with
  | zero =>
    intro xs h hl hruns hf
    obtain ⟨h₁, hround, hl₁, hw₁⟩ := sortLoop_round less hl hf
    have hlast : (Pintos.sortPass less xs.length xs).2 ≤ 1 := by
      rw [sortPass_count _ _ (Nat.le_refl _)]
      omega
    exact ⟨h₁, _, by rw [hround, if_neg (by omega)], .last hlast, hl₁, hw₁⟩
  | succ n ih =>
    intro xs h hl hruns hf
    obtain ⟨h₁, hround, hl₁, hw₁⟩ := sortLoop_round less hl hf
    have hperm := @Pintos.sortPass_perm _ less xs.length xs
    by_cases hmore : 1 < (Pintos.sortPass less xs.length xs).2
    · -- more than one run was output: the next pass starts from fewer runs
      have hcount := @sortPass_count _ less xs.length xs (Nat.le_refl _)
      have hruns₁ := @runCount_sortPass_le _ less _ xs.length xs (Nat.le_refl _)
      obtain ⟨h₂, ys, hrun, hsorts, hl₂, hw₂⟩ :=
        ih hl₁ (by omega) (by rw [hperm.length_eq]; exact hf)
      exact ⟨h₂, ys, by rw [hround, if_pos hmore, hrun], .more hmore hsorts, hl₂,
        hw₁.trans (hw₂.mono (cells_subset_of_perm hperm))⟩
    · exact ⟨h₁, _, by rw [hround, if_neg hmore], .last (by omega), hl₁, hw₁⟩

/-- `list_sort` with fuel for its list leaves the list that `Kernel.List`'s sort computes. -/
theorem listSort_spec {fuel : ℕ} {xs : List α} {h : Heap α} (hl : DList h l.head l.tail xs)
    (hf : xs.length < fuel) :
    ∃ h', ListHeap.listSort fuel h l less = some h' ∧
      DList h' l.head l.tail (Pintos.listSort less xs) ∧ Within (l.cells xs) h h' := by
  obtain ⟨m, rfl⟩ : ∃ m, fuel = m + 1 := ⟨fuel - 1, by omega⟩
  have hruns := @runCount_le_length _ less xs
  obtain ⟨h', ys, hrun, hsorts, hl', hw⟩ := sortLoop_spec less m hl (by omega) hf
  have hys : ys = Pintos.listSort less xs := hsorts.unique (sortsTo_sortLoop _ _ hruns)
  exact ⟨h', hrun, hys ▸ hl', hw⟩

end Loop

/-- `list_sort` of a list in the heap, for a strict weak order: the loop stops, the list stays a
list and only its cells are written; it holds its elements, none `less` than an element
before it, and elements equivalent under `less` in the order they had. -/
theorem list_sort_stable (less : α → α → Bool) [IsStrictWeakOrder α fun a b => less a b = true]
    {h : Heap α} {l : KList α} {xs : List α} (hl : DList h l.head l.tail xs) {fuel : ℕ}
    (hf : xs.length < fuel) :
    ∃ h', ListHeap.listSort fuel h l less = some h' ∧ SortsTo less xs (Pintos.listSort less xs) ∧
      DList h' l.head l.tail (Pintos.listSort less xs) ∧ Within (l.cells xs) h h' ∧
      (Pintos.listSort less xs).Perm xs ∧ LessSorted less (Pintos.listSort less xs) ∧
      ∀ a b, Incomp less a b = true → [a, b].Sublist xs → [a, b].Sublist (Pintos.listSort less xs) := by
  obtain ⟨h', hrun, hl', hw⟩ := listSort_spec less hl hf
  have hsorts := @sortsTo_sortLoop _ less _ xs.length xs (runCount_le_length xs)
  exact ⟨h', hrun, hsorts, hl', hw, hsorts.perm, hsorts.lessSorted,
    fun _ _ hab hs => hsorts.pair_sublist hab hs⟩

/-- A list of three cells between the header cells `0` and `1`. -/
def sortSample : Heap ℕ := fun q =>
  match q with
  | 0 => ⟨none, some 4⟩
  | 4 => ⟨some 0, some 2⟩
  | 2 => ⟨some 4, some 3⟩
  | 3 => ⟨some 2, some 1⟩
  | 1 => ⟨some 3, none⟩
  | _ => ⟨none, none⟩

theorem sortSample_dlist : DList sortSample (⟨0, 1⟩ : KList ℕ).head (⟨0, 1⟩ : KList ℕ).tail [4, 2, 3] where
  chain := .cons_cons ⟨rfl, rfl⟩ (.cons_cons ⟨rfl, rfl⟩ (.cons_cons ⟨rfl, rfl⟩
    (.cons_cons ⟨rfl, rfl⟩ (.singleton _))))
  head_prev := rfl
  tail_next := rfl
  nodup := by decide

theorem list_sort_stable_sample :
    DList sortSample (⟨0, 1⟩ : KList ℕ).head (⟨0, 1⟩ : KList ℕ).tail [4, 2, 3] ∧
      [4, 2, 3].length < 4 ∧
      ∃ h', ListHeap.listSort 4 sortSample ⟨0, 1⟩ (fun a b => decide (a < b)) = some h' ∧
        SortsTo (fun a b => decide (a < b)) [4, 2, 3] (Pintos.listSort (fun a b => decide (a < b)) [4, 2, 3]) ∧
        DList h' 0 1 (Pintos.listSort (fun a b => decide (a < b)) [4, 2, 3]) ∧
        Within ((⟨0, 1⟩ : KList ℕ).cells [4, 2, 3]) sortSample h' ∧
        (Pintos.listSort (fun a b => decide (a < b)) [4, 2, 3]).Perm [4, 2, 3] ∧
        LessSorted (fun a b => decide (a < b)) (Pintos.listSort (fun a b => decide (a < b)) [4, 2, 3]) ∧
        ∀ a b, Incomp (fun a b => decide (a < b)) a b = true → [a, b].Sublist [4, 2, 3] →
          [a, b].Sublist (Pintos.listSort (fun a b => decide (a < b)) [4, 2, 3]) :=
  ⟨sortSample_dlist, by decide,
    @list_sort_stable ℕ _ (fun a b => decide (a < b)) Hash.natLess_strictWeakOrder _ _ _ sortSample_dlist
      4 (by decide)⟩

end Pintos.ListHeap
