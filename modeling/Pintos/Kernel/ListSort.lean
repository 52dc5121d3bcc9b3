import Pintos.Kernel.List

/-! # `list_sort` is a stable sort

The passes of `list_sort` on the sequence of a list (`Kernel.List`). A pass
finds the runs of the list, stretches in which no element is `less` than its
predecessor, and merges them two by two; `output_run_cnt` is the number of
merged runs, half the number of runs rounded up. The list a pass leaves has
at most that many runs, so the count falls at every pass that does not end
the loop, and the loop stops, with one run left, after at most as many passes
as the list has runs (`sortsTo_sortLoop`).

`SortsTo` is the `do ... while (output_run_cnt > 1)` loop with no bound on
its passes. For a strict weak order every pass keeps the elements, and the
merge takes an element of the second run before one of the first only when
it is `less`: elements equivalent under `less` keep their order.
-/

namespace Pintos

variable {α : Type*} (less : α → α → Bool)

/-- The number of runs: a new run starts at each element `less` than its predecessor. -/
def runCount : List α → ℕ
  | [] => 0
  | [_] => 1
  | a :: b :: l => runCount (b :: l) + if less b a then 1 else 0

/-- The `do ... while (output_run_cnt > 1)` loop of `list_sort` with no bound on its passes:
`SortsTo l l'` when the passes from `l` stop at `l'`. -/
inductive SortsTo : List α → List α → Prop
  | last {l : List α} :
    (sortPass less l.length l).2 ≤ 1 → SortsTo l (sortPass less l.length l).1
  | more {l l' : List α} :
    1 < (sortPass less l.length l).2 → SortsTo (sortPass less l.length l).1 l' → SortsTo l l'

/-- Neither element is `less` than the other. -/
def Incomp (a b : α) : Bool := !less a b && !less b a

variable {less}

section Runs

theorem findEndOfRun_fst (a : α) (l : List α) : ∃ t, (findEndOfRun less a l).1 = a :: t := by
  cases l with
  | nil => exact ⟨[], rfl⟩
  | cons b l =>
    rw [findEndOfRun]
    split <;> exact ⟨_, rfl⟩

/-- A run: no element is `less` than its predecessor. -/
theorem isChain_findEndOfRun (a : α) (l : List α) :
    (findEndOfRun less a l).1.IsChain fun x y => less y x = false := by
  induction l generalizing a with
  | nil => exact List.IsChain.singleton a
  | cons b l ih =>
    rw [findEndOfRun]
    split
    · exact List.IsChain.singleton a
    · next hba =>
      -- the run goes on from `b`
      obtain ⟨t, ht⟩ := @findEndOfRun_fst _ less b l
      have hrun := ih b
      dsimp only
      rw [ht] at hrun ⊢
      exact List.IsChain.cons_cons (by simpa using hba) hrun

/-- `find_end_of_run` takes one run off the list. -/
theorem runCount_findEndOfRun (a : α) (l : List α) :
    runCount less (a :: l) = 1 + runCount less (findEndOfRun less a l).2 := by
  induction l generalizing a with
  | nil => rfl
  | cons b l ih =>
    rw [findEndOfRun]
    split
    · next hba =>
      simp only [runCount, hba, if_true]
      omega
    · next hba =>
      simp only [runCount, hba, if_false, Bool.false_eq_true, Nat.add_zero]
      exact ih b

theorem runCount_le_one_of_isChain : ∀ {l : List α},
    l.IsChain (fun x y => less y x = false) → runCount less l ≤ 1
  | [], _ => Nat.zero_le 1
  | [_], _ => le_rfl
  | a :: b :: l, h => by
    obtain ⟨hab, hrest⟩ := List.isChain_cons_cons.mp h
    have ih := runCount_le_one_of_isChain hrest
    simp only [runCount, hab, Bool.false_eq_true, if_false, Nat.add_zero]
    exact ih

theorem isChain_of_runCount_le_one : ∀ {l : List α},
    runCount less l ≤ 1 → l.IsChain (fun x y => less y x = false)
  | [], _ => List.IsChain.nil
  | [a], _ => List.IsChain.singleton a
  | a :: b :: l, h => by
    have hpos : 1 ≤ runCount less (b :: l) := by
      rw [runCount_findEndOfRun]
      omega
    -- a descent at `a` would make a second run
    have hab : less b a = false := by
      by_contra hba
      simp only [runCount, Bool.not_eq_false] at h hba
      simp only [hba, if_true] at h
      omega
    have hrest : runCount less (b :: l) ≤ 1 := by
      simp only [runCount, hab, Bool.false_eq_true, if_false, Nat.add_zero] at h
      exact h
    exact List.IsChain.cons_cons hab (isChain_of_runCount_le_one hrest)

/-- Joining two lists adds at most one run boundary, already counted as the second's first
run. -/
theorem runCount_append_le : ∀ (xs ys : List α),
    runCount less (xs ++ ys) ≤ runCount less xs + runCount less ys
  | [], ys => by simp [runCount]
  | [a], [] => le_refl _
  | [a], b :: ys => by
    simp only [List.cons_append, List.nil_append, runCount]
    split_ifs <;> omega
  | a :: b :: xs, ys => by
    have ih := runCount_append_le (b :: xs) ys
    simp only [List.cons_append, runCount] at ih ⊢
    split_ifs <;> omega

theorem runCount_le_length : ∀ l : List α, runCount less l ≤ l.length
  | [] => le_refl 0
  | [_] => le_refl 1
  | a :: b :: l => by
    have ih := runCount_le_length (b :: l)
    simp only [runCount, List.length_cons] at ih ⊢
    split_ifs <;> omega

/-- Each merged run lies within the rest of the list: a pass with fuel for the list. -/
theorem length_sortPass_rest {a b : α} {l l' : List α}
    (h : (findEndOfRun less a l).2 = b :: l') :
    (findEndOfRun less b l').2.length < l.length := by
  have hr := congrArg List.length (@findEndOfRun_append _ less a l)
  have hr' := congrArg List.length (@findEndOfRun_append _ less b l')
  obtain ⟨t, ht⟩ := @findEndOfRun_fst _ less a l
  obtain ⟨t', ht'⟩ := @findEndOfRun_fst _ less b l'
  rw [h, ht, List.length_append] at hr
  rw [ht', List.length_append] at hr'
  simp only [List.length_cons] at hr hr'
  omega

/-- `output_run_cnt`: half the runs, rounded up. -/
theorem sortPass_count : ∀ (n : ℕ) (l : List α), l.length ≤ n →
    (sortPass less n l).2 = (runCount less l + 1) / 2
  | 0, [], _ => by simp [sortPass, runCount]
  | 0, _ :: _, hn => absurd hn (by simp)
  | n + 1, [], _ => by simp [sortPass, runCount]
  | n + 1, a :: l, hn => by
    rw [sortPass]
    split
    · next h =>
      simp [runCount_findEndOfRun, h, runCount]
    · next b l' h =>
      have ih := sortPass_count n (findEndOfRun less b l').2
        (by have := length_sortPass_rest h; simp only [List.length_cons] at hn; omega)
      dsimp only
      rw [ih, runCount_findEndOfRun, h, runCount_findEndOfRun]
      omega

theorem sortPass_nil (n : ℕ) : sortPass less n [] = ([], 0) := by
  cases n <;> rfl

/-- One step of the merge: the head of the second run goes first only when it is `less`. -/
theorem inplaceMerge_cons_cons (a b : α) (as bs : List α) :
    inplaceMerge less (a :: as) (b :: bs) =
      if less b a then b :: inplaceMerge less (a :: as) bs
      else a :: inplaceMerge less as (b :: bs) := rfl

theorem inplaceMerge_nil_right : ∀ as : List α, inplaceMerge less as [] = as
  | [] => rfl
  | _ :: _ => rfl

/-- A pass with fuel for its list does not depend on how much. -/
theorem sortPass_fuel : ∀ (n m : ℕ) (l : List α), l.length ≤ n → l.length ≤ m →
    sortPass less n l = sortPass less m l
  | 0, m, [], _, _ => by rw [sortPass_nil, sortPass_nil]
  | 0, _, _ :: _, hn, _ => absurd hn (by simp)
  | n + 1, 0, [], _, _ => by rw [sortPass_nil, sortPass_nil]
  | n + 1, 0, _ :: _, _, hm => absurd hm (by simp)
  | n + 1, m + 1, [], _, _ => rfl
  | n + 1, m + 1, a :: l, hn, hm => by
    simp only [sortPass]
    split
    · rfl
    · next b l' h =>
      have hlt := length_sortPass_rest h
      simp only [List.length_cons] at hn hm
      rw [sortPass_fuel n m _ (by omega) (by omega)]

end Runs

section Order

variable [IsStrictWeakOrder α fun a b => less a b = true]

/-- Not being `less` is transitive: the order of a strict weak order's equivalence classes. -/
theorem notLess_trans {a b c : α} (hab : less b a = false) (hbc : less c b = false) :
    less c a = false := by
  by_contra hca
  rcases less_or_less (b := b) (Bool.not_eq_false _ ▸ hca) with hcb | hba
  · simp [hcb] at hbc
  · simp [hba] at hab

theorem LessSorted.of_isChain {l : List α} (h : l.IsChain fun x y => less y x = false) :
    LessSorted less l :=
  @List.IsChain.pairwise _ _ _ ⟨fun hab hbc => notLess_trans hab hbc⟩ h

/-- The merge of two sorted runs is sorted. -/
theorem LessSorted.inplaceMerge : ∀ {as bs : List α}, LessSorted less as → LessSorted less bs →
    LessSorted less (Pintos.inplaceMerge less as bs)
  | [], _, _, hbs => hbs
  | a :: as, bs, has, hbs => by
    obtain ⟨ha, has'⟩ := List.pairwise_cons.mp has
    induction bs with
    | nil => simpa [Pintos.inplaceMerge, mergeCons] using has
    | cons b bs ihb =>
      obtain ⟨hb, hbs'⟩ := List.pairwise_cons.mp hbs
      simp only [Pintos.inplaceMerge, mergeCons] at ihb ⊢
      split
      · -- `b` goes first: every element after it is not `less` than it
        next hba =>
        refine List.pairwise_cons.mpr ⟨fun y hy => ?_, ihb hbs'⟩
        rcases List.mem_cons.mp ((inplaceMerge_perm (a :: as) bs).subset hy) with rfl | hy
        · exact Bool.eq_false_iff.mpr fun hyb =>
            irrefl_of (fun a b => less a b = true) y (trans_of (fun a b => less a b = true) hyb hba)
        rcases List.mem_append.mp hy with hy | hy
        · exact Bool.eq_false_iff.mpr fun hyb => by
            simpa [ha y hy] using trans_of (fun a b => less a b = true) hyb hba
        · exact hb y hy
      · -- `a` goes first: the rest of its run and all of `b :: bs` follow it
        next hba =>
        have hba' : less b a = false := by simpa using hba
        refine List.pairwise_cons.mpr ⟨fun y hy => ?_, LessSorted.inplaceMerge has' hbs⟩
        rcases List.mem_append.mp ((inplaceMerge_perm as (b :: bs)).subset hy) with hy | hy
        · exact ha y hy
        · rcases List.mem_cons.mp hy with rfl | hy
          · exact hba'
          · exact notLess_trans hba' (hb y hy)

/-- An element below `b` is not equivalent to what `b` is equivalent to. -/
theorem incomp_eq_false_of_less {x b y : α} (hby : less b y = true) (hxb : Incomp less x b = true) :
    Incomp less x y = false := by
  by_contra hxy
  simp only [Incomp, Bool.not_eq_false, Bool.and_eq_true, Bool.not_eq_true'] at hxb hxy
  have hby' := (@IsStrictWeakOrder.incomp_trans α (fun a b => less a b = true) _ b x y
    ⟨by simp [hxb.2], by simp [hxb.1]⟩ ⟨by simp [hxy.1], by simp [hxy.2]⟩).1
  exact hby' hby

/-- The merge keeps equivalent elements in order: those of the first run come first. -/
theorem filter_inplaceMerge (x : α) : ∀ {as : List α} (bs : List α), LessSorted less as →
    (Pintos.inplaceMerge less as bs).filter (Incomp less x) =
      as.filter (Incomp less x) ++ bs.filter (Incomp less x)
  | [], bs, _ => by simp [Pintos.inplaceMerge]
  | a :: as, bs, has => by
    obtain ⟨ha, has'⟩ := List.pairwise_cons.mp has
    induction bs with
    | nil => simp [Pintos.inplaceMerge, mergeCons]
    | cons b bs ihb =>
      simp only [Pintos.inplaceMerge, mergeCons] at ihb ⊢
      split
      · next hba =>
        by_cases hxb : Incomp less x b = true
        · -- `b` is below `a` and the rest of its run, so none of them is equivalent to `x`
          have hbelow : ∀ y ∈ a :: as, less b y = true := by
            intro y hy
            rcases less_or_less (b := y) hba with hby | hya
            · exact hby
            · rcases List.mem_cons.mp hy with rfl | hy
              · exact absurd hya (irrefl_of (fun a b => less a b = true) y)
              · simp [ha y hy] at hya
          have hnone : (a :: as).filter (Incomp less x) = [] :=
            List.filter_eq_nil_iff.mpr fun y hy => by
              simp [incomp_eq_false_of_less (hbelow y hy) hxb]
          rw [List.filter_cons_of_pos hxb, ihb, hnone, List.filter_cons_of_pos hxb]
          rfl
        · rw [List.filter_cons_of_neg hxb, ihb, List.filter_cons_of_neg hxb]
      · by_cases hxa : Incomp less x a = true
        · rw [List.filter_cons_of_pos hxa, filter_inplaceMerge x (b :: bs) has',
            List.filter_cons_of_pos hxa]
          rfl
        · rw [List.filter_cons_of_neg hxa, filter_inplaceMerge x (b :: bs) has',
            List.filter_cons_of_neg hxa]

end Order

section Passes

variable [IsStrictWeakOrder α fun a b => less a b = true]

/-- A pass keeps the elements equivalent to `x` in their order. -/
theorem sortPass_filter (x : α) (n : ℕ) (l : List α) :
    (sortPass less n l).1.filter (Incomp less x) = l.filter (Incomp less x) := by
  induction n generalizing l with
  | zero => rfl
  | succ n ih =>
    cases l with
    | nil => rfl
    | cons a l =>
      have hr := @findEndOfRun_append _ less a l
      rw [sortPass]
      split
      · next h =>
        rw [h, List.append_nil] at hr
        rw [hr]
      · next b l' h =>
        -- the two runs merged, then the rest of the pass
        have hr' := @findEndOfRun_append _ less b l'
        rw [h] at hr
        rw [List.filter_append, filter_inplaceMerge x _ (LessSorted.of_isChain
          (isChain_findEndOfRun a l)), ih, ← List.filter_append, ← List.filter_append,
          List.append_assoc, hr', hr]

/-- The list a pass leaves has no more runs than the pass counted. -/
theorem runCount_sortPass_le : ∀ (n : ℕ) (l : List α), l.length ≤ n →
    runCount less (sortPass less n l).1 ≤ (sortPass less n l).2
  | 0, [], _ => by simp [sortPass, runCount]
  | 0, _ :: _, hn => absurd hn (by simp)
  | n + 1, [], _ => by simp [sortPass, runCount]
  | n + 1, a :: l, hn => by
    rw [sortPass]
    split
    · exact runCount_le_one_of_isChain (isChain_findEndOfRun a l)
    · next b l' h =>
      have ih := runCount_sortPass_le n (findEndOfRun less b l').2
        (by have := length_sortPass_rest h; simp only [List.length_cons] at hn; omega)
      -- the merged pair is one run
      have hmerge : runCount less (inplaceMerge less (findEndOfRun less a l).1
          (findEndOfRun less b l').1) ≤ 1 :=
        runCount_le_one_of_isChain (LessSorted.inplaceMerge
          (LessSorted.of_isChain (isChain_findEndOfRun a l))
          (LessSorted.of_isChain (isChain_findEndOfRun b l'))).isChain
      have happ := @runCount_append_le _ less (inplaceMerge less (findEndOfRun less a l).1
        (findEndOfRun less b l').1) (sortPass less n (findEndOfRun less b l').2).1
      dsimp only
      omega

end Passes

section Loop

variable [IsStrictWeakOrder α fun a b => less a b = true]

/-- The bounded loop of the model is the code's unbounded one: with fuel for the runs of the
list, the passes stop before the fuel runs out. -/
theorem sortsTo_sortLoop : ∀ (fuel : ℕ) (l : List α), runCount less l ≤ fuel →
    SortsTo less l (sortLoop less fuel l)
  | 0, [], _ => @SortsTo.last _ less [] (by simp [sortPass])
  | 0, a :: l, h => by
    rw [runCount_findEndOfRun] at h
    omega
  | fuel + 1, l, h => by
    have hcount := @sortPass_count _ less l.length l le_rfl
    have hruns := @runCount_sortPass_le _ less _ l.length l le_rfl
    rw [sortLoop]
    split
    · next hmore =>
      -- more than one run was output: the next pass starts from fewer runs
      refine SortsTo.more hmore (sortsTo_sortLoop fuel _ ?_)
      omega
    · next hlast => exact SortsTo.last (by omega)

/-- The loop ends with one run. -/
theorem SortsTo.lessSorted {l l' : List α} (h : SortsTo less l l') : LessSorted less l' := by
  induction h with
  | last hlast =>
    exact LessSorted.of_isChain (isChain_of_runCount_le_one
      ((runCount_sortPass_le _ _ le_rfl).trans hlast))
  | more _ _ ih => exact ih

theorem SortsTo.filter {l l' : List α} (x : α) (h : SortsTo less l l') :
    l'.filter (Incomp less x) = l.filter (Incomp less x) := by
  induction h with
  | last _ => exact sortPass_filter x _ _
  | more _ _ ih => rw [ih, sortPass_filter]

/-- Two equivalent elements stay in their order. -/
theorem SortsTo.pair_sublist {l l' : List α} (h : SortsTo less l l') {a b : α}
    (hab : Incomp less a b = true) (hs : [a, b].Sublist l) : [a, b].Sublist l' := by
  have haa : Incomp less a a = true := by
    have hirr : less a a = false := by simpa using irrefl_of (fun a b => less a b = true) a
    simp [Incomp, hirr]
  have hfilter : [a, b].Sublist (l.filter (Incomp less a)) := by
    simpa [List.filter_cons, haa, hab] using hs.filter (Incomp less a)
  rw [← h.filter a] at hfilter
  exact hfilter.trans List.filter_sublist

/-- `list_sort` leaves a `less`-sorted list. -/
theorem lessSorted_listSort (l : List α) : LessSorted less (listSort less l) :=
  (sortsTo_sortLoop l.length l (runCount_le_length l)).lessSorted

end Loop

theorem SortsTo.perm {l l' : List α} (h : SortsTo less l l') : l'.Perm l := by
  induction h with
  | last _ => exact sortPass_perm _ _
  | more _ _ ih => exact ih.trans (sortPass_perm _ _)

/-- The loop is deterministic: it stops at one list. -/
theorem SortsTo.unique {l l₁ l₂ : List α} (h₁ : SortsTo less l l₁) (h₂ : SortsTo less l l₂) :
    l₁ = l₂ := by
  induction h₁ with
  | last hlast =>
    cases h₂ with
    | last _ => rfl
    | more hmore _ => omega
  | more hmore _ ih =>
    cases h₂ with
    | last hlast => omega
    | more _ h₂ => exact ih h₂

section Fallible

/-! A comparator that reads the elements' own data can fail an `ASSERT`. Then `list_sort` is
the same computation in `Except`, stopped by the first comparison that fails. The elements and
the error live in `Type`, with the comparator's `Bool`, so that one `do` block binds them all. -/

variable {α ε : Type} (lessE : α → α → Except ε Bool)

/-- `list_front`, which asserts that the list is not empty. -/
def listFront : List α → Except Unit α
  | [] => .error ()
  | a :: _ => .ok a

def findEndOfRunE (a : α) : List α → Except ε (List α × List α)
  | [] => pure ([a], [])
  | b :: l => do
    let c ← lessE b a
    if c then pure ([a], b :: l)
    else
      let r ← findEndOfRunE b l
      pure (a :: r.1, r.2)

def mergeConsE (a : α) (as : List α) (rest : List α → Except ε (List α)) :
    List α → Except ε (List α)
  | [] => pure (a :: as)
  | b :: bs => do
    let c ← lessE b a
    if c then
      let m ← mergeConsE a as rest bs
      pure (b :: m)
    else
      let m ← rest (b :: bs)
      pure (a :: m)

def inplaceMergeE : List α → List α → Except ε (List α)
  | [], bs => pure bs
  | a :: as, bs => mergeConsE lessE a as (inplaceMergeE as) bs

def sortPassE : ℕ → List α → Except ε (List α × ℕ)
  | 0, l => pure (l, 0)
  | _, [] => pure ([], 0)
  | n + 1, a :: l => do
    let r ← findEndOfRunE lessE a l
    match r.2 with
    | [] => pure (r.1, 1)
    | b :: l' =>
      let r' ← findEndOfRunE lessE b l'
      let m ← inplaceMergeE lessE r.1 r'.1
      let p ← sortPassE n r'.2
      pure (m ++ p.1, p.2 + 1)

def sortLoopE : ℕ → List α → Except ε (List α)
  | 0, l => pure l
  | n + 1, l => do
    let p ← sortPassE lessE l.length l
    if 1 < p.2 then sortLoopE n p.1 else pure p.1

/-- `list_sort` with a comparator that can fail. -/
def listSortE (l : List α) : Except ε (List α) := sortLoopE lessE l.length l

variable {lessE}

/-- The first comparison of a list of two or more is of its second element with its first. -/
theorem listSortE_of_error {a b : α} {l : List α} {e : ε} (h : lessE b a = .error e) :
    listSortE lessE (a :: b :: l) = .error e := by
  simp only [listSortE, List.length_cons, sortLoopE, sortPassE, findEndOfRunE, h]
  rfl

section Perm

theorem exceptBind_eq_ok {β γ : Type} {x : Except ε β} {f : β → Except ε γ} {r : γ} :
    x >>= f = .ok r ↔ ∃ b, x = .ok b ∧ f b = .ok r := by
  cases x <;> simp [bind, Except.bind]

theorem exceptPure_eq_ok {β : Type} {b r : β} : (pure b : Except ε β) = .ok r ↔ b = r := by
  simp [pure, Except.pure]

/-! Whatever the comparator answers, a sort that ends returns the list reordered. -/

theorem findEndOfRunE_append : ∀ {a : α} {l : List α} {r : List α × List α},
    findEndOfRunE lessE a l = .ok r → r.1 ++ r.2 = a :: l
  | _, [], _, h => by
    rw [findEndOfRunE, exceptPure_eq_ok] at h
    rw [← h]
    rfl
  | a, b :: l, r, h => by
    rw [findEndOfRunE, exceptBind_eq_ok] at h
    obtain ⟨c, -, hc⟩ := h
    cases c with
    | true =>
      rw [if_pos rfl, exceptPure_eq_ok] at hc
      rw [← hc]
      rfl
    | false =>
      rw [if_neg Bool.false_ne_true, exceptBind_eq_ok] at hc
      obtain ⟨r', hr', hr⟩ := hc
      rw [exceptPure_eq_ok] at hr
      rw [← hr, List.cons_append, findEndOfRunE_append hr']

theorem mergeConsE_perm {a : α} {as : List α} {rest : List α → Except ε (List α)}
    (hrest : ∀ bs m, rest bs = .ok m → m.Perm (as ++ bs)) :
    ∀ bs m, mergeConsE lessE a as rest bs = .ok m → m.Perm (a :: as ++ bs)
  | [], m, h => by
    rw [mergeConsE, exceptPure_eq_ok] at h
    rw [← h, List.append_nil]
  | b :: bs, m, h => by
    rw [mergeConsE, exceptBind_eq_ok] at h
    obtain ⟨c, -, hc⟩ := h
    cases c with
    -- `b` goes first, and the merge goes on with the rest of the second run
    | true =>
      rw [if_pos rfl, exceptBind_eq_ok] at hc
      obtain ⟨m', hm', hm⟩ := hc
      rw [exceptPure_eq_ok] at hm
      exact hm ▸ ((mergeConsE_perm hrest bs m' hm').cons b).trans List.perm_middle.symm
    | false =>
      rw [if_neg Bool.false_ne_true, exceptBind_eq_ok] at hc
      obtain ⟨m', hm', hm⟩ := hc
      rw [exceptPure_eq_ok] at hm
      exact hm ▸ (hrest (b :: bs) m' hm').cons a

theorem inplaceMergeE_perm : ∀ (as bs : List α) (m : List α),
    inplaceMergeE lessE as bs = .ok m → m.Perm (as ++ bs)
  | [], _, m, h => by
    rw [inplaceMergeE, exceptPure_eq_ok] at h
    rw [← h]
    rfl
  | a :: as, bs, m, h => mergeConsE_perm (inplaceMergeE_perm as) bs m h

theorem sortPassE_perm : ∀ (n : ℕ) (l : List α) (p : List α × ℕ),
    sortPassE lessE n l = .ok p → p.1.Perm l
  | 0, _, p, h => by
    rw [sortPassE, exceptPure_eq_ok] at h
    rw [← h]
  | _ + 1, [], p, h => by
    rw [show sortPassE lessE _ [] = pure ([], 0) from rfl, exceptPure_eq_ok] at h
    rw [← h]
  | n + 1, a :: l, p, h => by
    rw [sortPassE, exceptBind_eq_ok] at h
    obtain ⟨r, hr, h⟩ := h
    have hrun := findEndOfRunE_append hr
    rcases hsplit : r.2 with _ | ⟨b, l'⟩
    · rw [hsplit, exceptPure_eq_ok] at h
      rw [hsplit, List.append_nil] at hrun
      rw [← h, hrun]
    -- the two runs merged, then the rest of the pass
    · rw [hsplit] at h hrun
      simp only [exceptBind_eq_ok, exceptPure_eq_ok] at h
      obtain ⟨r', hr', m, hm, p', hp', rfl⟩ := h
      have hrun' := findEndOfRunE_append hr'
      have hperm := (inplaceMergeE_perm _ _ m hm).append (sortPassE_perm n _ p' hp')
      rwa [List.append_assoc, hrun', hrun] at hperm

theorem sortLoopE_perm : ∀ (n : ℕ) (l m : List α), sortLoopE lessE n l = .ok m → m.Perm l
  | 0, _, m, h => by
    rw [sortLoopE, exceptPure_eq_ok] at h
    rw [← h]
  | n + 1, l, m, h => by
    rw [sortLoopE, exceptBind_eq_ok] at h
    obtain ⟨p, hp, h⟩ := h
    have hpass := sortPassE_perm _ l p hp
    split at h
    · exact (sortLoopE_perm n p.1 m h).trans hpass
    · rw [exceptPure_eq_ok] at h
      exact h ▸ hpass

theorem listSortE_perm {l m : List α} (h : listSortE lessE l = .ok m) : m.Perm l :=
  sortLoopE_perm l.length l m h

end Perm

section Refines

variable {less : α → α → Bool} {P : α → Prop} (hless : ∀ a b, P a → P b → lessE a b = .ok (less a b))
include hless

/-- Where the comparator does not fail, the sort is the sort of `Kernel.List`. -/
theorem findEndOfRunE_eq : ∀ (a : α) (l : List α), P a → (∀ x ∈ l, P x) →
    findEndOfRunE lessE a l = .ok (findEndOfRun less a l)
  | _, [], _, _ => rfl
  | a, b :: l, ha, hl => by
    have hb : P b := hl b (List.mem_cons_self ..)
    have ih := findEndOfRunE_eq b l hb fun x hx => hl x (List.mem_cons_of_mem b hx)
    simp only [findEndOfRunE, findEndOfRun, hless b a hb ha]
    cases less b a with
    | true => rfl
    | false =>
      rw [ih]
      rfl

theorem mergeConsE_eq {a : α} {as : List α} {rest : List α → Except ε (List α)}
    {restP : List α → List α} (ha : P a)
    (hrest : ∀ bs, (∀ x ∈ bs, P x) → rest bs = .ok (restP bs)) :
    ∀ bs, (∀ x ∈ bs, P x) → mergeConsE lessE a as rest bs = .ok (mergeCons less a as restP bs)
  | [], _ => rfl
  | b :: bs, hbs => by
    have hb : P b := hbs b (List.mem_cons_self ..)
    have ih : mergeConsE lessE a as rest bs = .ok (mergeCons less a as restP bs) :=
      mergeConsE_eq ha hrest bs fun x hx => hbs x (List.mem_cons_of_mem b hx)
    simp only [mergeConsE, mergeCons, hless b a hb ha]
    cases less b a with
    | true =>
      rw [ih]
      rfl
    | false =>
      rw [hrest (b :: bs) hbs]
      rfl

theorem inplaceMergeE_eq : ∀ (as bs : List α), (∀ x ∈ as, P x) → (∀ x ∈ bs, P x) →
    inplaceMergeE lessE as bs = .ok (inplaceMerge less as bs)
  | [], _, _, _ => rfl
  | a :: as, bs, has, hbs =>
    mergeConsE_eq hless (has a (List.mem_cons_self ..))
      (fun bs' hbs' => inplaceMergeE_eq as bs' (fun x hx => has x (List.mem_cons_of_mem a hx)) hbs')
      bs hbs

theorem sortPassE_eq : ∀ (n : ℕ) (l : List α), (∀ x ∈ l, P x) →
    sortPassE lessE n l = .ok (sortPass less n l)
  | 0, _, _ => rfl
  | _ + 1, [], _ => rfl
  | n + 1, a :: l, hl => by
    have hr := @findEndOfRun_append _ less a l
    rw [sortPassE, findEndOfRunE_eq hless a l (hl a (List.mem_cons_self ..))
      fun x hx => hl x (List.mem_cons_of_mem a hx), sortPass]
    simp only [bind, Except.bind]
    rcases hsplit : (findEndOfRun less a l).2 with _ | ⟨b, l'⟩
    · rfl
    -- the two runs and the rest of the pass are elements of the list
    · have hrun : ∀ x ∈ (findEndOfRun less a l).1 ++ b :: l', P x := by
        rw [← hsplit, hr]
        exact hl
      have hr' := @findEndOfRun_append _ less b l'
      have hsnd : ∀ x ∈ b :: l', P x := fun x hx => hrun x (List.mem_append_right _ hx)
      have hrun' : ∀ x ∈ (findEndOfRun less b l').1 ++ (findEndOfRun less b l').2, P x := by
        rw [hr']
        exact hsnd
      simp only
      rw [findEndOfRunE_eq hless b l' (hsnd b (List.mem_cons_self ..))
        fun x hx => hsnd x (List.mem_cons_of_mem b hx)]
      simp only
      rw [inplaceMergeE_eq hless _ _ (fun x hx => hrun x (List.mem_append_left _ hx))
          (fun x hx => hrun' x (List.mem_append_left _ hx)),
        sortPassE_eq n _ fun x hx => hrun' x (List.mem_append_right _ hx)]
      rfl

theorem sortLoopE_eq : ∀ (n : ℕ) (l : List α), (∀ x ∈ l, P x) →
    sortLoopE lessE n l = .ok (sortLoop less n l)
  | 0, _, _ => rfl
  | n + 1, l, hl => by
    have hpass : ∀ x ∈ (sortPass less l.length l).1, P x :=
      fun x hx => hl x ((sortPass_perm _ _).subset hx)
    rw [sortLoopE, sortPassE_eq hless _ l hl, sortLoop]
    simp only [bind, Except.bind]
    split
    · exact sortLoopE_eq n _ hpass
    · rfl

theorem listSortE_eq (l : List α) (hl : ∀ x ∈ l, P x) :
    listSortE lessE l = .ok (listSort less l) :=
  sortLoopE_eq hless l.length l hl

end Refines

end Fallible

end Pintos
