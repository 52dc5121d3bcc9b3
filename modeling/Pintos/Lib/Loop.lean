import Mathlib.Data.List.Range

/-! # Counted loops that may stop

`for (k = 0; k < n; k++) body;` with a body that may stop the program (a failed `ASSERT`) is
`(List.range n).foldlM body init` in `Option`. Such a loop is proved by an invariant of the
number of rounds done: it holds before the first round, and each round from a state where it
holds returns a state where it holds for one more round.
-/

namespace Loop

variable {β : Type*} {body : β → ℕ → Option β}

/-- The last round of a loop of `n + 1` rounds. -/
theorem foldlM_range_succ (n : ℕ) (init : β) :
    (List.range (n + 1)).foldlM body init = ((List.range n).foldlM body init).bind (body · n) := by
  simp only [List.range_succ, List.foldlM_append, List.foldlM_cons, List.foldlM_nil, bind_pure]
  rfl

/-- The invariant rule: the loop returns, in a state where the invariant holds for all its
rounds. -/
theorem foldlM_range_inv {P : ℕ → β → Prop} {n : ℕ} {init : β} (h0 : P 0 init)
    (hstep : ∀ k < n, ∀ acc, P k acc → ∃ acc', body acc k = some acc' ∧ P (k + 1) acc') :
    ∃ r, (List.range n).foldlM body init = some r ∧ P n r := by
  induction n with
  | zero => exact ⟨init, rfl, h0⟩
  | succ n ih =>
    obtain ⟨r, hr, hP⟩ := ih fun k hk => hstep k (Nat.lt_succ_of_lt hk)
    obtain ⟨r', hr', hP'⟩ := hstep n (Nat.lt_succ_self n) r hP
    refine ⟨r', ?_, hP'⟩
    rw [foldlM_range_succ, hr, Option.bind_some, hr']

end Loop
