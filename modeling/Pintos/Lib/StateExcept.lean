import Mathlib.Logic.Basic
import Mathlib.Order.Defs.Unbundled

/-! # Running state-and-exception programs step by step

A sequential program that may stop early is a function from a state to an
error or a result and a new state: `StateT σ (Except ε)`. Symbolic execution
of such a program goes one bind at a time: once the first part is known to
return (or to stop), the bind reduces to the rest (or stops the same way).

A frame condition over such programs is a reflexive and transitive relation
between the state a run starts in and the state it returns in; it holds of a
bind when it holds of both parts, so it is proved once per primitive.
-/

namespace StateExcept

variable {σ ε α β : Type _} {x : StateT σ (Except ε) α} {f : α → StateT σ (Except ε) β}
  {s s₁ : σ} {a : α}

theorem bind_of_ok (h : x s = .ok (a, s₁)) : (x >>= f) s = f a s₁ := by
  change (x s >>= fun p => f p.1 p.2) = _
  rw [h]
  rfl

theorem bind_of_error {e : ε} (h : x s = .error e) : (x >>= f) s = .error e := by
  change (x s >>= fun p => f p.1 p.2) = _
  rw [h]
  rfl

/-- A bind returns exactly when its first part returns and the rest returns from there. -/
theorem bind_eq_ok {r : β × σ} :
    (x >>= f) s = .ok r ↔ ∃ a s₁, x s = .ok (a, s₁) ∧ f a s₁ = .ok r := by
  constructor
  · intro h
    cases hx : x s with
    | error e => rw [bind_of_error hx] at h; cases h
    | ok p =>
      obtain ⟨a, s₁⟩ := p
      exact ⟨a, s₁, rfl, by rw [bind_of_ok hx] at h; exact h⟩
  · rintro ⟨a, s₁, hx, hf⟩
    rw [bind_of_ok hx, hf]

/-- A mapped computation returns exactly when the computation does. -/
theorem map_eq_ok {g : α → β} {y : Except ε α} {b : β} :
    y.map g = .ok b ↔ ∃ a, y = .ok a ∧ g a = b := by
  cases y with
  | error e => simp [Except.map]
  | ok a => simp [Except.map]

@[simp] theorem pure_apply (s : σ) (a : α) :
    (pure a : StateT σ (Except ε) α) s = .ok (a, s) := rfl

@[simp] theorem get_apply (s : σ) : (get : StateT σ (Except ε) σ) s = .ok (s, s) := rfl

@[simp] theorem set_apply (s s' : σ) :
    (set s' : StateT σ (Except ε) PUnit) s = .ok (⟨⟩, s') := rfl

@[simp] theorem throw_apply (s : σ) (e : ε) :
    (throw e : StateT σ (Except ε) α) s = .error e := rfl

@[simp] theorem throw_bind_apply (s : σ) (e : ε) :
    (throw e >>= f) s = .error e := rfl

section Preserves

/-- Every run of `x` that returns relates the state it starts in to the one it ends in by
`R`. -/
def Preserves (R : σ → σ → Prop) (x : StateT σ (Except ε) α) : Prop :=
  ∀ s a s', x s = .ok (a, s') → R s s'

variable {R : σ → σ → Prop}

theorem Preserves.bind [IsTrans σ R] (hx : Preserves R x) (hf : ∀ a, Preserves R (f a)) :
    Preserves R (x >>= f) := by
  intro s b s₂ h
  obtain ⟨a, s₁, h₁, h₂⟩ := bind_eq_ok.1 h
  exact trans_of R (hx s a s₁ h₁) (hf a s₁ b s₂ h₂)

/-- Every value `x` returns satisfies `Q`. -/
def Returns (Q : α → Prop) (x : StateT σ (Except ε) α) : Prop :=
  ∀ s a s', x s = .ok (a, s') → Q a

/-- A bind whose rest keeps the frame only after the values the first part returns. -/
theorem Preserves.bind_returns [IsTrans σ R] {Q : α → Prop} (hx : Preserves R x)
    (hq : Returns Q x) (hf : ∀ a, Q a → Preserves R (f a)) : Preserves R (x >>= f) := by
  intro s b s₂ h
  obtain ⟨a, s₁, h₁, h₂⟩ := bind_eq_ok.1 h
  exact trans_of R (hx s a s₁ h₁) (hf a (hq s a s₁ h₁) s₁ b s₂ h₂)

theorem preserves_pure [Std.Refl R] (a : α) : Preserves R (pure a : StateT σ (Except ε) α) := by
  intro s b s' h
  cases h
  exact refl_of R s

theorem preserves_get [Std.Refl R] : Preserves R (get : StateT σ (Except ε) σ) := by
  intro s b s' h
  cases h
  exact refl_of R s

theorem preserves_throw (e : ε) : Preserves R (throw e : StateT σ (Except ε) α) := by
  intro s b s' h
  cases h

theorem preserves_modify {g : σ → σ} (h : ∀ s, R s (g s)) :
    Preserves R (modify g : StateT σ (Except ε) PUnit) := by
  intro s b s' hs
  cases hs
  exact h s

/-- A program that reads the state first only needs its frame from the state it read. -/
theorem preserves_get_bind {f : σ → StateT σ (Except ε) α}
    (h : ∀ s a s', f s s = .ok (a, s') → R s s') : Preserves R (get >>= f) := by
  intro s a s' hs
  rw [bind_of_ok (get_apply s)] at hs
  exact h s a s' hs

theorem Preserves.ite {c : Prop} [Decidable c] {y : StateT σ (Except ε) α} (hx : Preserves R x)
    (hy : Preserves R y) : Preserves R (if c then x else y) := by
  split
  · exact hx
  · exact hy

/-- A branch whose arms keep the frame given the outcome of the test. -/
theorem Preserves.ite_of {c : Prop} [Decidable c] {y : StateT σ (Except ε) α}
    (hx : c → Preserves R x) (hy : ¬c → Preserves R y) : Preserves R (if c then x else y) := by
  split
  · next hc => exact hx hc
  · next hc => exact hy hc

/-- A check that stops the run by throwing when it fails: only the rest counts. -/
theorem Preserves.guard {c : Prop} [Decidable c] {e : ε} {k : PUnit → StateT σ (Except ε) α}
    (hk : Preserves R (k ⟨⟩)) : Preserves R (if c then throw e >>= k else k ⟨⟩) := by
  split
  · intro s a s' h
    rw [bind_of_error (throw_apply s e)] at h
    cases h
  · exact hk

theorem Preserves.mono {R' : σ → σ → Prop} (hx : Preserves R x) (h : ∀ s s', R s s' → R' s s') :
    Preserves R' x :=
  fun s a s' hs => h s s' (hx s a s' hs)

end Preserves

end StateExcept
