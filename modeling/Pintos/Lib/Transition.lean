import Mathlib.Logic.Basic

/-! # Guarded labelled transition systems

A system is an initial state, a guard saying which labels are enabled in a
state, and a deterministic effect for each label. Nondeterminism (which
thread runs, which call it makes, when an interrupt arrives) lives in the
choice of label. Reachable states are those some enabled schedule leads to;
invariants are proved once per step and then hold along every run, and a
schedule can be replayed to exhibit a reachable state.
-/

namespace Transition

/-- A guarded labelled transition system with a deterministic effect per label. -/
structure System (σ α : Type*) where
  init : σ
  Enabled : σ → α → Prop
  step : σ → α → σ

namespace System

variable {σ α : Type*} (S : System σ α)

/-- The states that some schedule of enabled labels leads to from the initial state. -/
inductive Reachable : σ → Prop
  | init : Reachable S.init
  | step {s : σ} (a : α) : Reachable s → S.Enabled s a → Reachable (S.step s a)

/-- A property that holds initially and that every enabled step keeps. -/
structure Invariant (P : σ → Prop) : Prop where
  init : P S.init
  step : ∀ s a, P s → S.Enabled s a → P (S.step s a)

/-- The same system started from `s`: its reachable states are those reachable from `s`. -/
def startingAt (s : σ) : System σ α := { S with init := s }

variable {S}

theorem Invariant.holds {P : σ → Prop} (h : S.Invariant P) {s : σ} (hs : S.Reachable s) :
    P s := by
  induction hs with
  | init => exact h.init
  | step a _ ha ih => exact h.step _ a ih ha

theorem Invariant.and {P Q : σ → Prop} (hP : S.Invariant P) (hQ : S.Invariant Q) :
    S.Invariant fun s => P s ∧ Q s :=
  ⟨⟨hP.init, hQ.init⟩, fun s a h ha => ⟨hP.step s a h.1 ha, hQ.step s a h.2 ha⟩⟩

/-- A property implied by an invariant holds in every reachable state. -/
theorem Invariant.mono {P Q : σ → Prop} (h : S.Invariant P) (hPQ : ∀ s, P s → Q s)
    {s : σ} (hs : S.Reachable s) : Q s :=
  hPQ s (h.holds hs)

section Ghost

variable {γ : Type*}

variable (S) in
/-- The system run alongside a ghost record that each step updates from the state it starts
in and its label; the ghost never affects the run. -/
def withGhost (g₀ : γ) (g : σ → α → γ → γ) : System (σ × γ) α where
  init := (S.init, g₀)
  Enabled p a := S.Enabled p.1 a
  step p a := (S.step p.1 a, g p.1 a p.2)

variable {g₀ : γ} {g : σ → α → γ → γ}

/-- Every reachable state is reached with some ghost record. -/
theorem Reachable.exists_ghost {s : σ} (h : S.Reachable s) :
    ∃ x, (S.withGhost g₀ g).Reachable (s, x) := by
  induction h with
  | init => exact ⟨g₀, .init⟩
  | step a _ ha ih =>
    obtain ⟨x, hx⟩ := ih
    exact ⟨_, hx.step (s := (_, x)) a ha⟩

end Ghost

section Simulation

variable {τ : Type*}

/-- `R` is a forward simulation of `C` by `A`, two systems with the same labels: the initial
states are related, and each enabled step of `C` from a related pair either keeps the relation
with `A` standing still, or is matched by the same label, enabled in `A`. -/
structure Simulation (C : System σ α) (A : System τ α) (R : σ → τ → Prop) : Prop where
  init : R C.init A.init
  step : ∀ s t a, R s t → C.Enabled s a →
    R (C.step s a) t ∨ A.Enabled t a ∧ R (C.step s a) (A.step t a)

variable {A : System τ α} {R : σ → τ → Prop}

/-- Every reachable state of the simulated system is related to a reachable state of the
simulating one. -/
theorem Simulation.reachable (h : Simulation S A R) {s : σ} (hs : S.Reachable s) :
    ∃ t, A.Reachable t ∧ R s t := by
  induction hs with
  | init => exact ⟨A.init, .init, h.init⟩
  | step a _ ha ih =>
    obtain ⟨t, ht, hst⟩ := ih
    rcases h.step _ t a hst ha with hstay | ⟨hen, hnext⟩
    · exact ⟨t, ht, hstay⟩
    · exact ⟨A.step t a, ht.step a hen, hnext⟩

end Simulation

variable (S) [∀ s a, Decidable (S.Enabled s a)]

/-- Replay a schedule, failing at the first label that is not enabled. -/
def replay : σ → List α → Option σ
  | s, [] => some s
  | s, a :: as => if S.Enabled s a then replay (S.step s a) as else none

variable {S}

@[simp] theorem replay_nil (s : σ) : S.replay s [] = some s := rfl

theorem replay_cons (s : σ) (a : α) (as : List α) :
    S.replay s (a :: as) = if S.Enabled s a then S.replay (S.step s a) as else none := rfl

/-- A replayed schedule from a reachable state ends in a reachable state. -/
theorem Reachable.replay {s t : σ} (hs : S.Reachable s) {as : List α}
    (h : S.replay s as = some t) : S.Reachable t := by
  induction as generalizing s with
  | nil =>
    cases h
    exact hs
  | cons a as ih =>
    rw [replay_cons] at h
    split at h
    · next ha => exact ih (hs.step a ha) h
    · cases h

theorem reachable_of_replay {t : σ} {as : List α} (h : S.replay S.init as = some t) :
    S.Reachable t :=
  Reachable.init.replay h

/-- A schedule whose replay ends in a state with a decidable property exhibits a reachable
state with that property. -/
theorem exists_reachable_of_replay {P : σ → Prop} [DecidablePred P] (as : List α)
    (h : (S.replay S.init as).any (fun t => decide (P t)) = true) :
    ∃ t, S.Reachable t ∧ P t := by
  cases hr : S.replay S.init as with
  | none => simp [hr] at h
  | some t => exact ⟨t, reachable_of_replay hr, by simpa [hr] using h⟩

end System

end Transition
