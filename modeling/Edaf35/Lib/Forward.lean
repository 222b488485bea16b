import Mathlib.Init

/-!
# Forward simulation up to a failure

A machine takes steps (`step`) that can fail.  In a simulation up to failures of a certain kind, each step of the
abstract machine (`spec`) is one of the concrete machine, unless that one fails in this way.  So a run of the abstract
machine is one of the concrete machine up to the first such failure.
-/

namespace Edaf35

variable {σ τ ε δ : Type*}

/-- `n` steps, or the first failure. -/
def runFor (step : σ → Except ε σ) : Nat → σ → Except ε σ
  | 0, s => .ok s
  | n + 1, s =>
    match step s with
    | .error e => .error e
    | .ok s' => runFor step n s'

variable {step : σ → Except ε σ} {spec : τ → Except δ τ} {R : σ → τ → Prop} {fails : ε → Prop} {s s' : σ} {t t' : τ}
  {n : Nat}

theorem runFor_succ (h : step s = .ok s') (n : Nat) : runFor step (n + 1) s = runFor step n s' := by
  rw [runFor, h]

theorem runFor_add {m : Nat} (h : runFor step m s = .ok s') (n : Nat) :
    runFor step (m + n) s = runFor step n s' := by
  induction m generalizing s with
  | zero =>
    cases h
    rw [Nat.zero_add]
  | succ m ih =>
    rw [runFor] at h
    rw [Nat.succ_add, runFor]
    cases hs : step s with
    | error e =>
      rw [hs] at h
      cases h
    | ok s₁ =>
      rw [hs] at h
      exact ih h

/-- A run through a step that fails. -/
theorem runFor_error {m : Nat} {e : ε} (h : runFor step m s = .ok s') (he : step s' = .error e) (hm : m < n) :
    runFor step n s = .error e := by
  obtain ⟨k, rfl⟩ : ∃ k, n = m + (k + 1) := ⟨n - m - 1, by omega⟩
  rw [runFor_add h, runFor, he]

/-- Each step of `spec` is a step of `step`, unless that one fails in the way `fails`. -/
def SimUpTo (step : σ → Except ε σ) (spec : τ → Except δ τ) (R : σ → τ → Prop) (fails : ε → Prop) : Prop :=
  ∀ s t t', R s t → spec t = .ok t' → (∃ s', step s = .ok s' ∧ R s' t') ∨ ∃ e, step s = .error e ∧ fails e

/-- A run of `spec` is one of `step`, up to the first failure. -/
theorem SimUpTo.run (h : SimUpTo step spec R fails) (hr : R s t) (hspec : runFor spec n t = .ok t') :
    (∃ s', runFor step n s = .ok s' ∧ R s' t') ∨
      ∃ m s' e, m < n ∧ runFor step m s = .ok s' ∧ step s' = .error e ∧ fails e := by
  induction n generalizing s t with
  | zero =>
    cases hspec
    exact Or.inl ⟨s, rfl, hr⟩
  | succ n ih =>
    rw [runFor] at hspec
    cases ht : spec t with
    | error e =>
      rw [ht] at hspec
      cases hspec
    | ok t₁ =>
      rw [ht] at hspec
      rcases h s t t₁ hr ht with ⟨s₁, hs, hr₁⟩ | ⟨e, he, hfail⟩
      · rw [runFor_succ hs]
        rcases ih hr₁ hspec with hdone | ⟨m, s', e, hm, hrun, he, hfail⟩
        · exact Or.inl hdone
        · exact Or.inr ⟨m + 1, s', e, Nat.succ_lt_succ hm, (runFor_succ hs m).trans hrun, he, hfail⟩
      · exact Or.inr ⟨0, s, e, Nat.succ_pos n, rfl, he, hfail⟩

end Edaf35
