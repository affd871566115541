import Mathlib.Data.Nat.Notation

/-!
# Loops without a bound

A loop whose rounds meet the events of an environment, one after the other: allocations that succeed
or fail, for example. It ends if its rounds decrease a measure, and never ends if every round keeps
an invariant and does not leave the loop.
-/

namespace Upb.Common

variable {ε σ ρ : Type} (round : ε → σ → σ ⊕ ρ) (env : ℕ → ε)

/-- The state after so many rounds, or the result if one of them has left the loop. -/
def roundsFrom (s : σ) : ℕ → σ ⊕ ρ
  | 0 => .inl s
  | n + 1 =>
    match roundsFrom s n with
    | .inl s => round (env n) s
    | .inr r => .inr r

/-- A round leaves the loop, with a result that meets `Q`. -/
def Ends (s : σ) (Q : ρ → Prop) : Prop := ∃ n r, roundsFrom round env s n = .inr r ∧ Q r

variable {round env}

/-- The rounds behind the first one. -/
theorem roundsFrom_succ (s : σ) (n : ℕ) : roundsFrom round env s (n + 1) =
    match round (env 0) s with
    | .inl s' => roundsFrom round (fun k => env (k + 1)) s' n
    | .inr r => .inr r := by
  induction n with
  | zero =>
    simp only [roundsFrom]
    cases round (env 0) s <;> rfl
  | succ n ih =>
    rw [roundsFrom, ih]
    cases round (env 0) s <;> rfl

/-- A loop whose first round does not leave it ends with the rounds behind. -/
theorem ends_iff_of_round {s s' : σ} {Q : ρ → Prop} (h : round (env 0) s = .inl s') :
    Ends round env s Q ↔ Ends round (fun k => env (k + 1)) s' Q := by
  constructor
  · rintro ⟨n, r, hr, hQ⟩
    cases n with
    | zero => cases hr
    | succ n =>
      rw [roundsFrom_succ, h] at hr
      exact ⟨n, r, hr, hQ⟩
  · rintro ⟨n, r, hr, hQ⟩
    refine ⟨n + 1, r, ?_, hQ⟩
    rw [roundsFrom_succ, h]
    exact hr

/-- A loop that keeps an invariant does not end. -/
theorem not_ends_of_invariant {I : σ → Prop} {Q : ρ → Prop}
    (h : ∀ n s, I s → ∃ s', round (env n) s = .inl s' ∧ I s') {s : σ} (hs : I s) :
    ¬ Ends round env s Q := by
  have hrun : ∀ n, ∃ s', roundsFrom round env s n = .inl s' ∧ I s' := by
    intro n
    induction n with
    | zero => exact ⟨s, rfl, hs⟩
    | succ n ih =>
      obtain ⟨s', hs', hI⟩ := ih
      obtain ⟨s'', hs'', hI'⟩ := h n s' hI
      exact ⟨s'', by rw [roundsFrom, hs']; exact hs'', hI'⟩
  rintro ⟨n, r, hr, -⟩
  obtain ⟨s', hs', -⟩ := hrun n
  rw [hs'] at hr
  cases hr

/-- A loop whose rounds decrease a measure under an invariant ends. -/
theorem ends_of_measure (μ : σ → ℕ) {I : σ → Prop} {Q : ρ → Prop}
    (h : ∀ n s, I s → match round (env n) s with
      | .inl s' => I s' ∧ μ s' < μ s
      | .inr r => Q r) {s : σ} (hs : I s) :
    Ends round env s Q := by
  have hrun : ∀ n, (∃ k r, roundsFrom round env s k = .inr r ∧ Q r) ∨
      ∃ s', roundsFrom round env s n = .inl s' ∧ I s' ∧ μ s' + n ≤ μ s := by
    intro n
    induction n with
    | zero => exact .inr ⟨s, rfl, hs, Nat.le_refl _⟩
    | succ n ih =>
      rcases ih with hended | ⟨s', hs', hI, hμ⟩
      · exact .inl hended
      · have hstep := h n s' hI
        cases hround : round (env n) s' with
        | inl s'' =>
          rw [hround] at hstep
          obtain ⟨hI', hless⟩ := hstep
          refine .inr ⟨s'', ?_, hI', by omega⟩
          rw [roundsFrom, hs']
          exact hround
        | inr r =>
          rw [hround] at hstep
          refine .inl ⟨n + 1, r, ?_, hstep⟩
          rw [roundsFrom, hs']
          exact hround
  rcases hrun (μ s + 1) with hended | ⟨s', -, -, hμ⟩
  · exact hended
  · omega

end Upb.Common
