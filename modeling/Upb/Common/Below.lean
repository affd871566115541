import Upb.Common.Prog

/-!
# Programs that succeed more often

A program is below another one if the other one does the same wherever the first one succeeds. The
combinators of programs are monotone, so that a program with a larger bound somewhere inside succeeds
more often, and otherwise does the same.
-/

namespace Upb.Common.Prog

variable {ε σ α β γ : Type}

/-- Wherever `x` succeeds, `y` does the same. -/
def Below (x y : Prog ε σ α) : Prop := ∀ s r, x s = .ok r → y s = .ok r

theorem Below.refl (x : Prog ε σ α) : Below x x := fun _ _ h => h

theorem Below.throw (e : ε) (y : Prog ε σ α) : Below (throw e) y := fun _ _ h => by cases h

/-- Sequences are monotone. -/
theorem Below.bind {x y : Prog ε σ α} {f g : α → Prog ε σ β} (h : Below x y)
    (hf : ∀ a, Below (f a) (g a)) : Below (x >>= f) (y >>= g) := by
  intro s r hr
  obtain ⟨a, s', hx, ha⟩ := bind_eq_ok.mp hr
  rw [bind_of_ok (h s _ hx)]
  exact hf a s' r ha

theorem Below.ite {p : Prop} [Decidable p] {x x' y y' : Prog ε σ α} (h : Below x x') (h' : Below y y') :
    Below (if p then x else y) (if p then x' else y') := by
  split
  · exact h
  · exact h'

/-- Loops are monotone. -/
theorem Below.loop {done : Prog ε σ Bool} {out : ε} {step step' : β → Prog ε σ (β ⊕ γ)}
    {finish : β → Prog ε σ γ} (h : ∀ b, Below (step b) (step' b)) (n : ℕ) (b : β) :
    Below (loop done out step finish n b) (loop done out step' finish n b) := by
  induction n generalizing b with
  | zero => exact .refl _
  | succ n ih =>
    refine (Below.refl done).bind fun d => .ite (.refl _) ((h b).bind fun r => ?_)
    cases r with
    | inl b => exact ih b
    | inr c => exact .refl _

end Upb.Common.Prog
