/-!
# Results and errors

How a sequence of computations that may fail comes to a result.
-/

namespace Upb.Common

variable {ε α β : Type}

/-- A sequence succeeds when both of its parts do. -/
theorem bind_eq_ok {x : Except ε α} {f : α → Except ε β} {b : β} :
    x >>= f = .ok b ↔ ∃ a, x = .ok a ∧ f a = .ok b := by
  cases x with
  | error e => simp [bind, Except.bind]
  | ok a => simp [bind, Except.bind]

/-- A result that is mapped. -/
theorem map_eq_ok {x : Except ε α} {f : α → β} {b : β} :
    x.map f = .ok b ↔ ∃ a, x = .ok a ∧ f a = b := by
  cases x with
  | error e => simp [Except.map]
  | ok a => simp [Except.map]

/-- An error that neither part of a sequence gives. -/
theorem bind_ne_error {x : Except ε α} {f : α → Except ε β} {e : ε} (hx : x ≠ .error e)
    (hf : ∀ a, x = .ok a → f a ≠ .error e) : x >>= f ≠ .error e := by
  cases x with
  | error e' => simpa [bind, Except.bind] using hx
  | ok a => exact hf a rfl

theorem map_ne_error {x : Except ε α} {f : α → β} {e : ε} (hx : x ≠ .error e) : x.map f ≠ .error e := by
  cases x with
  | error e' => simpa [Except.map] using hx
  | ok a => nofun

end Upb.Common
