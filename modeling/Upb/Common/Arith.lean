import Mathlib.Algebra.Group.Int.Defs
import Mathlib.Algebra.Group.Nat.Defs
import Mathlib.Data.Int.Notation

/-!
# Machine arithmetic with a record of overflows

A computation on machine integers. Every operation stores the residue of its exact result that its type
represents, and leaves its label in the record if that is not the exact result itself. A computation
that records nothing is a computation on integers.
-/

namespace Upb.Common

/-- The value of a computation, and the labels of the operations that overflowed. -/
structure Arith (ι α : Type) where
  value : α
  overflows : List ι

namespace Arith

variable {ι α β : Type}

instance : Monad (Arith ι) where
  pure a := ⟨a, []⟩
  bind x f := ⟨(f x.value).value, x.overflows ++ (f x.value).overflows⟩

/-- The result of an operation on 32-bit signed integers. -/
def int32 (op : ι) (z : ℤ) : Arith ι ℤ :=
  ⟨z.bmod (2 ^ 32), if -2 ^ 31 ≤ z ∧ z < 2 ^ 31 then [] else [op]⟩

/-- The result of an operation on 64-bit signed integers. -/
def int64 (op : ι) (z : ℤ) : Arith ι ℤ :=
  ⟨z.bmod (2 ^ 64), if -2 ^ 63 ≤ z ∧ z < 2 ^ 63 then [] else [op]⟩

/-- The result of an operation on 32-bit unsigned integers. -/
def uint32 (op : ι) (z : ℤ) : Arith ι ℤ :=
  ⟨z % 2 ^ 32, if 0 ≤ z ∧ z < 2 ^ 32 then [] else [op]⟩

@[simp] theorem value_pure (a : α) : (pure a : Arith ι α).value = a := rfl

@[simp] theorem overflows_pure (a : α) : (pure a : Arith ι α).overflows = [] := rfl

@[simp] theorem value_bind (x : Arith ι α) (f : α → Arith ι β) : (x >>= f).value = (f x.value).value := rfl

@[simp] theorem overflows_bind (x : Arith ι α) (f : α → Arith ι β) :
    (x >>= f).overflows = x.overflows ++ (f x.value).overflows := rfl

@[simp] theorem pure_bind (a : α) (f : α → Arith ι β) : pure a >>= f = f a := rfl

theorem mk_bind (a : α) (l : List ι) (f : α → Arith ι β) :
    (Arith.mk a l) >>= f = ⟨(f a).value, l ++ (f a).overflows⟩ := rfl

/-- An operation whose result its type represents. -/
theorem int32_of_fits (op : ι) {z : ℤ} (h : -2 ^ 31 ≤ z ∧ z < 2 ^ 31) : int32 op z = pure z := by
  rw [int32, if_pos h, Int.bmod_eq_of_le (by omega) (by omega)]
  rfl

theorem int64_of_fits (op : ι) {z : ℤ} (h : -2 ^ 63 ≤ z ∧ z < 2 ^ 63) : int64 op z = pure z := by
  rw [int64, if_pos h, Int.bmod_eq_of_le (by omega) (by omega)]
  rfl

theorem uint32_of_fits (op : ι) {z : ℤ} (h : 0 ≤ z ∧ z < 2 ^ 32) : uint32 op z = pure z := by
  rw [uint32, if_pos h, Int.emod_eq_of_lt h.1 h.2]
  rfl

end Arith

end Upb.Common
