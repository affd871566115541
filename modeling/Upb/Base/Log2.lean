import Mathlib.Algebra.Group.Nat.Defs
import Mathlib.Data.Nat.Notation

/-!
# Machine arithmetic

The helpers of `upb/base/internal/log2.h` and the limits of the fixed-width integers that the code
names.
-/

namespace Upb

/-- `upb_Log2Ceiling`. -/
def log2Ceiling (x : ℕ) : ℕ := if x ≤ 1 then 0 else Nat.log2 (x - 1) + 1

/-- The largest value of a `uint16_t`. -/
def uint16Max : ℕ := 2 ^ 16 - 1

/-- The largest value of a `uint32_t`. -/
def uint32Max : ℕ := 2 ^ 32 - 1

/-- The largest value of an `int32_t`. -/
def int32Max : ℕ := 2 ^ 31 - 1

end Upb
