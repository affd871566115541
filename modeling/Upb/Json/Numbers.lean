import Mathlib.Algebra.Order.Ring.Nat
import Mathlib.Algebra.Order.Ring.Int
import Mathlib.Tactic.Positivity
import Mathlib.Tactic.Ring
import Upb.Common.DecimalText

/-!
# Reading decimal numbers

`upb_BufToUint64` and `upb_BufToInt64` of `upb/lex/atoi.c` read as many digits as there are, also none at
all, and report a number that is too large. `jsondec_nanos` reads the fraction of a second.
-/

namespace Upb.Json

open Common

/-- The loop of `upb_BufToUint64`. -/
def bufToUint64Loop : ℕ → List UInt8 → Option (ℕ × List UInt8)
  | u64, [] => some (u64, [])
  | u64, ch :: ptr =>
    if ¬IsDigit ch then some (u64, ch :: ptr)
    else if (2 ^ 64 - 1) / 10 < u64 ∨ 2 ^ 64 - 1 - (ch.toNat - 48) < u64 * 10 then none
    else bufToUint64Loop (u64 * 10 + (ch.toNat - 48)) ptr

/-- `upb_BufToUint64`: the number and what follows it. -/
def bufToUint64 (ptr : List UInt8) : Option (ℕ × List UInt8) := bufToUint64Loop 0 ptr

/-- `upb_BufToInt64`: the number, whether there is a sign, and what follows. -/
def bufToInt64 (ptr : List UInt8) : Option (ℤ × Bool × List UInt8) :=
  let neg : Bool := ptr.head? = some (ascii '-')
  match bufToUint64 (if neg then ptr.tail else ptr) with
  | none => none
  | some (u64, ptr) =>
    if 2 ^ 63 - 1 + neg.toNat < u64 then none
    else some (if neg then -(u64 : ℤ) else u64, neg, ptr)

/-- `jsondec_buftouint64`. -/
def jsondecBuftouint64 (ptr : List UInt8) : Except String (ℕ × List UInt8) :=
  match bufToUint64 ptr with
  | none => .error "Integer overflow"
  | some r => .ok r

/-- `jsondec_buftoint64`. -/
def jsondecBuftoint64 (ptr : List UInt8) : Except String (ℤ × Bool × List UInt8) :=
  match bufToInt64 ptr with
  | none => .error "Integer overflow"
  | some r => .ok r

/-- `while (exp_lg10--) nanos *= 10`, and the conversion of the result to an `int`. -/
@[irreducible] def scaleNanos (nanos : ℕ) (digits : ℤ) : ℤ :=
  ((nanos * 10 ^ (9 - digits).toNat % 2 ^ 64 : ℕ) : ℤ).bmod (2 ^ 32)

/-- `jsondec_nanos`: the nanoseconds and what follows them. The number of digits is converted to an `int`. -/
def jsondecNanos (ptr : List UInt8) : Except String (ℤ × List UInt8) :=
  match ptr with
  | [] => .ok (0, [])
  | ch :: p =>
    if ch = ascii '.' then
      match jsondecBuftouint64 p with
      | .error msg => .error msg
      | .ok (nanos, nanoEnd) =>
        let digits : ℤ := ((p.length - nanoEnd.length : ℕ) : ℤ).bmod (2 ^ 32)
        if 9 < digits then .error "Too many digits for partial seconds"
        else .ok (scaleNanos nanos digits, nanoEnd)
    else .ok (0, ch :: p)

/-- The loop reads the digits that the text starts with. -/
theorem bufToUint64Loop_eq (u64 : ℕ) (text : List UInt8) (hlt : u64 < 2 ^ 64) :
    bufToUint64Loop u64 text =
      if u64 * 10 ^ (leadingDigits text).length + digitsValue (leadingDigits text) < 2 ^ 64 then
        some (u64 * 10 ^ (leadingDigits text).length + digitsValue (leadingDigits text), afterDigits text)
      else none := by
  induction text generalizing u64 with
  | nil =>
    rw [bufToUint64Loop, show leadingDigits [] = [] from rfl]
    simp only [List.length_nil, Nat.pow_zero, Nat.mul_one, digitsValue_nil, Nat.add_zero, if_pos hlt]
    rfl
  | cons ch ptr ih =>
    rw [bufToUint64Loop]
    by_cases hch : IsDigit ch
    · have hsum : u64 * 10 ^ (leadingDigits ptr).length.succ +
          ((ch.toNat - 48) * 10 ^ (leadingDigits ptr).length + digitsValue (leadingDigits ptr)) =
          (u64 * 10 + (ch.toNat - 48)) * 10 ^ (leadingDigits ptr).length +
            digitsValue (leadingDigits ptr) := by
        rw [Nat.pow_succ']
        ring
      rw [if_neg (not_not.mpr hch), leadingDigits_cons hch, afterDigits_cons hch, digitsValue_cons,
        List.length_cons, hsum]
      have hdigit := hch
      unfold IsDigit at hdigit
      split
      next hover =>
        rw [if_neg]
        have hpow : 1 ≤ 10 ^ (leadingDigits ptr).length := Nat.one_le_pow _ _ (by omega)
        have hle := Nat.mul_le_mul_left (u64 * 10 + (ch.toNat - 48)) hpow
        omega
      next hfits => exact ih _ (by omega)
    · rw [if_pos hch, leadingDigits_of_noDigit (noDigit_cons hch), List.length_nil, digitsValue_nil,
        Nat.pow_zero, Nat.mul_one, Nat.add_zero, if_pos hlt, afterDigits,
        List.dropWhile_cons_of_neg (by simpa using hch)]

/-- What `upb_BufToUint64` reads. -/
theorem bufToUint64_eq (text : List UInt8) :
    bufToUint64 text =
      if digitsValue (leadingDigits text) < 2 ^ 64 then
        some (digitsValue (leadingDigits text), afterDigits text)
      else none := by
  rw [bufToUint64, bufToUint64Loop_eq 0 text (by omega), Nat.zero_mul, Nat.zero_add]

/-- A sign in front of a number. -/
def signText (neg : Bool) : List UInt8 := if neg then [ascii '-'] else []

/-- Whether there is a sign. -/
def signOf (text : List UInt8) : Bool := text.head? = some (ascii '-')

/-- What follows the sign. -/
def unsignedPart (text : List UInt8) : List UInt8 := if signOf text then text.tail else text

theorem signText_append_unsignedPart (text : List UInt8) : signText (signOf text) ++ unsignedPart text = text := by
  unfold unsignedPart
  cases hsign : signOf text with
  | false => rfl
  | true =>
    cases text with
    | nil => exact absurd hsign (by decide)
    | cons ch p =>
      have hch : ch = ascii '-' := by simpa [signOf] using hsign
      rw [hch]
      rfl

/-- The number with its sign. -/
def signedValue (neg : Bool) (ds : List UInt8) : ℤ := if neg then -(digitsValue ds : ℤ) else digitsValue ds

/-- What `upb_BufToInt64` reads. -/
theorem bufToInt64_eq (text : List UInt8) :
    bufToInt64 text =
      if -2 ^ 63 ≤ signedValue (signOf text) (leadingDigits (unsignedPart text)) ∧
          signedValue (signOf text) (leadingDigits (unsignedPart text)) ≤ 2 ^ 63 - 1 then
        some (signedValue (signOf text) (leadingDigits (unsignedPart text)), signOf text,
          afterDigits (unsignedPart text))
      else none := by
  change (match bufToUint64 (unsignedPart text) with
    | none => none
    | some (u64, ptr) =>
      if 2 ^ 63 - 1 + (signOf text).toNat < u64 then none
      else some (if signOf text then -(u64 : ℤ) else u64, signOf text, ptr)) = _
  rw [bufToUint64_eq]
  unfold signedValue
  generalize digitsValue (leadingDigits (unsignedPart text)) = n
  by_cases hlt : n < 2 ^ 64
  · rw [if_pos hlt]
    dsimp only
    cases signOf text with
    | false =>
      simp only [Bool.toNat_false, Bool.false_eq_true, if_false]
      by_cases hle : 2 ^ 63 - 1 + 0 < n
      · rw [if_pos hle, if_neg (by omega)]
      · rw [if_neg hle, if_pos (by omega)]
    | true =>
      simp only [Bool.toNat_true, if_true]
      by_cases hle : 2 ^ 63 - 1 + 1 < n
      · rw [if_pos hle, if_neg (by omega)]
      · rw [if_neg hle, if_pos (by omega)]
  · rw [if_neg hlt]
    dsimp only
    rw [if_neg]
    split <;> omega

/-- What `jsondec_buftoint64` accepts: a sign and digits, perhaps none. -/
theorem jsondecBuftoint64_of_ok {text rest : List UInt8} {v : ℤ} {neg : Bool}
    (h : jsondecBuftoint64 text = .ok (v, neg, rest)) :
    ∃ ds : List UInt8, text = signText neg ++ (ds ++ rest) ∧ (∀ ch ∈ ds, IsDigit ch) ∧
      v = if neg then -(digitsValue ds : ℤ) else digitsValue ds := by
  unfold jsondecBuftoint64 at h
  rw [bufToInt64_eq] at h
  split at h
  · cases h
  next r hr =>
    cases h
    split at hr
    · cases hr
      refine ⟨leadingDigits (unsignedPart text), ?_, isDigit_leadingDigits, rfl⟩
      rw [leadingDigits_append_afterDigits, signText_append_unsignedPart]
    · cases hr

/-- A sign in front of digits is seen, and nothing else is taken for one. -/
theorem signOf_signText {neg : Bool} {ds rest : List UInt8} (hds : ∀ ch ∈ ds, IsDigit ch)
    (hsign : rest.head? ≠ some (ascii '-')) : signOf (signText neg ++ (ds ++ rest)) = neg := by
  cases neg with
  | true => rfl
  | false =>
    cases ds with
    | nil => simpa [signOf, signText] using hsign
    | cons ch ds =>
      have hch := hds ch (.head _)
      have hne : ch ≠ ascii '-' := by
        rintro rfl
        exact absurd hch (by decide)
      simp [signOf, signText, hne]

/-- What follows the sign that is seen. -/
theorem unsignedPart_signText {neg : Bool} {ds rest : List UInt8} (hds : ∀ ch ∈ ds, IsDigit ch)
    (hsign : rest.head? ≠ some (ascii '-')) : unsignedPart (signText neg ++ (ds ++ rest)) = ds ++ rest := by
  unfold unsignedPart
  rw [signOf_signText hds hsign]
  cases neg <;> rfl

/-- A sign and digits are read, if the number is not too large. -/
theorem jsondecBuftoint64_append (neg : Bool) {ds rest : List UInt8} (hds : ∀ ch ∈ ds, IsDigit ch)
    (hrest : NoDigit rest) (hsign : rest.head? ≠ some (ascii '-')) (hlt : digitsValue ds < 2 ^ 63) :
    jsondecBuftoint64 (signText neg ++ (ds ++ rest)) =
      .ok (if neg then -(digitsValue ds : ℤ) else digitsValue ds, neg, rest) := by
  unfold jsondecBuftoint64
  rw [bufToInt64_eq, signOf_signText hds hsign, unsignedPart_signText hds hsign,
    leadingDigits_append hds hrest, afterDigits_append hds hrest, if_pos]
  · rfl
  · unfold signedValue
    split <;> omega

/-- The nanoseconds of the digits behind a point. -/
def fractionNanos (ds : List UInt8) : ℤ :=
  scaleNanos (digitsValue ds) ((ds.length : ℤ).bmod (2 ^ 32))

/-- The text of a fraction. -/
def fractionText : Option (List UInt8) → List UInt8
  | none => []
  | some ds => ascii '.' :: ds

/-- The digits of a fraction can be read: there are at most nine of them, as an `int` counts them, and they
denote a number of 64 bits. -/
def DigitsRead (ds : List UInt8) : Prop :=
  digitsValue ds < 2 ^ 64 ∧ (ds.length : ℤ).bmod (2 ^ 32) ≤ 9

/-- There is no fraction. -/
theorem jsondecNanos_of_ne {text : List UInt8} (h : text.head? ≠ some (ascii '.')) :
    jsondecNanos text = .ok (0, text) := by
  cases text with
  | nil => rfl
  | cons ch p =>
    rw [jsondecNanos, if_neg]
    rintro rfl
    exact h rfl

/-- What `jsondec_nanos` reads behind a point. -/
theorem jsondecNanos_point (p : List UInt8) :
    jsondecNanos (ascii '.' :: p) =
      if digitsValue (leadingDigits p) < 2 ^ 64 then
        if 9 < ((leadingDigits p).length : ℤ).bmod (2 ^ 32) then
          .error "Too many digits for partial seconds"
        else .ok (fractionNanos (leadingDigits p), afterDigits p)
      else .error "Integer overflow" := by
  have hlength : p.length - (afterDigits p).length = (leadingDigits p).length := by
    have h := congrArg List.length (leadingDigits_append_afterDigits p)
    rw [List.length_append] at h
    omega
  rw [jsondecNanos, if_pos rfl, jsondecBuftouint64, bufToUint64_eq]
  by_cases hvalue : digitsValue (leadingDigits p) < 2 ^ 64
  · rw [if_pos hvalue, if_pos hvalue]
    dsimp only
    rw [hlength, fractionNanos]
  · rw [if_neg hvalue, if_neg hvalue]

/-- Nine digits denote less than a second. -/
theorem scaled_lt {ds : List UInt8} (hds : ∀ ch ∈ ds, IsDigit ch) (hlength : ds.length ≤ 9) :
    digitsValue ds * 10 ^ (9 - ds.length) < 10 ^ 9 := by
  calc digitsValue ds * 10 ^ (9 - ds.length) < 10 ^ ds.length * 10 ^ (9 - ds.length) :=
        Nat.mul_lt_mul_of_pos_right (digitsValue_lt hds) (by positivity)
    _ = 10 ^ 9 := by
      rw [← Nat.pow_add, Nat.add_sub_cancel' hlength]

/-- The nanoseconds of at most nine digits. -/
theorem fractionNanos_eq {ds : List UInt8} (hds : ∀ ch ∈ ds, IsDigit ch) (hlength : ds.length ≤ 9) :
    fractionNanos ds = (digitsValue ds * 10 ^ (9 - ds.length) : ℕ) := by
  have hlt := scaled_lt hds hlength
  have hbmod : ((ds.length : ℤ)).bmod (2 ^ 32) = ds.length :=
    Int.bmod_eq_of_le (by omega) (by omega)
  have hdigits : ((9 : ℤ) - ds.length).toNat = 9 - ds.length := by omega
  unfold fractionNanos scaleNanos
  rw [hbmod, hdigits]
  generalize digitsValue ds * 10 ^ (9 - ds.length) = n at *
  rw [Nat.mod_eq_of_lt (by omega), Int.bmod_eq_of_le (by omega) (by omega)]

/-- A fraction of at most nine digits is filled up to nine. -/
theorem jsondecNanos_digits {ds rest : List UInt8} (hds : ∀ ch ∈ ds, IsDigit ch) (hlength : ds.length ≤ 9)
    (hrest : NoDigit rest) :
    jsondecNanos (ascii '.' :: (ds ++ rest)) =
      .ok ((digitsValue ds * 10 ^ (9 - ds.length) : ℕ), rest) := by
  have hvalue : digitsValue ds < 10 ^ 9 :=
    (digitsValue_lt hds).trans_le (Nat.pow_le_pow_right (by omega) hlength)
  have hbmod : ((ds.length : ℤ)).bmod (2 ^ 32) = ds.length :=
    Int.bmod_eq_of_le (by omega) (by omega)
  rw [jsondecNanos_point, leadingDigits_append hds hrest, afterDigits_append hds hrest,
    if_pos (by omega), hbmod, if_neg (by omega), fractionNanos_eq hds hlength]

/-- What `jsondec_nanos` accepts. -/
theorem jsondecNanos_of_ok {ptr rest : List UInt8} {n : ℤ} (h : jsondecNanos ptr = .ok (n, rest)) :
    ∃ fraction : Option (List UInt8), ptr = fractionText fraction ++ rest ∧
      (∀ ds, fraction = some ds → (∀ ch ∈ ds, IsDigit ch) ∧ DigitsRead ds) ∧
      n = (fraction.map fractionNanos).getD 0 := by
  by_cases hpoint : ptr.head? = some (ascii '.')
  · obtain ⟨p, rfl⟩ : ∃ p, ptr = ascii '.' :: p := by
      cases ptr with
      | nil => cases hpoint
      | cons ch p => exact ⟨p, by rw [Option.some.inj hpoint]⟩
    rw [jsondecNanos_point] at h
    split at h
    next hvalue =>
      split at h
      · cases h
      next hdigits =>
        cases h
        refine ⟨some (leadingDigits p), ?_, ?_, ?_⟩
        · rw [fractionText, List.cons_append, leadingDigits_append_afterDigits]
        · intro ds hds
          cases hds
          exact ⟨isDigit_leadingDigits, hvalue, Int.not_lt.mp hdigits⟩
        · rw [Option.map_some, Option.getD_some]
    next => cases h
  · rw [jsondecNanos_of_ne hpoint] at h
    cases h
    exact ⟨none, rfl, nofun, rfl⟩

/-- A fraction that can be read, in front of something that does not continue it. -/
theorem jsondecNanos_fractionText {fraction : Option (List UInt8)} {rest : List UInt8}
    (h : ∀ ds, fraction = some ds → (∀ ch ∈ ds, IsDigit ch) ∧ DigitsRead ds) (hrest : NoDigit rest)
    (hpoint : rest.head? ≠ some (ascii '.')) :
    jsondecNanos (fractionText fraction ++ rest) = .ok ((fraction.map fractionNanos).getD 0, rest) := by
  cases fraction with
  | none => exact jsondecNanos_of_ne hpoint
  | some ds =>
    obtain ⟨hds, hvalue, hlength⟩ := h ds rfl
    rw [fractionText, List.cons_append, jsondecNanos_point, leadingDigits_append hds hrest,
      afterDigits_append hds hrest, if_pos hvalue, if_neg (Int.not_lt.mpr hlength), Option.map_some,
      Option.getD_some]

end Upb.Json
