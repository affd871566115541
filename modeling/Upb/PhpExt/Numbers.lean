import Upb.Json.Numbers

/-!
# Numbers in strings

The PHP extension converts a string to an integer with `buftouint64` and `buftoint64`. They read digits as
`upb_BufToUint64` does, but the string has to end behind them or behind a fraction, which is dropped.
-/

namespace Upb.PhpExt

open Common Json

/-- The loop of `buftouint64` behind the point, and the test in front of it. -/
def skipFraction : List UInt8 → Bool
  | [] => true
  | ch :: ptr => ch = ascii '.' && ptr.all fun c => 48 ≤ c.toNat && c.toNat ≤ 57

/-- `buftouint64`; the loop over the digits is that of `upb_BufToUint64`. -/
def buftouint64 (ptr : List UInt8) : Option ℕ :=
  match bufToUint64Loop 0 ptr with
  | none => none
  | some (u64, ptr) => if skipFraction ptr then some u64 else none

/-- `buftoint64`. The number is negated as a `uint64_t` and then converted to an `int64_t`. -/
def buftoint64 (ptr : List UInt8) : Option ℤ :=
  let neg : Bool := ptr.head? = some (ascii '-')
  match buftouint64 (if neg then ptr.tail else ptr) with
  | none => none
  | some u64 =>
    if 2 ^ 63 - 1 + neg.toNat < u64 then none
    else some (((if neg then (2 ^ 64 - u64) % 2 ^ 64 else u64 : ℕ) : ℤ).bmod (2 ^ 64))

/-- The text is empty, or a point and digits. -/
def IsFractionText (text : List UInt8) : Prop :=
  ∃ fraction, text = fractionText fraction ∧ ∀ ds, fraction = some ds → ∀ ch ∈ ds, IsDigit ch

theorem skipFraction_iff (text : List UInt8) : skipFraction text = true ↔ IsFractionText text := by
  cases text with
  | nil => exact iff_of_true rfl ⟨none, rfl, fun _ hds => by cases hds⟩
  | cons ch ptr =>
    have hdigits : (ptr.all fun c => 48 ≤ c.toNat && c.toNat ≤ 57) = true ↔ ∀ c ∈ ptr, IsDigit c := by
      simp [IsDigit]
    rw [skipFraction, Bool.and_eq_true, decide_eq_true_eq, hdigits]
    constructor
    · rintro ⟨rfl, h⟩
      refine ⟨some ptr, rfl, ?_⟩
      intro ds hds
      cases hds
      exact h
    · rintro ⟨fraction, htext, h⟩
      cases fraction with
      | none => cases htext
      | some ds =>
        obtain ⟨rfl, rfl⟩ := List.cons.inj htext
        exact ⟨rfl, h ptr rfl⟩

instance (text : List UInt8) : Decidable (IsFractionText text) := decidable_of_iff _ (skipFraction_iff text)

/-- What `buftouint64` reads. -/
theorem buftouint64_eq (text : List UInt8) :
    buftouint64 text =
      if IsFractionText (afterDigits text) ∧ digitsValue (leadingDigits text) ≤ 2 ^ 64 - 1 then
        some (digitsValue (leadingDigits text))
      else none := by
  unfold buftouint64
  rw [← bufToUint64, bufToUint64_eq]
  by_cases hlt : digitsValue (leadingDigits text) < 2 ^ 64
  · rw [if_pos hlt]
    dsimp only
    by_cases hfraction : IsFractionText (afterDigits text)
    · rw [if_pos ((skipFraction_iff _).mpr hfraction), if_pos ⟨hfraction, by omega⟩]
    · rw [if_neg (mt (skipFraction_iff _).mp hfraction), if_neg fun h => hfraction h.1]
  · rw [if_neg hlt]
    dsimp only
    rw [if_neg fun h => hlt (by omega)]

/-- The conversion gives the negated number. -/
theorem negated_bmod {n : ℕ} (h : n ≤ 2 ^ 63) :
    (((2 ^ 64 - n) % 2 ^ 64 : ℕ) : ℤ).bmod (2 ^ 64) = -(n : ℤ) := by
  rcases Nat.eq_zero_or_pos n with rfl | hpos
  · decide
  · have hcast : (((2 ^ 64 - n) % 2 ^ 64 : ℕ) : ℤ) = -(n : ℤ) + (2 ^ 64 : ℕ) := by omega
    rw [hcast, Int.add_bmod_right, Int.bmod_eq_of_le (by omega) (by omega)]

/-- What `buftoint64` reads. -/
theorem buftoint64_eq (text : List UInt8) :
    buftoint64 text =
      if IsFractionText (afterDigits (unsignedPart text)) ∧
          -2 ^ 63 ≤ signedValue (signOf text) (leadingDigits (unsignedPart text)) ∧
          signedValue (signOf text) (leadingDigits (unsignedPart text)) ≤ 2 ^ 63 - 1 then
        some (signedValue (signOf text) (leadingDigits (unsignedPart text)))
      else none := by
  change (match buftouint64 (unsignedPart text) with
    | none => none
    | some u64 =>
      if 2 ^ 63 - 1 + (signOf text).toNat < u64 then none
      else some (((if signOf text then (2 ^ 64 - u64) % 2 ^ 64 else u64 : ℕ) : ℤ).bmod (2 ^ 64))) = _
  rw [buftouint64_eq]
  by_cases hfraction : IsFractionText (afterDigits (unsignedPart text))
  · simp only [and_iff_right hfraction]
    unfold signedValue
    generalize digitsValue (leadingDigits (unsignedPart text)) = n
    by_cases hle : n ≤ 2 ^ 64 - 1
    · rw [if_pos hle]
      dsimp only
      cases signOf text with
      | false =>
        simp only [Bool.toNat_false, Bool.false_eq_true, if_false]
        by_cases hover : 2 ^ 63 - 1 + 0 < n
        · rw [if_pos hover, if_neg (by omega)]
        · rw [if_neg hover, if_pos (by omega), Int.bmod_eq_of_le (by omega) (by omega)]
      | true =>
        simp only [Bool.toNat_true, if_true]
        by_cases hover : 2 ^ 63 - 1 + 1 < n
        · rw [if_pos hover, if_neg (by omega)]
        · rw [if_neg hover, if_pos (by omega), negated_bmod (by omega)]
    · rw [if_neg hle]
      dsimp only
      rw [if_neg]
      split <;> omega
  · rw [if_neg fun h => hfraction h.1, if_neg fun h => hfraction h.1]

/-- A sign, digits and a fraction: `-?[0-9]*(.[0-9]*)?`. -/
def IsNumber (text : List UInt8) (neg : Bool) (ds : List UInt8) : Prop :=
  ∃ rest, text = signText neg ++ (ds ++ rest) ∧ (∀ ch ∈ ds, IsDigit ch) ∧ IsFractionText rest

/-- What follows the digits does not continue them. -/
theorem IsFractionText.noDigit {rest : List UInt8} (h : IsFractionText rest) :
    NoDigit rest ∧ rest.head? ≠ some (ascii '-') := by
  obtain ⟨fraction, rfl, -⟩ := h
  cases fraction with
  | none => exact ⟨noDigit_nil, nofun⟩
  | some ds => exact ⟨noDigit_cons (by decide), by rw [fractionText, List.head?_cons]; decide⟩

/-- A number shows its sign and its digits. -/
theorem isNumber_iff {text ds : List UInt8} {neg : Bool} :
    IsNumber text neg ds ↔ neg = signOf text ∧ ds = leadingDigits (unsignedPart text) ∧
      IsFractionText (afterDigits (unsignedPart text)) := by
  constructor
  · rintro ⟨rest, rfl, hds, hrest⟩
    obtain ⟨hdigit, hminus⟩ := hrest.noDigit
    rw [signOf_signText hds hminus, unsignedPart_signText hds hminus, leadingDigits_append hds hdigit, afterDigits_append hds hdigit]
    exact ⟨rfl, rfl, hrest⟩
  · rintro ⟨rfl, rfl, hrest⟩
    refine ⟨afterDigits (unsignedPart text), ?_, isDigit_leadingDigits, hrest⟩
    rw [leadingDigits_append_afterDigits, signText_append_unsignedPart]

/-- `upb_BufToUint64` and `upb_BufToInt64` take a sign and as many digits as there are, and read the number
that they denote if and only if it is in range. `buftouint64` and `buftoint64` read exactly the same numbers
from the strings that are numbers to their end, and nothing from others. -/
theorem decimal_numbers_exact (text : List UInt8) :
    (∃ ds rest, text = ds ++ rest ∧ (∀ ch ∈ ds, IsDigit ch) ∧ NoDigit rest ∧
      bufToUint64 text = (if digitsValue ds ≤ 2 ^ 64 - 1 then some (digitsValue ds, rest) else none) ∧
      buftouint64 text =
        if IsFractionText rest ∧ digitsValue ds ≤ 2 ^ 64 - 1 then some (digitsValue ds) else none) ∧
    (∃ neg ds rest, (neg = true ↔ text.head? = some (ascii '-')) ∧ text = signText neg ++ (ds ++ rest) ∧
      (∀ ch ∈ ds, IsDigit ch) ∧ NoDigit rest ∧
      bufToInt64 text =
        (if -2 ^ 63 ≤ signedValue neg ds ∧ signedValue neg ds ≤ 2 ^ 63 - 1 then
          some (signedValue neg ds, neg, rest)
        else none)) ∧
    ∀ v, buftoint64 text = some v ↔
      ∃ neg ds, IsNumber text neg ds ∧ v = signedValue neg ds ∧ -2 ^ 63 ≤ v ∧ v ≤ 2 ^ 63 - 1 := by
  refine ⟨?_, ?_, ?_⟩
  · refine ⟨leadingDigits text, afterDigits text, (leadingDigits_append_afterDigits text).symm,
      isDigit_leadingDigits, noDigit_afterDigits text, ?_, buftouint64_eq text⟩
    rw [bufToUint64_eq]
    by_cases hlt : digitsValue (leadingDigits text) < 2 ^ 64
    · rw [if_pos hlt, if_pos (by omega)]
    · rw [if_neg hlt, if_neg (by omega)]
  · refine ⟨signOf text, leadingDigits (unsignedPart text), afterDigits (unsignedPart text),
      decide_eq_true_iff, ?_, isDigit_leadingDigits, noDigit_afterDigits _, bufToInt64_eq text⟩
    rw [leadingDigits_append_afterDigits, signText_append_unsignedPart]
  · intro v
    rw [buftoint64_eq]
    constructor
    · intro h
      split at h
      next hrange =>
        cases h
        exact ⟨_, _, isNumber_iff.mpr ⟨rfl, rfl, hrange.1⟩, rfl, hrange.2⟩
      next => cases h
    · rintro ⟨neg, ds, hnumber, rfl, hrange⟩
      obtain ⟨rfl, rfl, hfraction⟩ := isNumber_iff.mp hnumber
      rw [if_pos ⟨hfraction, hrange⟩]

end Upb.PhpExt
