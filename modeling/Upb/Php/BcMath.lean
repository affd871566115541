import Upb.Json.Numbers

/-!
# Decimal numbers of bcmath

The functions of bcmath that the PHP runtime uses on the numbers of durations: exact decimal
arithmetic, with the result cut off behind as many digits as asked for. Without a scale it is zero.
-/

namespace Upb.Php

open Common Json

/-- The number `mantissa / 10 ^ scale`. -/
structure BcNum where
  mantissa : ℤ
  scale : ℕ

namespace BcNum

/-- An integer. -/
def ofInt (v : ℤ) : BcNum := ⟨v, 0⟩

/-- The digits of a text are looked at one after the other. -/
instance (text : List UInt8) : Decidable (∀ ch ∈ text, IsDigit ch) := List.decidableBAll _ _

/-- The number in a string: a sign, digits, and digits behind a point, all of which may be absent. -/
def ofText (text : List UInt8) : Option BcNum :=
  let neg := signOf text
  let body := if neg || text.head? == some (ascii '+') then text.tail else text
  match afterDigits body with
  | [] => some ⟨signedValue neg (leadingDigits body), 0⟩
  | c :: fraction =>
    if c = ascii '.' ∧ ∀ ch ∈ fraction, IsDigit ch then
      some ⟨signedValue neg (leadingDigits body ++ fraction), fraction.length⟩
    else none

/-- The digits behind the point, if there are any. -/
def fraction (n : BcNum) : Option (List UInt8) :=
  if n.scale = 0 then none else some (lastDigits n.scale n.mantissa.natAbs)

/-- The digits in front of the point. -/
def whole (n : BcNum) : List UInt8 := decimal 1 (n.mantissa.natAbs / 10 ^ n.scale)

/-- The number as a string, with all its digits. -/
def text (n : BcNum) : List UInt8 :=
  signText (n.mantissa < 0) ++ (n.whole ++ fractionText n.fraction)

/-- The number with a scale, cut off. -/
def truncate (n : BcNum) (scale : ℕ) : BcNum := ⟨(n.mantissa * 10 ^ scale).tdiv (10 ^ n.scale), scale⟩

/-- `bccomp`, with scale zero. -/
def bccomp (a b : BcNum) : ℤ := ((a.truncate 0).mantissa - (b.truncate 0).mantissa).sign

/-- `bcmul`, with scale zero. -/
def bcmul (a b : BcNum) : BcNum := (BcNum.mk (a.mantissa * b.mantissa) (a.scale + b.scale)).truncate 0

/-- `bcdiv`. -/
def bcdiv (a b : BcNum) (scale : ℕ) : BcNum :=
  ⟨(a.mantissa * 10 ^ (b.scale + scale)).tdiv (b.mantissa * 10 ^ a.scale), scale⟩

/-- `bcadd`. -/
def bcadd (a b : BcNum) (scale : ℕ) : BcNum :=
  (BcNum.mk (a.mantissa * 10 ^ b.scale + b.mantissa * 10 ^ a.scale) (a.scale + b.scale)).truncate scale

theorem fraction_digits (n : BcNum) : ∀ ds, n.fraction = some ds → ∀ ch ∈ ds, IsDigit ch := by
  intro ds hds
  unfold fraction at hds
  split at hds
  · cases hds
  · cases hds
    exact isDigit_lastDigits

/-- Behind the digits of a number there is a point or nothing. -/
theorem head_fractionText (fraction : Option (List UInt8)) : NoDigit (fractionText fraction) ∧
    (fractionText fraction).head? ≠ some (ascii '-') := by
  cases fraction with
  | none => exact ⟨noDigit_nil, nofun⟩
  | some ds => exact ⟨noDigit_cons (by decide), by rw [fractionText, List.head?_cons]; decide⟩

/-- A string without a plus sign is read from its sign on. -/
theorem ofText_of_no_plus {text : List UInt8} (h : text.head? ≠ some (ascii '+')) :
    ofText text =
      match afterDigits (unsignedPart text) with
      | [] => some ⟨signedValue (signOf text) (leadingDigits (unsignedPart text)), 0⟩
      | c :: fraction =>
        if c = ascii '.' ∧ ∀ ch ∈ fraction, IsDigit ch then
          some ⟨signedValue (signOf text) (leadingDigits (unsignedPart text) ++ fraction),
            fraction.length⟩
        else none := by
  have hplus : (text.head? == some (ascii '+')) = false := beq_eq_false_iff_ne.mpr h
  rw [ofText, hplus, Bool.or_false]
  rfl

/-- No plus sign stands in front of digits. -/
theorem head_number {neg : Bool} {ds rest : List UInt8} (hds : ∀ ch ∈ ds, IsDigit ch) (hne : ds ≠ []) :
    (signText neg ++ (ds ++ rest)).head? ≠ some (ascii '+') := by
  cases neg with
  | true =>
    rw [signText, if_pos rfl, List.singleton_append, List.head?_cons]
    decide
  | false =>
    cases ds with
    | nil => exact absurd rfl hne
    | cons ch ds =>
      have hch : IsDigit ch := hds ch List.mem_cons_self
      rw [signText, if_neg (by decide), List.nil_append, List.cons_append, List.head?_cons]
      intro heq
      rw [Option.some.inj heq] at hch
      exact absurd hch (by decide)

/-- A sign, digits and a fraction are read. -/
theorem ofText_number {neg : Bool} {ds : List UInt8} {fraction : Option (List UInt8)}
    (hds : ∀ ch ∈ ds, IsDigit ch) (hne : ds ≠ [])
    (hfraction : ∀ es, fraction = some es → ∀ ch ∈ es, IsDigit ch) :
    ofText (signText neg ++ (ds ++ fractionText fraction)) =
      some ⟨signedValue neg (ds ++ fraction.getD []), (fraction.getD []).length⟩ := by
  obtain ⟨hdigit, hminus⟩ := head_fractionText fraction
  rw [ofText_of_no_plus (head_number hds hne), signOf_signText hds hminus,
    unsignedPart_signText hds hminus, leadingDigits_append hds hdigit, afterDigits_append hds hdigit]
  cases fraction with
  | none => simp [fractionText]
  | some es =>
    simp only [fractionText]
    rw [if_pos ⟨trivial, hfraction es rfl⟩]
    rfl

/-- The digits of a number denote it. -/
theorem digitsValue_digits (n : BcNum) :
    digitsValue (n.whole ++ n.fraction.getD []) = n.mantissa.natAbs := by
  unfold whole fraction
  split
  · next h =>
    rw [h]
    simp
  · rw [Option.getD_some, digitsValue_append, length_lastDigits, digitsValue_lastDigits,
      digitsValue_decimal, Nat.div_add_mod']

theorem length_fraction (n : BcNum) : (n.fraction.getD []).length = n.scale := by
  unfold fraction
  split
  · next h => rw [h, Option.getD_none, List.length_nil]
  · rw [Option.getD_some, length_lastDigits]

theorem signedValue_natAbs {v : ℤ} {ds : List UInt8} (h : digitsValue ds = v.natAbs) :
    signedValue (v < 0) ds = v := by
  unfold signedValue
  rw [h]
  by_cases hv : v < 0
  · rw [if_pos (by simpa using hv)]
    omega
  · rw [if_neg (by simpa using hv)]
    omega

/-- A number is read back from its string. -/
theorem ofText_text (n : BcNum) : ofText n.text = some n := by
  have hwhole : ∀ ch ∈ n.whole, IsDigit ch := isDigit_decimal
  rw [text, ofText_number hwhole (decimal_ne_nil _ _) n.fraction_digits,
    signedValue_natAbs n.digitsValue_digits, length_fraction]

/-- The integer in front of the point. -/
theorem truncate_zero (n : BcNum) : (n.truncate 0).mantissa = n.mantissa.tdiv (10 ^ n.scale) := by
  rw [truncate, pow_zero, mul_one]

theorem truncate_ofInt (v : ℤ) : ((ofInt v).truncate 0).mantissa = v := by
  rw [truncate_zero, ofInt, pow_zero, Int.tdiv_one]

/-- Comparing with an integer. -/
theorem bccomp_ofInt (n : BcNum) (v : ℤ) :
    bccomp n (ofInt v) = (n.mantissa.tdiv (10 ^ n.scale) - v).sign := by
  rw [bccomp, truncate_zero, truncate_ofInt]

theorem bccomp_ofInt_ofInt (v w : ℤ) : bccomp (ofInt v) (ofInt w) = (v - w).sign := by
  rw [bccomp, truncate_ofInt, truncate_ofInt]

end BcNum

end Upb.Php
