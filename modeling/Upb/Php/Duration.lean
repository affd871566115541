import Upb.Common.Except
import Upb.Php.BcMath
import Upb.Php.GPBWire

/-!
# Durations of the PHP runtime

`formatDuration` and `parseDuration` of `Internal/GPBUtil.php`, and which durations come back. A
string that goes from one function of bcmath to the next is passed on as the number in it.
-/

namespace Upb.Php

open Common Json

/-- `formatDuration`. -/
def formatDuration (seconds nanos : ℤ) : Except Exception (List UInt8) :=
  if BcNum.bccomp (.ofInt seconds) (.ofInt 315576000001) ≠ -1 then
    .error (.decode "Duration number too large.")
  else if BcNum.bccomp (.ofInt seconds) (.ofInt (-315576000001)) ≠ 1 then
    .error (.decode "Duration number too small.")
  else if nanos = 0 then .ok (BcNum.ofInt seconds).text
  else
    let digits := if nanos.tmod 1000000 = 0 then 3 else if nanos.tmod 1000 = 0 then 6 else 9
    .ok (BcNum.bcadd (.ofInt seconds) (BcNum.bcdiv (.ofInt nanos) (.ofInt 1000000000) digits)
      digits).text

/-- `strrpos`. -/
def strrpos (c : UInt8) : List UInt8 → Option ℕ
  | [] => none
  | d :: ds =>
    match strrpos c ds with
    | some pos => some (pos + 1)
    | none => if d = c then some 0 else none

/-- An argument of bcmath. -/
def bcArgument (text : List UInt8) : Except Exception BcNum :=
  match BcNum.ofText text with
  | some n => .ok n
  | none => .error (.check "bcmath function argument is not well-formed")

/-- `is_numeric` and `intval` of the setters, on the strings that bcmath accepts. -/
def checkInteger (var : List UInt8) : Except Exception ℤ := do
  let n ← bcArgument var
  if var.any (IsDigit ·) then return (n.truncate 0).mantissa else .error (.check "Expect integer.")

/-- The last part of `parseDuration`: the seconds and the nanoseconds of a number in range. -/
def splitDuration (number : List UInt8) : Except Exception (ℤ × ℤ) :=
  match strrpos (ascii '.') number with
  | some pos => do
    let seconds ← bcArgument (number.take pos)
    let fraction ← bcArgument (ascii '0' :: number.drop pos)
    let nanos := fraction.bcmul
      (.ofInt (if seconds.bccomp (.ofInt 0) < 0 then -1000000000 else 1000000000))
    return (← checkInteger (number.take pos), ← checkInteger nanos.text)
  | none => return (← checkInteger number, 0)

/-- `parseDuration`. -/
def parseDuration (value : List UInt8) : Except Exception (ℤ × ℤ) :=
  if value.length < 2 ∨ value.getLast? ≠ some (ascii 's') then
    .error (.decode "Missing s after duration string")
  else do
    let n ← bcArgument value.dropLast
    if n.bccomp (.ofInt 315576000001) ≠ -1 then .error (.decode "Duration number too large.")
    else if n.bccomp (.ofInt (-315576000001)) ≠ 1 then .error (.decode "Duration number too small.")
    else splitDuration value.dropLast

theorem strrpos_of_not_mem {c : UInt8} {text : List UInt8} (h : c ∉ text) : strrpos c text = none := by
  induction text with
  | nil => rfl
  | cons d ds ih =>
    have hd : d ≠ c := fun heq => h (heq ▸ List.mem_cons_self)
    rw [strrpos, ih fun hc => h (List.mem_cons_of_mem d hc)]
    exact if_neg hd

/-- The last place of a character. -/
theorem strrpos_append {c : UInt8} {rest : List UInt8} (h : c ∉ rest) (text : List UInt8) :
    strrpos c (text ++ c :: rest) = some text.length := by
  induction text with
  | nil =>
    rw [List.nil_append, strrpos, strrpos_of_not_mem h]
    exact if_pos rfl
  | cons d ds ih => rw [List.cons_append, strrpos, ih, List.length_cons]

theorem point_not_mem {ds : List UInt8} (h : ∀ ch ∈ ds, IsDigit ch) : ascii '.' ∉ ds :=
  fun hmem => absurd (h _ hmem) (by decide)

/-- Behind a sign the digits are read as an integer. -/
theorem bcArgument_digits {neg : Bool} {ds : List UInt8} (hds : ∀ ch ∈ ds, IsDigit ch) (hne : ds ≠ []) :
    bcArgument (signText neg ++ ds) = .ok (.ofInt (signedValue neg ds)) := by
  have h := @BcNum.ofText_number neg ds none hds hne fun _ hfraction => by cases hfraction
  simp only [fractionText, List.append_nil, Option.getD_none, List.length_nil] at h
  rw [bcArgument, h]
  rfl

theorem checkInteger_digits {neg : Bool} {ds : List UInt8} (hds : ∀ ch ∈ ds, IsDigit ch)
    (hne : ds ≠ []) : checkInteger (signText neg ++ ds) = .ok (signedValue neg ds) := by
  have hany : (signText neg ++ ds).any (IsDigit ·) = true := by
    rw [List.any_append, Bool.or_eq_true]
    refine .inr (List.any_eq_true.mpr ?_)
    obtain ⟨ch, hch⟩ := List.exists_mem_of_ne_nil ds hne
    exact ⟨ch, hch, by simpa using hds ch hch⟩
  rw [checkInteger, bcArgument_digits hds hne]
  simp only [bind, Except.bind, hany, BcNum.truncate_ofInt]
  rfl

/-- An integer passes the check of a setter. -/
theorem checkInteger_ofInt (v : ℤ) : checkInteger (BcNum.ofInt v).text = .ok v := by
  have htext : (BcNum.ofInt v).text = signText (v < 0) ++ (BcNum.ofInt v).whole :=
    congrArg (signText (v < 0) ++ ·) (List.append_nil _)
  have hvalue : digitsValue (BcNum.ofInt v).whole = v.natAbs := by
    rw [BcNum.whole, digitsValue_decimal]
    exact Nat.div_one _
  have hwhole : ∀ ch ∈ (BcNum.ofInt v).whole, IsDigit ch := isDigit_decimal
  rw [htext, checkInteger_digits hwhole (decimal_ne_nil _ _), BcNum.signedValue_natAbs hvalue]

namespace BcNum

/-- The integer part is what the digits in front of the point denote. -/
theorem signedValue_whole (n : BcNum) :
    signedValue (n.mantissa < 0) n.whole = n.mantissa.tdiv (10 ^ n.scale) := by
  have hcast : ((10 ^ n.scale : ℕ) : ℤ) = 10 ^ n.scale := by push_cast; rfl
  unfold signedValue whole
  rw [digitsValue_decimal, Int.natCast_ediv, ← hcast]
  by_cases hneg : n.mantissa < 0
  · have habs : n.mantissa = -(n.mantissa.natAbs : ℤ) := by omega
    rw [if_pos (by simpa using hneg)]
    conv_rhs => rw [habs, Int.neg_tdiv, ← Int.ofNat_tdiv]
    rfl
  · have habs : n.mantissa = (n.mantissa.natAbs : ℤ) := by omega
    rw [if_neg (by simpa using hneg)]
    conv_rhs => rw [habs, ← Int.ofNat_tdiv]
    rfl

/-- The digits behind the point, as nanoseconds. -/
def fractionNanos (n : BcNum) : ℕ := n.mantissa.natAbs % 10 ^ n.scale * 10 ^ (9 - n.scale)

/-- A fraction with at most nine digits times a billion. -/
theorem bcmul_billion {f scale : ℕ} (hscale : scale ≤ 9) (neg : Bool) :
    bcmul ⟨f, scale⟩ (ofInt (if neg then -1000000000 else 1000000000)) =
      ofInt (if neg then -(f * 10 ^ (9 - scale) : ℕ) else (f * 10 ^ (9 - scale) : ℕ)) := by
  have hpow : (1000000000 : ℤ) = 10 ^ (9 - scale) * 10 ^ scale := by
    rw [← pow_add, Nat.sub_add_cancel hscale]
    norm_num
  have hne : (10 : ℤ) ^ scale ≠ 0 := pow_ne_zero _ (by norm_num)
  unfold bcmul truncate ofInt
  congr 1
  rw [pow_zero, mul_one, Nat.add_zero, hpow]
  cases neg with
  | true =>
    simp only [if_true]
    rw [← neg_mul, ← mul_assoc, Int.mul_tdiv_cancel _ hne]
    push_cast
    ring
  | false =>
    simp only [Bool.false_eq_true, if_false]
    rw [← mul_assoc, Int.mul_tdiv_cancel _ hne]
    push_cast
    ring

end BcNum

/-- A number without a point. -/
theorem splitDuration_digits {neg : Bool} {ds : List UInt8} (hds : ∀ ch ∈ ds, IsDigit ch)
    (hne : ds ≠ []) : splitDuration (signText neg ++ ds) = .ok (signedValue neg ds, 0) := by
  have hpoint : ascii '.' ∉ signText neg ++ ds := by
    rw [List.mem_append, not_or]
    refine ⟨?_, point_not_mem hds⟩
    cases neg <;> decide
  rw [splitDuration, strrpos_of_not_mem hpoint]
  dsimp only
  rw [checkInteger_digits hds hne]
  rfl

/-- A number with a point: the sign of the fraction is that of the integer part. -/
theorem splitDuration_fraction {neg : Bool} {ds es : List UInt8} (hds : ∀ ch ∈ ds, IsDigit ch)
    (hne : ds ≠ []) (hes : ∀ ch ∈ es, IsDigit ch) (hlength : es.length ≤ 9) :
    splitDuration (signText neg ++ ds ++ ascii '.' :: es) =
      .ok (signedValue neg ds,
        if signedValue neg ds < 0 then -(digitsValue es * 10 ^ (9 - es.length) : ℕ)
        else (digitsValue es * 10 ^ (9 - es.length) : ℕ)) := by
  have hfraction : bcArgument (ascii '0' :: ascii '.' :: es) = .ok ⟨(digitsValue es : ℕ), es.length⟩ := by
    have hzero : ∀ ch ∈ [ascii '0'], IsDigit ch := by
      intro ch hch
      rw [List.mem_singleton.mp hch]
      decide
    have h := @BcNum.ofText_number false _ (some es) hzero (List.cons_ne_nil _ _)
      (by rintro _ ⟨⟩; exact hes)
    have hvalue : digitsValue ([ascii '0'] ++ es) = digitsValue es := by
      rw [digitsValue_append]
      exact (congrArg (· + digitsValue es) (Nat.zero_mul _)).trans (Nat.zero_add _)
    rw [Option.getD_some, signedValue, if_neg (by decide), hvalue] at h
    have htext : signText false ++ ([ascii '0'] ++ fractionText (some es)) =
        ascii '0' :: ascii '.' :: es := rfl
    rw [htext] at h
    rw [bcArgument, h]
  have hsign : (BcNum.ofInt (signedValue neg ds)).bccomp (.ofInt 0) < 0 ↔ signedValue neg ds < 0 := by
    rw [BcNum.bccomp_ofInt_ofInt, Int.sign_neg_iff, sub_zero]
  rw [splitDuration, strrpos_append (point_not_mem hes)]
  dsimp only
  rw [List.take_left, List.drop_left, hfraction, bcArgument_digits hds hne, checkInteger_digits hds hne]
  by_cases hneg : signedValue neg ds < 0
  · have h := BcNum.bcmul_billion (f := digitsValue es) hlength true
    simp only [if_true] at h
    simp only [bind, Except.bind, if_pos hneg, if_pos (hsign.mpr hneg), h, checkInteger_ofInt]
    rfl
  · have h := BcNum.bcmul_billion (f := digitsValue es) hlength false
    simp only [Bool.false_eq_true, if_false] at h
    simp only [bind, Except.bind, if_neg hneg, if_neg (mt hsign.mp hneg), h, checkInteger_ofInt]
    rfl

/-- What `parseDuration` makes of a number of seconds in range: its sign is not kept when the integer
part is zero. -/
theorem parseDuration_text {n : BcNum} (hscale : n.scale ≤ 9)
    (hlarge : n.mantissa.tdiv (10 ^ n.scale) < 315576000001)
    (hsmall : -315576000001 < n.mantissa.tdiv (10 ^ n.scale)) :
    parseDuration (n.text ++ [ascii 's']) =
      .ok (n.mantissa.tdiv (10 ^ n.scale),
        if n.mantissa.tdiv (10 ^ n.scale) < 0 then -(n.fractionNanos : ℤ) else n.fractionNanos) := by
  have hwhole : ∀ ch ∈ n.whole, IsDigit ch := isDigit_decimal
  have hne : n.whole ≠ [] := decimal_ne_nil _ _
  have hlength : ¬((n.text ++ [ascii 's']).length < 2 ∨
      (n.text ++ [ascii 's']).getLast? ≠ some (ascii 's')) := by
    have hpos : 0 < n.whole.length := List.length_pos_of_ne_nil hne
    rw [List.getLast?_concat]
    simp only [BcNum.text, List.length_append, List.length_singleton, ne_eq, not_true_eq_false,
      or_false, not_lt]
    omega
  have hcomp₁ : n.bccomp (.ofInt 315576000001) = -1 := by
    rw [BcNum.bccomp_ofInt]
    exact Int.sign_eq_neg_one_of_neg (by omega)
  have hcomp₂ : n.bccomp (.ofInt (-315576000001)) = 1 := by
    rw [BcNum.bccomp_ofInt]
    exact Int.sign_eq_one_of_pos (by omega)
  have hnumber : bcArgument n.text = .ok n := by rw [bcArgument, BcNum.ofText_text]
  rw [parseDuration, if_neg hlength, List.dropLast_concat, hnumber]
  simp only [bind, Except.bind, hcomp₁, hcomp₂, ne_eq, not_true_eq_false, if_false]
  rw [← n.signedValue_whole]
  unfold BcNum.text BcNum.fraction BcNum.fractionNanos
  by_cases hscale₀ : n.scale = 0
  · rw [if_pos hscale₀, fractionText, List.append_nil, splitDuration_digits hwhole hne, hscale₀,
      pow_zero, Nat.mod_one, zero_mul]
    simp
  · rw [if_neg hscale₀, fractionText, ← List.append_assoc,
      splitDuration_fraction hwhole hne isDigit_lastDigits (by rwa [length_lastDigits]),
      digitsValue_lastDigits, length_lastDigits]

/-- A duration: seconds and nanoseconds in range and not of opposite sign. -/
structure Duration where
  seconds : ℤ
  nanos : ℤ
  seconds_le : |seconds| ≤ 315576000000
  nanos_le : |nanos| ≤ 999999999
  sameSign : ¬(seconds < 0 ∧ 0 < nanos) ∧ ¬(0 < seconds ∧ nanos < 0)

/-- Seconds and a part of a second of the same sign, as one number. -/
theorem tdiv_of_sameSign {s k : ℤ} {P : ℕ} (hk : k.natAbs < P)
    (hsign : ¬(s < 0 ∧ 0 < k) ∧ ¬(0 < s ∧ k < 0)) :
    (s * P + k).tdiv P = s ∧ (s * P + k).natAbs % P = k.natAbs := by
  have hP : 0 < P := by omega
  have hdiv : (s.natAbs * P + k.natAbs) / P = s.natAbs := by
    rw [Nat.mul_comm, Nat.mul_add_div hP, Nat.div_eq_of_lt hk, Nat.add_zero]
  have hmod : (s.natAbs * P + k.natAbs) % P = k.natAbs := by
    rw [Nat.mul_comm, Nat.mul_add_mod, Nat.mod_eq_of_lt hk]
  have hcases : s = s.natAbs ∧ k = k.natAbs ∨ s = -(s.natAbs : ℤ) ∧ k = -(k.natAbs : ℤ) := by omega
  rcases hcases with ⟨hs, hk⟩ | ⟨hs, hk⟩
  · have hsum : s * P + k = (s.natAbs * P + k.natAbs : ℕ) := by
      rw [Nat.cast_add, Nat.cast_mul, ← hs, ← hk]
    rw [hsum, ← Int.ofNat_tdiv, Int.natAbs_natCast, hdiv, hmod]
    exact ⟨hs.symm, rfl⟩
  · have hsum : s * P + k = -((s.natAbs * P + k.natAbs : ℕ) : ℤ) := by
      rw [Nat.cast_add, Nat.cast_mul]
      conv_lhs => rw [hs, hk]
      ring
    rw [hsum, Int.neg_tdiv, ← Int.ofNat_tdiv, Int.natAbs_neg, Int.natAbs_natCast, hdiv, hmod]
    exact ⟨hs.symm, rfl⟩

namespace Duration

variable (d : Duration)

/-- The digits behind the point are enough for the nanoseconds. -/
theorem exists_digits : ∃ digits k, digits ≤ 9 ∧ d.nanos = k * 10 ^ (9 - digits) ∧
    formatDuration d.seconds d.nanos = .ok (BcNum.mk (d.seconds * 10 ^ digits + k) digits).text := by
  have hrange := abs_le.mp d.seconds_le
  have hcomp₁ : (BcNum.ofInt d.seconds).bccomp (.ofInt 315576000001) = -1 := by
    rw [BcNum.bccomp_ofInt_ofInt]
    exact Int.sign_eq_neg_one_of_neg (by omega)
  have hcomp₂ : (BcNum.ofInt d.seconds).bccomp (.ofInt (-315576000001)) = 1 := by
    rw [BcNum.bccomp_ofInt_ofInt]
    exact Int.sign_eq_one_of_pos (by omega)
  rw [formatDuration, if_neg (by simp [hcomp₁]), if_neg (by simp [hcomp₂])]
  by_cases hzero : d.nanos = 0
  · refine ⟨0, 0, by omega, by rw [hzero, zero_mul], ?_⟩
    rw [if_pos hzero, pow_zero, mul_one, add_zero]
    rfl
  · rw [if_neg hzero]
    dsimp only
    have hdigits : ∃ digits k, digits ≤ 9 ∧ d.nanos = k * 10 ^ (9 - digits) ∧
        (if d.nanos.tmod 1000000 = 0 then 3 else if d.nanos.tmod 1000 = 0 then 6 else 9) = digits := by
      split
      · next h => exact ⟨3, d.nanos.tdiv 1000000, by omega, (Int.tdiv_mul_cancel (Int.dvd_of_tmod_eq_zero h)).symm, rfl⟩
      · split
        · next h => exact ⟨6, d.nanos.tdiv 1000, by omega, (Int.tdiv_mul_cancel (Int.dvd_of_tmod_eq_zero h)).symm, rfl⟩
        · exact ⟨9, d.nanos, by omega, by simp, rfl⟩
    obtain ⟨digits, k, hle, hk, heq⟩ := hdigits
    refine ⟨digits, k, hle, hk, ?_⟩
    rw [heq]
    have hpow : (10 : ℤ) ^ (9 - digits) * 10 ^ digits = 1000000000 := by
      rw [← pow_add, Nat.sub_add_cancel hle]
      norm_num
    have hquotient : (BcNum.ofInt d.nanos).bcdiv (.ofInt 1000000000) digits = ⟨k, digits⟩ := by
      unfold BcNum.bcdiv BcNum.ofInt
      rw [hk, zero_add, mul_assoc, hpow, pow_zero, mul_one, Int.mul_tdiv_cancel _ (by norm_num)]
    have hsum : (BcNum.ofInt d.seconds).bcadd ⟨k, digits⟩ digits =
        ⟨d.seconds * 10 ^ digits + k, digits⟩ := by
      have hne : (10 : ℤ) ^ digits ≠ 0 := pow_ne_zero _ (by norm_num)
      unfold BcNum.bcadd BcNum.truncate BcNum.ofInt
      rw [pow_zero, mul_one, zero_add, Int.mul_tdiv_cancel _ hne]
    rw [hquotient, hsum]

/-- The seconds come back; the nanoseconds lose their sign when there is no whole second. -/
theorem parseDuration_formatDuration :
    (formatDuration d.seconds d.nanos >>= fun text => parseDuration (text ++ [ascii 's'])) =
      .ok (d.seconds, if d.seconds < 0 then -(d.nanos.natAbs : ℤ) else d.nanos.natAbs) := by
  obtain ⟨digits, k, hle, hk, hformat⟩ := d.exists_digits
  have hrange := abs_le.mp d.seconds_le
  have hnanos := abs_le.mp d.nanos_le
  have hpos : (0 : ℤ) < 10 ^ (9 - digits) := by positivity
  have habs : d.nanos.natAbs = k.natAbs * 10 ^ (9 - digits) := by
    rw [hk, Int.natAbs_mul, Int.natAbs_pow]
    rfl
  have hlt : k.natAbs < 10 ^ digits := by
    refine lt_of_mul_lt_mul_right (a := 10 ^ (9 - digits)) ?_ (Nat.zero_le _)
    rw [← habs, ← pow_add, Nat.add_sub_cancel' hle]
    omega
  have hsign : ¬(d.seconds < 0 ∧ 0 < k) ∧ ¬(0 < d.seconds ∧ k < 0) := by
    refine ⟨fun h => d.sameSign.1 ⟨h.1, ?_⟩, fun h => d.sameSign.2 ⟨h.1, ?_⟩⟩
    · rw [hk]
      exact mul_pos h.2 hpos
    · rw [hk]
      exact mul_neg_of_neg_of_pos h.2 hpos
  have hsplit := tdiv_of_sameSign hlt hsign
  push_cast at hsplit
  rw [hformat]
  change parseDuration (_ ++ [ascii 's']) = _
  rw [parseDuration_text hle]
  · simp only [BcNum.fractionNanos, hsplit.1, hsplit.2, habs]
  · rw [hsplit.1]
    omega
  · rw [hsplit.1]
    omega

end Duration

/-- A duration comes back from its text exactly when it is not a negative fraction of a second. -/
theorem duration_comesBack (d : Duration) :
    (formatDuration d.seconds d.nanos >>= fun text => parseDuration (text ++ [ascii 's'])) =
      .ok (d.seconds, d.nanos) ↔ ¬(d.seconds = 0 ∧ d.nanos < 0) := by
  have hsign := d.sameSign
  rw [d.parseDuration_formatDuration, Except.ok.injEq, Prod.mk.injEq]
  split <;> omega

/-- Minus half a second comes back as half a second. -/
theorem duration_minusHalf :
    (formatDuration 0 (-500000000) >>= fun text => parseDuration (text ++ [ascii 's'])) =
      .ok (0, 500000000) :=
  (Duration.mk 0 (-500000000) (by decide) (by decide) (by decide)).parseDuration_formatDuration

end Upb.Php
