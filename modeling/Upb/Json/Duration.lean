import Upb.Common.Except
import Upb.Json.TimestampRoundTrip

/-!
# Durations in JSON

`jsonenc_duration` writes a duration as a decimal number of seconds, and `jsondec_duration` reads it back.
`jsondec_duration` also accepts numbers without digits in front of or behind the point.
-/

namespace Upb.Json

open Common

/-- `jsonenc_duration`. -/
def jsonencDuration (seconds nanos : ℤ) : Encoding :=
  if 315576000000 < seconds ∨ seconds < -315576000000 ∨
      seconds ≠ 0 ∧ nanos ≠ 0 ∧ ¬(seconds < 0 ↔ nanos < 0) then
    jsonencErr "bad duration"
  else
    jsonencPutstr ['"'] ++ (if seconds < 0 ∨ nanos < 0 then jsonencPutstr ['-'] else .empty) ++
      jsonencPrintf (formatInt 1 (if seconds < 0 then -seconds else seconds)) ++
      jsonencNanos (if nanos < 0 then -nanos else nanos) ++ jsonencPutstr ['s', '"']

/-- `jsondec_duration` on the string: the seconds and the nanoseconds. -/
def jsondecDurationText (str : List UInt8) : Except String (ℤ × ℤ) := do
  let (seconds, neg, ptr) ← jsondecBuftoint64 str
  let (nanos, ptr) ← jsondecNanos ptr
  if ptr ≠ [ascii 's'] then .error "Malformed duration"
  else if seconds < -315576000000 ∨ 315576000000 < seconds then .error "Duration out of range"
  else return (seconds, if neg then -nanos else nanos)

/-- `jsondec_duration`. -/
def jsondecDuration : Jsondec (ℤ × ℤ) := do
  jsondecLift (jsondecDurationText (← jsondecString))

/-- A sign, digits, and digits behind a point. -/
structure DurationFields where
  neg : Bool
  whole : List UInt8
  fraction : Option (List UInt8)
  whole_digits : ∀ ch ∈ whole, IsDigit ch
  fraction_digits : ∀ ds, fraction = some ds → ∀ ch ∈ ds, IsDigit ch

namespace DurationFields

/-- The string: the number and an `s`. -/
def text (f : DurationFields) : List UInt8 :=
  signText f.neg ++ (f.whole ++ (fractionText f.fraction ++ [ascii 's']))

/-- The sign of the number. -/
def sign (f : DurationFields) : ℤ := if f.neg then -1 else 1

/-- The whole seconds are at most 315,576,000,000, the largest number that a duration can have, and the
fraction can be read. -/
structure Readable (f : DurationFields) : Prop where
  whole_le : digitsValue f.whole ≤ 315576000000
  fraction : ∀ ds, f.fraction = some ds → DigitsRead ds

/-- There are digits in front of the `s` or the point, and between one and nine digits behind a point. -/
structure Decimal (f : DurationFields) : Prop where
  whole_ne : f.whole ≠ []
  fraction : ∀ ds, f.fraction = some ds → ds ≠ [] ∧ ds.length ≤ 9

/-- The whole seconds. -/
def seconds (f : DurationFields) : ℤ := f.sign * digitsValue f.whole

/-- The nanoseconds. -/
def nanos (f : DurationFields) : ℤ := f.sign * (f.fraction.map fractionNanos).getD 0

/-- What follows the whole seconds does not continue them. -/
theorem head_fraction (f : DurationFields) :
    NoDigit (fractionText f.fraction ++ [ascii 's']) ∧
      (fractionText f.fraction ++ [ascii 's']).head? ≠ some (ascii '-') := by
  cases f.fraction with
  | none => exact ⟨noDigit_cons (by decide), by decide⟩
  | some ds => exact ⟨noDigit_cons (by decide), by rw [fractionText, List.cons_append, List.head?_cons]; decide⟩

/-- Without a sign, the text does not start with one. -/
theorem head_unsigned (f : DurationFields) :
    (f.whole ++ (fractionText f.fraction ++ [ascii 's'])).head? ≠ some (ascii '-') := by
  cases hwhole : f.whole with
  | nil => exact f.head_fraction.2
  | cons ch ds =>
    have hch := f.whole_digits ch (by simp [hwhole])
    rw [List.cons_append, List.head?_cons]
    intro h
    rw [Option.some.inj h] at hch
    exact absurd hch (by decide)

/-- The text shows the fraction. -/
theorem fraction_injective {f g : DurationFields}
    (h : fractionText f.fraction ++ [ascii 's'] = fractionText g.fraction ++ [ascii 's']) :
    f.fraction = g.fraction := by
  have htext := List.append_cancel_right h
  cases hf : f.fraction with
  | none =>
    cases hg : g.fraction with
    | none => rfl
    | some es =>
      rw [hf, hg] at htext
      exact absurd htext (by simp [fractionText])
  | some ds =>
    cases hg : g.fraction with
    | none =>
      rw [hf, hg] at htext
      exact absurd htext (by simp [fractionText])
    | some es =>
      rw [hf, hg] at htext
      rw [List.tail_eq_of_cons_eq htext]

/-- The text shows the sign and the digits. -/
theorem text_injective {f g : DurationFields} (h : f.text = g.text) : f = g := by
  unfold text at h
  have hneg : f.neg = g.neg := by
    cases hf : f.neg with
    | false =>
      cases hg : g.neg with
      | false => rfl
      | true =>
        rw [hf, hg] at h
        exact absurd (congrArg List.head? h) f.head_unsigned
    | true =>
      cases hg : g.neg with
      | false =>
        rw [hf, hg] at h
        exact absurd (congrArg List.head? h).symm g.head_unsigned
      | true => rfl
  rw [hneg] at h
  have hbody := List.append_cancel_left h
  have hwhole := congrArg leadingDigits hbody
  have hafter := congrArg afterDigits hbody
  rw [leadingDigits_append f.whole_digits f.head_fraction.1,
    leadingDigits_append g.whole_digits g.head_fraction.1] at hwhole
  rw [afterDigits_append f.whole_digits f.head_fraction.1,
    afterDigits_append g.whole_digits g.head_fraction.1] at hafter
  have hfraction := fraction_injective hafter
  cases f
  cases g
  simp only at hneg hwhole hfraction
  subst hneg hwhole hfraction
  rfl

end DurationFields

/-- The strings that `jsondec_duration` accepts, and what it reads from them. -/
theorem jsondecDurationText_eq_ok (str : List UInt8) (s n : ℤ) :
    jsondecDurationText str = .ok (s, n) ↔
      ∃ f : DurationFields, f.text = str ∧ f.Readable ∧ s = f.seconds ∧ n = f.nanos := by
  constructor
  · intro h
    obtain ⟨⟨v, neg, p1⟩, hwhole, h1⟩ := bind_eq_ok.mp h
    obtain ⟨⟨nanos, p2⟩, hnanos, h2⟩ := bind_eq_ok.mp h1
    obtain ⟨ds, htext, hds, hv⟩ := jsondecBuftoint64_of_ok hwhole
    obtain ⟨fraction, hp1, hfraction, hn⟩ := jsondecNanos_of_ok hnanos
    dsimp only at h2
    split at h2
    · cases h2
    next hend =>
      split at h2
      · cases h2
      next hrange =>
        cases h2
        have hle : digitsValue ds ≤ 315576000000 := by
          rw [hv] at hrange
          split at hrange <;> omega
        refine ⟨⟨neg, ds, fraction, hds, fun es hes => (hfraction es hes).1⟩, ?_,
          ⟨hle, fun es hes => (hfraction es hes).2⟩, ?_, ?_⟩
        · rw [htext, hp1, not_not.mp hend]
          rfl
        · rw [hv]
          cases neg <;> simp [DurationFields.seconds, DurationFields.sign]
        · rw [hn]
          cases neg <;> simp [DurationFields.nanos, DurationFields.sign]
  · rintro ⟨f, rfl, hread, rfl, rfl⟩
    obtain ⟨hdigit, hminus⟩ := f.head_fraction
    have hle := hread.whole_le
    have hwhole := jsondecBuftoint64_append f.neg f.whole_digits hdigit hminus (by omega)
    have hnanos := jsondecNanos_fractionText
      (fun ds hds => ⟨f.fraction_digits ds hds, hread.fraction ds hds⟩)
      (noDigit_cons (by decide) : NoDigit [ascii 's']) (by decide)
    unfold jsondecDurationText DurationFields.text
    simp only [hwhole, hnanos, bind, Except.bind]
    rw [if_neg (not_not.mpr rfl), if_neg (by split <;> omega)]
    unfold DurationFields.seconds DurationFields.nanos DurationFields.sign
    cases f.neg with
    | false => simp [pure, Except.pure]
    | true => simp [pure, Except.pure]

/-- The digits of a fraction that `jsonenc_nanos` writes. -/
theorem exists_fraction {nanos : ℕ} {text : List UInt8} (hlt : nanos < 1000000000)
    (h : IsFraction nanos text) :
    ∃ fraction : Option (List UInt8), text = fractionText fraction ∧
      (∀ ds, fraction = some ds → (∀ ch ∈ ds, IsDigit ch) ∧ DigitsRead ds) ∧
      (fraction.map fractionNanos).getD 0 = (nanos : ℤ) := by
  have hread := @jsondecNanos_fraction nanos text [ascii 's'] hlt h (noDigit_cons (by decide)) (by decide)
  obtain ⟨fraction, htext, hdigits, hnanos⟩ := jsondecNanos_of_ok hread
  exact ⟨fraction, List.append_cancel_right htext, hdigits, hnanos.symm⟩

/-- What the encoder accepts: both numbers in their range, and not of opposite signs. -/
theorem ranges_of_jsonencDuration {seconds nanos : ℤ} (h : (jsonencDuration seconds nanos).error = none) :
    (-315576000000 ≤ seconds ∧ seconds ≤ 315576000000) ∧ (-999999999 ≤ nanos ∧ nanos ≤ 999999999) ∧
      (0 ≤ seconds ∧ 0 ≤ nanos ∨ seconds ≤ 0 ∧ nanos ≤ 0) := by
  unfold jsonencDuration at h
  split at h
  · cases h
  next hrange =>
    have hnanos := (Encoding.error_append.mp (Encoding.error_append.mp h).1).2
    have hle : (if nanos < 0 then -nanos else nanos) < 1000000000 := by
      by_contra hge
      unfold jsonencNanos at hnanos
      rw [if_neg (by omega), if_pos (by omega)] at hnanos
      cases hnanos
    refine ⟨by omega, ?_, by omega⟩
    split at hle <;> omega

/-- What the encoder writes between the quotes. -/
theorem jsonencDuration_eq {seconds nanos : ℤ} (h : (jsonencDuration seconds nanos).error = none) :
    ∃ f : DurationFields, f.Readable ∧ f.seconds = seconds ∧ f.nanos = nanos ∧
      (jsonencDuration seconds nanos).text = ascii '"' :: (f.text ++ [ascii '"']) := by
  obtain ⟨hseconds, hnanos, hsign⟩ := ranges_of_jsonencDuration h
  have habs (z : ℤ) : (if z < 0 then -z else z) = (z.natAbs : ℤ) := by
    split <;> omega
  obtain ⟨herror, hfraction⟩ := jsonencNanos_eq (show nanos.natAbs < 1000000000 by omega)
  obtain ⟨fraction, htext, hdigits, hvalue⟩ := exists_fraction (by omega) hfraction
  refine ⟨⟨decide (seconds < 0 ∨ nanos < 0), decimal 1 seconds.natAbs, fraction, isDigit_decimal,
    fun ds hds => (hdigits ds hds).1⟩, ⟨?_, fun ds hds => (hdigits ds hds).2⟩, ?_, ?_, ?_⟩
  · rw [digitsValue_decimal]
    omega
  · unfold DurationFields.seconds DurationFields.sign
    dsimp only
    rw [digitsValue_decimal]
    split
    next hneg =>
      have := of_decide_eq_true hneg
      omega
    next hneg =>
      have := of_decide_eq_false (Bool.eq_false_of_not_eq_true hneg)
      omega
  · unfold DurationFields.nanos DurationFields.sign
    dsimp only
    rw [hvalue]
    split
    next hneg =>
      have := of_decide_eq_true hneg
      omega
    next hneg =>
      have := of_decide_eq_false (Bool.eq_false_of_not_eq_true hneg)
      omega
  · unfold jsonencDuration
    rw [if_neg (by omega), habs, habs, formatInt_of_nonneg 1 (Int.natCast_nonneg _), Int.toNat_natCast]
    have hsignError : (if seconds < 0 ∨ nanos < 0 then jsonencPutstr ['-'] else Encoding.empty).error =
        none := by
      split <;> rfl
    have hsignText : (if seconds < 0 ∨ nanos < 0 then jsonencPutstr ['-'] else Encoding.empty).text =
        signText (decide (seconds < 0 ∨ nanos < 0)) := by
      unfold signText
      by_cases hneg : seconds < 0 ∨ nanos < 0
      · rw [if_pos hneg, if_pos (decide_eq_true hneg), text_jsonencPutstr]
        rfl
      · rw [if_neg hneg, if_neg (by simpa using hneg)]
        rfl
    have hopen := Encoding.error_append.mpr ⟨error_jsonencPutstr ['"'], hsignError⟩
    have hwhole := Encoding.error_append.mpr ⟨hopen, error_jsonencPrintf (decimal 1 seconds.natAbs)⟩
    rw [Encoding.text_append (Encoding.error_append.mpr ⟨hwhole, herror⟩), Encoding.text_append hwhole,
      Encoding.text_append hopen, Encoding.text_append rfl, hsignText, htext, text_jsonencPutstr,
      text_jsonencPutstr, text_jsonencPrintf]
    unfold DurationFields.text
    simp

/-- A duration stands for itself in a JSON string. -/
theorem DurationFields.plainText (f : DurationFields) : PlainText f.text := by
  have hend : PlainText [ascii 's'] := .cons (by decide) plainText_nil
  have hfraction : PlainText (fractionText f.fraction) := by
    cases hf : f.fraction with
    | none => exact plainText_nil
    | some ds => exact .cons (by decide) (plainText_of_isDigit (f.fraction_digits ds hf))
  have hsign : PlainText (signText f.neg) := by
    cases f.neg with
    | false => exact plainText_nil
    | true => exact .cons (by decide) plainText_nil
  exact hsign.append ((plainText_of_isDigit f.whole_digits).append (hfraction.append hend))

/-- The nanoseconds that the decimal number shows. -/
def DurationFields.exactNanos (f : DurationFields) : ℤ :=
  f.sign * (f.fraction.map fun ds => ((digitsValue ds * 10 ^ (9 - ds.length) : ℕ) : ℤ)).getD 0

theorem DurationFields.Decimal.nanos_eq {f : DurationFields} (h : f.Decimal) : f.nanos = f.exactNanos := by
  unfold nanos exactNanos
  cases hf : f.fraction with
  | none => simp only [Option.map_none]
  | some ds => simp only [Option.map_some, fractionNanos_eq (f.fraction_digits ds hf) (h.fraction ds hf).2]

theorem DurationFields.Decimal.readable {f : DurationFields} (h : f.Decimal)
    (hle : digitsValue f.whole ≤ 315576000000) : f.Readable := by
  refine ⟨hle, fun ds hds => ⟨?_, ?_⟩⟩
  · have hlength := (h.fraction ds hds).2
    calc digitsValue ds < 10 ^ ds.length := digitsValue_lt (f.fraction_digits ds hds)
      _ ≤ 10 ^ 9 := Nat.pow_le_pow_right (by omega) hlength
      _ < 2 ^ 64 := by omega
  · have hlength := (h.fraction ds hds).2
    rw [Int.bmod_eq_of_le (by omega) (by omega)]
    omega

/-- The string is a decimal number of seconds in the range of a duration. -/
def IsDuration (str : List UInt8) (f : DurationFields) : Prop :=
  f.text = str ∧ f.Decimal ∧ digitsValue f.whole ≤ 315576000000

/-- The string is accepted exactly if it is a duration, and what is read is the number it shows. -/
def ReadExactly (str : List UInt8) : Prop :=
  ((∃ seconds nanos, jsondecDurationText str = .ok (seconds, nanos)) ↔ ∃ f, IsDuration str f) ∧
    ∀ seconds nanos, jsondecDurationText str = .ok (seconds, nanos) →
      ∃ f, IsDuration str f ∧ seconds = f.seconds ∧ nanos = f.exactNanos

/-- If the string shows a sign, digits and a fraction that can be read, there are enough digits. -/
def EnoughDigits (str : List UInt8) : Prop :=
  ∀ f : DurationFields, f.text = str → f.Readable → f.Decimal

/-- A string is read exactly if and only if there are enough digits. -/
theorem readExactly_iff (str : List UInt8) : ReadExactly str ↔ EnoughDigits str := by
  constructor
  · intro h f htext hread
    have haccepted := (jsondecDurationText_eq_ok str f.seconds f.nanos).mpr ⟨f, htext, hread, rfl, rfl⟩
    obtain ⟨g, hg, -, -⟩ := h.2 _ _ haccepted
    rw [DurationFields.text_injective (htext.trans hg.1.symm)]
    exact hg.2.1
  · intro h
    have hexact : ∀ seconds nanos, jsondecDurationText str = .ok (seconds, nanos) →
        ∃ f, IsDuration str f ∧ seconds = f.seconds ∧ nanos = f.exactNanos := by
      intro seconds nanos hread
      obtain ⟨f, htext, hf, rfl, rfl⟩ := (jsondecDurationText_eq_ok str seconds nanos).mp hread
      have hdecimal := h f htext hf
      exact ⟨f, ⟨htext, hdecimal, hf.whole_le⟩, rfl, hdecimal.nanos_eq⟩
    refine ⟨⟨?_, ?_⟩, hexact⟩
    · rintro ⟨seconds, nanos, hread⟩
      obtain ⟨f, hf, -, -⟩ := hexact seconds nanos hread
      exact ⟨f, hf⟩
    · rintro ⟨f, htext, hdecimal, hle⟩
      exact ⟨f.seconds, f.nanos,
        (jsondecDurationText_eq_ok str _ _).mpr ⟨f, htext, hdecimal.readable hle, rfl, rfl⟩⟩

/-- What the encoder writes for a duration is decoded to the same duration; and a string is read exactly if
and only if there are enough digits. -/
theorem duration_roundTrip (str : List UInt8) :
    (∀ seconds nanos : ℤ, (jsonencDuration seconds nanos).error = none →
      ∀ (d : DecState) (rest : List UInt8), d.rest = (jsonencDuration seconds nanos).text ++ rest →
        jsondecDuration d =
          .ok ((seconds, nanos), d.skip (jsonencDuration seconds nanos).text.length)) ∧
      (ReadExactly str ↔ EnoughDigits str) := by
  refine ⟨?_, readExactly_iff str⟩
  intro seconds nanos herror d rest hrest
  obtain ⟨f, hread, hseconds, hnanos, htext⟩ := jsonencDuration_eq herror
  rw [htext, List.cons_append, List.append_assoc, List.singleton_append] at hrest
  rw [jsondecDuration, Prog.bind_of_ok (jsondecString_plain f.plainText hrest),
    (jsondecDurationText_eq_ok f.text seconds nanos).mpr ⟨f, rfl, hread, hseconds.symm, hnanos.symm⟩, htext]
  simp [jsondecLift]

/-- Half a second without a digit in front of the point. -/
def pointFive : DurationFields := ⟨false, [], some [ascii '5'], nofun, by simp; decide⟩

/-- ".5s" is accepted. -/
theorem pointFive_not_exact : ¬ReadExactly (['.', '5', 's'].map ascii) := by
  intro h
  have hread : pointFive.Readable := ⟨by decide, by
    intro ds hds
    cases hds
    exact ⟨by decide, by decide⟩⟩
  exact ((readExactly_iff _).mp h pointFive (by decide) hread).whole_ne rfl

end Upb.Json
