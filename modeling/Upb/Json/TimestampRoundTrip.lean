import Upb.Json.TimestampDates

/-!
# Timestamps survive JSON

The text that `jsonenc_timestamp` writes shows the date and the time of the seconds, and `jsondec_timestamp`
reads the same seconds and nanoseconds from it.
-/

namespace Upb.Json

open Common

/-- A fraction with no digits, or with three, six or nine of them, that denotes so many nanoseconds. -/
def IsFraction (nanos : ℕ) (fraction : List UInt8) : Prop :=
  nanos = 0 ∧ fraction = [] ∨
    ∃ digits ∈ [3, 6, 9], 10 ^ (9 - digits) ∣ nanos ∧
      fraction = ascii '.' :: lastDigits digits (nanos / 10 ^ (9 - digits))

/-- The text of a date and a time: "1972-01-01T01:00:00.000Z". -/
def dateTimeText (date : Date) (time : TimeOfDay) (fraction : List UInt8) : List UInt8 :=
  lastDigits 4 date.year ++ [ascii '-'] ++ lastDigits 2 date.month ++ [ascii '-'] ++
    lastDigits 2 date.day ++ [ascii 'T'] ++ lastDigits 2 time.hour ++ [ascii ':'] ++
    lastDigits 2 time.min ++ [ascii ':'] ++ lastDigits 2 time.sec ++ fraction ++ [ascii 'Z']

theorem nanosLoop_succ (fuel nanos digits : ℕ) :
    nanosLoop (fuel + 1) nanos digits =
      if nanos % 1000 = 0 then nanosLoop fuel (nanos / 1000 : ℕ) (digits - 3)
      else ((nanos : ℤ), digits) := by
  rw [nanosLoop, Int.tmod_eq_emod_of_nonneg (by omega), Int.tdiv_eq_ediv_of_nonneg (by omega),
    Int.natCast_ediv]
  by_cases h : nanos % 1000 = 0
  · rw [if_pos h, if_pos (by omega)]
    rfl
  · rw [if_neg h, if_neg (by omega)]

/-- The groups of zeros that `jsonenc_nanos` takes away. -/
theorem nanosLoop_eq {nanos : ℕ} (hpos : 0 < nanos) (hlt : nanos < 1000000000) :
    ∃ digits ∈ [3, 6, 9], 10 ^ (9 - digits) ∣ nanos ∧ nanos / 10 ^ (9 - digits) < 10 ^ digits ∧
      nanosLoop 3 nanos 9 = (((nanos / 10 ^ (9 - digits) : ℕ) : ℤ), digits) := by
  rw [nanosLoop_succ, nanosLoop_succ, nanosLoop_succ]
  by_cases h₁ : nanos % 1000 = 0
  · by_cases h₂ : nanos / 1000 % 1000 = 0
    · refine ⟨3, by simp, by omega, by omega, ?_⟩
      rw [if_pos h₁, if_pos h₂, if_neg (by omega), Nat.div_div_eq_div_mul]
      rfl
    · refine ⟨6, by simp, by omega, by omega, ?_⟩
      rw [if_pos h₁, if_neg h₂]
      rfl
  · refine ⟨9, by simp, by omega, by omega, ?_⟩
    rw [if_neg h₁]
    simp

/-- The fraction that `jsonenc_nanos` writes. -/
theorem jsonencNanos_eq {nanos : ℕ} (hlt : nanos < 1000000000) :
    (jsonencNanos nanos).error = none ∧ IsFraction nanos (jsonencNanos nanos).text := by
  unfold jsonencNanos
  rcases Nat.eq_zero_or_pos nanos with rfl | hpos
  · exact ⟨rfl, .inl ⟨rfl, rfl⟩⟩
  · obtain ⟨digits, hdigits, hdvd, hfits, hloop⟩ := nanosLoop_eq hpos hlt
    rw [if_neg (by omega), if_neg (by omega), hloop]
    refine ⟨rfl, .inr ⟨digits, hdigits, hdvd, ?_⟩⟩
    have hdigits : 0 < digits := by
      simp only [List.mem_cons, List.not_mem_nil, or_false] at hdigits
      omega
    rw [text_jsonencPrintf, formatInt_of_nonneg _ (Int.natCast_nonneg _), Int.toNat_natCast,
      decimal_of_lt hdigits hfits]

/-- So many digits and what comes after them. -/
theorem jsondecTsdigits_lastDigits {width n : ℕ} (hn : n < 10 ^ width) (hwidth : width ≤ 9)
    (after rest : List UInt8) :
    jsondecTsdigits (lastDigits width n ++ (after ++ rest)) width after = .ok ((n : ℤ), rest) := by
  have htake : (lastDigits width n ++ (after ++ rest)).take width = lastDigits width n :=
    List.take_left' (length_lastDigits width n)
  have hdrop : (lastDigits width n ++ (after ++ rest)).drop width = after ++ rest :=
    List.drop_left' (length_lastDigits width n)
  have hvalue : digitsValue (lastDigits width n) = n := by
    rw [digitsValue_lastDigits, Nat.mod_eq_of_lt hn]
  have hlt : n < 2 ^ 64 := by
    calc n < 10 ^ width := hn
      _ ≤ 10 ^ 9 := Nat.pow_le_pow_right (by omega) hwidth
      _ < 2 ^ 64 := by omega
  have hread : bufToUint64 (lastDigits width n) = some (n, []) := by
    have h := bufToUint64_eq (lastDigits width n ++ [])
    rwa [leadingDigits_append isDigit_lastDigits noDigit_nil, afterDigits_append isDigit_lastDigits noDigit_nil,
      List.append_nil, hvalue, if_pos hlt] at h
  rw [jsondecTsdigits, jsondecBuftouint64, htake, hread]
  dsimp only
  rw [hdrop, if_pos ⟨rfl, by simp⟩, ← List.drop_drop, hdrop, List.drop_left]

/-- The nanoseconds of a fraction. -/
theorem jsondecNanos_fraction {nanos : ℕ} {fraction rest : List UInt8} (hlt : nanos < 1000000000)
    (h : IsFraction nanos fraction) (hrest : NoDigit rest) (hpoint : rest.head? ≠ some (ascii '.')) :
    jsondecNanos (fraction ++ rest) = .ok ((nanos : ℤ), rest) := by
  rcases h with ⟨rfl, rfl⟩ | ⟨digits, hdigits, hdvd, rfl⟩
  · exact jsondecNanos_of_ne hpoint
  · have hle : digits ≤ 9 := by
      simp only [List.mem_cons, List.not_mem_nil, or_false] at hdigits
      omega
    rw [List.cons_append, jsondecNanos_digits isDigit_lastDigits (by rwa [length_lastDigits]) hrest,
      length_lastDigits, digitsValue_lastDigits, Nat.mod_eq_of_lt, Nat.div_mul_cancel hdvd]
    apply Nat.div_lt_of_lt_mul
    rwa [← Nat.pow_add, Nat.sub_add_cancel hle]

/-- The `Z` at the end. -/
theorem jsondecOffset_utc (seconds : ℤ) : jsondecOffset seconds [ascii 'Z'] = .ok seconds := rfl

/-- A date and a time are read back. -/
theorem jsondecTimestampText_dateTime {date : Date} {time : TimeOfDay} {nanos : ℕ} {fraction : List UInt8}
    (hyear : date.year < 10000) (hlt : nanos < 1000000000) (hfraction : IsFraction nanos fraction)
    (hseconds : -62135596800 ≤ unixSeconds date time) :
    jsondecTimestampText (dateTimeText date time fraction) = .ok (unixSeconds date time, (nanos : ℤ)) := by
  have hmonth := date.valid.month_le
  have hday := date.valid.day_lt
  have hhour := time.hour_lt
  have hmin := time.min_lt
  have hsec := time.sec_lt
  have hlength : ¬(dateTimeText date time fraction).length < 20 := by
    simp only [dateTimeText, List.length_append, length_lastDigits, List.length_singleton]
    omega
  have hyears (rest : List UInt8) : jsondecTsdigits (lastDigits 4 date.year ++ ([ascii '-'] ++ rest)) 4
      [ascii '-'] = .ok ((date.year : ℤ), rest) := jsondecTsdigits_lastDigits (by omega) (by omega) _ rest
  have htwo {n : ℕ} (hn : n < 100) (after rest : List UInt8) :
      jsondecTsdigits (lastDigits 2 n ++ (after ++ rest)) 2 after = .ok ((n : ℤ), rest) :=
    jsondecTsdigits_lastDigits hn (by omega) after rest
  have hsecs (rest : List UInt8) : jsondecTsdigits (lastDigits 2 time.sec ++ rest) 2 [] =
      .ok ((time.sec : ℤ), rest) := htwo (by omega) [] rest
  have hnanos := @jsondecNanos_fraction nanos fraction [ascii 'Z'] hlt hfraction (noDigit_cons (by decide))
    (by decide)
  rw [jsondecTimestampText, if_neg hlength, dateTimeText]
  simp only [List.append_assoc, hyears, htwo (show date.month < 100 by omega),
    htwo (show date.day < 100 by omega), htwo (show time.hour < 100 by omega),
    htwo (show time.min < 100 by omega), hsecs, hnanos, jsondecOffset_utc, bind, Except.bind,
    jsondecUnixtime_date date time hyear]
  rw [if_neg (by omega)]
  rfl

/-- A date and a time stand for themselves in a JSON string. -/
theorem plainText_dateTime (date : Date) (time : TimeOfDay) {nanos : ℕ} {fraction : List UInt8}
    (hfraction : IsFraction nanos fraction) : PlainText (dateTimeText date time fraction) := by
  have hdigits (width n : ℕ) : PlainText (lastDigits width n) := plainText_of_isDigit isDigit_lastDigits
  have hdash : PlainText [ascii '-'] := .cons (by decide) plainText_nil
  have hcolon : PlainText [ascii ':'] := .cons (by decide) plainText_nil
  have ht : PlainText [ascii 'T'] := .cons (by decide) plainText_nil
  have hz : PlainText [ascii 'Z'] := .cons (by decide) plainText_nil
  have hpoint : PlainText fraction := by
    rcases hfraction with ⟨-, rfl⟩ | ⟨digits, -, -, rfl⟩
    · exact plainText_nil
    · exact .cons (by decide) (hdigits _ _)
  exact (((((((((((((hdigits 4 _).append hdash).append (hdigits 2 _)).append hdash).append
    (hdigits 2 _)).append ht).append (hdigits 2 _)).append hcolon).append (hdigits 2 _)).append
    hcolon).append (hdigits 2 _)).append hpoint).append hz)

/-- A timestamp of the years 1 to 9999 is written as its date and time, without an overflow, and read back.
The operations that wrap around when it is read are the month of a year that starts with March, for
January and February, and the subtraction of the days before 1970, before 1970. -/
theorem timestamp_roundTrip (seconds nanos : ℤ) (hlo : -62135596800 ≤ seconds)
    (hhi : seconds ≤ 253402300799) (hnanos : 0 ≤ nanos) (hnanos' : nanos ≤ 999999999) :
    ∃ (date : Date) (time : TimeOfDay) (fraction : List UInt8),
      unixSeconds date time = seconds ∧ IsFraction nanos.toNat fraction ∧
      (jsonencTimestamp seconds nanos).error = none ∧
      (jsonencTimestamp seconds nanos).text =
        ascii '"' :: (dateTimeText date time fraction ++ [ascii '"']) ∧
      (jsonencCivil seconds).overflows = [] ∧
      (jsondecUnixtime date.year date.month date.day time.hour time.min time.sec).overflows =
        wrapsFor date ∧
      ∀ (d : DecState) (rest : List UInt8), d.rest = (jsonencTimestamp seconds nanos).text ++ rest →
        jsondecTimestamp d =
          .ok ((seconds, nanos), d.skip (jsonencTimestamp seconds nanos).text.length) := by
  obtain ⟨date, time, hyear, hseconds, hcivil⟩ := jsonencCivil_eq hlo hhi
  obtain ⟨n, rfl⟩ : ∃ n : ℕ, nanos = n := ⟨nanos.toNat, by omega⟩
  obtain ⟨herror, hfraction⟩ := jsonencNanos_eq (show n < 1000000000 by omega)
  have hmonth := date.valid.month_le
  have hday := date.valid.day_lt
  have hhour := time.hour_lt
  have hmin := time.min_lt
  have hsec := time.sec_lt
  have htwo {n : ℕ} (hn : n < 100) : formatPadded 2 n = lastDigits 2 n := formatPadded_of_lt (by omega) hn
  have hencoding : jsonencTimestamp seconds n =
      jsonencPrintf (ascii '"' :: lastDigits 4 date.year ++ [ascii '-'] ++ lastDigits 2 date.month ++
        [ascii '-'] ++ lastDigits 2 date.day ++ [ascii 'T'] ++ lastDigits 2 time.hour ++ [ascii ':'] ++
        lastDigits 2 time.min ++ [ascii ':'] ++ lastDigits 2 time.sec) ++
      jsonencNanos n ++ jsonencPutstr ['Z', '"'] := by
    unfold jsonencTimestamp
    rw [if_neg (by omega), if_neg (by omega), hcivil]
    dsimp only [Arith.value_pure]
    rw [formatPadded_of_lt (by omega) hyear, htwo (by omega), htwo (by omega), htwo (by omega),
      htwo (by omega), htwo (by omega)]
  have hbegin : (jsonencPrintf (ascii '"' :: lastDigits 4 date.year ++ [ascii '-'] ++
      lastDigits 2 date.month ++ [ascii '-'] ++ lastDigits 2 date.day ++ [ascii 'T'] ++
      lastDigits 2 time.hour ++ [ascii ':'] ++ lastDigits 2 time.min ++ [ascii ':'] ++
      lastDigits 2 time.sec) ++ jsonencNanos n).error = none := Encoding.error_append.mpr ⟨rfl, herror⟩
  have htext : (jsonencTimestamp seconds n).text =
      ascii '"' :: (dateTimeText date time (jsonencNanos n).text ++ [ascii '"']) := by
    rw [hencoding, Encoding.text_append hbegin, Encoding.text_append rfl, text_jsonencPrintf,
      text_jsonencPutstr, dateTimeText]
    simp
  have hread := jsondecUnixtime_date date time hyear
  refine ⟨date, time, (jsonencNanos n).text, hseconds, by rwa [Int.toNat_natCast], ?_, htext, ?_, ?_, ?_⟩
  · rw [hencoding]
    exact Encoding.error_append.mpr ⟨hbegin, rfl⟩
  · rw [hcivil]
    rfl
  · rw [hread]
  · intro d rest hrest
    rw [htext, List.cons_append, List.append_assoc, List.singleton_append] at hrest
    rw [jsondecTimestamp, Prog.bind_of_ok (jsondecString_plain (plainText_dateTime date time hfraction) hrest),
      jsondecTimestampText_dateTime hyear (by omega) hfraction (by omega), hseconds, htext]
    simp [jsondecLift]

/-- The first moment of 1970. -/
theorem timestamp_roundTrip_epoch : ∃ (date : Date) (time : TimeOfDay) (fraction : List UInt8),
    unixSeconds date time = 0 ∧ IsFraction (0 : ℤ).toNat fraction ∧
      (jsonencTimestamp 0 0).error = none ∧
      (jsonencTimestamp 0 0).text = ascii '"' :: (dateTimeText date time fraction ++ [ascii '"']) ∧
      (jsonencCivil 0).overflows = [] ∧
      (jsondecUnixtime date.year date.month date.day time.hour time.min time.sec).overflows =
        wrapsFor date ∧
      ∀ (d : DecState) (rest : List UInt8), d.rest = (jsonencTimestamp 0 0).text ++ rest →
        jsondecTimestamp d = .ok ((0, 0), d.skip (jsonencTimestamp 0 0).text.length) :=
  timestamp_roundTrip 0 0 (by decide) (by decide) (by decide) (by decide)

/-- Before 1970 the subtraction of the days before 1970 wraps around. -/
theorem epochOffset_wraps : ¬∀ seconds : ℤ, -62135596800 ≤ seconds → seconds ≤ 253402300799 →
    ∀ op ∈ (jsondecUnixtime (jsonencCivil seconds).value.year (jsonencCivil seconds).value.month
      (jsonencCivil seconds).value.day (jsonencCivil seconds).value.hour (jsonencCivil seconds).value.min
      (jsonencCivil seconds).value.sec).overflows, op = .marchMonth := by
  intro h
  exact absurd (h (-86400) (by decide) (by decide) .epochOffset (by decide)) (by decide)

end Upb.Json
