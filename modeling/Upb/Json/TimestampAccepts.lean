import Mathlib.Tactic.NormNum
import Upb.Json.TimestampFields

/-!
# Which timestamps are real

`jsondec_timestamp` looks at the number of digits of each number and at the smallest timestamp. That a
month, a day, an hour or an offset exists, that a fraction has a digit, and that the timestamp is not too
large for `jsonenc_timestamp` is not looked at.
-/

namespace Upb.Json

open Common

/-- The text of an offset shows it. -/
theorem offsetText_injective {o o' : Option UtcOffset} (h : offsetText o = offsetText o') : o = o' := by
  cases o with
  | none =>
    cases o' with
    | none => rfl
    | some o' =>
      have hhead := (List.cons.inj h).1
      split at hhead
      · exact absurd hhead (by decide)
      · exact absurd hhead (by decide)
  | some o =>
    cases o' with
    | none =>
      have hhead := (List.cons.inj h).1
      split at hhead
      · exact absurd hhead (by decide)
      · exact absurd hhead (by decide)
    | some o' =>
      obtain ⟨neg, hour, min, hhour, hmin⟩ := o
      obtain ⟨neg', hour', min', hhour', hmin'⟩ := o'
      obtain ⟨hsign, hrest⟩ := List.cons.inj h
      have hne : ascii '+' ≠ ascii '-' := by decide
      obtain rfl : neg = neg' := by
        cases neg <;> cases neg' <;> first | rfl | exact absurd hsign hne | exact absurd hsign.symm hne
      obtain ⟨rfl, hrest⟩ := lastDigits_append_inj hhour hhour' hrest
      obtain ⟨rfl, -⟩ := lastDigits_append_inj hmin hmin' (List.append_cancel_left hrest)
      rfl

/-- The texts of a fraction and an offset show them. -/
theorem fractionText_append_injective {fr fr' : Option (List UInt8)} {o o' : Option UtcOffset}
    (hfr : ∀ ds, fr = some ds → ∀ ch ∈ ds, IsDigit ch) (hfr' : ∀ ds, fr' = some ds → ∀ ch ∈ ds, IsDigit ch)
    (h : fractionText fr ++ offsetText o = fractionText fr' ++ offsetText o') : fr = fr' ∧ o = o' := by
  obtain ⟨hdigit, hpoint⟩ := head_offsetText o
  obtain ⟨hdigit', hpoint'⟩ := head_offsetText o'
  cases fr with
  | none =>
    cases fr' with
    | none => exact ⟨rfl, offsetText_injective h⟩
    | some ds' => exact absurd (congrArg List.head? h) hpoint
  | some ds =>
    cases fr' with
    | none => exact absurd (congrArg List.head? h.symm) hpoint'
    | some ds' =>
      have htail : ds ++ offsetText o = ds' ++ offsetText o' := (List.cons.inj h).2
      have hds := congrArg leadingDigits htail
      have ho := congrArg afterDigits htail
      rw [leadingDigits_append (hfr ds rfl) hdigit, leadingDigits_append (hfr' ds' rfl) hdigit'] at hds
      rw [afterDigits_append (hfr ds rfl) hdigit, afterDigits_append (hfr' ds' rfl) hdigit'] at ho
      exact ⟨congrArg some hds, offsetText_injective ho⟩

namespace TimestampFields

/-- The numbers are those of a date, a time of day, a fraction and an offset. -/
structure Valid (f : TimestampFields) : Prop where
  date : ValidDate f.year f.month f.day
  hour_lt : f.hour < 24
  min_lt : f.min < 60
  sec_lt : f.sec < 60
  fraction_ne : f.fraction ≠ some []
  offset : ∀ o, f.offset = some o → o.hour < 24 ∧ o.min < 60

/-- The date. -/
def date (f : TimestampFields) (h : f.Valid) : Date := ⟨f.year, f.month, f.day, h.date⟩

/-- The time of day. -/
def time (f : TimestampFields) (h : f.Valid) : TimeOfDay :=
  ⟨f.hour, f.min, f.sec, h.hour_lt, h.min_lt, h.sec_lt⟩

/-- The fraction is exactly so many nanoseconds. -/
def ExactNanos (f : TimestampFields) (nanos : ℤ) : Prop :=
  match f.fraction with
  | none => nanos = 0
  | some ds => nanos * 10 ^ ds.length = digitsValue ds * 10 ^ 9

/-- The text shows the numbers. -/
theorem text_injective {f g : TimestampFields} (h : f.text = g.text) : f = g := by
  obtain ⟨hyear, h⟩ := lastDigits_append_inj f.year_lt g.year_lt h
  obtain ⟨hmonth, h⟩ := lastDigits_append_inj f.month_lt g.month_lt (List.append_cancel_left h)
  obtain ⟨hday, h⟩ := lastDigits_append_inj f.day_lt g.day_lt (List.append_cancel_left h)
  obtain ⟨hhour, h⟩ := lastDigits_append_inj f.hour_lt g.hour_lt (List.append_cancel_left h)
  obtain ⟨hmin, h⟩ := lastDigits_append_inj f.min_lt g.min_lt (List.append_cancel_left h)
  obtain ⟨hsec, h⟩ := lastDigits_append_inj f.sec_lt g.sec_lt (List.append_cancel_left h)
  obtain ⟨hfraction, hoffset⟩ :=
    fractionText_append_injective f.fraction_digits g.fraction_digits (List.append_cancel_left h)
  cases f
  cases g
  dsimp only at hyear hmonth hday hhour hmin hsec hfraction hoffset
  subst hyear hmonth hday hhour hmin hsec hfraction hoffset
  rfl

/-- The seconds of a date and a time. -/
theorem seconds_of_valid {f : TimestampFields} (h : f.Valid) :
    f.seconds = unixSeconds (f.date h) (f.time h) - (f.offset.map UtcOffset.seconds).getD 0 := by
  have hdays := congrArg Arith.value (jsondecEpochdays_date (f.date h) f.year_lt)
  rw [show (jsondecEpochdays (f.date h).year (f.date h).month (f.date h).day).value = f.days from
    jsondecEpochdays_value f.year_lt f.month_lt f.day_lt] at hdays
  rw [seconds, unixSeconds, hdays]
  rfl

/-- A fraction of at most nine digits is exactly as many nanoseconds as are read. -/
theorem exactNanos_of_le {f : TimestampFields} (h : ∀ ds, f.fraction = some ds → ds.length ≤ 9) :
    f.ExactNanos f.nanos := by
  unfold ExactNanos nanos
  cases hfraction : f.fraction with
  | none => rfl
  | some ds =>
    have hlength := h ds hfraction
    dsimp only
    rw [Option.map_some, Option.getD_some, fractionNanos_eq (f.fraction_digits ds hfraction) hlength]
    norm_cast
    rw [Nat.mul_assoc, ← Nat.pow_add, Nat.sub_add_cancel hlength]

/-- An exact fraction is less than a second. -/
theorem exactNanos_range {f : TimestampFields} {nanos : ℤ} (h : f.ExactNanos nanos) :
    0 ≤ nanos ∧ nanos ≤ 999999999 := by
  unfold ExactNanos at h
  cases hfraction : f.fraction with
  | none =>
    rw [hfraction] at h
    dsimp only at h
    omega
  | some ds =>
    rw [hfraction] at h
    dsimp only at h
    have hlt := digitsValue_lt (f.fraction_digits ds hfraction)
    have hpow : (0 : ℤ) < 10 ^ ds.length := by positivity
    constructor
    · by_contra hneg
      have hle : nanos * 10 ^ ds.length ≤ -1 * 10 ^ ds.length :=
        Int.mul_le_mul_of_nonneg_right (by omega) hpow.le
      omega
    · by_contra hge
      have hle : 1000000000 * 10 ^ ds.length ≤ nanos * 10 ^ ds.length :=
        Int.mul_le_mul_of_nonneg_right (by omega) hpow.le
      have hcast : ((digitsValue ds : ℕ) : ℤ) < 10 ^ ds.length := by exact_mod_cast hlt
      omega

end TimestampFields

/-- The string is a date and a time of RFC 3339, and these seconds and nanoseconds are its instant. -/
def IsDateTime (str : List UInt8) (seconds nanos : ℤ) : Prop :=
  ∃ (f : TimestampFields) (h : f.Valid), f.text = str ∧
    seconds = unixSeconds (f.date h) (f.time h) - (f.offset.map UtcOffset.seconds).getD 0 ∧
    f.ExactNanos nanos

/-- If the string is accepted, it is a date and a time, and encoding the timestamp again gives a text that
is decoded to the same timestamp. -/
def AcceptsReal (str : List UInt8) : Prop :=
  ∀ seconds nanos, jsondecTimestampText str = .ok (seconds, nanos) →
    IsDateTime str seconds nanos ∧ (jsonencTimestamp seconds nanos).error = none ∧
      ∀ (d : DecState) (rest : List UInt8), d.rest = (jsonencTimestamp seconds nanos).text ++ rest →
        ∃ d', jsondecTimestamp d = .ok ((seconds, nanos), d')

/-- The numbers of the string exist, and their seconds are not too large. -/
def NumbersExist (str : List UInt8) : Prop :=
  ∀ f : TimestampFields, f.text = str → f.FractionRead → -62135596800 ≤ f.seconds →
    f.Valid ∧ f.seconds ≤ 253402300799 ∧ f.ExactNanos f.nanos

/-- Nothing is encoded above the last second of the year 9999. -/
theorem le_of_jsonencTimestamp {seconds nanos : ℤ} (h : (jsonencTimestamp seconds nanos).error = none) :
    seconds ≤ 253402300799 := by
  unfold jsonencTimestamp at h
  split at h
  · cases h
  · split at h
    · cases h
    next hle => exact Int.not_lt.mp hle

/-- What is read from the text of existing numbers is real. -/
theorem acceptsReal_of_numbersExist {str : List UInt8} (h : NumbersExist str) : AcceptsReal str := by
  intro seconds nanos hread
  obtain ⟨f, htext, hfraction, rfl, rfl, hlo⟩ := (jsondecTimestampText_eq_ok str seconds nanos).mp hread
  obtain ⟨hvalid, hhi, hexact⟩ := h f htext hfraction hlo
  obtain ⟨hnanos, hnanos'⟩ := TimestampFields.exactNanos_range hexact
  obtain ⟨-, -, -, -, -, herror, -, -, -, hdecode⟩ :=
    timestamp_roundTrip f.seconds f.nanos hlo hhi hnanos hnanos'
  exact ⟨⟨f, hvalid, htext, TimestampFields.seconds_of_valid hvalid, hexact⟩, herror,
    fun d rest hrest => ⟨_, hdecode d rest hrest⟩⟩

/-- A string that is accepted with numbers that do not exist. -/
theorem not_acceptsReal {f : TimestampFields} (hfraction : f.FractionRead)
    (hlo : -62135596800 ≤ f.seconds)
    (hnot : ¬(f.Valid ∧ f.seconds ≤ 253402300799 ∧ f.ExactNanos f.nanos)) : ¬AcceptsReal f.text := by
  intro h
  have hread := (jsondecTimestampText_eq_ok f.text f.seconds f.nanos).mpr ⟨f, rfl, hfraction, rfl, rfl, hlo⟩
  obtain ⟨⟨g, hvalid, htext, hseconds, hexact⟩, herror, -⟩ := h f.seconds f.nanos hread
  obtain rfl := TimestampFields.text_injective htext
  exact hnot ⟨hvalid, le_of_jsonencTimestamp herror, hexact⟩

/-- A string is decoded to a real timestamp, or not accepted, exactly if its numbers exist. -/
theorem acceptsReal_iff (str : List UInt8) : AcceptsReal str ↔ NumbersExist str := by
  constructor
  · intro h f htext hfraction hlo
    by_contra hnot
    exact not_acceptsReal hfraction hlo hnot (htext ▸ h)
  · exact acceptsReal_of_numbersExist

/-- The first of a month after December. -/
def monthThirteen : TimestampFields :=
  ⟨2024, 13, 1, 0, 0, 0, none, none, by decide, by decide, by decide, by decide, by decide, by decide, nofun⟩

/-- "2024-13-01T00:00:00Z" is accepted. -/
theorem monthThirteen_not_real :
    ¬AcceptsReal (['2', '0', '2', '4', '-', '1', '3', '-', '0', '1', 'T', '0', '0', ':', '0', '0', ':', '0',
      '0', 'Z'].map ascii) := by
  have htext : monthThirteen.text = ['2', '0', '2', '4', '-', '1', '3', '-', '0', '1', 'T', '0', '0', ':',
      '0', '0', ':', '0', '0', 'Z'].map ascii := by decide
  rw [← htext]
  apply not_acceptsReal
  · exact nofun
  · decide
  · intro h
    exact absurd h.1.date.month_le (by decide)

end Upb.Json
