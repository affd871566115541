import Upb.Common.Except
import Upb.Json.TimestampRoundTrip

/-!
# The strings that are read as timestamps

`jsondec_timestamp` accepts every string of digits and separators in the right places whose seconds are not
too small, whatever numbers the digits denote.
-/

namespace Upb.Json

open Common

/-- An offset from UTC: two digits for the hours and two for the minutes. -/
structure UtcOffset where
  neg : Bool
  hour : ℕ
  min : ℕ
  hour_lt : hour < 100
  min_lt : min < 100

/-- The numbers of a timestamp: four digits for the year and two for each of the others, any digits after a
point, and `Z` or an offset. -/
structure TimestampFields where
  year : ℕ
  month : ℕ
  day : ℕ
  hour : ℕ
  min : ℕ
  sec : ℕ
  fraction : Option (List UInt8)
  offset : Option UtcOffset
  year_lt : year < 10000
  month_lt : month < 100
  day_lt : day < 100
  hour_lt : hour < 100
  min_lt : min < 100
  sec_lt : sec < 100
  fraction_digits : ∀ ds, fraction = some ds → ∀ ch ∈ ds, IsDigit ch

/-- The text of an offset. -/
def UtcOffset.text (o : UtcOffset) : List UInt8 :=
  (if o.neg then ascii '-' else ascii '+') ::
    (lastDigits 2 o.hour ++ ([ascii ':'] ++ (lastDigits 2 o.min ++ [])))

/-- The seconds of an offset. -/
def UtcOffset.seconds (o : UtcOffset) : ℤ :=
  (if o.neg then -1 else 1) * ((o.hour * 60 + o.min) * 60 : ℕ)

/-- The text of an offset or `Z`. -/
def offsetText : Option UtcOffset → List UInt8
  | none => [ascii 'Z']
  | some o => o.text

namespace TimestampFields

/-- The string. -/
def text (f : TimestampFields) : List UInt8 :=
  lastDigits 4 f.year ++ ([ascii '-'] ++ (lastDigits 2 f.month ++ ([ascii '-'] ++
    (lastDigits 2 f.day ++ ([ascii 'T'] ++ (lastDigits 2 f.hour ++ ([ascii ':'] ++
      (lastDigits 2 f.min ++ ([ascii ':'] ++ (lastDigits 2 f.sec ++ ([] ++
        (fractionText f.fraction ++ offsetText f.offset))))))))))))

/-- The days of the date, by the formula for years that start with March. -/
def days (f : TimestampFields) : ℤ :=
  marchEpochDays (if f.month < 3 then f.year + 4799 else f.year + 4800)
    (if f.month < 3 then f.month + 9 else f.month - 3) f.day - 2472632

/-- The seconds that the numbers add up to. -/
def seconds (f : TimestampFields) : ℤ :=
  f.days * 86400 + (f.hour * 3600 + f.min * 60 + f.sec : ℕ) - (f.offset.map UtcOffset.seconds).getD 0

/-- The nanoseconds of the fraction. -/
def nanos (f : TimestampFields) : ℤ := (f.fraction.map fractionNanos).getD 0

/-- The fraction can be read. -/
def FractionRead (f : TimestampFields) : Prop :=
  ∀ ds, f.fraction = some ds → DigitsRead ds

end TimestampFields

section Read

variable {ptr rest after : List UInt8} {width : ℕ} {v : ℤ}

/-- What `jsondec_tsdigits` accepts. -/
theorem jsondecTsdigits_eq_ok (hlength : width ≤ ptr.length) (hwidth : width ≤ 9) :
    jsondecTsdigits ptr width after = .ok (v, rest) ↔
      ∃ n : ℕ, n < 10 ^ width ∧ v = n ∧ ptr = lastDigits width n ++ (after ++ rest) := by
  constructor
  · intro h
    unfold jsondecTsdigits jsondecBuftouint64 at h
    rw [bufToUint64_eq] at h
    split at h
    · cases h
    next val p hread =>
      split at hread
      · cases hread
      next r hread' =>
        cases hread
        split at hread'
        · cases hread'
          split at h
          next hok =>
            obtain ⟨hall, hafter⟩ := hok
            cases h
            -- All bytes are digits, so that they are the last digits of the number.
            have hdigits := leadingDigits_append_afterDigits (ptr.take width)
            rw [hall, List.append_nil] at hdigits
            obtain ⟨t, ht⟩ := List.isPrefixOf_iff_prefix.mp hafter
            have hlast := lastDigits_digitsValue (@isDigit_leadingDigits (ptr.take width))
            rw [hdigits, List.length_take, Nat.min_eq_left hlength] at hlast
            refine ⟨_, ?_, rfl, ?_⟩
            · have hlt := digitsValue_lt (@isDigit_leadingDigits (ptr.take width))
              rwa [hdigits, List.length_take, Nat.min_eq_left hlength, ← hdigits] at hlt
            · rw [hdigits, hlast, ← List.drop_drop, ← ht, List.drop_left, ht, List.take_append_drop]
          next => cases h
        · cases hread'
  · rintro ⟨n, hn, rfl, rfl⟩
    exact jsondecTsdigits_lastDigits hn hwidth after rest

/-- The text of an offset does not continue a fraction. -/
theorem head_offsetText (o : Option UtcOffset) :
    NoDigit (offsetText o) ∧ (offsetText o).head? ≠ some (ascii '.') := by
  cases o with
  | none => exact ⟨noDigit_cons (by decide), by decide⟩
  | some o =>
    have hhead : (offsetText (some o)).head? = some (ascii '-') ∨
        (offsetText (some o)).head? = some (ascii '+') := by
      unfold offsetText UtcOffset.text
      rw [List.head?_cons]
      split
      · exact .inl rfl
      · exact .inr rfl
    constructor
    · intro ch rest h
      rw [h, List.head?_cons, Option.some.injEq, Option.some.injEq] at hhead
      rcases hhead with rfl | rfl
      · decide
      · decide
    · rcases hhead with h | h
      · rw [h]
        decide
      · rw [h]
        decide

/-- A fraction in front of an offset is read. -/
theorem jsondecNanos_fields {f : TimestampFields} (h : f.FractionRead) :
    jsondecNanos (fractionText f.fraction ++ offsetText f.offset) = .ok (f.nanos, offsetText f.offset) := by
  obtain ⟨hdigit, hpoint⟩ := head_offsetText f.offset
  exact jsondecNanos_fractionText (fun ds hds => ⟨f.fraction_digits ds hds, h ds hds⟩) hdigit hpoint

/-- What the end of `jsondec_timestamp` accepts. -/
theorem jsondecOffset_eq_ok {seconds s : ℤ} :
    jsondecOffset seconds ptr = .ok s ↔
      ∃ o : Option UtcOffset, ptr = offsetText o ∧ s = seconds - (o.map UtcOffset.seconds).getD 0 := by
  constructor
  · intro h
    cases ptr with
    | nil => cases h
    | cons ch ptr =>
      rw [jsondecOffset] at h
      split at h
      next hsign =>
        split at h
        · cases h
        next hlength =>
          obtain ⟨⟨hour, ptr'⟩, hhour, hrest⟩ := bind_eq_ok.mp h
          obtain ⟨⟨min, ptr''⟩, hmin, hsum⟩ := bind_eq_ok.mp hrest
          have hlength := not_not.mp hlength
          obtain ⟨n, hn, rfl, rfl⟩ := (jsondecTsdigits_eq_ok (by omega) (by omega)).mp hhour
          simp only [List.length_append, length_lastDigits, List.length_singleton] at hlength
          obtain ⟨k, hk, rfl, rfl⟩ := (jsondecTsdigits_eq_ok (by omega) (by omega)).mp hmin
          simp only [List.length_append, length_lastDigits, List.length_nil] at hlength
          obtain rfl : ptr'' = [] := List.eq_nil_of_length_eq_zero (by omega)
          cases hsum
          refine ⟨some ⟨ch = ascii '-', n, k, hn, hk⟩, ?_, ?_⟩
          · rcases hsign with rfl | rfl <;> rfl
          · rcases hsign with rfl | rfl
            · simp [UtcOffset.seconds]
            · simp [UtcOffset.seconds, show ascii '+' ≠ ascii '-' by decide]
              omega
      next =>
        split at h
        next hz =>
          split at h
          · cases h
          next hnil =>
            cases h
            rw [hz, not_not.mp hnil]
            exact ⟨none, rfl, (sub_zero _).symm⟩
        · cases h
  · rintro ⟨o, rfl, rfl⟩
    cases o with
    | none => exact congrArg Except.ok (sub_zero _).symm
    | some o =>
      have hlength : (lastDigits 2 o.hour ++ ([ascii ':'] ++ (lastDigits 2 o.min ++ []))).length = 5 := by
        simp
      have hhour := jsondecTsdigits_lastDigits o.hour_lt (by omega : 2 ≤ 9) [ascii ':']
        (lastDigits 2 o.min ++ [])
      have hmin := jsondecTsdigits_lastDigits o.min_lt (by omega : 2 ≤ 9) [] []
      unfold offsetText UtcOffset.text
      rw [jsondecOffset, if_pos (by split <;> simp), if_neg (not_not.mpr hlength), hhour]
      change (jsondecTsdigits (lastDigits 2 o.min ++ ([] ++ [])) 2 [] >>= _) = _
      rw [hmin, Option.map_some, Option.getD_some, UtcOffset.seconds]
      change Except.ok _ = Except.ok _
      congr 1
      cases o.neg with
      | false =>
        rw [if_neg (by decide), if_neg Bool.false_ne_true]
        omega
      | true =>
        rw [if_pos rfl, if_pos rfl, if_pos rfl]
        omega

end Read

/-- `jsondec_unixtime` of numbers of two and four digits. -/
theorem jsondecUnixtime_fields (f : TimestampFields) :
    (jsondecUnixtime f.year f.month f.day f.hour f.min f.sec).value =
      f.days * 86400 + (f.hour * 3600 + f.min * 60 + f.sec : ℕ) := by
  have hhour := f.hour_lt
  have hmin := f.min_lt
  have hsec := f.sec_lt
  have hbounds : -2 ^ 31 ≤ f.days ∧ f.days < 2 ^ 31 := by
    have hyear := f.year_lt
    have hmonth := f.month_lt
    have hday := f.day_lt
    unfold TimestampFields.days marchEpochDays
    split <;> omega
  unfold jsondecUnixtime
  rw [Arith.value_bind, jsondecEpochdays_value f.year_lt f.month_lt f.day_lt]
  change Arith.value (Arith.int64 _ (f.days * 86400) >>= _) = _
  rw [Arith.int64_of_fits _ (by omega), Arith.pure_bind, Arith.int32_of_fits _ (by omega), Arith.pure_bind,
    Arith.int64_of_fits _ (by omega), Arith.pure_bind, Arith.int32_of_fits _ (by omega), Arith.pure_bind,
    Arith.int64_of_fits _ (by omega), Arith.pure_bind, Arith.int64_of_fits _ (by omega), Arith.value_pure]
  omega

/-- The strings that `jsondec_timestamp` accepts, and what it reads from them. -/
theorem jsondecTimestampText_eq_ok (str : List UInt8) (s n : ℤ) :
    jsondecTimestampText str = .ok (s, n) ↔
      ∃ f : TimestampFields, f.text = str ∧ f.FractionRead ∧ s = f.seconds ∧ n = f.nanos ∧
        -62135596800 ≤ f.seconds := by
  constructor
  · intro h
    unfold jsondecTimestampText at h
    split at h
    · cases h
    next hlength =>
      obtain ⟨⟨year, p1⟩, hyear, h1⟩ := bind_eq_ok.mp h
      obtain ⟨⟨mon, p2⟩, hmon, h2⟩ := bind_eq_ok.mp h1
      obtain ⟨⟨day, p3⟩, hday, h3⟩ := bind_eq_ok.mp h2
      obtain ⟨⟨hour, p4⟩, hhour, h4⟩ := bind_eq_ok.mp h3
      obtain ⟨⟨min, p5⟩, hmin, h5⟩ := bind_eq_ok.mp h4
      obtain ⟨⟨sec, p6⟩, hsec, h6⟩ := bind_eq_ok.mp h5
      obtain ⟨⟨nanos, p7⟩, hnanos, h7⟩ := bind_eq_ok.mp h6
      obtain ⟨seconds, hoffset, h8⟩ := bind_eq_ok.mp h7
      obtain ⟨y, hy, rfl, hstr⟩ := (jsondecTsdigits_eq_ok (by omega) (by omega)).mp hyear
      have l1 := congrArg List.length hstr
      simp only [List.length_append, length_lastDigits, List.length_singleton] at l1
      obtain ⟨mo, hmo, rfl, e1⟩ := (jsondecTsdigits_eq_ok (by omega) (by omega)).mp hmon
      have l2 := congrArg List.length e1
      simp only [List.length_append, length_lastDigits, List.length_singleton] at l2
      obtain ⟨d, hd, rfl, e2⟩ := (jsondecTsdigits_eq_ok (by omega) (by omega)).mp hday
      have l3 := congrArg List.length e2
      simp only [List.length_append, length_lastDigits, List.length_singleton] at l3
      obtain ⟨ho, hho, rfl, e3⟩ := (jsondecTsdigits_eq_ok (by omega) (by omega)).mp hhour
      have l4 := congrArg List.length e3
      simp only [List.length_append, length_lastDigits, List.length_singleton] at l4
      obtain ⟨mi, hmi, rfl, e4⟩ := (jsondecTsdigits_eq_ok (by omega) (by omega)).mp hmin
      have l5 := congrArg List.length e4
      simp only [List.length_append, length_lastDigits, List.length_singleton] at l5
      obtain ⟨se, hse, rfl, e5⟩ := (jsondecTsdigits_eq_ok (by omega) (by omega)).mp hsec
      obtain ⟨fraction, e6, hfraction, hn⟩ := jsondecNanos_of_ok hnanos
      obtain ⟨offset, e7, hs⟩ := jsondecOffset_eq_ok.mp hoffset
      obtain ⟨f, hf⟩ : ∃ f : TimestampFields, f = ⟨y, mo, d, ho, mi, se, fraction, offset, hy, hmo, hd, hho,
        hmi, hse, fun ds hds => (hfraction ds hds).1⟩ := ⟨_, rfl⟩
      have hunix := jsondecUnixtime_fields f
      have hseconds : seconds = f.seconds := by
        rw [hf] at hunix
        rw [hs, hunix, hf]
        rfl
      split at h8
      · cases h8
      next hlow =>
        cases h8
        refine ⟨f, ?_, ?_, hseconds, ?_, ?_⟩
        · rw [hstr, e1, e2, e3, e4, e5, e6, e7, hf]
          rfl
        · rw [hf]
          exact fun ds hds => (hfraction ds hds).2
        · rw [hn, hf]
          rfl
        · rw [← hseconds]
          exact Int.not_lt.mp hlow
  · rintro ⟨f, rfl, hread, rfl, rfl, hlo⟩
    have hlength : ¬f.text.length < 20 := by
      have htail : 0 < (offsetText f.offset).length := by
        unfold offsetText
        split
        · simp
        · simp [UtcOffset.text]
      simp only [TimestampFields.text, List.length_append, length_lastDigits, List.length_singleton,
        List.length_nil]
      omega
    have htwo {n : ℕ} (hn : n < 100) (after rest : List UInt8) :
        jsondecTsdigits (lastDigits 2 n ++ (after ++ rest)) 2 after = .ok ((n : ℤ), rest) :=
      jsondecTsdigits_lastDigits hn (by omega) after rest
    have hyears (rest : List UInt8) : jsondecTsdigits (lastDigits 4 f.year ++ ([ascii '-'] ++ rest)) 4
        [ascii '-'] = .ok ((f.year : ℤ), rest) :=
      jsondecTsdigits_lastDigits f.year_lt (by omega) _ rest
    have hoffset : jsondecOffset (f.days * 86400 + (f.hour * 3600 + f.min * 60 + f.sec : ℕ))
        (offsetText f.offset) = .ok f.seconds := jsondecOffset_eq_ok.mpr ⟨f.offset, rfl, rfl⟩
    rw [jsondecTimestampText, if_neg hlength]
    unfold TimestampFields.text
    simp only [hyears, htwo f.month_lt, htwo f.day_lt, htwo f.hour_lt, htwo f.min_lt, htwo f.sec_lt,
      jsondecNanos_fields hread, jsondecUnixtime_fields, hoffset, bind, Except.bind]
    rw [if_neg (Int.not_lt.mpr hlo)]
    rfl

end Upb.Json
