import Upb.Common.Calendar
import Upb.Json.Timestamp

/-!
# The dates of timestamps

The divisions of `jsonenc_timestamp` give the date of the day, and `jsondec_epochdays` gives the day of the
date. Both count in years that start with March: a century is found by the days before it, a year of the
century by the days before it, and so is a month of the year.
-/

namespace Upb.Json

open Common Arith

/-- The century of a day. -/
theorem jsonencCentury_eq {l : ℕ} (h : l < 2 ^ 24) : ∃ c r : ℕ,
    jsonencCentury l = pure ((c : ℤ), (r : ℤ)) ∧
      l = (146097 * c + 3) / 4 + r ∧ l < (146097 * (c + 1) + 3) / 4 := by
  obtain ⟨c, hc⟩ : ∃ c, c = 4 * l / 146097 := ⟨_, rfl⟩
  have hle : (146097 * c + 3) / 4 ≤ l := by omega
  refine ⟨c, l - (146097 * c + 3) / 4, ?_, by omega, by omega⟩
  have hn : (4 * (l : ℤ)).tdiv 146097 = c := by
    rw [Int.tdiv_eq_ediv_of_nonneg (by omega)]
    omega
  unfold jsonencCentury
  rw [int32_of_fits _ (by omega), Arith.pure_bind, hn]
  dsimp only
  rw [int32_of_fits _ (by omega), Arith.pure_bind, int32_of_fits _ (by omega), Arith.pure_bind,
    Int.tdiv_eq_ediv_of_nonneg (by omega), int32_of_fits _ (by omega), Arith.pure_bind]
  congr 2
  omega

/-- The year of a day of a century. -/
theorem jsonencYear_eq {r : ℕ} (h : r < 36525) : ∃ y t : ℕ,
    jsonencYear r = pure ((y : ℤ), (t : ℤ) + 31) ∧
      r = 1461 * y / 4 + t ∧ r < 1461 * (y + 1) / 4 ∧ y < 100 := by
  obtain ⟨y, hy⟩ : ∃ y, y = 4000 * (r + 1) / 1461001 := ⟨_, rfl⟩
  have hle : 1461 * y / 4 ≤ r := by omega
  refine ⟨y, r - 1461 * y / 4, ?_, by omega, by omega, by omega⟩
  have hi : (4000 * ((r : ℤ) + 1)).tdiv 1461001 = y := by
    rw [Int.tdiv_eq_ediv_of_nonneg (by omega)]
    omega
  unfold jsonencYear
  rw [int32_of_fits _ (by omega), Arith.pure_bind, int32_of_fits _ (by omega), Arith.pure_bind, hi]
  dsimp only
  rw [int32_of_fits _ (by omega), Arith.pure_bind, Int.tdiv_eq_ediv_of_nonneg (by omega),
    int32_of_fits _ (by omega), Arith.pure_bind, int32_of_fits _ (by omega), Arith.pure_bind]
  congr 2
  omega

/-- The month and the day of a day of a year that starts with March. -/
theorem jsonencMonth_eq (c y : ℕ) {t : ℕ} (hc : c < 2 ^ 20) (hy : y < 100)
    (ht : t < 365 + leapDays (100 * c + y + 1)) : ∃ date : Date,
    jsonencMonth (c + 49) y (t + 31) = pure ((date.year : ℤ), (date.month : ℤ), (date.day : ℤ)) ∧
      dayNumber date.year date.month date.day = marchDay (100 * c + y) + t := by
  have hleap := leapDays_le (100 * c + y + 1)
  obtain ⟨j, hj⟩ : ∃ j, j = 80 * (t + 31) / 2447 := ⟨_, rfl⟩
  have htdiv : (80 * ((t : ℤ) + 31)).tdiv 2447 = j := by
    rw [Int.tdiv_eq_ediv_of_nonneg (by omega)]
    omega
  have hmonth : jsonencMonth (c + 49) y (t + 31) =
      pure (100 * (c : ℤ) + y + (j / 11 : ℕ), (j : ℤ) + 2 - 12 * (j / 11 : ℕ),
        (t : ℤ) + 31 - (2447 * j / 80 : ℕ)) := by
    unfold jsonencMonth
    rw [int32_of_fits _ (by omega), Arith.pure_bind, htdiv]
    dsimp only
    rw [int32_of_fits _ (by omega), Arith.pure_bind, Int.tdiv_eq_ediv_of_nonneg (by omega),
      int32_of_fits _ (by omega), Arith.pure_bind, Int.tdiv_eq_ediv_of_nonneg (by omega : (0 : ℤ) ≤ j)]
    rw [int32_of_fits _ (by omega), Arith.pure_bind, int32_of_fits _ (by omega), Arith.pure_bind, int32_of_fits _ (by omega), Arith.pure_bind,
      int32_of_fits _ (by omega), Arith.pure_bind, int32_of_fits _ (by omega), Arith.pure_bind,
      int32_of_fits _ (by omega), Arith.pure_bind, int32_of_fits _ (by omega), Arith.pure_bind]
    congr 2
    · omega
  obtain ⟨k, rfl⟩ : ∃ k, j = k + 1 := ⟨j - 1, by omega⟩
  have hk : k = 0 ∨ k = 1 ∨ k = 2 ∨ k = 3 ∨ k = 4 ∨ k = 5 ∨ k = 6 ∨ k = 7 ∨ k = 8 ∨ k = 9 ∨ k = 10 ∨
      k = 11 := by omega
  have hdays : 2447 * (k + 1) / 80 = daysBeforeMarchMonth k + 30 ∧ daysBeforeMarchMonth k ≤ t ∧
      t < daysBeforeMarchMonth (k + 1) := by
    unfold daysBeforeMarchMonth
    rcases hk with rfl | rfl | rfl | rfl | rfl | rfl | rfl | rfl | rfl | rfl | rfl | rfl <;> omega
  obtain ⟨hstart, hlo, hhi⟩ := hdays
  obtain ⟨date, hyear, hmonth', hday, hnumber⟩ := exists_date (by omega) hlo hhi ht
  refine ⟨date, ?_, hnumber⟩
  rw [hmonth, hstart]
  congr 3
  · omega
  · omega
  · omega

/-- A time of day. -/
structure TimeOfDay where
  hour : ℕ
  min : ℕ
  sec : ℕ
  hour_lt : hour < 24
  min_lt : min < 60
  sec_lt : sec < 60

/-- The seconds from the first of January 1970 to a date and a time of day, without leap seconds. -/
def unixSeconds (date : Date) (time : TimeOfDay) : ℤ :=
  date.epochDay * 86400 + (time.hour * 3600 + time.min * 60 + time.sec : ℕ)

/-- The date of a number of days. -/
theorem jsonencDate_eq {days : ℕ} (h : days ≤ 3652058) : ∃ date : Date,
    jsonencDate days = pure ((date.year : ℤ), (date.month : ℤ), (date.day : ℤ)) ∧
      dayNumber date.year date.month date.day = days + 366 := by
  obtain ⟨c, r, hcentury, hl, hnext⟩ := jsonencCentury_eq (l := days + 1789995) (by omega)
  obtain ⟨y, t, hyear, hr, hnext', hy⟩ := jsonencYear_eq (r := r) (by omega)
  obtain ⟨c, rfl⟩ : ∃ c', c = c' + 49 := ⟨c - 49, by omega⟩
  have hmarch := marchDay_century c hy
  have hstart : (146097 * (c + 49) + 3) / 4 = 146097 * c / 4 + 1789689 := by omega
  have hend : (146097 * (c + 49 + 1) + 3) / 4 = 146097 * (c + 1) / 4 + 1789689 := by omega
  have hlength : t < 365 + leapDays (100 * c + y + 1) := by
    have hsucc := marchDay_succ (100 * c + y)
    rcases Nat.lt_or_ge y 99 with hlt | hge
    · have hyear' : marchDay (100 * c + y + 1) = 146097 * c / 4 + 1461 * (y + 1) / 4 + 60 :=
        marchDay_century c (Nat.succ_lt_succ hlt)
      omega
    · have hcentury' : marchDay (100 * c + y + 1) = 146097 * (c + 1) / 4 + 1461 * 0 / 4 + 60 := by
        rw [← marchDay_century (c + 1) (Nat.succ_pos 99), show y = 99 by omega]
        rfl
      omega
  obtain ⟨date, hmonth, hnumber⟩ := jsonencMonth_eq c y (by omega) hy hlength
  refine ⟨date, ?_, ?_⟩
  · unfold jsonencDate
    rw [int32_of_fits _ (by omega), Arith.pure_bind, int32_of_fits _ (by omega), Arith.pure_bind,
      int32_of_fits _ (by omega), Arith.pure_bind,
      show (days : ℤ) - 719162 + 68569 + 2440588 = (days + 1789995 : ℕ) by omega, hcentury,
      Arith.pure_bind]
    dsimp only
    rw [hyear, Arith.pure_bind]
    dsimp only
    rw [Nat.cast_add, Nat.cast_ofNat, hmonth]
  · rw [hnumber, hmarch]
    omega

/-- `jsonenc_timestamp` computes the date and the time of day of the seconds, without an overflow. -/
theorem jsonencCivil_eq {seconds : ℤ} (hlo : -62135596800 ≤ seconds) (hhi : seconds ≤ 253402300799) :
    ∃ (date : Date) (time : TimeOfDay), date.year < 10000 ∧ unixSeconds date time = seconds ∧
      jsonencCivil seconds =
        pure ⟨date.year, date.month, date.day, time.hour, time.min, time.sec⟩ := by
  obtain ⟨s, hs⟩ : ∃ s : ℕ, seconds + 62135596800 = s := ⟨(seconds + 62135596800).toNat, by omega⟩
  obtain ⟨date, hdate, hnumber⟩ := jsonencDate_eq (show s / 86400 ≤ 3652058 by omega)
  have hyear : date.year < 10000 := by
    by_contra hge
    have hmono := daysBeforeYear_mono (Nat.le_of_not_lt hge)
    have hlast := daysBeforeYear_succ 9999
    simp only [Nat.reduceAdd, Nat.reduceDiv, Nat.reduceMul] at hlast
    have hle : daysBeforeYear date.year ≤ dayNumber date.year date.month date.day := by
      unfold dayNumber
      omega
    omega
  refine ⟨date, ⟨s / 3600 % 24, s / 60 % 60, s % 60, by omega, by omega, by omega⟩, hyear, ?_, ?_⟩
  · rw [unixSeconds, Date.epochDay, hnumber, dayNumber_unixEpoch]
    dsimp only
    omega
  · unfold jsonencCivil
    rw [int64_of_fits _ (by omega), Arith.pure_bind, hs, Int.tdiv_eq_ediv_of_nonneg (by omega),
      int32_of_fits _ (by omega), Arith.pure_bind, show (s : ℤ) / 86400 = (s / 86400 : ℕ) by omega, hdate,
      Arith.pure_bind]
    dsimp only
    rw [Int.tdiv_eq_ediv_of_nonneg (by omega), Int.tdiv_eq_ediv_of_nonneg (by omega),
      Int.tmod_eq_emod_of_nonneg (by omega), Int.tmod_eq_emod_of_nonneg (by omega),
      Int.tmod_eq_emod_of_nonneg (by omega)]
    rfl

section Days

variable {y m d k : ℕ}

/-- From March on the month stays in its year. -/
theorem jsondecMarchMonth_of_ge (hm : 3 ≤ m) (hm' : m < 100) (hy : y < 10000) :
    jsondecMarchMonth y m = pure (((y + 4800 : ℕ) : ℤ), ((m - 3 : ℕ) : ℤ)) := by
  unfold jsondecMarchMonth
  rw [uint32_of_fits _ (by omega), Arith.pure_bind]
  dsimp only
  rw [if_neg (by omega), if_neg (by omega), uint32_of_fits _ (by omega), Arith.pure_bind,
    uint32_of_fits _ (by omega), Arith.pure_bind, uint32_of_fits _ (by omega), Arith.pure_bind]
  congr 2
  omega

/-- Before March the month is counted in the year before, by two operations that wrap around. -/
theorem jsondecMarchMonth_of_lt (hm : m < 3) (hy : y < 10000) :
    jsondecMarchMonth y m =
      ⟨(((y + 4799 : ℕ) : ℤ), ((m + 9 : ℕ) : ℤ)), [DateOp.marchMonth, DateOp.marchMonth]⟩ := by
  have hwrap : (uint32 DateOp.marchMonth ((m : ℤ) - 3)) =
      ⟨(m : ℤ) + 4294967293, [DateOp.marchMonth]⟩ := by
    unfold uint32
    rw [if_neg (by omega), show ((m : ℤ) - 3) % 2 ^ 32 = m + 4294967293 by omega]
  have hwrap' : (uint32 DateOp.marchMonth ((m : ℤ) + 4294967293 + 12)) =
      ⟨(m + 9 : ℕ), [DateOp.marchMonth]⟩ := by
    unfold uint32
    rw [if_neg (by omega), show ((m : ℤ) + 4294967293 + 12) % 2 ^ 32 = (m + 9 : ℕ) by omega]
  unfold jsondecMarchMonth
  rw [hwrap, mk_bind]
  dsimp only
  rw [if_pos (by omega), if_pos rfl, uint32_of_fits _ (by omega), Arith.pure_bind,
    uint32_of_fits _ (by omega), Arith.pure_bind, hwrap', mk_bind,
    show (y : ℤ) + 4800 - 1 = (y + 4799 : ℕ) by omega]
  simp only [value_pure, overflows_pure, List.append_nil, List.singleton_append]

/-- The days from the first of March of the year -4800 to a day. -/
def marchEpochDays (y k d : ℕ) : ℤ :=
  (y * 365 + (y / 4 - y / 100 + y / 400) + (k * 62719 + 769) / 2048 : ℕ) + ((d : ℤ) - 1)

/-- Only the sum with the day can wrap around, and does so for the day 0. -/
theorem jsondecMarchDays_eq (hy : y < 20000) (hk : k < 200) (hd : d < 100) :
    jsondecMarchDays y k d =
      uint32 DateOp.decode ((y * 365 + (y / 4 - y / 100 + y / 400) + (k * 62719 + 769) / 2048 : ℕ) +
        ((d : ℤ) - 1) % 2 ^ 32) := by
  unfold jsondecMarchDays
  rw [uint32_of_fits _ (by omega), Arith.pure_bind, uint32_of_fits _ (by omega), Arith.pure_bind]
  dsimp only
  rw [uint32_of_fits _ (by omega), Arith.pure_bind, uint32_of_fits _ (by omega), Arith.pure_bind,
    uint32_of_fits _ (by omega), Arith.pure_bind, uint32_of_fits _ (by omega), Arith.pure_bind,
    uint32_of_fits _ (by omega), Arith.pure_bind, int32_of_fits _ (by omega), Arith.pure_bind]
  congr 2
  omega

theorem jsondecMarchDays_value (hpos : 0 < y) (hy : y < 20000) (hk : k < 200) (hd : d < 100) :
    (jsondecMarchDays y k d).value = marchEpochDays y k d := by
  rw [jsondecMarchDays_eq hy hk hd]
  unfold uint32 marchEpochDays
  dsimp only
  omega

/-- The conversion of an unsigned number back to a signed one. -/
theorem bmod_of_wrapped {z : ℤ} (h : -2 ^ 31 ≤ z ∧ z < 2 ^ 31) : (z % 2 ^ 32).bmod (2 ^ 32) = z := by
  rw [show ((2 : ℤ) ^ 32) = ((2 ^ 32 : ℕ) : ℤ) by norm_num, Int.emod_bmod]
  exact Int.bmod_eq_of_le (by omega) (by omega)

/-- The subtraction of the days before 1970 wraps around before 1970. -/
theorem epochOffset_eq (hy : y < 20000) (hk : k < 200) (hd : 1 ≤ d) (hd' : d < 100) :
    (do
      let t ← jsondecMarchDays y k d
      let t ← uint32 DateOp.epochOffset (t - 2472632)
      return t.bmod (2 ^ 32)) =
      ⟨marchEpochDays y k d - 2472632,
        if marchEpochDays y k d - 2472632 < 0 then [DateOp.epochOffset] else []⟩ := by
  have hvalue := bmod_of_wrapped (z := marchEpochDays y k d - 2472632) (by unfold marchEpochDays; omega)
  have hdays : jsondecMarchDays y k d = pure (marchEpochDays y k d) := by
    rw [jsondecMarchDays_eq hy hk hd', uint32_of_fits _ (by omega), marchEpochDays]
    congr 2
    omega
  have hsum : 0 ≤ marchEpochDays y k d ∧ marchEpochDays y k d < 2 ^ 31 := by
    unfold marchEpochDays
    omega
  rw [hdays, Arith.pure_bind]
  generalize marchEpochDays y k d = t at *
  change Arith.mk ((t - 2472632) % 2 ^ 32 |>.bmod (2 ^ 32)) _ = _
  rw [hvalue]
  congr 1
  rw [overflows_pure, List.append_nil]
  unfold uint32
  dsimp only
  split <;> split <;> first | rfl | omega

/-- The days of a month of a year that starts with March, by the two formulas. -/
theorem marchEpochDays_eq (hk : k < 12) (y d : ℕ) :
    marchEpochDays (y + 4800) k d =
      (marchDay y + daysBeforeMarchMonth k + 1753104 : ℕ) + ((d : ℤ) - 1) := by
  have h4 : (y + 4800) / 4 = y / 4 + 1200 := by omega
  have h100 : (y + 4800) / 100 = y / 100 + 48 := by omega
  have h400 : (y + 4800) / 400 = y / 400 + 12 := by omega
  have hk : k = 0 ∨ k = 1 ∨ k = 2 ∨ k = 3 ∨ k = 4 ∨ k = 5 ∨ k = 6 ∨ k = 7 ∨ k = 8 ∨ k = 9 ∨ k = 10 ∨
      k = 11 := by omega
  have hmonth : (k * 62719 + 769) / 2048 = daysBeforeMarchMonth k := by
    rcases hk with rfl | rfl | rfl | rfl | rfl | rfl | rfl | rfl | rfl | rfl | rfl | rfl <;> rfl
  have hle : y / 100 ≤ y / 4 := Nat.div_le_div_left (by omega) (by omega)
  rw [marchEpochDays, hmonth, h4, h100, h400, marchDay]
  generalize y / 4 = a at *
  generalize y / 100 = b at *
  generalize y / 400 = c
  omega

/-- The days of any numbers that are written with four and two digits. -/
theorem jsondecEpochdays_value (hy : y < 10000) (hm : m < 100) (hd : d < 100) :
    (jsondecEpochdays y m d).value =
      marchEpochDays (if m < 3 then y + 4799 else y + 4800) (if m < 3 then m + 9 else m - 3) d - 2472632 := by
  have hmonth : (jsondecMarchMonth y m).value =
      (((if m < 3 then y + 4799 else y + 4800 : ℕ) : ℤ), ((if m < 3 then m + 9 else m - 3 : ℕ) : ℤ)) := by
    rcases Nat.lt_or_ge m 3 with hlt | hge
    · rw [jsondecMarchMonth_of_lt hlt hy, if_pos hlt, if_pos hlt]
    · rw [jsondecMarchMonth_of_ge hge hm hy, if_neg (by omega), if_neg (by omega)]
      rfl
  unfold jsondecEpochdays
  rw [value_bind, hmonth]
  dsimp only
  rw [value_bind, jsondecMarchDays_value (by split <;> omega) (by split <;> omega) (by split <;> omega) hd]
  exact bmod_of_wrapped (by unfold marchEpochDays; split <;> omega)

end Days

/-- `jsondec_epochdays` gives the day of a date. Operations wrap around for January and February, and before
1970. -/
theorem jsondecEpochdays_date (date : Date) (h : date.year < 10000) :
    jsondecEpochdays date.year date.month date.day =
      ⟨date.epochDay, (if date.month < 3 then [DateOp.marchMonth, DateOp.marchMonth] else []) ++
        if date.epochDay < 0 then [DateOp.epochOffset] else []⟩ := by
  obtain ⟨y, m, d, hvalid⟩ := date
  dsimp only at h
  have hm := hvalid.month_le
  have hm' := hvalid.month_pos
  have hd := hvalid.day_pos
  have hd' := hvalid.day_lt
  unfold jsondecEpochdays
  dsimp only
  rcases Nat.lt_or_ge m 3 with hlt | hge
  · have hday : marchEpochDays (y + 4799) (m + 9) d - 2472632 = Date.epochDay ⟨y, m, d, hvalid⟩ := by
      rw [Date.epochDay, dayNumber_unixEpoch]
      dsimp only
      cases y with
      | zero =>
        have hm : m = 1 ∨ m = 2 := by omega
        unfold marchEpochDays dayNumber
        rcases hm with rfl | rfl
        · simp only [daysBeforeYear, daysBeforeMonth]
          omega
        · simp only [daysBeforeYear, daysBeforeMonth, show monthLength 0 (0 + 1) = 31 from rfl]
          omega
      | succ y =>
        rw [show y + 1 + 4799 = y + 4800 by omega, marchEpochDays_eq (by omega),
          dayNumber_of_lt_march hm' hlt]
        omega
    rw [jsondecMarchMonth_of_lt hlt h, mk_bind]
    dsimp only
    rw [epochOffset_eq (by omega) (by omega) hd (by omega), hday, if_pos hlt]
  · have hday : marchEpochDays (y + 4800) (m - 3) d - 2472632 = Date.epochDay ⟨y, m, d, hvalid⟩ := by
      rw [Date.epochDay, dayNumber_unixEpoch, marchEpochDays_eq (by omega)]
      dsimp only
      rw [dayNumber_of_march hge hm]
      omega
    rw [jsondecMarchMonth_of_ge hge (by omega) h, Arith.pure_bind]
    dsimp only
    rw [epochOffset_eq (by omega) (by omega) hd (by omega), hday, if_neg (by omega : ¬m < 3),
      List.nil_append]

/-- The operations of the decoder that wrap around for a date. -/
def wrapsFor (date : Date) : List DateOp :=
  (if date.month < 3 then [DateOp.marchMonth, DateOp.marchMonth] else []) ++
    if date.epochDay < 0 then [DateOp.epochOffset] else []

/-- `jsondec_unixtime` gives the seconds of a date and a time of day. -/
theorem jsondecUnixtime_date (date : Date) (time : TimeOfDay) (h : date.year < 10000) :
    jsondecUnixtime date.year date.month date.day time.hour time.min time.sec =
      ⟨unixSeconds date time, wrapsFor date⟩ := by
  have hday := congrArg Arith.value (jsondecEpochdays_date date h)
  rw [jsondecEpochdays_value h (by have := date.valid.month_le; omega)
    (by have := date.valid.day_lt; omega)] at hday
  have hbounds : -2 ^ 31 ≤ date.epochDay ∧ date.epochDay < 2 ^ 31 := by
    rw [← show _ = date.epochDay from hday]
    have hm := date.valid.month_le
    have hd := date.valid.day_lt
    unfold marchEpochDays
    split <;> omega
  have hhour := time.hour_lt
  have hmin := time.min_lt
  have hsec := time.sec_lt
  have hsum : date.epochDay * 86400 + time.hour * 3600 + time.min * 60 + time.sec =
      unixSeconds date time := by
    unfold unixSeconds
    omega
  unfold jsondecUnixtime
  rw [jsondecEpochdays_date date h, mk_bind, int64_of_fits _ (by omega), Arith.pure_bind, int32_of_fits _ (by omega), Arith.pure_bind,
    int64_of_fits _ (by omega), Arith.pure_bind, int32_of_fits _ (by omega), Arith.pure_bind,
    int64_of_fits _ (by omega), Arith.pure_bind, int64_of_fits _ (by omega), overflows_pure,
    List.append_nil, value_pure, hsum, wrapsFor]

end Upb.Json
