import Mathlib.Algebra.Order.Ring.Nat
import Mathlib.Data.Int.Notation
import Mathlib.Order.Monotone.Basic
import Mathlib.Tactic.Linarith
import Mathlib.Tactic.Zify

/-!
# The Gregorian calendar

Dates of the proleptic Gregorian calendar, with the year 0 before the year 1. A day is numbered from the
first day of the year 0, by adding up the lengths of the years and months before it. The years that start
with March have their leap day at the end, so that a day has a simple number in them.
-/

namespace Upb.Common

/-- A leap year. -/
def IsLeap (y : ℕ) : Prop := 4 ∣ y ∧ (¬100 ∣ y ∨ 400 ∣ y)

instance (y : ℕ) : Decidable (IsLeap y) := inferInstanceAs (Decidable (_ ∧ _))

/-- The leap days of a year. -/
def leapDays (y : ℕ) : ℕ := if IsLeap y then 1 else 0

/-- The days of a year. -/
def yearLength (y : ℕ) : ℕ := 365 + leapDays y

/-- The days of a month. -/
def monthLength (y m : ℕ) : ℕ :=
  if m = 2 then 28 + leapDays y
  else if m = 4 ∨ m = 6 ∨ m = 9 ∨ m = 11 then 30
  else 31

/-- The month and the day exist. -/
structure ValidDate (y m d : ℕ) : Prop where
  month_pos : 1 ≤ m
  month_le : m ≤ 12
  day_pos : 1 ≤ d
  day_le : d ≤ monthLength y m

/-- A date of the calendar. -/
structure Date where
  year : ℕ
  month : ℕ
  day : ℕ
  valid : ValidDate year month day

/-- The days from the first day of the year 0 to the first day of a year. -/
def daysBeforeYear : ℕ → ℕ
  | 0 => 0
  | y + 1 => daysBeforeYear y + yearLength y

/-- The days of a year before a month of it. -/
def daysBeforeMonth (y : ℕ) : ℕ → ℕ
  | 0 => 0
  | 1 => 0
  | m + 2 => daysBeforeMonth y (m + 1) + monthLength y (m + 1)

/-- The number of days from the first day of the year 0 to a date. -/
def dayNumber (y m d : ℕ) : ℕ := daysBeforeYear y + daysBeforeMonth y m + (d - 1)

/-- The first of January 1970. -/
def unixEpoch : Date := ⟨1970, 1, 1, ⟨by decide, by decide, by decide, by decide⟩⟩

/-- The number of days from the first of January 1970 to a date. -/
def Date.epochDay (t : Date) : ℤ :=
  dayNumber t.year t.month t.day - dayNumber unixEpoch.year unixEpoch.month unixEpoch.day

/-- The days from the first day of the year 0 to the first of March of a year. -/
def marchDay (y : ℕ) : ℕ := 365 * y + y / 4 - y / 100 + y / 400 + 60

/-- The days from the first of March to the first of the month that starts `k` months later. -/
def daysBeforeMarchMonth (k : ℕ) : ℕ := (k * 153 + 2) / 5

theorem leapDays_le (y : ℕ) : leapDays y ≤ 1 := by
  unfold leapDays
  split <;> omega

/-- The leap days in the years up to a year. -/
theorem leapDays_succ (y : ℕ) :
    y / 4 + y / 400 + (y + 1) / 100 + leapDays (y + 1) = (y + 1) / 4 + (y + 1) / 400 + y / 100 := by
  have h100 : 100 ∣ y + 1 → 4 ∣ y + 1 := Nat.dvd_trans (by decide)
  have h400 : 400 ∣ y + 1 → 100 ∣ y + 1 := Nat.dvd_trans (by decide)
  rw [Nat.succ_div, Nat.succ_div, Nat.succ_div, leapDays]
  by_cases h : IsLeap (y + 1)
  · rw [if_pos h, if_pos h.1]
    rcases h.2 with h' | h'
    · rw [if_neg h', if_neg (mt h400 h')]
      omega
    · rw [if_pos h', if_pos (h400 h')]
      omega
  · rw [if_neg h]
    by_cases h4 : 4 ∣ y + 1
    · have h' : 100 ∣ y + 1 := by_contra fun h' => h ⟨h4, .inl h'⟩
      rw [if_pos h4, if_pos h', if_neg fun h' => h ⟨h4, .inr h'⟩]
      omega
    · rw [if_neg h4, if_neg (mt h100 h4), if_neg fun h' => h4 (h100 (h400 h'))]
      rfl

/-- The years up to a year, counted with one leap day every four years except in most centuries. -/
theorem daysBeforeYear_succ (y : ℕ) :
    daysBeforeYear (y + 1) + y / 100 = 365 * (y + 1) + y / 4 + y / 400 + 1 := by
  induction y with
  | zero => rfl
  | succ y ih =>
    have hleap := leapDays_succ y
    rw [daysBeforeYear, yearLength]
    linarith

theorem daysBeforeYear_mono : Monotone daysBeforeYear :=
  monotone_nat_of_le_succ fun _ => Nat.le_add_right _ _

/-- The first of January 1970. -/
theorem dayNumber_unixEpoch : dayNumber unixEpoch.year unixEpoch.month unixEpoch.day = 719528 := by
  have h := daysBeforeYear_succ 1969
  simp only [Nat.reduceAdd, Nat.reduceDiv, Nat.reduceMul] at h
  rw [unixEpoch, dayNumber, daysBeforeMonth]
  dsimp only
  omega

/-- The first of March comes 59 days after the first of January, or 60. -/
theorem marchDay_eq (y : ℕ) : marchDay y = daysBeforeYear y + 59 + leapDays y := by
  cases y with
  | zero => rfl
  | succ y =>
    have hyear := daysBeforeYear_succ y
    have hleap := leapDays_succ y
    have hle : (y + 1) / 100 ≤ (y + 1) / 4 := Nat.div_le_div_left (by omega) (by omega)
    unfold marchDay
    zify [hle.trans (Nat.le_add_left _ _)] at *
    linarith

/-- The years that start with March have their leap day at the end. -/
theorem marchDay_succ (y : ℕ) : marchDay (y + 1) = marchDay y + 365 + leapDays (y + 1) := by
  rw [marchDay_eq, marchDay_eq, daysBeforeYear, yearLength]
  omega

/-- The first of March, counted in centuries and years. -/
theorem marchDay_century (c : ℕ) {y : ℕ} (h : y < 100) :
    marchDay (100 * c + y) = 146097 * c / 4 + 1461 * y / 4 + 60 := by
  have h4 : (100 * c + y) / 4 = 25 * c + y / 4 := by omega
  have h100 : (100 * c + y) / 100 = c := by omega
  have h400 : (100 * c + y) / 400 = c / 4 := by omega
  have hcentury : 146097 * c / 4 = 36524 * c + c / 4 := by omega
  have hyear : 1461 * y / 4 = 365 * y + y / 4 := by omega
  rw [marchDay, h4, h100, h400, hcentury, hyear]
  generalize c / 4 = u
  generalize y / 4 = v
  omega

/-- A date from March on. -/
theorem dayNumber_of_march {y m d : ℕ} (hm : 3 ≤ m) (hm' : m ≤ 12) :
    dayNumber y m d = marchDay y + daysBeforeMarchMonth (m - 3) + (d - 1) := by
  have hm : m = 3 ∨ m = 4 ∨ m = 5 ∨ m = 6 ∨ m = 7 ∨ m = 8 ∨ m = 9 ∨ m = 10 ∨ m = 11 ∨ m = 12 := by omega
  rw [dayNumber, marchDay_eq, daysBeforeMarchMonth]
  rcases hm with rfl | rfl | rfl | rfl | rfl | rfl | rfl | rfl | rfl | rfl
  all_goals
    simp [daysBeforeMonth, monthLength]
    omega

/-- A date before March belongs to the year that started with March of the year before. -/
theorem dayNumber_of_lt_march {y m d : ℕ} (hm : 1 ≤ m) (hm' : m < 3) :
    dayNumber (y + 1) m d = marchDay y + daysBeforeMarchMonth (m + 9) + (d - 1) := by
  have hm : m = 1 ∨ m = 2 := by omega
  rw [dayNumber, daysBeforeYear, marchDay_eq, yearLength, daysBeforeMarchMonth]
  rcases hm with rfl | rfl
  all_goals
    simp [daysBeforeMonth, monthLength]
    omega

/-- A month of a year that starts with March, from March to December. -/
theorem monthLength_of_march {y k : ℕ} (h : k < 10) :
    monthLength y (k + 3) = daysBeforeMarchMonth (k + 1) - daysBeforeMarchMonth k := by
  have hk : k = 0 ∨ k = 1 ∨ k = 2 ∨ k = 3 ∨ k = 4 ∨ k = 5 ∨ k = 6 ∨ k = 7 ∨ k = 8 ∨ k = 9 := by omega
  rcases hk with rfl | rfl | rfl | rfl | rfl | rfl | rfl | rfl | rfl | rfl <;> rfl

/-- Every day of a year that starts with March has a date. -/
theorem exists_date {y k t : ℕ} (hk : k < 12) (hlo : daysBeforeMarchMonth k ≤ t)
    (hhi : t < daysBeforeMarchMonth (k + 1)) (ht : t < 365 + leapDays (y + 1)) :
    ∃ date : Date, date.year = y + k / 10 ∧ date.month + 12 * (k / 10) = k + 3 ∧
      date.day + daysBeforeMarchMonth k = t + 1 ∧
      dayNumber date.year date.month date.day = marchDay y + t := by
  rcases Nat.lt_or_ge k 10 with hlt | hge
  · have hvalid : ValidDate y (k + 3) (t - daysBeforeMarchMonth k + 1) := by
      refine ⟨by omega, by omega, by omega, ?_⟩
      rw [monthLength_of_march hlt]
      omega
    refine ⟨⟨y, k + 3, _, hvalid⟩, by dsimp only; omega, by dsimp only; omega, by dsimp only; omega, ?_⟩
    dsimp only
    rw [dayNumber_of_march (by omega) (by omega), Nat.add_sub_cancel]
    omega
  · have hvalid : ValidDate (y + 1) (k - 9) (t - daysBeforeMarchMonth k + 1) := by
      have hk : k = 10 ∨ k = 11 := by omega
      unfold daysBeforeMarchMonth at hlo hhi ⊢
      rcases hk with rfl | rfl
      · refine ⟨by omega, by omega, by omega, ?_⟩
        change _ ≤ 31
        omega
      · refine ⟨by omega, by omega, by omega, ?_⟩
        change _ ≤ 28 + leapDays (y + 1)
        omega
    refine ⟨⟨y + 1, k - 9, _, hvalid⟩, by dsimp only; omega, by dsimp only; omega, by dsimp only; omega, ?_⟩
    dsimp only
    rw [dayNumber_of_lt_march (by omega) (by omega), show k - 9 + 9 = k by omega]
    omega

theorem ValidDate.day_lt {y m d : ℕ} (h : ValidDate y m d) : d < 32 := by
  have hle := h.day_le
  have hleap := leapDays_le y
  unfold monthLength at hle
  split at hle
  · omega
  · split at hle <;> omega

end Upb.Common
