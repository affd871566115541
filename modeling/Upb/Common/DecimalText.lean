import Mathlib.Algebra.Group.Nat.Defs
import Mathlib.Data.List.Induction
import Mathlib.Data.Nat.Log

/-!
# Decimal text

Numbers as ASCII digits, most significant digit first: the digits that a formatted print writes, and the
number that a run of digits denotes.
-/

namespace Upb.Common

/-- The byte of an ASCII character. -/
def ascii (ch : Char) : UInt8 := UInt8.ofNat ch.toNat

/-- An ASCII digit. -/
def IsDigit (ch : UInt8) : Prop := 48 ≤ ch.toNat ∧ ch.toNat ≤ 57

instance (ch : UInt8) : Decidable (IsDigit ch) := inferInstanceAs (Decidable (_ ∧ _))

/-- The text does not start with a digit. -/
def NoDigit (text : List UInt8) : Prop := ∀ ch rest, text = ch :: rest → ¬IsDigit ch

/-- The number that a text of digits denotes. -/
def digitsValue (ds : List UInt8) : ℕ := ds.foldl (fun v ch => v * 10 + (ch.toNat - 48)) 0

/-- The last digits of a number. -/
def lastDigits : ℕ → ℕ → List UInt8
  | 0, _ => []
  | width + 1, n => lastDigits width (n / 10) ++ [UInt8.ofNat (48 + n % 10)]

/-- The decimal text of a number, with zeros in front of it up to the precision. -/
def decimal (precision n : ℕ) : List UInt8 := lastDigits (max precision (Nat.log 10 n + 1)) n

/-- The digits that a text starts with. -/
def leadingDigits (text : List UInt8) : List UInt8 := text.takeWhile (IsDigit ·)

/-- What follows the digits that a text starts with. -/
def afterDigits (text : List UInt8) : List UInt8 := text.dropWhile (IsDigit ·)

theorem toNat_digit (n : ℕ) : (UInt8.ofNat (48 + n % 10)).toNat = 48 + n % 10 := by
  rw [UInt8.toNat_ofNat']
  omega

theorem noDigit_nil : NoDigit [] := nofun

theorem noDigit_cons {ch : UInt8} {rest : List UInt8} (h : ¬IsDigit ch) : NoDigit (ch :: rest) := by
  intro c r hc
  cases hc
  exact h

@[simp] theorem digitsValue_nil : digitsValue [] = 0 := rfl

theorem digitsValue_append_singleton (ds : List UInt8) (ch : UInt8) :
    digitsValue (ds ++ [ch]) = digitsValue ds * 10 + (ch.toNat - 48) := by
  rw [digitsValue, List.foldl_append]
  rfl

/-- A text of digits in front of other digits. -/
theorem digitsValue_append (ds es : List UInt8) :
    digitsValue (ds ++ es) = digitsValue ds * 10 ^ es.length + digitsValue es := by
  induction es using List.reverseRecOn with
  | nil => simp
  | append_singleton es ch ih =>
    rw [← List.append_assoc, digitsValue_append_singleton, digitsValue_append_singleton, ih,
      List.length_append, List.length_singleton, Nat.pow_succ]
    rw [Nat.add_mul, Nat.mul_assoc, Nat.add_assoc]

/-- A digit in front of other digits. -/
theorem digitsValue_cons (ch : UInt8) (ds : List UInt8) :
    digitsValue (ch :: ds) = (ch.toNat - 48) * 10 ^ ds.length + digitsValue ds := by
  have h := digitsValue_append [ch] ds
  rw [show digitsValue [ch] = ch.toNat - 48 from Nat.zero_add _] at h
  exact h

/-- So many digits denote a number below that power of ten. -/
theorem digitsValue_lt {ds : List UInt8} (h : ∀ ch ∈ ds, IsDigit ch) :
    digitsValue ds < 10 ^ ds.length := by
  induction ds using List.reverseRecOn with
  | nil => simp
  | append_singleton ds ch ih =>
    have hds := ih fun c hc => h c (by simp [hc])
    have hch := h ch (by simp)
    rw [digitsValue_append_singleton, List.length_append, List.length_singleton, Nat.pow_succ]
    unfold IsDigit at hch
    omega

@[simp] theorem length_lastDigits (width n : ℕ) : (lastDigits width n).length = width := by
  induction width generalizing n with
  | zero => rfl
  | succ width ih => rw [lastDigits, List.length_append, ih, List.length_singleton]

theorem isDigit_lastDigits {width n : ℕ} : ∀ ch ∈ lastDigits width n, IsDigit ch := by
  induction width generalizing n with
  | zero => nofun
  | succ width ih =>
    intro ch hch
    rw [lastDigits, List.mem_append, List.mem_singleton] at hch
    rcases hch with hch | rfl
    · exact ih ch hch
    · unfold IsDigit
      rw [toNat_digit]
      omega

theorem digitsValue_lastDigits (width n : ℕ) : digitsValue (lastDigits width n) = n % 10 ^ width := by
  induction width generalizing n with
  | zero => simp [lastDigits, Nat.mod_one]
  | succ width ih =>
    rw [lastDigits, digitsValue_append_singleton, ih, toNat_digit, Nat.add_sub_cancel_left, Nat.pow_succ',
      Nat.mod_mul]
    omega

/-- Digits are the last digits of the number they denote. -/
theorem lastDigits_digitsValue {ds : List UInt8} (h : ∀ ch ∈ ds, IsDigit ch) :
    lastDigits ds.length (digitsValue ds) = ds := by
  induction ds using List.reverseRecOn with
  | nil => rfl
  | append_singleton ds ch ih =>
    have hch := h ch (by simp)
    unfold IsDigit at hch
    rw [digitsValue_append_singleton, List.length_append, List.length_singleton, lastDigits]
    rw [show (digitsValue ds * 10 + (ch.toNat - 48)) / 10 = digitsValue ds by omega,
      show 48 + (digitsValue ds * 10 + (ch.toNat - 48)) % 10 = ch.toNat by omega,
      ih fun c hc => h c (by simp [hc]), UInt8.ofNat_toNat]

/-- Digits of a fixed number show a number and what follows it. -/
theorem lastDigits_append_inj {width m n : ℕ} {rest rest' : List UInt8} (hm : m < 10 ^ width)
    (hn : n < 10 ^ width) (h : lastDigits width m ++ rest = lastDigits width n ++ rest') :
    m = n ∧ rest = rest' := by
  obtain ⟨hdigits, hrest⟩ := List.append_inj h (by rw [length_lastDigits, length_lastDigits])
  have hvalue := congrArg digitsValue hdigits
  rw [digitsValue_lastDigits, digitsValue_lastDigits, Nat.mod_eq_of_lt hm, Nat.mod_eq_of_lt hn] at hvalue
  exact ⟨hvalue, hrest⟩

theorem isDigit_decimal {precision n : ℕ} : ∀ ch ∈ decimal precision n, IsDigit ch := isDigit_lastDigits

theorem decimal_ne_nil (precision n : ℕ) : decimal precision n ≠ [] := by
  intro h
  have hlength := congrArg List.length h
  rw [decimal, length_lastDigits, List.length_nil] at hlength
  omega

/-- The decimal text of a number denotes it. -/
@[simp] theorem digitsValue_decimal (precision n : ℕ) : digitsValue (decimal precision n) = n := by
  rw [decimal, digitsValue_lastDigits]
  apply Nat.mod_eq_of_lt
  calc n < 10 ^ (Nat.log 10 n + 1) := Nat.lt_pow_succ_log_self (by omega) n
    _ ≤ 10 ^ max precision (Nat.log 10 n + 1) := Nat.pow_le_pow_right (by omega) (by omega)

/-- A number below a power of ten is written with exactly so many digits. -/
theorem decimal_of_lt {precision n : ℕ} (hp : 0 < precision) (h : n < 10 ^ precision) :
    decimal precision n = lastDigits precision n := by
  have hlog : Nat.log 10 n < precision := by
    rcases Nat.eq_zero_or_pos n with rfl | hn
    · rwa [Nat.log_zero_right]
    · exact (Nat.log_lt_iff_lt_pow (by omega) (by omega)).mpr h
  rw [decimal, Nat.max_eq_left hlog]

theorem leadingDigits_cons {ch : UInt8} (h : IsDigit ch) (text : List UInt8) :
    leadingDigits (ch :: text) = ch :: leadingDigits text := by
  rw [leadingDigits, List.takeWhile_cons_of_pos (by simpa using h)]
  rfl

theorem afterDigits_cons {ch : UInt8} (h : IsDigit ch) (text : List UInt8) :
    afterDigits (ch :: text) = afterDigits text := by
  rw [afterDigits, List.dropWhile_cons_of_pos (by simpa using h)]
  rfl

theorem leadingDigits_of_noDigit {text : List UInt8} (h : NoDigit text) : leadingDigits text = [] := by
  cases text with
  | nil => rfl
  | cons ch rest => exact List.takeWhile_cons_of_neg (by simpa using h ch rest rfl)

theorem leadingDigits_append_afterDigits (text : List UInt8) :
    leadingDigits text ++ afterDigits text = text := List.takeWhile_append_dropWhile

theorem isDigit_leadingDigits {text : List UInt8} : ∀ ch ∈ leadingDigits text, IsDigit ch := by
  intro ch hch
  simpa using List.all_eq_true.mp (List.all_takeWhile (p := (IsDigit ·)) (l := text)) ch hch

theorem noDigit_afterDigits (text : List UInt8) : NoDigit (afterDigits text) := by
  induction text with
  | nil => exact noDigit_nil
  | cons ch text ih =>
    by_cases h : IsDigit ch
    · rwa [afterDigits_cons h]
    · rw [afterDigits, List.dropWhile_cons_of_neg (by simpa using h)]
      exact noDigit_cons h

/-- Digits in front of something that is not a digit. -/
theorem leadingDigits_append {ds rest : List UInt8} (hds : ∀ ch ∈ ds, IsDigit ch) (hrest : NoDigit rest) :
    leadingDigits (ds ++ rest) = ds := by
  induction ds with
  | nil => exact leadingDigits_of_noDigit hrest
  | cons ch ds ih =>
    rw [List.cons_append, leadingDigits_cons (hds ch (.head _)), ih fun c hc => hds c (.tail _ hc)]

theorem afterDigits_append {ds rest : List UInt8} (hds : ∀ ch ∈ ds, IsDigit ch) (hrest : NoDigit rest) :
    afterDigits (ds ++ rest) = rest := by
  have h := leadingDigits_append_afterDigits (ds ++ rest)
  rw [leadingDigits_append hds hrest] at h
  exact List.append_cancel_left h

end Upb.Common
