import Mathlib.Data.Int.Notation
import Mathlib.Data.Nat.Bitwise
import Upb.Base.Log2

/-!
# Base-92 digits and varints

A mini descriptor is a string of 92 printable characters, written here by their ASCII codes. Numbers
are written as little-endian varints whose digits all lie in one range of characters, so the first
character outside of the range ends the number. `decodeVarint_putBase92Varint` is the round trip.
-/

namespace Upb

namespace MiniDescriptor

/-- `_kUpb_ToBase92`. -/
def kToBase92 : List ℕ :=
  [32, 33, 35, 36, 37, 38, 40, 41, 42, 43, 44, 45, 46, 47, 48, 49, 50, 51, 52, 53, 54, 55, 56,
   57, 58, 59, 60, 61, 62, 63, 64, 65, 66, 67, 68, 69, 70, 71, 72, 73, 74, 75, 76, 77, 78, 79,
   80, 81, 82, 83, 84, 85, 86, 87, 88, 89, 90, 91, 93, 94, 95, 96, 97, 98, 99, 100, 101, 102,
   103, 104, 105, 106, 107, 108, 109, 110, 111, 112, 113, 114, 115, 116, 117, 118, 119, 120,
   121, 122, 123, 124, 125, 126]

/-- `_kUpb_FromBase92`. -/
def kFromBase92 : List ℤ :=
  [0, 1, -1, 2, 3, 4, 5, -1, 6, 7, 8, 9, 10, 11, 12, 13, 14, 15, 16, 17, 18, 19, 20, 21, 22,
   23, 24, 25, 26, 27, 28, 29, 30, 31, 32, 33, 34, 35, 36, 37, 38, 39, 40, 41, 42, 43, 44, 45,
   46, 47, 48, 49, 50, 51, 52, 53, 54, 55, 56, 57, -1, 58, 59, 60, 61, 62, 63, 64, 65, 66, 67,
   68, 69, 70, 71, 72, 73, 74, 75, 76, 77, 78, 79, 80, 81, 82, 83, 84, 85, 86, 87, 88, 89, 90,
   91]

/-- `_upb_ToBase92`. -/
def toBase92 (n : ℕ) : ℕ := kToBase92.getD n 0

/-- `_upb_FromBase92`. -/
def fromBase92 (ch : ℕ) : ℤ := if ch < 32 ∨ 126 < ch then -1 else kFromBase92.getD (ch - 32) (-1)

/-- The loop of `upb_MtDataEncoder_PutBase92Varint`; a 32-bit value has at most 32 digits. -/
def putVarintLoop (shift base : ℕ) : ℕ → ℕ → List ℕ
  | 0, _ => []
  | fuel + 1, val =>
    toBase92 ((val &&& (1 <<< shift - 1)) + base) ::
      if val >>> shift = 0 then [] else putVarintLoop shift base fuel (val >>> shift)

/-- `upb_MtDataEncoder_PutBase92Varint`. -/
def putBase92Varint (val min max : ℕ) : List ℕ :=
  let shift := log2Ceiling (fromBase92 max - fromBase92 min + 1).toNat
  putVarintLoop shift (fromBase92 min).toNat 32 val

/-- The value with the bits of the character `ch` added at the shift. -/
def addDigit (min val shift ch : ℕ) : ℕ :=
  val ||| (((fromBase92 ch - fromBase92 min) % 2 ^ 32).toNat <<< shift) % 2 ^ 32

/-- The loop of `_upb_Base92_DecodeVarint` on the character `ch` and the rest of the input; `none`
for an overlong varint. -/
def decodeVarintLoop (min max bitsPerChar : ℕ) : ℕ → ℕ → ℕ → List ℕ → Option (ℕ × List ℕ)
  | val, shift, ch, [] => some (addDigit min val shift ch, [])
  | val, shift, ch, c :: rest =>
    if c < min ∨ max < c then some (addDigit min val shift ch, c :: rest)
    else if 32 ≤ shift + bitsPerChar then none
    else decodeVarintLoop min max bitsPerChar (addDigit min val shift ch) (shift + bitsPerChar) c rest

/-- `_upb_Base92_DecodeVarint`. -/
def decodeVarint (firstCh min max : ℕ) (rest : List ℕ) : Option (ℕ × List ℕ) :=
  decodeVarintLoop min max (log2Ceiling (fromBase92 max - fromBase92 min).toNat) 0 0 firstCh rest

/-- The range from `min` to `max` holds the digits of `k` bits each, for the writer and for the
reader. -/
structure DigitRange (min max k : ℕ) : Prop where
  shift_eq : log2Ceiling (fromBase92 max - fromBase92 min + 1).toNat = k
  bitsPerChar_eq : log2Ceiling (fromBase92 max - fromBase92 min).toNat = k
  pos : 0 < k
  digit : ∀ d < 2 ^ k, min ≤ toBase92 (d + (fromBase92 min).toNat) ∧
    toBase92 (d + (fromBase92 min).toNat) ≤ max ∧
    ((fromBase92 (toBase92 (d + (fromBase92 min).toNat)) - fromBase92 min) % 2 ^ 32).toNat = d

/-- The first character of `rest`, if any, does not continue a varint. -/
def EndsDigits (min max : ℕ) (rest : List ℕ) : Prop := ∀ c ∈ rest.head?, c < min ∨ max < c

section RoundTrip

variable {min max k : ℕ}

/-- A varint starts with one of its digits. -/
theorem DigitRange.putBase92Varint_eq (hr : DigitRange min max k) (val : ℕ) :
    ∃ c tail, putBase92Varint val min max = c :: tail ∧ min ≤ c ∧ c ≤ max := by
  obtain ⟨h1, h2, -⟩ := hr.digit (val &&& (1 <<< k - 1)) (by
    rw [Nat.one_shiftLeft]
    exact Nat.and_lt_two_pow _ (by have := Nat.one_le_two_pow (n := k); omega))
  rw [putBase92Varint, hr.shift_eq, putVarintLoop]
  exact ⟨_, _, rfl, h1, h2⟩

/-- The round trip of the two loops from a shifted position. -/
private theorem decodeVarintLoop_put (hr : DigitRange min max k) {rest : List ℕ}
    (hend : EndsDigits min max rest) (fuel v acc shift c : ℕ) (tail : List ℕ)
    (hput : putVarintLoop k (fromBase92 min).toNat fuel v = c :: tail) (hfuel : v < 2 ^ (k * fuel))
    (hacc : acc < 2 ^ shift) (hv : v * 2 ^ shift < 2 ^ 32) :
    decodeVarintLoop min max k acc shift c (tail ++ rest) = some (acc + v * 2 ^ shift, rest) := by
  induction fuel generalizing v acc shift c tail with
  | zero => simp [putVarintLoop] at hput
  | succ fuel ih =>
    have hmask : v &&& (1 <<< k - 1) = v % 2 ^ k := by
      rw [Nat.one_shiftLeft, Nat.and_two_pow_sub_one_eq_mod]
    rw [putVarintLoop, hmask] at hput
    obtain ⟨rfl, htail⟩ := List.cons.inj hput
    have hdlt : v % 2 ^ k < 2 ^ k := Nat.mod_lt _ (Nat.two_pow_pos k)
    obtain ⟨-, -, hdigit⟩ := hr.digit _ hdlt
    have hdshift : (v % 2 ^ k) <<< shift < 2 ^ 32 := by
      rw [Nat.shiftLeft_eq]
      exact lt_of_le_of_lt (Nat.mul_le_mul_right _ (Nat.mod_le _ _)) hv
    -- the accumulated value is below the new digit
    have hor : acc ||| (v % 2 ^ k) <<< shift = acc + (v % 2 ^ k) * 2 ^ shift := by
      rw [Nat.or_comm, ← Nat.shiftLeft_add_eq_or_of_lt hacc, Nat.shiftLeft_eq, Nat.add_comm]
    have hadd : addDigit min acc shift (toBase92 (v % 2 ^ k + (fromBase92 min).toNat)) =
        acc + (v % 2 ^ k) * 2 ^ shift := by
      rw [addDigit, hdigit, Nat.mod_eq_of_lt hdshift, hor]
    have hsplit := Nat.div_add_mod v (2 ^ k)
    by_cases hzero : v >>> k = 0
    · rw [if_pos hzero] at htail
      subst htail
      have hvk : v % 2 ^ k = v := by
        rw [Nat.shiftRight_eq_div_pow] at hzero
        rw [hzero] at hsplit
        omega
      rw [hvk] at hadd
      rw [List.nil_append, hvk]
      cases rest with
      | nil => rw [decodeVarintLoop, hadd]
      | cons r rest => rw [decodeVarintLoop, if_pos (hend r rfl), hadd]
    · rw [if_neg hzero] at htail
      rw [Nat.shiftRight_eq_div_pow] at hzero htail
      obtain ⟨c', tail', htail'⟩ : ∃ c' tail', tail = c' :: tail' := by
        cases fuel with
        | zero =>
          rw [Nat.mul_one] at hfuel
          exact absurd (Nat.div_eq_of_lt hfuel) hzero
        | succ fuel => exact ⟨_, _, htail.symm⟩
      subst htail'
      have hc' : min ≤ c' ∧ c' ≤ max := by
        cases fuel with
        | zero => simp [putVarintLoop] at htail
        | succ fuel =>
          obtain ⟨rfl, -⟩ := List.cons.inj htail
          obtain ⟨h1, h2, -⟩ := hr.digit (v / 2 ^ k &&& (1 <<< k - 1)) (by
            rw [Nat.one_shiftLeft, Nat.and_two_pow_sub_one_eq_mod]
            exact Nat.mod_lt _ (Nat.two_pow_pos k))
          exact ⟨h1, h2⟩
      have hq : 1 ≤ v / 2 ^ k := Nat.one_le_iff_ne_zero.mpr hzero
      have hshift : shift + k < 32 := by
        have hle : 2 ^ (shift + k) ≤ v * 2 ^ shift := by
          rw [Nat.pow_add, Nat.mul_comm]
          refine Nat.mul_le_mul_right _ ?_
          calc 2 ^ k ≤ 2 ^ k * (v / 2 ^ k) := Nat.le_mul_of_pos_right _ hq
            _ ≤ v := Nat.mul_div_le _ _
        exact (Nat.pow_lt_pow_iff_right (by decide)).mp (lt_of_le_of_lt hle hv)
      rw [List.cons_append, decodeVarintLoop, if_neg (by omega), if_neg (by omega), hadd]
      have hacc' : acc + v % 2 ^ k * 2 ^ shift < 2 ^ (shift + k) := by
        have h1 : (v % 2 ^ k + 1) * 2 ^ shift ≤ 2 ^ k * 2 ^ shift := Nat.mul_le_mul_right _ hdlt
        rw [Nat.pow_add, Nat.mul_comm (2 ^ shift)]
        rw [Nat.add_mul] at h1
        omega
      have hv' : v / 2 ^ k * 2 ^ (shift + k) < 2 ^ 32 := by
        refine lt_of_le_of_lt ?_ hv
        rw [Nat.pow_add, Nat.mul_comm (2 ^ shift), ← Nat.mul_assoc]
        exact Nat.mul_le_mul_right _ (Nat.div_mul_le_self _ _)
      have hfuel' : v / 2 ^ k < 2 ^ (k * fuel) := by
        rw [Nat.div_lt_iff_lt_mul (Nat.two_pow_pos k), ← Nat.pow_add, Nat.add_comm]
        rwa [Nat.mul_add, Nat.mul_one, Nat.add_comm] at hfuel
      rw [ih (v / 2 ^ k) _ (shift + k) c' tail' htail hfuel' hacc' hv']
      congr 2
      calc acc + v % 2 ^ k * 2 ^ shift + v / 2 ^ k * 2 ^ (shift + k)
          = acc + (2 ^ k * (v / 2 ^ k) + v % 2 ^ k) * 2 ^ shift := by
            rw [Nat.pow_add, Nat.add_mul, Nat.mul_comm (2 ^ shift), ← Nat.mul_assoc,
              Nat.mul_comm (v / 2 ^ k)]
            omega
        _ = acc + v * 2 ^ shift := by rw [hsplit]

/-- Reading a varint that was written before a character outside of its range. -/
theorem decodeVarint_putBase92Varint (hr : DigitRange min max k) {v c : ℕ} {tail rest : List ℕ}
    (hput : putBase92Varint v min max = c :: tail) (hv : v < 2 ^ 32)
    (hend : EndsDigits min max rest) :
    decodeVarint c min max (tail ++ rest) = some (v, rest) := by
  rw [putBase92Varint, hr.shift_eq] at hput
  rw [decodeVarint, hr.bitsPerChar_eq]
  have hfuel : v < 2 ^ (k * 32) :=
    lt_of_lt_of_le hv (Nat.pow_le_pow_right (by decide) (Nat.le_mul_of_pos_left _ hr.pos))
  have h := decodeVarintLoop_put hr hend 32 v 0 0 c tail hput hfuel (by simp) (by simpa using hv)
  simpa using h

end RoundTrip

end MiniDescriptor

end Upb
