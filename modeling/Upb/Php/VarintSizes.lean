import Mathlib.Data.Nat.Log
import Upb.Php.ScalarRoundTrip
import Upb.Php.Serialize

/-!
# Predicted and written sizes of scalars

A varint has one byte for each seven bits of its value, and `varint32Size` counts five at most. A
scalar takes more bytes than predicted, or fewer, by its excess.
-/

namespace Upb.Php

open Upb.Wire (longvarint)

/-- The bytes of the varint of a length beyond those that `varint32Size` counts. -/
def lengthExcess (n : ℕ) : ℤ := Nat.log 128 (n % 2 ^ 64) - min (Nat.log 128 n) 4

/-- The bytes of a scalar beyond those that are predicted: an `int32` or an enum number keeps all of
its 64 bits, and so does a `uint32` without bit 31. A `float` or a `double` that is none is not
written. -/
def ScalarType.excess (type : ScalarType) (v : Scalar) : ℤ :=
  match type with
  | .int32 | .enum => if v.toInt.toInt < 0 then 0 else lengthExcess v.toInt.toNat
  | .uint32 =>
    if v.toInt.toInt < 0 then Nat.log 128 (v.toInt + 4294967296).toNat - 4
    else lengthExcess v.toInt.toNat
  | .string | .bytes => lengthExcess v.toStr.length
  | .double => match v with
    | .double _ => 0
    | _ => -8
  | .float => match v with
    | .float _ => 0
    | _ => -4
  | _ => 0

section Varints

/-- One byte for each seven bits. -/
theorem length_longvarint_eq {n val : ℕ} (h : val < 2 ^ ((n + 1) * 7)) :
    (longvarint (n + 1) val).length = Nat.log 128 val + 1 := by
  induction n generalizing val with
  | zero =>
    have hzero : val / 128 = 0 := Nat.div_eq_of_lt (by omega)
    rw [longvarint, if_pos hzero, Nat.log_of_lt (by omega)]
    rfl
  | succ n ih =>
    rw [longvarint]
    split
    next hzero =>
      rw [Nat.log_of_lt (by omega)]
      rfl
    next hne =>
      have hdiv : val / 128 < 2 ^ ((n + 1) * 7) := by
        rw [Nat.div_lt_iff_lt_mul (by omega)]
        calc val < 2 ^ ((n + 1 + 1) * 7) := h
          _ = 2 ^ ((n + 1) * 7) * 128 := by rw [Nat.add_mul (n + 1) 1 7, Nat.pow_add]
      have hlog : 0 < Nat.log 128 val := Nat.log_pos (by omega) (by omega)
      rw [List.length_cons, ih hdiv, Nat.log_div_base]
      omega

theorem length_writeVarintToArray (v : PhpInt) :
    (writeVarintToArray v).length = Nat.log 128 v.toNat + 1 := by
  have hlt := v.isLt
  rw [writeVarintToArray, writeVarintLoop_eq (by omega), length_longvarint_eq (by omega)]

/-- The position of a number between two powers. -/
theorem log_lt_iff {n k : ℕ} (hk : k ≠ 0) : n < 128 ^ k ↔ Nat.log 128 n < k :=
  ⟨Nat.log_lt_of_lt_pow' hk, Nat.lt_pow_of_log_lt (by omega)⟩

theorem varint32Size_natCast (n : ℕ) (signExtended : Bool) :
    varint32Size n signExtended = min (Nat.log 128 n) 4 + 1 := by
  have h1 : n < 2 ^ 7 ↔ Nat.log 128 n < 1 := @log_lt_iff n 1 (by decide)
  have h2 : n < 2 ^ 14 ↔ Nat.log 128 n < 2 := @log_lt_iff n 2 (by decide)
  have h3 : n < 2 ^ 21 ↔ Nat.log 128 n < 3 := @log_lt_iff n 3 (by decide)
  have h4 : n < 2 ^ 28 ↔ Nat.log 128 n < 4 := @log_lt_iff n 4 (by decide)
  rw [varint32Size, if_neg (by omega)]
  split_ifs <;> omega

theorem varint64Size_natCast {n : ℕ} (hn : n < 2 ^ 63) : varint64Size n = Nat.log 128 n + 1 := by
  have h1 : n < 2 ^ 7 ↔ Nat.log 128 n < 1 := @log_lt_iff n 1 (by decide)
  have h2 : n < 2 ^ 14 ↔ Nat.log 128 n < 2 := @log_lt_iff n 2 (by decide)
  have h3 : n < 2 ^ 21 ↔ Nat.log 128 n < 3 := @log_lt_iff n 3 (by decide)
  have h4 : n < 2 ^ 28 ↔ Nat.log 128 n < 4 := @log_lt_iff n 4 (by decide)
  have h5 : n < 2 ^ 35 ↔ Nat.log 128 n < 5 := @log_lt_iff n 5 (by decide)
  have h6 : n < 2 ^ 42 ↔ Nat.log 128 n < 6 := @log_lt_iff n 6 (by decide)
  have h7 : n < 2 ^ 49 ↔ Nat.log 128 n < 7 := @log_lt_iff n 7 (by decide)
  have h8 : n < 2 ^ 56 ↔ Nat.log 128 n < 8 := @log_lt_iff n 8 (by decide)
  have h9 : n < 2 ^ 63 ↔ Nat.log 128 n < 9 := @log_lt_iff n 9 (by decide)
  rw [varint64Size, if_neg (by omega)]
  split_ifs <;> omega

/-- A negative number has ten bytes. -/
theorem log_of_negative {v : PhpInt} (h : v.toInt < 0) : Nat.log 128 v.toNat = 9 := by
  have hlt := v.isLt
  have hge : 2 ^ 63 ≤ v.toNat := by
    rw [BitVec.toInt_eq_toNat_cond] at h
    split at h <;> omega
  rw [Nat.log_eq_iff (.inl (by omega))]
  norm_num
  omega

/-- A number that is not negative is its pattern. -/
theorem toInt_eq_toNat {v : PhpInt} (h : ¬v.toInt < 0) : v.toInt = v.toNat ∧ v.toNat < 2 ^ 63 := by
  have hlt := v.isLt
  rw [BitVec.toInt_eq_toNat_cond] at h ⊢
  split at h <;> omega

/-- `varint64Size` is exact. -/
theorem length_write_varint64Size (v : PhpInt) :
    (writeVarintToArray v).length = varint64Size v.toInt := by
  rw [length_writeVarintToArray]
  by_cases h : v.toInt < 0
  · rw [log_of_negative h, varint64Size, if_pos h]
  · obtain ⟨hvalue, hlt⟩ := toInt_eq_toNat h
    rw [hvalue, varint64Size_natCast hlt]

/-- `varint32Size` is exact up to 35 bits. -/
theorem length_write_varint32Size {v : PhpInt} (hv : v.toNat < 2 ^ 35) :
    (writeVarintToArray v).length = varint32Size v.toInt false := by
  have hnonneg : ¬v.toInt < 0 := by
    rw [BitVec.toInt_eq_toNat_cond]
    split <;> omega
  have hlog := (@log_lt_iff v.toNat 5 (by decide)).mp hv
  rw [length_writeVarintToArray, (toInt_eq_toNat hnonneg).1, varint32Size_natCast, min_eq_left (by omega)]

/-- A length is written with its excess. -/
theorem length_writeSize (n : ℕ) : ((writeSize n).length : ℤ) = varint32Size n false + lengthExcess n := by
  rw [writeSize, length_writeVarintToArray, BitVec.toNat_ofNat, varint32Size_natCast, lengthExcess]
  push_cast
  ring

end Varints

end Upb.Php
