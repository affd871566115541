import Mathlib.Data.Nat.Bitwise
import Upb.Php.GPBWire

/-!
# The bits of integers of PHP

PHP has integers of 64 bits with a sign only. The codecs of `GPBWire.php` and the checks of `GPBUtil.php`
deal with the other widths by masks and arithmetic shifts; here is what these do to each bit.
-/

namespace Upb.Php

open CodedInputStream (toInt32)

section Bits

variable {v w : PhpInt} {i : ℕ}

/-- The bits of a mask. -/
theorem getLsbD_mask (k : ℕ) (hi : i < 64) : (BitVec.ofNat 64 (2 ^ k - 1)).getLsbD i = decide (i < k) := by
  rw [BitVec.getLsbD_ofNat, Nat.testBit_two_pow_sub_one]
  simp [hi]

/-- All bits of the negative of a bit are the bit. -/
theorem getLsbD_neg_bit (hi : i < 64) : (-(v &&& 1)).getLsbD i = v.getLsbD 0 := by
  have hbit : v &&& 1 = if v.getLsbD 0 then 1 else 0 := by
    apply BitVec.eq_of_getLsbD_eq
    intro j hj
    have hone : (1 : PhpInt).getLsbD j = decide (j = 0) := by
      rw [show (1 : PhpInt) = BitVec.ofNat 64 (2 ^ 1 - 1) from rfl, getLsbD_mask 1 hj]
      exact decide_eq_decide.mpr (by omega)
    rw [BitVec.getLsbD_and, hone]
    by_cases h0 : j = 0
    · subst h0
      cases h : v.getLsbD 0 <;> simp
    · cases h : v.getLsbD 0 <;> simp [h0]
  rw [hbit]
  cases h : v.getLsbD 0
  · simp
  · have hones : (-(1 : PhpInt)) = BitVec.allOnes 64 := rfl
    simp only [if_true, hones, BitVec.getLsbD_allOnes]
    simp [hi]

/-- The lower 32 bits, and the sign above them. -/
theorem getLsbD_toInt32 (hi : i < 64) : (toInt32 v).getLsbD i = v.getLsbD (min i 31) := by
  have hmask : (v &&& 0xFFFFFFFF).toNat = v.toNat % 2 ^ 32 := by
    rw [BitVec.toNat_and]
    exact Nat.and_two_pow_sub_one_eq_mod v.toNat 32
  have hbit (j : ℕ) (hj : j < 64) : (v &&& 0xFFFFFFFF).getLsbD j = (v.getLsbD j && decide (j < 32)) := by
    rw [BitVec.getLsbD_and, show (0xFFFFFFFF : PhpInt) = BitVec.ofNat 64 (2 ^ 32 - 1) from rfl,
      getLsbD_mask 32 hj]
  have hsign : v.getLsbD 31 = true ↔ 0x7FFFFFFF < (v &&& 0xFFFFFFFF).toNat := by
    rw [hmask, BitVec.getLsbD, Nat.testBit, Nat.shiftRight_eq_div_pow, Nat.one_and_eq_mod_two]
    rcases Nat.mod_two_eq_zero_or_one (v.toNat / 2 ^ 31) with h | h <;> rw [h] <;> simp <;> omega
  have hhigh (j : ℕ) (hj : j < 64) : ((0xFFFFFFFF : PhpInt) <<< 32).getLsbD j = decide (32 ≤ j) := by
    rw [BitVec.getLsbD_shiftLeft, show (0xFFFFFFFF : PhpInt) = BitVec.ofNat 64 (2 ^ 32 - 1) from rfl,
      getLsbD_mask 32 (by omega)]
    by_cases h : j < 32
    · simp [h, hj]
    · have h1 : j - 32 < 32 := by omega
      have h2 : 32 ≤ j := by omega
      simp [h, h1, h2, hj]
  rw [toInt32]
  by_cases hlow : i < 32
  · have hmin : min i 31 = i := by omega
    simp only [hmin]
    split
    · rw [BitVec.getLsbD_or, hbit i hi, hhigh i hi]
      have : ¬ 32 ≤ i := by omega
      simp [hlow, this]
    · rw [hbit i hi]
      simp [hlow]
  · have hmin : min i 31 = 31 := by omega
    simp only [hmin]
    split
    · next h =>
      rw [BitVec.getLsbD_or, hbit i hi, hhigh i hi, hsign.mpr h]
      have : 32 ≤ i := by omega
      simp [this]
    · next h =>
      rw [hbit i hi]
      have : v.getLsbD 31 = false := by
        rw [← Bool.not_eq_true, hsign]
        exact h
      rw [this]
      simp [hlow]

/-- Numbers with the same lower 32 bits. -/
theorem toInt32_congr (h : ∀ j < 32, v.getLsbD j = w.getLsbD j) : toInt32 v = toInt32 w := by
  apply BitVec.eq_of_getLsbD_eq
  intro j hj
  rw [getLsbD_toInt32 hj, getLsbD_toInt32 hj]
  exact h _ (by omega)

theorem toInt32_toInt32 (v : PhpInt) : toInt32 (toInt32 v) = toInt32 v := by
  apply toInt32_congr
  intro j hj
  rw [getLsbD_toInt32 (by omega), min_eq_left (by omega)]

theorem zigZagDecode64_encode (v : PhpInt) : zigZagDecode64 (zigZagEncode64 v) = v := by
  have hbit (j : ℕ) (hj : j < 64) : (zigZagEncode64 v).getLsbD j =
      ((decide (0 < j) && v.getLsbD (j - 1)) ^^ v.getLsbD 63) := by
    rw [zigZagEncode64, BitVec.getLsbD_xor, BitVec.getLsbD_shiftLeft, BitVec.getLsbD_sshiftRight]
    rcases Nat.eq_zero_or_pos j with rfl | hpos
    · simp
    · have : ¬ 63 + j < 64 := by omega
      have h1 : ¬ j < 1 := by omega
      simp [BitVec.msb_eq_getLsbD_last, hj, hpos, this, h1]
  apply BitVec.eq_of_getLsbD_eq
  intro j hj
  rw [zigZagDecode64, BitVec.getLsbD_xor, BitVec.getLsbD_and, BitVec.getLsbD_sshiftRight,
    show (0x7FFFFFFFFFFFFFFF : PhpInt) = BitVec.ofNat 64 (2 ^ 63 - 1) from rfl, getLsbD_mask 63 hj,
    getLsbD_neg_bit hj, hbit 0 (by omega)]
  by_cases h63 : j < 63
  · rw [if_pos (by omega), hbit (1 + j) (by omega)]
    have h64 : ¬ 64 ≤ j := by omega
    simp [h63, h64]
  · have : j = 63 := by omega
    subst this
    simp

theorem zigZagDecode32_encode (h : toInt32 v = v) : zigZagDecode32 (toInt32 (zigZagEncode32 v)) = v := by
  have hv (j : ℕ) (hj : j < 64) : v.getLsbD j = v.getLsbD (min j 31) := by
    rw [← getLsbD_toInt32 hj, h]
  have hbit (j : ℕ) (hj : j < 32) : (zigZagEncode32 v).getLsbD j =
      ((decide (0 < j) && v.getLsbD (j - 1)) ^^ v.getLsbD 31) := by
    have hsign : ((v <<< 32).sshiftRight 63).getLsbD j = v.getLsbD 31 := by
      rw [BitVec.getLsbD_sshiftRight]
      rcases Nat.eq_zero_or_pos j with rfl | hpos
      · simp
      · have : ¬ 63 + j < 64 := by omega
        simp [BitVec.msb_eq_getLsbD_last, this, show j < 64 by omega]
    simp only [zigZagEncode32, BitVec.getLsbD_and, BitVec.getLsbD_xor, hsign, BitVec.getLsbD_shiftLeft]
    simp only [show (0xFFFFFFFF : PhpInt) = BitVec.ofNat 64 (2 ^ 32 - 1) from rfl,
      getLsbD_mask 32 (show j < 64 by omega), getLsbD_mask 32 (show j - 1 < 64 by omega)]
    rcases Nat.eq_zero_or_pos j with rfl | hpos
    · simp
    · have h1 : ¬ j < 1 := by omega
      simp [hj, hpos, h1, show j - 1 < 32 by omega, show j < 64 by omega]
  apply BitVec.eq_of_getLsbD_eq
  intro j hj
  have hor : toInt32 (zigZagEncode32 v) ||| (toInt32 (zigZagEncode32 v) &&& 0xFFFFFFFF) =
      toInt32 (zigZagEncode32 v) := by
    apply BitVec.eq_of_getLsbD_eq
    intro k hk
    rw [BitVec.getLsbD_or, BitVec.getLsbD_and]
    cases (toInt32 (zigZagEncode32 v)).getLsbD k <;> simp
  rw [zigZagDecode32]
  simp only [hor]
  rw [BitVec.getLsbD_xor, BitVec.getLsbD_and, BitVec.getLsbD_sshiftRight,
    show (0x7FFFFFFF : PhpInt) = BitVec.ofNat 64 (2 ^ 31 - 1) from rfl, getLsbD_mask 31 hj,
    getLsbD_neg_bit hj, getLsbD_toInt32 (i := 0) (by omega), Nat.zero_min, hbit 0 (by omega)]
  by_cases h31 : j < 31
  · rw [if_pos (by omega), getLsbD_toInt32 (by omega), min_eq_left (by omega), hbit (1 + j) (by omega)]
    have h64 : ¬ 64 ≤ j := by omega
    simp [h31, h64]
  · rw [hv j hj, min_eq_right (by omega)]
    simp [h31]

/-- The bits of a number of 32 bits above its sign are the sign. -/
theorem getLsbD_of_range (h : -2 ^ 31 ≤ v.toInt) (h' : v.toInt < 2 ^ 31) (hi : 31 ≤ i) (hi' : i < 64) :
    v.getLsbD i = v.getLsbD 31 := by
  have hlt := v.isLt
  have hcases : v.toNat < 2 ^ 31 ∨ 2 ^ 64 - 2 ^ 31 ≤ v.toNat := by
    rw [BitVec.toInt_eq_toNat_cond] at h h'
    split at h <;> omega
  simp only [BitVec.getLsbD]
  rcases hcases with hsmall | hlarge
  · rw [Nat.testBit_lt_two_pow (hsmall.trans_le (Nat.pow_le_pow_right (by omega) hi)),
      Nat.testBit_lt_two_pow hsmall]
  · obtain ⟨u, hu, hv⟩ : ∃ u, u < 2 ^ 31 ∧ v.toNat = 2 ^ 64 - (u + 1) :=
      ⟨2 ^ 64 - 1 - v.toNat, by omega, by omega⟩
    rw [hv, Nat.testBit_two_pow_sub_succ (by omega), Nat.testBit_two_pow_sub_succ (by omega),
      Nat.testBit_lt_two_pow (hu.trans_le (Nat.pow_le_pow_right (by omega) hi)), Nat.testBit_lt_two_pow hu]
    simp [hi']

theorem toInt32_of_range (h : -2 ^ 31 ≤ v.toInt) (h' : v.toInt < 2 ^ 31) : toInt32 v = v := by
  apply BitVec.eq_of_getLsbD_eq
  intro j hj
  rw [getLsbD_toInt32 hj]
  by_cases hlow : j < 31
  · rw [min_eq_left (by omega)]
  · rw [min_eq_right (by omega), getLsbD_of_range h h' (by omega) hj]

/-- `checkUint32` sets the upper bits, if the sign of the lower ones is set. -/
theorem getLsbD_checkUint32 (hi : i < 64) :
    (checkUint32 v).getLsbD i = (v.getLsbD i || (decide (32 ≤ i) && v.getLsbD 31)) := by
  have hsign : (v.sshiftRight 31).getLsbD 0 = v.getLsbD 31 := by
    rw [BitVec.getLsbD_sshiftRight]
    simp
  rw [checkUint32, BitVec.getLsbD_or, BitVec.getLsbD_and, getLsbD_neg_bit hi, hsign, BitVec.getLsbD_not,
    show (0xFFFFFFFF : PhpInt) = BitVec.ofNat 64 (2 ^ 32 - 1) from rfl, getLsbD_mask 32 hi]
  by_cases h : i < 32
  · simp [h]
  · simp [h, hi, Nat.le_of_not_lt h]

/-- The upper bits of a number below `2^32` are zero. -/
theorem getLsbD_of_lt (h : v.toNat < 2 ^ 32) (hi : 32 ≤ i) : v.getLsbD i = false := by
  rw [BitVec.getLsbD, Nat.testBit_lt_two_pow (h.trans_le (Nat.pow_le_pow_right (by omega) hi))]

theorem checkUint32_of_lt (h : v.toNat < 2 ^ 32) : checkUint32 v = toInt32 v := by
  apply BitVec.eq_of_getLsbD_eq
  intro j hj
  rw [getLsbD_checkUint32 hj, getLsbD_toInt32 hj]
  by_cases hlow : j < 32
  · have h32 : ¬32 ≤ j := by omega
    rw [min_eq_left (by omega)]
    simp [h32]
  · rw [min_eq_right (by omega), getLsbD_of_lt h (by omega)]
    simp [Nat.le_of_not_lt hlow]

theorem checkUint32_of_toInt32 (h : toInt32 v = v) : checkUint32 v = v := by
  apply BitVec.eq_of_getLsbD_eq
  intro j hj
  have hbit : v.getLsbD j = v.getLsbD (min j 31) := by rw [← getLsbD_toInt32 hj, h]
  rw [getLsbD_checkUint32 hj]
  by_cases hlow : j < 32
  · have h32 : ¬32 ≤ j := by omega
    simp [h32]
  · rw [hbit, min_eq_right (by omega)]
    simp

/-- `readSfixed32` extends the sign. -/
theorem sfixed32_of_lt (h : v.toNat < 2 ^ 32) :
    v ||| ((-(v.sshiftRight 31)) <<< 32) = toInt32 v := by
  have hshift : v.sshiftRight 31 = v.sshiftRight 31 &&& 1 := by
    apply BitVec.eq_of_getLsbD_eq
    intro j hj
    rw [BitVec.getLsbD_and, show (1 : PhpInt) = BitVec.ofNat 64 (2 ^ 1 - 1) from rfl, getLsbD_mask 1 hj,
      BitVec.getLsbD_sshiftRight]
    rcases Nat.eq_zero_or_pos j with rfl | hpos
    · simp
    · have hmsb : v.msb = false := by
        rw [BitVec.msb_eq_getLsbD_last, getLsbD_of_lt h (by omega)]
      split
      next => rw [getLsbD_of_lt h (by omega)]; simp
      next => simp [hmsb]
  apply BitVec.eq_of_getLsbD_eq
  intro j hj
  rw [BitVec.getLsbD_or, BitVec.getLsbD_shiftLeft, getLsbD_toInt32 hj, hshift]
  by_cases hlow : j < 32
  · rw [min_eq_left (by omega)]
    simp [hlow]
  · rw [min_eq_right (by omega), getLsbD_neg_bit (by omega), BitVec.getLsbD_sshiftRight,
      getLsbD_of_lt h (by omega)]
    simp [hlow, hj]

/-- The lower 32 bits, and the sign above them, as a number. -/
theorem toNat_toInt32 (v : PhpInt) : (toInt32 v).toNat =
    if v.toNat % 2 ^ 32 < 2 ^ 31 then v.toNat % 2 ^ 32 else v.toNat % 2 ^ 32 + (2 ^ 64 - 2 ^ 32) := by
  have hmask : (v &&& 0xFFFFFFFF).toNat = v.toNat % 2 ^ 32 := by
    rw [BitVec.toNat_and]
    exact Nat.and_two_pow_sub_one_eq_mod v.toNat 32
  rw [toInt32, hmask]
  by_cases h : v.toNat % 2 ^ 32 < 2 ^ 31
  · rw [if_neg (by omega), if_pos h, hmask]
  · have hhigh : ((0xFFFFFFFF : PhpInt) <<< 32).toNat = 2 ^ 32 * 0xFFFFFFFF := rfl
    rw [if_pos (by omega), if_neg h, BitVec.toNat_or, hmask, hhigh, Nat.or_comm,
      ← Nat.two_pow_add_eq_or_of_lt (Nat.mod_lt _ (by omega))]
    omega

end Bits

end Upb.Php
