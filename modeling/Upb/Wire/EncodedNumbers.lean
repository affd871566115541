import Upb.Message.OneofRuns
import Upb.Wire.Numbers

/-!
# Encoded numbers

The bytes that the encoder writes for a number of a type stand for that number, and are of the wire
type of the number's unpacked records.
-/

namespace Upb.Wire

open Upb.Common BoundedReader

/-- The number of bits of the values of a type; a boolean is zero or one. -/
def valueBits : FieldType → ℕ
  | .bool => 1
  | .float | .int32 | .uint32 | .fixed32 | .sfixed32 | .sint32 | .enum => 32
  | _ => 64

/-- Zigzag coding is inverted. -/
theorem ofZigzag_encodeZz {k v : ℕ} (h : v < 2 ^ (k + 1)) :
    ofZigzag (k + 1) (encodeZz (k + 1) v) = v := by
  have hpow : 2 ^ (k + 1) = 2 * 2 ^ k := pow_succ' 2 k
  have hpos : 0 < 2 ^ k := Nat.two_pow_pos k
  rw [encodeZz, Nat.add_sub_cancel]
  by_cases hv : 2 ^ k ≤ v
  · have hmod : v * 2 % 2 ^ (k + 1) = 2 * (v - 2 ^ k) := by
      rw [show v * 2 = 2 * (v - 2 ^ k) + 2 ^ (k + 1) by omega, Nat.add_mod_right,
        Nat.mod_eq_of_lt (by omega)]
    rw [if_pos hv, hmod, xor_two_pow_sub_one (by omega), ofZigzag, if_neg (by omega)]
    omega
  · have hmod : v * 2 % 2 ^ (k + 1) = 2 * v := by rw [Nat.mod_eq_of_lt (by omega), Nat.mul_comm]
    rw [if_neg hv, Nat.xor_zero, hmod, ofZigzag, if_pos (by omega)]
    omega

/-- A zigzag code has as many bits as its number. -/
theorem encodeZz_lt {k v : ℕ} : encodeZz (k + 1) v < 2 ^ (k + 1) := by
  have hpos : 0 < 2 ^ (k + 1) := Nat.two_pow_pos _
  rw [encodeZz]
  refine Nat.xor_lt_two_pow (Nat.mod_lt _ hpos) ?_
  split <;> omega

/-- A varint that is written stands for its value. -/
theorem isNumber_encodeVarint {type : FieldType} {v u : ℕ} (hw : numberWireType type = .varint)
    (hu : u < 2 ^ 64) (hv : v = ofVarint type u) : IsNumber type v (encodeVarint u) := by
  refine .varint hw (isVarint_encodeVarint (by decide) le_rfl (by omega)) ?_
  rw [leb_encodeVarint (by omega), Nat.mod_eq_of_lt hu]
  exact hv

/-- The bytes of fixed size that are written for a number. -/
theorem isNumber_fixedBytes {type : FieldType} {v : ℕ} :
    (numberWireType type = .bit32 → v < 2 ^ 32 → IsNumber type v (fixedBytes 4 v)) ∧
      (numberWireType type = .bit64 → v < 2 ^ 64 → IsNumber type v (fixedBytes 8 v)) := by
  constructor
  · intro hw hv
    refine .bit32 hw (length_fixedBytes 4 v) ?_
    rw [littleEndian_fixedBytes, Nat.mod_eq_of_lt (by omega)]
  · intro hw hv
    refine .bit64 hw (length_fixedBytes 8 v) ?_
    rw [littleEndian_fixedBytes, Nat.mod_eq_of_lt (by omega)]

/-- What the encoder writes for a number of a type stands for it. -/
theorem isNumber_encodeNumber {type : FieldType} (htype : type.isPackable = true) {v : ℕ}
    (hv : v < 2 ^ valueBits type) :
    ∃ p, encodeNumber type v = some (numberWireType type, p) ∧ IsNumber type v p := by
  cases type
  case string => cases htype
  case group => cases htype
  case message => cases htype
  case bytes => cases htype
  case double | fixed64 | sfixed64 => exact ⟨_, rfl, isNumber_fixedBytes.2 rfl hv⟩
  case float | fixed32 | sfixed32 => exact ⟨_, rfl, isNumber_fixedBytes.1 rfl hv⟩
  case int64 | uint64 => exact ⟨_, rfl, isNumber_encodeVarint rfl hv rfl⟩
  case bool =>
    have hv : v < 2 := hv
    refine ⟨_, rfl, isNumber_encodeVarint rfl (by omega) ?_⟩
    rw [ofVarint]
    split <;> omega
  case uint32 =>
    have hv : v < 2 ^ 32 := hv
    exact ⟨_, rfl, isNumber_encodeVarint rfl (by omega) (Nat.mod_eq_of_lt hv).symm⟩
  case int32 | enum =>
    have hv : v < 2 ^ 32 := hv
    refine ⟨_, rfl, isNumber_encodeVarint rfl ?_ ?_⟩
    · rw [signExtend]
      split <;> omega
    · rw [ofVarint, signExtend]
      split <;> omega
  case sint32 =>
    have hlt : encodeZz 32 v < 2 ^ 32 := encodeZz_lt
    refine ⟨_, rfl, isNumber_encodeVarint rfl (by omega) ?_⟩
    rw [ofVarint, Nat.mod_eq_of_lt hlt]
    exact (ofZigzag_encodeZz hv).symm
  case sint64 =>
    exact ⟨_, rfl, isNumber_encodeVarint rfl encodeZz_lt (ofZigzag_encodeZz hv).symm⟩

end Upb.Wire
