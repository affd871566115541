import Upb.Wire.Decode
import Upb.Wire.Reads

/-!
# Numbers on the wire

The number that the bytes of a value stand for, by arithmetic: signed numbers are zigzag coded, the
32-bit types keep the low half of a varint, and any varint but zero is a true boolean. The decoder
stores these numbers.
-/

namespace Upb.Wire

open Upb.Common BoundedReader

/-- The two's complement of a zigzag coded number: 0, -1, 1, -2 and so on. -/
def ofZigzag (bits u : ℕ) : ℕ := if u % 2 = 0 then u / 2 else 2 ^ bits - 1 - u / 2

/-- The number that the 64 bits of a varint stand for. -/
def ofVarint (type : FieldType) (u : ℕ) : ℕ :=
  match type with
  | .bool => if u = 0 then 0 else 1
  | .sint32 => ofZigzag 32 (u % 2 ^ 32)
  | .sint64 => ofZigzag 64 u
  | .int32 | .uint32 | .enum => u % 2 ^ 32
  | _ => u

/-- The wire type of the unpacked records of a number. -/
def numberWireType : FieldType → WireType
  | .double | .fixed64 | .sfixed64 => .bit64
  | .float | .fixed32 | .sfixed32 => .bit32
  | _ => .varint

/-- The bytes `p` stand for a number of a type. -/
inductive IsNumber (type : FieldType) (v : ℕ) (p : List UInt8) : Prop
  | varint (hw : numberWireType type = .varint) (hp : IsVarint 10 p)
      (hv : v = ofVarint type (leb p % 2 ^ 64))
  | bit32 (hw : numberWireType type = .bit32) (hp : p.length = 4) (hv : v = littleEndian p)
  | bit64 (hw : numberWireType type = .bit64) (hp : p.length = 8) (hv : v = littleEndian p)

/-- The bytes of numbers that follow each other. -/
inductive IsNumbers (type : FieldType) : List ℕ → List UInt8 → Prop
  | nil : IsNumbers type [] []
  | cons {v : ℕ} {vs : List ℕ} {p rest : List UInt8} (h : IsNumber type v p)
      (hrest : IsNumbers type vs rest) : IsNumbers type (v :: vs) (p ++ rest)

/-- The complement of a number of so many bits. -/
theorem xor_two_pow_sub_one {n x : ℕ} (h : x < 2 ^ n) : x ^^^ (2 ^ n - 1) = 2 ^ n - 1 - x := by
  calc
    x ^^^ (2 ^ n - 1) = (BitVec.ofNat n x ^^^ BitVec.allOnes n).toNat := by
      rw [BitVec.toNat_xor, BitVec.toNat_ofNat, BitVec.toNat_allOnes, Nat.mod_eq_of_lt h]
    _ = (~~~BitVec.ofNat n x).toNat := by rw [BitVec.xor_allOnes]
    _ = 2 ^ n - 1 - x := by rw [BitVec.toNat_not, BitVec.toNat_ofNat, Nat.mod_eq_of_lt h]

theorem littleEndian_lt (p : List UInt8) : littleEndian p < 2 ^ (8 * p.length) := by
  induction p with
  | nil => decide
  | cons b p ih =>
    have hb := b.toNat_lt
    rw [littleEndian, List.length_cons, Nat.mul_add, Nat.pow_add]
    omega

/-- What `_upb_Decoder_Munge` makes of a varint and is stored. -/
theorem storeBits_munge {type : FieldType} {lg2 u : ℕ} (h : getVarintOp type = .scalar lg2)
    (hu : u < 2 ^ 64) : storeBits lg2 (munge type u) = .bits (ofVarint type u) := by
  rw [storeBits]
  congr 1
  cases type <;> cases h
  all_goals simp only [munge, ofVarint, ofZigzag]
  case int64 => exact Nat.mod_eq_of_lt hu
  case uint64 => exact Nat.mod_eq_of_lt hu
  case int32 => rfl
  case uint32 => rfl
  case enum => rfl
  case bool => split <;> simp_all
  case sint32 =>
    have hparity : u % 2 ^ 32 % 2 = u % 2 := by omega
    rw [hparity]
    rcases Nat.mod_two_eq_zero_or_one u with heven | hodd
    · rw [if_neg (by omega), if_pos heven, Nat.xor_zero]
      exact Nat.mod_eq_of_lt (by omega)
    · rw [if_pos hodd, if_neg (by omega), xor_two_pow_sub_one (by omega)]
      exact Nat.mod_eq_of_lt (by omega)
  case sint64 =>
    rcases Nat.mod_two_eq_zero_or_one u with heven | hodd
    · rw [if_neg (by omega), if_pos heven, Nat.xor_zero]
      exact Nat.mod_eq_of_lt (by omega)
    · rw [if_pos hodd, if_neg (by omega), xor_two_pow_sub_one (by omega)]
      exact Nat.mod_eq_of_lt (by omega)

end Upb.Wire
