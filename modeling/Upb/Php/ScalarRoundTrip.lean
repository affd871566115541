import Upb.Php.IntBits
import Upb.Php.StreamReads

/-!
# Scalars are read as they were written

What is written for a scalar in the range of its type is read back, after the check of the setter, as
the same scalar.
-/

namespace Upb.Php

open Upb.Wire (IsVarint leb longvarint splitVarint_longvarint)

open CodedInputStream (toInt32 unpack)

section Bytes

variable {v : PhpInt} {n : ℕ}

/-- The shift of the writer brings in zeros. -/
theorem shift_eq (v : PhpInt) : (v.sshiftRight 7 &&& ~~~((0x7F : PhpInt) <<< 57)) = v >>> 7 := by
  apply BitVec.eq_of_getLsbD_eq
  intro j hj
  rw [BitVec.getLsbD_and, BitVec.getLsbD_sshiftRight, BitVec.getLsbD_not, BitVec.getLsbD_shiftLeft,
    show (0x7F : PhpInt) = BitVec.ofNat 64 (2 ^ 7 - 1) from rfl, getLsbD_mask 7 (by omega),
    BitVec.getLsbD_ushiftRight]
  by_cases hlow : j < 57
  · have h64 : 7 + j < 64 := by omega
    have hge : ¬64 ≤ j := by omega
    simp [hlow, hj, h64, hge]
  · have h7 : j - 57 < 7 := by omega
    have hout : v.getLsbD (7 + j) = false := BitVec.getLsbD_of_ge v _ (by omega)
    simp [hlow, hj, h7, hout]

/-- The byte of the writer with the continuation bit. -/
theorem continuation_eq (v : PhpInt) : ((v ||| 0x80) &&& 0xFF).toNat = v.toNat % 128 + 128 := by
  have hmask : ((v ||| 0x80) &&& 0xFF).toNat = (v.toNat ||| 128) % 256 := by
    rw [BitVec.toNat_and, BitVec.toNat_or]
    exact Nat.and_two_pow_sub_one_eq_mod _ 8
  have hor : v.toNat % 256 ||| 128 = v.toNat % 128 + 128 := by
    apply Nat.eq_of_testBit_eq
    intro j
    have hadd : v.toNat % 128 + 128 = 128 ||| v.toNat % 128 := by
      rw [Nat.add_comm]
      exact Nat.two_pow_add_eq_or_of_lt (i := 7) (Nat.mod_lt _ (by omega)) 1
    rw [hadd, Nat.testBit_or, Nat.testBit_or, show 256 = 2 ^ 8 from rfl, show 128 = 2 ^ 7 from rfl,
      Nat.testBit_mod_two_pow, Nat.testBit_mod_two_pow, Nat.testBit_two_pow, Bool.or_comm]
    by_cases h7 : 7 = j
    · simp [h7]
    · by_cases hlt : j < 7
      · simp [h7, hlt, show j < 8 by omega]
      · simp [h7, hlt, show ¬j < 8 by omega]
  rw [hmask, Nat.or_mod_two_pow (n := 8)]
  exact hor

/-- The writer writes the bytes of a varint. -/
theorem writeVarintLoop_eq (hv : v.toNat < 2 ^ ((n + 1) * 7)) :
    writeVarintLoop n v = longvarint (n + 1) v.toNat := by
  induction n generalizing v with
  | zero =>
    rw [writeVarintLoop, longvarint, if_pos (by omega), Nat.mod_eq_of_lt (by omega)]
  | succ n ih =>
    have hlarge : 0x80 ≤ v.toInt ∨ v.toInt < 0 ↔ ¬v.toNat / 128 = 0 := by
      have hlt := v.isLt
      rw [BitVec.toInt_eq_toNat_cond]
      split <;> omega
    rw [writeVarintLoop, longvarint]
    by_cases h : v.toNat / 128 = 0
    · rw [if_neg (fun hor => hlarge.mp hor h), if_pos h, Nat.mod_eq_of_lt (by omega)]
    · have hshift : (v >>> 7).toNat = v.toNat / 128 := by
        rw [BitVec.toNat_ushiftRight, Nat.shiftRight_eq_div_pow]
      rw [if_pos (hlarge.mpr h), if_neg h, continuation_eq, shift_eq, ih, hshift]
      rw [hshift, Nat.div_lt_iff_lt_mul (by omega)]
      calc v.toNat < 2 ^ ((n + 1 + 1) * 7) := hv
        _ = 2 ^ ((n + 1) * 7) * 128 := by rw [Nat.add_mul (n + 1) 1 7, Nat.pow_add]

/-- What is written is a varint with the bits of the number. -/
theorem writeVarintToArray_spec (v : PhpInt) :
    IsVarint 10 (writeVarintToArray v) ∧ BitVec.ofNat 64 (leb (writeVarintToArray v)) = v := by
  have hlt := v.isLt
  rw [writeVarintToArray, writeVarintLoop_eq (by omega)]
  obtain ⟨hsplit, hleb⟩ := @splitVarint_longvarint 10 10 v.toNat le_rfl (by omega) (by omega) []
  rw [List.append_nil] at hsplit
  refine ⟨hsplit, ?_⟩
  rw [hleb, BitVec.ofNat_toNat, BitVec.setWidth_eq]

@[simp] theorem length_writeLittleEndian (n x : ℕ) : (writeLittleEndian n x).length = n := by
  induction n generalizing x with
  | zero => rfl
  | succ n ih => rw [writeLittleEndian, List.length_cons, ih]

theorem unpack_writeLittleEndian (n x : ℕ) : unpack (writeLittleEndian n x) = x % 256 ^ n := by
  induction n generalizing x with
  | zero => rw [writeLittleEndian, unpack, Nat.pow_zero, Nat.mod_one]
  | succ n ih =>
    have hbyte : (UInt8.ofNat (x % 256)).toNat = x % 256 := by
      rw [UInt8.toNat_ofNat']
      omega
    rw [writeLittleEndian, unpack, ih, hbyte, Nat.pow_succ', Nat.mod_mul]

theorem writeLittleEndian_add (m n x : ℕ) :
    writeLittleEndian (m + n) x = writeLittleEndian m x ++ writeLittleEndian n (x / 256 ^ m) := by
  induction m generalizing x with
  | zero => simp [writeLittleEndian]
  | succ m ih =>
    rw [Nat.succ_add, writeLittleEndian, writeLittleEndian, ih, List.cons_append, Nat.div_div_eq_div_mul,
      Nat.pow_succ']

end Bytes

section Reads

open CodedInputStream

variable {s : CodedInputStream} {tail : List UInt8}

theorem readVarint64_write (hs : s.InBuffer) (v : PhpInt) (hrest : s.rest = writeVarintToArray v ++ tail) :
    s.readVarint64 = (some v, s.advance (writeVarintToArray v).length) := by
  obtain ⟨hvarint, hvalue⟩ := writeVarintToArray_spec v
  rw [readVarint64_eq hs hrest hvarint, hvalue]

theorem readVarint32_write (hs : s.InBuffer) (v : PhpInt) (hrest : s.rest = writeVarintToArray v ++ tail) :
    s.readVarint32 = (some (toInt32 v), s.advance (writeVarintToArray v).length) := by
  rw [readVarint32, readVarint64_write hs v hrest]

theorem readLittleEndian32_write (hs : s.InBuffer) (x : ℕ) (hrest : s.rest = writeLittleEndian 4 x ++ tail) :
    s.readLittleEndian32 = (some (BitVec.ofNat 64 (x % 2 ^ 32)), s.advance 4) := by
  have hread := readRaw_eq hs hrest
  rw [length_writeLittleEndian] at hread
  rw [readLittleEndian32, show ((4 : ℤ)) = ((4 : ℕ) : ℤ) from rfl, hread]
  dsimp only
  rw [unpack_writeLittleEndian]
  rfl

theorem readLittleEndian64_write (hs : s.InBuffer) (v : PhpInt)
    (hrest : s.rest = writeLittleEndian 8 v.toNat ++ tail) :
    s.readLittleEndian64 = (some v, s.advance 8) := by
  rw [show (8 : ℕ) = 4 + 4 from rfl, writeLittleEndian_add, List.append_assoc] at hrest
  have hlow := readRaw_eq hs hrest
  have hafter : s.After (writeLittleEndian 4 v.toNat).length (s.advance (writeLittleEndian 4 v.toNat).length) :=
    after_advance s _
  have hhigh := readRaw_eq (hafter.inBuffer hrest hs) (hafter.rest hrest)
  rw [length_writeLittleEndian] at hlow hhigh
  rw [length_writeLittleEndian] at hhigh
  rw [readLittleEndian64, show ((4 : ℤ)) = ((4 : ℕ) : ℤ) from rfl, hlow]
  dsimp only
  rw [hhigh]
  dsimp only
  rw [unpack_writeLittleEndian, unpack_writeLittleEndian]
  have hvalue : BitVec.ofNat 64 (v.toNat / 256 ^ 4 % 256 ^ 4) <<< 32 ||| BitVec.ofNat 64 (v.toNat % 256 ^ 4) = v := by
    have hlt := v.isLt
    apply BitVec.eq_of_toNat_eq
    rw [BitVec.toNat_or, BitVec.toNat_shiftLeft, BitVec.toNat_ofNat, BitVec.toNat_ofNat, Nat.shiftLeft_eq,
      Nat.mul_comm, Nat.mod_eq_of_lt (by omega), Nat.mod_eq_of_lt (by omega), Nat.mod_eq_of_lt (by omega),
      ← Nat.two_pow_add_eq_or_of_lt (by omega)]
    omega
  rw [hvalue]
  rfl

end Reads
section RoundTrip

open CodedInputStream

variable {s : CodedInputStream} {tail : List UInt8} {utf8 : List UInt8 → Bool}

/-- A number in the range of an integer type, as it is passed to the setter. The numbers from `2^31` on of
an unsigned type of 32 bits may also be given as the negative numbers with these bits, and those of 64 bits
from `2^63` on are given so. -/
def ScalarType.Accepts : ScalarType → Scalar → Prop
  | .int32, .int v | .enum, .int v | .sfixed32, .int v | .sint32, .int v =>
    -2 ^ 31 ≤ v.toInt ∧ v.toInt < 2 ^ 31
  | .uint32, .int v | .fixed32, .int v => -2 ^ 31 ≤ v.toInt ∧ v.toInt < 2 ^ 32
  | .int64, .int _ | .uint64, .int _ | .fixed64, .int _ | .sfixed64, .int _ | .sint64, .int _ => True
  | .bool, .bool _ => True
  | _, _ => False

/-- The setter of an unsigned type brings the number in the range of the signed type. -/
theorem checkUint32_range {v : PhpInt} (h : -2 ^ 31 ≤ v.toInt) (h' : v.toInt < 2 ^ 32) :
    toInt32 (checkUint32 v) = checkUint32 v := by
  by_cases hneg : v.toInt < 0
  · have hv := toInt32_of_range h (by omega)
    rw [checkUint32_of_toInt32 hv, hv]
  · have hlt : v.toNat < 2 ^ 32 := by
      have := v.isLt
      rw [BitVec.toInt_eq_toNat_cond] at hneg h'
      split at h' <;> split at hneg <;> omega
    rw [checkUint32_of_lt hlt, toInt32_toInt32]

/-- What the setter keeps: the numbers of 32 bits as signed numbers. -/
def ScalarType.Normal : ScalarType → Scalar → Prop
  | .int32, .int v | .enum, .int v | .sfixed32, .int v | .sint32, .int v | .uint32, .int v
  | .fixed32, .int v => toInt32 v = v
  | .int64, .int _ | .uint64, .int _ | .fixed64, .int _ | .sfixed64, .int _ | .sint64, .int _ => True
  | .bool, .bool _ => True
  | _, _ => False

theorem ScalarType.Accepts.normal {type : ScalarType} {raw v : Scalar} (h : type.Accepts raw)
    (hset : type.check utf8 raw = .ok v) : type.Normal v := by
  cases type <;> cases raw <;> first | exact h.elim | skip
  all_goals cases hset
  all_goals first | exact trivial | exact toInt32_of_range h.1 h.2 | exact checkUint32_range h.1 h.2

/-- The setter keeps what it has kept. -/
theorem ScalarType.Normal.check_eq {type : ScalarType} {v : Scalar} (h : type.Normal v) :
    type.check utf8 v = .ok v := by
  cases type <;> cases v <;> first | exact h.elim | rfl | skip
  all_goals rw [ScalarType.check, checkUint32_of_toInt32 h]

/-- Everything but a bool is an integer. -/
theorem ScalarType.Normal.exists_int {type : ScalarType} {v : Scalar} (h : type.Normal v) (hbool : type ≠ .bool) :
    ∃ n, v = .int n := by
  cases v with
  | int n => exact ⟨n, rfl⟩
  | bool b => cases type <;> first | exact h.elim | exact absurd rfl hbool
  | _ => cases type <;> exact h.elim

theorem lt_mod (n : PhpInt) : (BitVec.ofNat 64 (n.toNat % 2 ^ 32)).toNat < 2 ^ 32 := by
  rw [BitVec.toNat_ofNat]
  omega

/-- The lower 32 bits of a number with a sign are enough to know it. -/
theorem ofNat_mod_toInt32 {n : PhpInt} (h : toInt32 n = n) :
    toInt32 (BitVec.ofNat 64 (n.toNat % 2 ^ 32)) = n := by
  conv_rhs => rw [← h]
  apply toInt32_congr
  intro j hj
  rw [BitVec.getLsbD_ofNat, Nat.testBit_mod_two_pow]
  simp [hj, show j < 64 by omega, BitVec.getLsbD]

/-- A negative number of an unsigned type is written without its sign. -/
theorem toInt32_unsigned {n : PhpInt} (h : toInt32 n = n) :
    toInt32 (if n.toInt < 0 then n + 4294967296 else n) = n := by
  split
  next hneg =>
    have hvalue : n + 4294967296 = BitVec.ofNat 64 (n.toNat % 2 ^ 32) := by
      have hlt := n.isLt
      have hn := toNat_toInt32 n
      rw [h] at hn
      rw [BitVec.toInt_eq_toNat_cond] at hneg
      apply BitVec.eq_of_toNat_eq
      rw [BitVec.toNat_add, BitVec.toNat_ofNat]
      change (n.toNat + 4294967296) % 2 ^ 64 = _
      split at hn <;> split at hneg <;> omega
    rw [hvalue, ofNat_mod_toInt32 h]
  next => exact h

/-- The bytes that are written are read back, before the setter is called. -/
theorem ScalarType.read_write {type : ScalarType} {v : Scalar} (h : type.Normal v) (hs : s.InBuffer)
    (hrest : s.rest = (type.write v).flatten ++ tail) :
    ∃ w, type.read s = .ok (w, s.advance (type.write v).flatten.length) ∧ type.check utf8 w = .ok v := by
  cases type with
  | double | float | string | bytes => cases v <;> exact h.elim
  | bool =>
    cases v with
    | bool b =>
      rw [ScalarType.write, List.flatten_singleton] at hrest ⊢
      refine ⟨.bool b, ?_, rfl⟩
      rw [ScalarType.read, readVarint64_write hs _ hrest]
      cases b <;> rfl
    | _ => exact h.elim
  | int64 | uint64 =>
    obtain ⟨n, rfl⟩ := h.exists_int nofun
    rw [ScalarType.write, List.flatten_singleton] at hrest ⊢
    refine ⟨.int n, ?_, rfl⟩
    rw [ScalarType.read, readVarint64_write hs _ hrest]
    rfl
  | int32 | enum =>
    obtain ⟨n, rfl⟩ := h.exists_int nofun
    rw [ScalarType.write, List.flatten_singleton] at hrest ⊢
    refine ⟨.int n, ?_, rfl⟩
    rw [ScalarType.read, readVarint32_write hs _ hrest, Scalar.toInt, show toInt32 n = n from h]
    rfl
  | uint32 =>
    obtain ⟨n, rfl⟩ := h.exists_int nofun
    have hbytes : (ScalarType.write .uint32 (.int n)).flatten =
        writeVarintToArray (if n.toInt < 0 then n + 4294967296 else n) := List.flatten_singleton
    rw [hbytes] at hrest ⊢
    refine ⟨.int n, ?_, ScalarType.Normal.check_eq h⟩
    rw [ScalarType.read, readVarint32_write hs _ hrest, toInt32_unsigned h]
    rfl
  | sint32 =>
    obtain ⟨n, rfl⟩ := h.exists_int nofun
    rw [ScalarType.write, List.flatten_singleton] at hrest ⊢
    refine ⟨.int n, ?_, rfl⟩
    rw [ScalarType.read, readVarint32_write hs _ hrest]
    change Except.ok (Scalar.int (zigZagDecode32 _), _) = _
    rw [Scalar.toInt, zigZagDecode32_encode h]
  | sint64 =>
    obtain ⟨n, rfl⟩ := h.exists_int nofun
    rw [ScalarType.write, List.flatten_singleton] at hrest ⊢
    refine ⟨.int n, ?_, rfl⟩
    rw [ScalarType.read, readVarint64_write hs _ hrest]
    change Except.ok (Scalar.int (zigZagDecode64 _), _) = _
    rw [Scalar.toInt, zigZagDecode64_encode]
  | fixed64 | sfixed64 =>
    obtain ⟨n, rfl⟩ := h.exists_int nofun
    rw [ScalarType.write, List.flatten_singleton] at hrest ⊢
    refine ⟨.int n, ?_, rfl⟩
    rw [ScalarType.read, readLittleEndian64_write hs _ hrest, length_writeLittleEndian]
    rfl
  | fixed32 =>
    obtain ⟨n, rfl⟩ := h.exists_int nofun
    rw [ScalarType.write, List.flatten_singleton] at hrest ⊢
    refine ⟨.int (BitVec.ofNat 64 (n.toNat % 2 ^ 32)), ?_, ?_⟩
    · rw [ScalarType.read, readLittleEndian32_write hs _ hrest, length_writeLittleEndian]
      rfl
    · rw [ScalarType.check, checkUint32_of_lt (lt_mod n), ofNat_mod_toInt32 h]
  | sfixed32 =>
    obtain ⟨n, rfl⟩ := h.exists_int nofun
    rw [ScalarType.write, List.flatten_singleton] at hrest ⊢
    refine ⟨.int n, ?_, rfl⟩
    rw [ScalarType.read, readLittleEndian32_write hs _ hrest, length_writeLittleEndian]
    change Except.ok (Scalar.int (_ ||| _), _) = _
    rw [sfixed32_of_lt (lt_mod _), Scalar.toInt, ofNat_mod_toInt32 h]

/-- A varint has between one and ten bytes. -/
theorem ScalarType.length_write_varint {type : ScalarType} (h : type.getWireType = 0) (v : Scalar) :
    1 ≤ (type.write v).flatten.length ∧ (type.write v).flatten.length ≤ 10 := by
  have hvarint (n : PhpInt) : 1 ≤ [writeVarintToArray n].flatten.length ∧
      [writeVarintToArray n].flatten.length ≤ 10 := by
    rw [List.flatten_singleton]
    exact ⟨(writeVarintToArray_spec n).1.length_pos, (writeVarintToArray_spec n).1.length_le⟩
  cases type <;> first | exact hvarint _ | exact absurd h (by decide)

/-- A number in the range of an integer type is read back from what is written for it, as the number that
the setter has kept, and just what was written is consumed. -/
theorem scalar_roundTrip (utf8 : List UInt8 → Bool) (type : ScalarType) (raw v : Scalar)
    (haccepts : type.Accepts raw) (hset : type.check utf8 raw = .ok v) (s : CodedInputStream)
    (tail : List UInt8) (hs : s.InBuffer) (hrest : s.rest = (type.write v).flatten ++ tail) :
    (∃ w, type.read s = .ok (w, s.advance (type.write v).flatten.length) ∧ type.check utf8 w = .ok v) ∧
      (type.getWireType = 0 →
        1 ≤ (type.write v).flatten.length ∧ (type.write v).flatten.length ≤ 10) :=
  ⟨ScalarType.read_write (ScalarType.Accepts.normal haccepts hset) hs hrest, fun h => type.length_write_varint h v⟩

/-- The number 3,000,000,000 of a `fixed32` field is kept as a negative number. -/
theorem scalar_roundTrip_fixed32 : (∃ w, ScalarType.fixed32.read (new [0x00, 0x5E, 0xD0, 0xB2]) =
      .ok (w, (new [0x00, 0x5E, 0xD0, 0xB2]).advance 4) ∧
    ScalarType.fixed32.check (fun _ => true) w = .ok (.int (BitVec.ofInt 64 (-1294967296)))) ∧
      (ScalarType.fixed32.getWireType = 0 → 1 ≤ 4 ∧ 4 ≤ 10) :=
  scalar_roundTrip (fun _ => true) .fixed32 (.int 3000000000) (.int (BitVec.ofInt 64 (-1294967296)))
    ⟨by decide, by decide⟩ (by decide) (new [0x00, 0x5E, 0xD0, 0xB2]) [] (inBuffer_new _) (by decide)

end RoundTrip
end Upb.Php
