import Upb.Php.ScalarRoundTrip
import Upb.Php.Serialize
import Upb.Wire.VarintExact

/-!
# Unknown fields of the PHP runtime

`skipField` reads over a record that the class does not declare and keeps it. The payload is kept as
it is; the tag is written again from the number that was read for it, which is a signed number of 32
bits.
-/

namespace Upb.Php

open Upb.Wire (IsVarint IsMinimal leb leb_lt longvarint isMinimal_longvarint)

open CodedInputStream (toInt32)

/-- Well-formed payloads by wire type, without groups. -/
inductive IsPayload : ℕ → List UInt8 → Prop
  | varint {p : List UInt8} (h : IsVarint 10 p) : IsPayload 0 p
  | fixed64 {p : List UInt8} (h : p.length = 8) : IsPayload 1 p
  | delimited {len data : List UInt8} (hlen : IsVarint 10 len) (hvalue : leb len = data.length)
      (hmax : data.length < 2 ^ 31) : IsPayload 2 (len ++ data)
  | fixed32 {p : List UInt8} (h : p.length = 4) : IsPayload 5 p

/-- A well-formed record with a minimally encoded tag. -/
structure Record where
  number : ℕ
  wireType : ℕ
  tag : List UInt8
  payload : List UInt8
  number_pos : 1 ≤ number
  number_lt : number < 2 ^ 29
  minimal : IsMinimal tag (number * 8 + wireType)
  wf : IsPayload wireType payload

namespace Record

variable (r : Record)

/-- The bytes of the record. -/
def bytes : List UInt8 := r.tag ++ r.payload

/-- The tag as it is read. -/
def readTag : PhpInt := toInt32 (BitVec.ofNat 64 (r.number * 8 + r.wireType))

/-- The record as it is kept. -/
def kept : List UInt8 := writeVarintToArray r.readTag ++ r.payload

theorem wireType_lt : r.wireType < 8 := by
  have := r.wf
  generalize r.wireType = w, r.payload = p at this
  cases this <;> omega

theorem tag_lt : r.number * 8 + r.wireType < 2 ^ 32 := by
  have := r.wireType_lt
  have := r.number_lt
  omega

end Record

section Varints

/-- Varints of the same length are told apart by their values. -/
theorem varint_unique {n : ℕ} {p q : List UInt8} (hp : IsVarint n p) (hq : IsVarint n q)
    (hlength : p.length = q.length) (hvalue : leb p = leb q) : p = q := by
  induction n generalizing p q with
  | zero => simp [IsVarint, Upb.Wire.splitVarint] at hp
  | succ n ih =>
    cases p with
    | nil => simp [IsVarint, Upb.Wire.splitVarint] at hp
    | cons b bs =>
      have hpos : 0 < q.length := by
        rw [← hlength]
        exact Nat.succ_pos _
      obtain ⟨c, cs, rfl⟩ := List.exists_cons_of_length_pos hpos
      rw [IsVarint, Upb.Wire.splitVarint] at hp hq
      rw [leb, leb] at hvalue
      simp only [List.length_cons, Nat.add_right_cancel_iff] at hlength
      have hb := b.toNat_lt
      have hc := c.toNat_lt
      split at hp
      · next hlow =>
        obtain rfl : bs = [] := by simpa using hp
        obtain rfl : cs = [] := List.length_eq_zero_iff.mp hlength.symm
        split at hq
        · next hlow' =>
          have hbyte : b.toNat = c.toNat := by
            simp only [leb] at hvalue
            omega
          rw [UInt8.toNat_inj.mp hbyte]
        · cases n <;> simp [Upb.Wire.splitVarint] at hq
      · next hhigh =>
        obtain ⟨⟨p', t⟩, hp', heq⟩ := Option.map_eq_some_iff.mp hp
        obtain ⟨rfl, rfl⟩ : p' = bs ∧ t = [] := by simpa using heq
        split at hq
        · next hlow' =>
          obtain rfl : cs = [] := by simpa using hq
          obtain rfl : p' = [] := List.length_eq_zero_iff.mp hlength
          cases n <;> simp [Upb.Wire.splitVarint] at hp'
        · next hhigh' =>
          obtain ⟨⟨q', t'⟩, hq', heq'⟩ := Option.map_eq_some_iff.mp hq
          obtain ⟨rfl, rfl⟩ : q' = cs ∧ t' = [] := by simpa using heq'
          have hrest : p' = q' := ih hp' hq' hlength (by omega)
          have hbyte : b.toNat = c.toNat := by
            rw [hrest] at hvalue
            omega
          rw [hrest, UInt8.toNat_inj.mp hbyte]

/-- A varint within a number of bytes is one within more. -/
theorem isVarint_mono {n m : ℕ} {p : List UInt8} (h : IsVarint n p) (hle : n ≤ m) : IsVarint m p := by
  induction n generalizing m p with
  | zero => simp [IsVarint, Upb.Wire.splitVarint] at h
  | succ n ih =>
    obtain ⟨m, rfl⟩ : ∃ k, m = k + 1 := ⟨m - 1, by omega⟩
    cases p with
    | nil => simp [IsVarint, Upb.Wire.splitVarint] at h
    | cons b bs =>
      rw [IsVarint, Upb.Wire.splitVarint] at h ⊢
      split at h
      · next hb =>
        rw [if_pos hb]
        exact h
      · next hb =>
        obtain ⟨⟨q, t⟩, hq, heq⟩ := Option.map_eq_some_iff.mp h
        obtain ⟨rfl, rfl⟩ : q = bs ∧ t = [] := by simpa using heq
        have hrec := ih (m := m) hq (by omega)
        rw [if_neg hb, show Upb.Wire.splitVarint m q = some (q, []) from hrec]
        rfl

/-- What the writer writes is minimal. -/
theorem isMinimal_write (v : PhpInt) : IsMinimal (writeVarintToArray v) v.toNat := by
  have hlt := v.isLt
  rw [writeVarintToArray, writeVarintLoop_eq (by omega)]
  exact isMinimal_longvarint (by omega) (by omega)

/-- The writer writes the minimal varint. -/
theorem write_of_isMinimal {p : List UInt8} {v : PhpInt} (h : IsMinimal p v.toNat) :
    writeVarintToArray v = p := by
  obtain ⟨hp, hvalue, hmin⟩ := h
  obtain ⟨hq, hvalue', hmin'⟩ := isMinimal_write v
  have hlength : (writeVarintToArray v).length = p.length :=
    le_antisymm (hmin' p hp hvalue) (hmin _ hq hvalue')
  rw [hlength] at hq
  exact varint_unique hq hp hlength (hvalue'.trans hvalue.symm)

end Varints

section Tags

/-- The bits of a tag. -/
theorem getTagFieldNumber_toInt32 {t : ℕ} (ht : t < 2 ^ 32) :
    getTagFieldNumber (toInt32 (BitVec.ofNat 64 t)) = t / 8 := by
  have hvalue : (toInt32 (BitVec.ofNat 64 t)).sshiftRight 3 &&& 0x1fffffff = BitVec.ofNat 64 (t / 8) := by
    apply BitVec.eq_of_getLsbD_eq
    intro j hj
    rw [BitVec.getLsbD_and, BitVec.getLsbD_sshiftRight,
      show (0x1fffffff : PhpInt) = BitVec.ofNat 64 (2 ^ 29 - 1) from rfl, getLsbD_mask 29 (by omega),
      BitVec.getLsbD_ofNat]
    have hdiv : (t / 8).testBit j = t.testBit (3 + j) := by
      rw [show 8 = 2 ^ 3 from rfl, Nat.testBit_div_two_pow, Nat.add_comm]
    by_cases hlow : j < 29
    · have h64 : 3 + j < 64 := by omega
      have h64' : ¬64 ≤ j := by omega
      rw [if_pos h64, getLsbD_toInt32 h64, min_eq_left (by omega), BitVec.getLsbD_ofNat, hdiv]
      simp [hlow, hj, h64, h64']
    · have hzero : (t / 8).testBit j = false := by
        apply Nat.testBit_lt_two_pow
        calc t / 8 < 2 ^ 29 := by omega
          _ ≤ 2 ^ j := Nat.pow_le_pow_right (by omega) (by omega)
      simp [hlow, hj, hzero]
  rw [getTagFieldNumber, hvalue, BitVec.toNat_ofNat, Nat.mod_eq_of_lt (by omega)]

theorem getTagWireType_toInt32 (t : ℕ) :
    getTagWireType (toInt32 (BitVec.ofNat 64 t)) = t % 8 := by
  have hmask : ∀ v : PhpInt, (v &&& 0x7).toNat = v.toNat % 8 := by
    intro v
    rw [BitVec.toNat_and]
    exact Nat.and_two_pow_sub_one_eq_mod v.toNat 3
  rw [getTagWireType, hmask, toNat_toInt32, BitVec.toNat_ofNat]
  split <;> omega

theorem toInt32_ne_zero {t : ℕ} (ht : t < 2 ^ 32) (hpos : 0 < t) :
    toInt32 (BitVec.ofNat 64 t) ≠ 0 := by
  intro h
  have hvalue := congrArg BitVec.toNat h
  rw [toNat_toInt32, BitVec.toNat_ofNat] at hvalue
  have hzero : (0 : PhpInt).toNat = 0 := rfl
  rw [hzero] at hvalue
  split at hvalue <;> omega

end Tags

namespace CodedInputStream

variable {s : CodedInputStream} {p tail : List UInt8}

/-- Eight bytes are read as two numbers of four. -/
theorem readLittleEndian64_eq (hs : s.InBuffer) (hrest : s.rest = p ++ tail) (hlength : p.length = 8) :
    ∃ v, s.readLittleEndian64 = (some v, s.advance 8) := by
  have hlow : (p.take 4).length = 4 := by rw [List.length_take]; omega
  have hhigh : (p.drop 4).length = 4 := by rw [List.length_drop]; omega
  have hsplit : s.rest = p.take 4 ++ (p.drop 4 ++ tail) := by
    rw [← List.append_assoc, List.take_append_drop, hrest]
  have hread := readRaw_eq hs hsplit
  have hafter : s.After (p.take 4).length (s.advance (p.take 4).length) := after_advance s _
  have hread' := readRaw_eq (hafter.inBuffer hsplit hs) (hafter.rest hsplit)
  rw [hlow] at hread
  rw [hlow, hhigh] at hread'
  rw [readLittleEndian64, show ((4 : ℤ)) = ((4 : ℕ) : ℤ) from rfl, hread]
  dsimp only
  rw [hread']
  exact ⟨_, rfl⟩

theorem readLittleEndian32_eq (hs : s.InBuffer) (hrest : s.rest = p ++ tail) (hlength : p.length = 4) :
    ∃ v, s.readLittleEndian32 = (some v, s.advance 4) := by
  have hread := readRaw_eq hs hrest
  rw [hlength] at hread
  rw [readLittleEndian32, show ((4 : ℤ)) = ((4 : ℕ) : ℤ) from rfl, hread]
  exact ⟨_, rfl⟩

/-- A length is read as what it is. -/
theorem toInt_toInt32_ofNat {n : ℕ} (h : n < 2 ^ 31) :
    (toInt32 (BitVec.ofNat 64 n)).toInt = n := by
  have hvalue := toNat_toInt32 (BitVec.ofNat 64 n)
  rw [BitVec.toNat_ofNat, if_pos (by omega)] at hvalue
  rw [BitVec.toInt_eq_toNat_cond, if_pos (by omega), hvalue]
  omega

/-- The bytes that were read over. -/
theorem substr_eq (hs : s.InBuffer) (hrest : s.rest = p ++ tail) :
    (s.advance p.length).substr s.position (s.advance p.length).position = p := by
  have hlen := hs.length_rest
  rw [hrest, List.length_append] at hlen
  have hcur := hs.current_le
  have hafter : (s.advance p.length).InBuffer := (after_advance s p.length).inBuffer hrest hs
  have htake := congrArg (List.take p.length) hrest
  rw [CodedInputStream.rest, List.take_take, List.take_left, min_eq_left (by omega)] at htake
  rw [hs.position, hafter.position, substr, Int.toNat_natCast]
  simp only [advance, Nat.cast_add, add_sub_cancel_left, Int.toNat_natCast]
  exact htake

end CodedInputStream

section Skip

open CodedInputStream

variable {s : CodedInputStream} {tail : List UInt8}

/-- A record is read over, and its payload is kept. -/
theorem skipField_record (r : Record) (hs : s.InBuffer) (hrest : s.rest = r.payload ++ tail) :
    skipField s r.readTag = .ok (r.kept, s.advance r.payload.length) := by
  have hnumber : getTagFieldNumber r.readTag = r.number := by
    rw [Record.readTag, getTagFieldNumber_toInt32 r.tag_lt]
    have := r.wireType_lt
    omega
  have htype : getTagWireType r.readTag = r.wireType := by
    rw [Record.readTag, getTagWireType_toInt32]
    have := r.wireType_lt
    omega
  have hpos := r.number_pos
  have hbytes := substr_eq hs hrest
  rw [skipField, hnumber, if_neg (by omega), htype, Record.kept]
  have hwf := r.wf
  generalize r.wireType = w, r.payload = p at hwf hrest hbytes
  cases hwf with
  | varint h =>
    dsimp only
    rw [readVarint64_eq hs hrest h]
    simp only [orThrow, Except.map, bind, Except.bind, hbytes]
  | fixed64 h =>
    obtain ⟨v, hv⟩ := readLittleEndian64_eq hs hrest h
    rw [h] at hbytes
    dsimp only
    rw [hv]
    simp only [orThrow, Except.map, bind, Except.bind, hbytes, h]
  | fixed32 h =>
    obtain ⟨v, hv⟩ := readLittleEndian32_eq hs hrest h
    rw [h] at hbytes
    dsimp only
    rw [hv]
    simp only [orThrow, Except.map, bind, Except.bind, hbytes, h]
  | @delimited len data hlen hvalue hmax =>
    rw [List.append_assoc] at hrest
    have hafter : s.After len.length (s.advance len.length) := after_advance s _
    have hraw := readRaw_eq (hafter.inBuffer hrest hs) (hafter.rest hrest)
    have hlength : (toInt32 (BitVec.ofNat 64 (leb len))).toInt = data.length := by
      rw [hvalue, toInt_toInt32_ofNat hmax]
    rw [← hlength] at hraw
    have hadvance : (s.advance len.length).advance data.length = s.advance (len ++ data).length := by
      simp [advance, Nat.add_assoc]
    rw [hadvance] at hraw
    dsimp only
    rw [readVarint32, readVarint64_eq hs hrest hlen]
    simp only [orThrow, Except.map, bind, Except.bind, hraw, hbytes]

end Skip

end Upb.Php
