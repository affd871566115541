import Upb.Common.Except
import Upb.Php.UnknownFields

/-!
# What the stream has behind it after a successful read

The converse of the lemmas about reading what was written: a method that succeeds went over the bytes
of what it reads. Without a limit in order the stream still only moves forward.
-/

namespace Upb.Php

open Upb.Wire (IsVarint leb splitVarint)

/-- Payloads by wire type, where the lengths of delimited data are read modulo `m`. -/
inductive PayloadMod (m : ℕ) : ℕ → List UInt8 → Prop
  | varint {p : List UInt8} (h : IsVarint 10 p) : PayloadMod m 0 p
  | fixed64 {p : List UInt8} (h : p.length = 8) : PayloadMod m 1 p
  | delimited {len data : List UInt8} (hlen : IsVarint 10 len) (hvalue : leb len % m = data.length) :
      PayloadMod m 2 (len ++ data)
  | fixed32 {p : List UInt8} (h : p.length = 4) : PayloadMod m 5 p

theorem orThrow_eq_ok {α : Type} {message : String} {r : Option α × CodedInputStream} {a : α}
    {s : CodedInputStream} : orThrow message r = .ok (a, s) ↔ r = (some a, s) := by
  obtain ⟨_ | b, t⟩ := r <;> simp [orThrow]

namespace CodedInputStream

/-- The stream moved forward. -/
def Advances (s s' : CodedInputStream) : Prop := ∃ k, s' = s.advance k

/-- The stream went over the bytes `p`. -/
def Took (s : CodedInputStream) (p : List UInt8) (s' : CodedInputStream) : Prop :=
  s' = s.advance p.length ∧ ∃ tail, s.rest = p ++ tail

variable {s s' s'' : CodedInputStream} {p q data : List UInt8} {n : ℕ} {v : PhpInt}

theorem Advances.refl (s : CodedInputStream) : s.Advances s := ⟨0, rfl⟩

theorem Advances.trans (h : s.Advances s') (h' : s'.Advances s'') : s.Advances s'' := by
  obtain ⟨k, rfl⟩ := h
  obtain ⟨l, rfl⟩ := h'
  exact ⟨k + l, by simp [advance, Nat.add_assoc]⟩

theorem Took.advances (h : s.Took p s') : s.Advances s' := ⟨p.length, h.1⟩

theorem Took.inBuffer (h : s.Took p s') (hs : s.InBuffer) : s'.InBuffer := by
  obtain ⟨rfl, tail, hrest⟩ := h
  exact (after_advance s p.length).inBuffer hrest hs

theorem Took.rest_eq (h : s.Took p s') : s.rest = p ++ s'.rest := by
  obtain ⟨rfl, tail, hrest⟩ := h
  rw [(after_advance s p.length).rest hrest, hrest]

theorem Took.trans (h : s.Took p s') (h' : s'.Took q s'') : s.Took (p ++ q) s'' := by
  refine ⟨?_, s''.rest, ?_⟩
  · obtain ⟨rfl, -⟩ := h
    obtain ⟨rfl, -⟩ := h'
    simp [advance, Nat.add_assoc]
  · rw [h.rest_eq, h'.rest_eq, List.append_assoc]

section Forward

theorem readVarint64Loop_advances {r : Option PhpInt} {result : PhpInt}
    (h : readVarint64Loop n result s = (r, s')) : s.Advances s' := by
  induction n generalizing s result with
  | zero =>
    cases h
    exact Advances.refl _
  | succ n ih =>
    rw [readVarint64Loop] at h
    split at h
    · cases h
      exact Advances.refl _
    · dsimp only at h
      split at h
      · exact Advances.trans ⟨1, rfl⟩ (ih h)
      · cases h
        exact ⟨1, rfl⟩

theorem readVarint64_advances {r : Option PhpInt} (h : s.readVarint64 = (r, s')) : s.Advances s' :=
  readVarint64Loop_advances h

theorem readVarint32_eq_some : s.readVarint32 = (some v, s') ↔
    ∃ var, s.readVarint64 = (some var, s') ∧ v = toInt32 var := by
  rw [readVarint32]
  cases hread : s.readVarint64 with
  | mk r t =>
    cases r with
    | none => simp
    | some var => simp only [Prod.mk.injEq, Option.some.injEq]; grind

theorem readVarint32_advances (h : s.readVarint32 = (some v, s')) : s.Advances s' := by
  obtain ⟨var, hread, -⟩ := readVarint32_eq_some.mp h
  exact readVarint64_advances hread

theorem readRaw_eq_some {size : ℤ} : s.readRaw size = (some data, s') ↔
    (0 ≤ size ∧ size ≤ s.bufferSize) ∧ data = (s.buffer.drop s.current).take size.toNat ∧
      s' = s.advance size.toNat := by
  rw [readRaw]
  split
  next h =>
    simp only [Prod.mk.injEq, reduceCtorEq, false_and, false_iff]
    rintro ⟨hsize, -⟩
    omega
  next h =>
    simp only [Prod.mk.injEq, Option.some.injEq]
    constructor
    · rintro ⟨rfl, rfl⟩
      exact ⟨by omega, rfl, rfl⟩
    · rintro ⟨-, rfl, rfl⟩
      exact ⟨rfl, rfl⟩

theorem readRaw_advances {size : ℤ} (h : s.readRaw size = (some data, s')) : s.Advances s' :=
  ⟨size.toNat, (readRaw_eq_some.mp h).2.2⟩

theorem readLittleEndian32_eq_some (h : s.readLittleEndian32 = (some v, s')) :
    ∃ data, s.readRaw 4 = (some data, s') := by
  rw [readLittleEndian32] at h
  split at h
  next data t hread =>
    cases h
    exact ⟨data, hread⟩
  next => cases h

theorem readLittleEndian64_eq_some (h : s.readLittleEndian64 = (some v, s')) :
    ∃ low t high, s.readRaw 4 = (some low, t) ∧ t.readRaw 4 = (some high, s') := by
  rw [readLittleEndian64] at h
  split at h
  next => cases h
  next low t hlow =>
    dsimp only at h
    split at h
    next => cases h
    next high t' hhigh =>
      cases h
      exact ⟨low, t, high, hlow, hhigh⟩

end Forward

section Bytes

/-- The byte in front of the stream, and the rest. -/
theorem InBuffer.rest_cons (hs : s.InBuffer) (h : s.current ≠ s.bufferEnd) :
    s.rest = s.buffer.getD s.current 0 :: (s.advance 1).rest := by
  have hcur := hs.current_le
  have hsize := hs.size
  have hlen := hs.length_rest
  cases hrest : s.rest with
  | nil =>
    rw [hrest, List.length_nil] at hlen
    omega
  | cons b tail =>
    have hafter : s.After [b].length (s.advance 1) := after_advance s 1
    rw [(hs.head hrest).2, After.rest (show s.After [b].length _ from hafter) hrest]

theorem readVarint64Loop_took {result : PhpInt} (hs : s.InBuffer)
    (h : readVarint64Loop n result s = (some v, s')) : ∃ p, IsVarint n p ∧ s.Took p s' := by
  induction n generalizing s result with
  | zero => cases h
  | succ n ih =>
    rw [readVarint64Loop] at h
    split at h
    · cases h
    · next hne =>
      have hrest := hs.rest_cons hne
      have htook : s.Took [s.buffer.getD s.current 0] (s.advance 1) := ⟨rfl, _, hrest⟩
      dsimp only at h
      split at h
      · next hb =>
        obtain ⟨p, hp, hrec⟩ := ih (htook.inBuffer hs) h
        refine ⟨s.buffer.getD s.current 0 :: p, ?_, htook.trans hrec⟩
        rw [IsVarint, splitVarint, if_neg (by omega), show splitVarint n p = some (p, []) from hp]
        rfl
      · next hb =>
        cases h
        refine ⟨[s.buffer.getD s.current 0], ?_, htook⟩
        rw [IsVarint, splitVarint, if_pos (by omega)]

theorem readVarint64_took (hs : s.InBuffer) (h : s.readVarint64 = (some v, s')) :
    ∃ p, IsVarint 10 p ∧ s.Took p s' ∧ v = BitVec.ofNat 64 (leb p) := by
  obtain ⟨p, hp, htook⟩ := readVarint64Loop_took hs h
  have hread := readVarint64_eq hs htook.rest_eq hp
  rw [h] at hread
  exact ⟨p, hp, htook, (Option.some.inj (congrArg Prod.fst hread))⟩

theorem readVarint32_took (hs : s.InBuffer) (h : s.readVarint32 = (some v, s')) :
    ∃ p, IsVarint 10 p ∧ s.Took p s' ∧ v = toInt32 (BitVec.ofNat 64 (leb p)) := by
  obtain ⟨var, hread, rfl⟩ := readVarint32_eq_some.mp h
  obtain ⟨p, hp, htook, rfl⟩ := readVarint64_took hs hread
  exact ⟨p, hp, htook, rfl⟩

theorem readRaw_took {size : ℤ} (hs : s.InBuffer) (h : s.readRaw size = (some data, s')) :
    (data.length : ℤ) = size ∧ s.Took data s' := by
  obtain ⟨⟨hnonneg, hle⟩, hdata, hs'⟩ := readRaw_eq_some.mp h
  have hcur := hs.current_le
  have hsize := hs.size
  rw [bufferSize] at hle
  have hlength : data.length = size.toNat := by
    rw [hdata, List.length_take, List.length_drop]
    omega
  have htake : s.rest.take size.toNat = data := by
    rw [hdata, CodedInputStream.rest, List.take_take, min_eq_left (by omega)]
  refine ⟨by omega, ?_, s.rest.drop size.toNat, ?_⟩
  · rw [hlength, hs']
  · rw [← htake, List.take_append_drop]

theorem readTag_took (hs : s.InBuffer) {tag : PhpInt} (h : s.readTag = (tag, s')) (hne : tag ≠ 0) :
    ∃ p, IsVarint 10 p ∧ s.Took p s' ∧ tag = toInt32 (BitVec.ofNat 64 (leb p)) := by
  rw [readTag] at h
  split at h
  · dsimp only at h
    split at h
    all_goals
      cases h
      exact absurd rfl hne
  · split at h
    next result t hread =>
      cases h
      exact readVarint32_took hs hread
    next =>
      cases h
      exact absurd rfl hne

/-- A length that was read as 32 bits is the length of the data. -/
theorem leb_mod_of_toInt32 {m k : ℕ} (h : (k : ℤ) = (toInt32 (BitVec.ofNat 64 m)).toInt) :
    m % 2 ^ 32 = k := by
  have hvalue := toNat_toInt32 (BitVec.ofNat 64 m)
  rw [BitVec.toNat_ofNat] at hvalue
  have hlt := (toInt32 (BitVec.ofNat 64 m)).isLt
  rw [BitVec.toInt_eq_toNat_cond] at h
  split at h <;> split at hvalue <;> omega

theorem leb_mod_of_toInt {m k : ℕ} (h : (k : ℤ) = (BitVec.ofNat 64 m).toInt) : m % 2 ^ 64 = k := by
  rw [BitVec.toInt_eq_toNat_cond, BitVec.toNat_ofNat] at h
  split at h <;> omega

end Bytes

end CodedInputStream

open CodedInputStream

variable {s s' : CodedInputStream}

/-- A scalar is read from its payload. -/
theorem ScalarType.read_cases {type : ScalarType} {v : Scalar} (h : type.read s = .ok (v, s')) :
    (type.getWireType = 0 ∧ ∃ var, s.readVarint64 = (some var, s')) ∨
    (type.getWireType = 1 ∧ ((∃ data, s.readRaw 8 = (some data, s')) ∨
      ∃ var, s.readLittleEndian64 = (some var, s'))) ∨
    (type.getWireType = 5 ∧ ∃ data, s.readRaw 4 = (some data, s')) ∨
    (type.getWireType = 2 ∧ ∃ length t data, s.readVarint64 = (some length, t) ∧
      t.readRaw length.toInt = (some data, s')) := by
  have hvarint32 : ∀ {var : PhpInt} {t}, s.readVarint32 = (some var, t) →
      ∃ var', s.readVarint64 = (some var', t) := by
    intro var t hread
    obtain ⟨var', hvar, -⟩ := readVarint32_eq_some.mp hread
    exact ⟨var', hvar⟩
  have hstring : ∀ {data t}, readString s = (some data, t) → ∃ length t' data',
      s.readVarint64 = (some length, t') ∧ t'.readRaw length.toInt = (some data', t) := by
    intro data t hread
    rw [readString] at hread
    split at hread
    next length t' hlength => exact ⟨length, t', data, hlength, hread⟩
    next => cases hread
  cases type <;>
    obtain ⟨⟨w, t⟩, hread, heq⟩ := Common.bind_eq_ok.mp h <;>
    rw [orThrow_eq_ok] at hread <;> cases heq
  case bool | int64 | uint64 | sint64 => exact .inl ⟨rfl, _, hread⟩
  case int32 | uint32 | enum | sint32 => exact .inl ⟨rfl, hvarint32 hread⟩
  case double => exact .inr (.inl ⟨rfl, .inl ⟨_, hread⟩⟩)
  case fixed64 | sfixed64 => exact .inr (.inl ⟨rfl, .inr ⟨_, hread⟩⟩)
  case float => exact .inr (.inr (.inl ⟨rfl, _, hread⟩))
  case fixed32 | sfixed32 => exact .inr (.inr (.inl ⟨rfl, readLittleEndian32_eq_some hread⟩))
  case string | bytes => exact .inr (.inr (.inr ⟨rfl, hstring hread⟩))

theorem ScalarType.read_advances {type : ScalarType} {v : Scalar} (h : type.read s = .ok (v, s')) :
    s.Advances s' := by
  rcases read_cases h with ⟨-, var, hread⟩ | ⟨-, ⟨data, hread⟩ | ⟨var, hread⟩⟩ | ⟨-, data, hread⟩ |
    ⟨-, length, t, data, hlength, hread⟩
  · exact readVarint64_advances hread
  · exact readRaw_advances hread
  · obtain ⟨low, t, high, hlow, hhigh⟩ := readLittleEndian64_eq_some hread
    exact (readRaw_advances hlow).trans (readRaw_advances hhigh)
  · exact readRaw_advances hread
  · exact (readVarint64_advances hlength).trans (readRaw_advances hread)

/-- Two times four bytes. -/
theorem readLittleEndian64_took {v : PhpInt} (hs : s.InBuffer) (h : s.readLittleEndian64 = (some v, s')) :
    ∃ p, p.length = 8 ∧ s.Took p s' := by
  obtain ⟨low, t, high, hlow, hhigh⟩ := readLittleEndian64_eq_some h
  obtain ⟨hlength, htook⟩ := readRaw_took hs hlow
  obtain ⟨hlength', htook'⟩ := readRaw_took (htook.inBuffer hs) hhigh
  refine ⟨low ++ high, ?_, htook.trans htook'⟩
  rw [List.length_append]
  omega

theorem ScalarType.read_took {type : ScalarType} {v : Scalar} (hs : s.InBuffer)
    (h : type.read s = .ok (v, s')) : ∃ p, PayloadMod (2 ^ 64) type.getWireType p ∧ s.Took p s' := by
  rcases read_cases h with ⟨hw, var, hread⟩ | ⟨hw, ⟨data, hread⟩ | ⟨var, hread⟩⟩ | ⟨hw, data, hread⟩ |
    ⟨hw, length, t, data, hlen, hread⟩ <;> rw [hw]
  · obtain ⟨p, hp, htook, -⟩ := readVarint64_took hs hread
    exact ⟨p, .varint hp, htook⟩
  · obtain ⟨hlength, htook⟩ := readRaw_took hs hread
    exact ⟨data, .fixed64 (by omega), htook⟩
  · obtain ⟨p, hlength, htook⟩ := readLittleEndian64_took hs hread
    exact ⟨p, .fixed64 hlength, htook⟩
  · obtain ⟨hlength, htook⟩ := readRaw_took hs hread
    exact ⟨data, .fixed32 (by omega), htook⟩
  · obtain ⟨p, hp, htook, rfl⟩ := readVarint64_took hs hlen
    obtain ⟨hlength, htook'⟩ := readRaw_took (htook.inBuffer hs) hread
    exact ⟨p ++ data, .delimited hp (leb_mod_of_toInt hlength), htook.trans htook'⟩

/-- The ways in which `skipField` reads over a payload. -/
theorem skipField_cases {tag : PhpInt} {bytes : List UInt8} (h : skipField s tag = .ok (bytes, s')) :
    getTagFieldNumber tag ≠ 0 ∧
    ((getTagWireType tag = 0 ∧ ∃ var, s.readVarint64 = (some var, s')) ∨
    (getTagWireType tag = 1 ∧ ∃ var, s.readLittleEndian64 = (some var, s')) ∨
    (getTagWireType tag = 5 ∧ ∃ var, s.readLittleEndian32 = (some var, s')) ∨
    (getTagWireType tag = 2 ∧ ∃ length t data, s.readVarint32 = (some length, t) ∧
      t.readRaw length.toInt = (some data, s'))) := by
  have hmap : ∀ {α : Type} {message : String} {r : Option α × CodedInputStream} {t},
      (orThrow message r).map Prod.snd = .ok t → ∃ a, r = (some a, t) := by
    intro α message r t hr
    obtain ⟨⟨a, t'⟩, hok, rfl⟩ := Common.map_eq_ok.mp hr
    exact ⟨a, orThrow_eq_ok.mp hok⟩
  rw [skipField] at h
  split at h
  · cases h
  · next hnumber =>
    refine ⟨hnumber, ?_⟩
    dsimp only at h
    split at h
    next hw =>
      obtain ⟨t, hread, heq⟩ := Common.bind_eq_ok.mp h
      cases heq
      exact .inl ⟨hw, hmap hread⟩
    next hw =>
      obtain ⟨t, hread, heq⟩ := Common.bind_eq_ok.mp h
      cases heq
      exact .inr (.inl ⟨hw, hmap hread⟩)
    next hw =>
      obtain ⟨t, hread, heq⟩ := Common.bind_eq_ok.mp h
      cases heq
      exact .inr (.inr (.inl ⟨hw, hmap hread⟩))
    next hw =>
      obtain ⟨⟨length, t⟩, hlength, h⟩ := Common.bind_eq_ok.mp h
      obtain ⟨t', hread, heq⟩ := Common.bind_eq_ok.mp h
      cases heq
      obtain ⟨data, hdata⟩ := hmap hread
      exact .inr (.inr (.inr ⟨hw, length, t, data, orThrow_eq_ok.mp hlength, hdata⟩))
    next => cases h

theorem skipField_advances {tag : PhpInt} {bytes : List UInt8} (h : skipField s tag = .ok (bytes, s')) :
    s.Advances s' := by
  rcases (skipField_cases h).2 with ⟨-, var, hread⟩ | ⟨-, var, hread⟩ | ⟨-, var, hread⟩ |
    ⟨-, length, t, data, hlen, hread⟩
  · exact readVarint64_advances hread
  · obtain ⟨low, t, high, hlow, hhigh⟩ := readLittleEndian64_eq_some hread
    exact (readRaw_advances hlow).trans (readRaw_advances hhigh)
  · obtain ⟨data, hdata⟩ := readLittleEndian32_eq_some hread
    exact readRaw_advances hdata
  · exact (readVarint32_advances hlen).trans (readRaw_advances hread)

theorem skipField_took {tag : PhpInt} {bytes : List UInt8} (hs : s.InBuffer)
    (h : skipField s tag = .ok (bytes, s')) :
    ∃ p, PayloadMod (2 ^ 32) (getTagWireType tag) p ∧ s.Took p s' := by
  rcases (skipField_cases h).2 with ⟨hw, var, hread⟩ | ⟨hw, var, hread⟩ | ⟨hw, var, hread⟩ |
    ⟨hw, length, t, data, hlen, hread⟩ <;> rw [hw]
  · obtain ⟨p, hp, htook, -⟩ := readVarint64_took hs hread
    exact ⟨p, .varint hp, htook⟩
  · obtain ⟨p, hlength, htook⟩ := readLittleEndian64_took hs hread
    exact ⟨p, .fixed64 hlength, htook⟩
  · obtain ⟨data, hdata⟩ := readLittleEndian32_eq_some hread
    obtain ⟨hlength, htook⟩ := readRaw_took hs hdata
    exact ⟨data, .fixed32 (by omega), htook⟩
  · obtain ⟨p, hp, htook, rfl⟩ := readVarint32_took hs hlen
    obtain ⟨hlength, htook'⟩ := readRaw_took (htook.inBuffer hs) hread
    exact ⟨p ++ data, .delimited hp (leb_mod_of_toInt32 hlength), htook.trans htook'⟩

end Upb.Php
