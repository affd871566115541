import Mathlib.Data.Nat.Bitwise
import Upb.Php.CodedInputStream

/-!
# What the methods of the input stream read

A stream whose buffer is not longer than the limit on all bytes stands before the bytes up to its
limit. The methods read what was written from the front of them, and a pushed limit hides the bytes
behind it until it is popped.
-/

namespace Upb.Php

open Upb.Wire (IsVarint leb leb_lt)

namespace CodedInputStream

/-- The bytes up to the limit. -/
def rest (s : CodedInputStream) : List UInt8 := (s.buffer.drop s.current).take (s.bufferEnd - s.current)

/-- The bytes up to the limit and those behind it make up the buffer. -/
structure InBuffer (s : CodedInputStream) : Prop where
  current_le : s.current ≤ s.bufferEnd
  size : s.bufferEnd + s.bufferSizeAfterLimit = s.buffer.length

/-- `s'` is the stream `s` after `n` more bytes, with any mark of an end. -/
def After (s : CodedInputStream) (n : ℕ) (s' : CodedInputStream) : Prop :=
  ∃ b, s' = { s.advance n with legitimateMessageEnd := b }

variable {s s' s'' : CodedInputStream} {bytes tail p : List UInt8} {n k : ℕ}

theorem inBuffer_new (buffer : List UInt8) : (new buffer).InBuffer := ⟨Nat.zero_le _, rfl⟩

theorem rest_new (buffer : List UInt8) : (new buffer).rest = buffer := by
  simp [rest, new]

theorem InBuffer.length_rest (h : s.InBuffer) : s.rest.length = s.bufferEnd - s.current := by
  have := h.size
  rw [rest, List.length_take, List.length_drop]
  omega

theorem after_advance (s : CodedInputStream) (n : ℕ) : s.After n (s.advance n) :=
  ⟨s.legitimateMessageEnd, rfl⟩

theorem After.trans (h : s.After n s') (h' : s'.After k s'') : s.After (n + k) s'' := by
  obtain ⟨b, rfl⟩ := h
  obtain ⟨b', rfl⟩ := h'
  exact ⟨b', by simp [advance, Nat.add_assoc]⟩

theorem After.budget (h : s.After n s') : s'.recursionBudget = s.recursionBudget := by
  obtain ⟨b, rfl⟩ := h
  rfl

/-- Behind bytes that it has read, the stream stands before the rest. -/
theorem After.rest (h : s.After bytes.length s') (hrest : s.rest = bytes ++ tail) : s'.rest = tail := by
  obtain ⟨b, rfl⟩ := h
  have hdrop : s.rest.drop bytes.length = tail := by simp [hrest]
  rw [← hdrop]
  simp only [CodedInputStream.rest, advance, List.drop_take, List.drop_drop, Nat.sub_sub]

theorem After.inBuffer (h : s.After bytes.length s') (hrest : s.rest = bytes ++ tail) (hs : s.InBuffer) :
    s'.InBuffer := by
  have hlen := hs.length_rest
  obtain ⟨b, rfl⟩ := h
  rw [hrest, List.length_append] at hlen
  have := hs.current_le
  exact ⟨by simp only [advance]; omega, hs.size⟩

/-- The byte in front of the stream. -/
theorem InBuffer.head {b : UInt8} (h : s.InBuffer) (hrest : s.rest = b :: tail) :
    s.current ≠ s.bufferEnd ∧ s.buffer.getD s.current 0 = b := by
  have hlen := h.length_rest
  rw [hrest, List.length_cons] at hlen
  refine ⟨by omega, ?_⟩
  have hget : s.rest[0]? = some b := by rw [hrest]; rfl
  rw [CodedInputStream.rest, List.getElem?_take_of_lt (by omega), List.getElem?_drop] at hget
  simp only [Nat.add_zero] at hget
  rw [List.getD_eq_getElem?_getD, hget]
  rfl

/-- The groups of seven bits do not overlap. -/
private theorem or_group {m i b : ℕ} (hm : m < 2 ^ i) :
    BitVec.ofNat 64 m ||| (BitVec.ofNat 64 b <<< i) = BitVec.ofNat 64 (m + 2 ^ i * b) := by
  have hshift : BitVec.ofNat 64 b <<< i = BitVec.ofNat 64 (2 ^ i * b) := by
    apply BitVec.eq_of_toNat_eq
    simp [Nat.shiftLeft_eq, Nat.mul_comm]
  have hor : m + 2 ^ i * b = m ||| 2 ^ i * b := by
    rw [Nat.add_comm, Nat.or_comm, Nat.two_pow_add_eq_or_of_lt hm]
  rw [hshift, hor, BitVec.ofNat_or]

theorem readVarint64Loop_eq {q : List UInt8} (hs : s.InBuffer) (hrest : s.rest = p ++ tail) (hp : IsVarint n p)
    (hn : n + q.length = maxVarintBytes) :
    readVarint64Loop n (BitVec.ofNat 64 (leb q)) s =
      (some (BitVec.ofNat 64 (leb (q ++ p))), s.advance p.length) := by
  induction n generalizing s p q with
  | zero => simp [IsVarint, Upb.Wire.splitVarint] at hp
  | succ n ih =>
    cases p with
    | nil => simp [IsVarint, Upb.Wire.splitVarint] at hp
    | cons b bs =>
      obtain ⟨hcur, hbyte⟩ := hs.head hrest
      have hshift : 7 * (maxVarintBytes - (n + 1)) = q.length * 7 := by omega
      have hacc : BitVec.ofNat 64 (leb q) ||| (BitVec.ofNat 64 (b.toNat % 128) <<< (q.length * 7)) =
          BitVec.ofNat 64 (leb (q ++ [b])) := by
        rw [or_group (leb_lt q), Upb.Wire.leb_append, leb, leb, Nat.mul_zero, Nat.add_zero]
      rw [IsVarint, Upb.Wire.splitVarint] at hp
      rw [readVarint64Loop, if_neg hcur]
      simp only [hbyte, hshift, hacc]
      split at hp
      · next hb =>
        obtain rfl : bs = [] := by simpa using hp
        rw [if_neg (by omega)]
        rfl
      · next hb =>
        obtain ⟨⟨r, t⟩, hr, heq⟩ := Option.map_eq_some_iff.mp hp
        obtain ⟨rfl, rfl⟩ : r = bs ∧ t = [] := by simpa using heq
        have hafter : s.After [b].length (s.advance 1) := after_advance s 1
        have hrest' := After.rest (show s.After [b].length _ from hafter) hrest
        have hs' := After.inBuffer (show s.After [b].length _ from hafter) hrest hs
        rw [if_pos (by omega), ih hs' hrest' hr (by simp; omega)]
        simp [advance, Nat.add_assoc, Nat.add_comm 1]

/-- A varint is read. -/
theorem readVarint64_eq (hs : s.InBuffer) (hrest : s.rest = p ++ tail) (hp : IsVarint 10 p) :
    s.readVarint64 = (some (BitVec.ofNat 64 (leb p)), s.advance p.length) :=
  readVarint64Loop_eq (q := []) hs hrest hp rfl

/-- Raw bytes are read. -/
theorem readRaw_eq (hs : s.InBuffer) (hrest : s.rest = bytes ++ tail) :
    s.readRaw bytes.length = (some bytes, s.advance bytes.length) := by
  have hlen := hs.length_rest
  rw [hrest, List.length_append] at hlen
  have hcur := hs.current_le
  have hsize : ¬ ((bytes.length : ℤ) < 0 ∨ s.bufferSize < bytes.length) := by
    rw [bufferSize]
    omega
  have htake : (s.buffer.drop s.current).take bytes.length = bytes := by
    have := congrArg (List.take bytes.length) hrest
    rw [CodedInputStream.rest, List.take_take, List.take_left] at this
    rwa [min_eq_left (by omega)] at this
  rw [readRaw, if_neg hsize, Int.toNat_natCast, htake]

/-- A tag is read. -/
theorem readTag_eq (hs : s.InBuffer) (hrest : s.rest = p ++ tail) (hp : IsVarint 10 p) :
    s.readTag = (toInt32 (BitVec.ofNat 64 (leb p)), s.advance p.length) := by
  have hne : s.current ≠ s.bufferEnd := by
    cases p with
    | nil => exact absurd hp.length_pos (by simp)
    | cons b bs => exact (hs.head hrest).1
  rw [readTag, if_neg hne, readVarint32, readVarint64_eq hs hrest hp]

theorem InBuffer.position (h : s.InBuffer) : s.position = s.current := by
  have := h.size
  rw [CodedInputStream.position, totalBytesRead]
  omega

end CodedInputStream

end Upb.Php
