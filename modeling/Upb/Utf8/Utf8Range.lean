import Mathlib.Data.List.TakeWhile
import Upb.Common.Utf8
import Upb.Wire.InputStream

/-!
# The check of UTF-8

`third_party/utf8_range/utf8_range.c`, as it is compiled for processors without the vector
instructions that it knows: ASCII is skipped eight bytes at a time, and the rest is checked character
by character. A pointer is the list of the bytes from it to the end. What is checked is exactly UTF-8,
and the prefix that is reported is the longest one.
-/

namespace Upb.Utf8Range

open Upb.Common.Utf8

/-- A `char` as an `int8_t`. -/
def int8 (c : UInt8) : ℤ := if c.toNat < 128 then c.toNat else c.toNat - 256

/-- `utf8_range_AsciiIsAscii`. -/
def asciiIsAscii (c : UInt8) : Bool := c.toNat < 128

/-- `utf8_range_IsTrailByteOk`. -/
def isTrailByteOk (c : UInt8) : Bool := int8 c ≤ int8 0xBF

/-- The body of the loop of `utf8_range_ValidateUTF8Naive`: `codepoint_bytes` for the next round, or
none where the loop returns. -/
def codepointBytes : List UInt8 → Option ℕ
  | [] => none
  | byte1 :: rest =>
    if asciiIsAscii byte1 then some 1
    else if 0xC2 ≤ byte1.toNat ∧ byte1.toNat ≤ 0xDF ∧ rest.head?.any isTrailByteOk then some 2
    else
      match rest with
      | byte2 :: byte3 :: rest =>
        if ¬isTrailByteOk byte2 ∨ ¬isTrailByteOk byte3 then none
        else if byte1.toNat = 0xE0 ∧ byte2.toNat ≥ 0xA0 ∨ byte1.toNat ≥ 0xE1 ∧ byte1.toNat ≤ 0xEC ∨
            byte1.toNat = 0xED ∧ byte2.toNat ≤ 0x9F ∨ byte1.toNat ≥ 0xEE ∧ byte1.toNat ≤ 0xEF then
          some 3
        else
          match rest with
          | byte4 :: _ =>
            if ¬isTrailByteOk byte4 then none
            else if byte1.toNat = 0xF0 ∧ byte2.toNat ≥ 0x90 ∨
                byte1.toNat ≥ 0xF1 ∧ byte1.toNat ≤ 0xF3 ∨ byte1.toNat = 0xF4 ∧ byte2.toNat ≤ 0x8F then
              some 4
            else none
          | [] => none
      | _ => none

theorem asciiIsAscii_iff {c : UInt8} : asciiIsAscii c = true ↔ c.toNat < 0x80 := decide_eq_true_iff

/-- A byte that is no ASCII and passes is a trail byte. -/
theorem isTrailByteOk_iff {c : UInt8} : isTrailByteOk c = true ↔ IsTrail c := by
  have hlt := c.toNat_lt
  rw [isTrailByteOk, decide_eq_true_iff]
  unfold int8 IsTrail
  rw [if_neg (by decide : ¬(0xBF : UInt8).toNat < 128)]
  change _ ≤ (191 - 256 : ℤ) ↔ _
  split
  · omega
  · omega

/-- The loop goes on with the bytes of a character. -/
theorem codepointBytes_append {c : List UInt8} (hc : IsChar c) (s : List UInt8) :
    codepointBytes (c ++ s) = some c.length := by
  unfold codepointBytes
  match c, hc with
  | [a], h =>
    have ha : a.toNat < 0x80 := h
    exact if_pos (asciiIsAscii_iff.mpr ha)
  | [a, b], h =>
    have h' : 0xC2 ≤ a.toNat ∧ a.toNat ≤ 0xDF ∧ IsTrail b := h
    dsimp only [List.cons_append, List.nil_append]
    rw [if_neg (by rw [asciiIsAscii_iff]; omega), if_pos]
    · rfl
    · exact ⟨h'.1, h'.2.1, isTrailByteOk_iff.mpr h'.2.2⟩
  | [a, b, d], h =>
    simp only [IsChar] at h
    obtain ⟨hranges, hb, hd⟩ := h
    dsimp only [List.cons_append, List.nil_append]
    rw [if_neg (by rw [asciiIsAscii_iff]; omega), if_neg (by omega), if_neg, if_pos hranges]
    · rfl
    · simp [isTrailByteOk_iff.mpr hb, isTrailByteOk_iff.mpr hd]
  | [a, b, d, e], h =>
    simp only [IsChar] at h
    obtain ⟨hranges, hb, hd, he⟩ := h
    dsimp only [List.cons_append, List.nil_append]
    rw [if_neg (by rw [asciiIsAscii_iff]; omega), if_neg (by omega), if_neg, if_neg (by omega), if_neg,
      if_pos hranges]
    · rfl
    · simp [isTrailByteOk_iff.mpr he]
    · simp [isTrailByteOk_iff.mpr hb, isTrailByteOk_iff.mpr hd]

/-- The loop goes on only with the bytes of a character. -/
theorem exists_char_of_codepointBytes {data : List UInt8} {n : ℕ} (h : codepointBytes data = some n) :
    ∃ c s, IsChar c ∧ data = c ++ s := by
  unfold codepointBytes at h
  split at h
  · cases h
  · next byte1 rest =>
    split at h
    · next hascii => exact ⟨[byte1], rest, asciiIsAscii_iff.mp hascii, rfl⟩
    · split at h
      · next htwo =>
        cases rest with
        | nil => simp at htwo
        | cons byte2 rest =>
          exact ⟨[byte1, byte2], rest, ⟨htwo.1, htwo.2.1, isTrailByteOk_iff.mp htwo.2.2⟩, rfl⟩
      · split at h
        · next _ byte2 byte3 rest _ =>
          split at h
          · cases h
          · next htrail =>
            rw [not_or, Classical.not_not, Classical.not_not] at htrail
            split at h
            · next hranges =>
              exact ⟨[byte1, byte2, byte3], rest,
                ⟨hranges, isTrailByteOk_iff.mp htrail.1, isTrailByteOk_iff.mp htrail.2⟩, rfl⟩
            · split at h
              · next _ byte4 rest _ =>
                split at h
                · cases h
                · next hlast =>
                  rw [Classical.not_not] at hlast
                  split at h
                  · next hranges =>
                    exact ⟨[byte1, byte2, byte3, byte4], rest, ⟨hranges, isTrailByteOk_iff.mp htrail.1,
                      isTrailByteOk_iff.mp htrail.2, isTrailByteOk_iff.mp hlast⟩, rfl⟩
                  · cases h
              · cases h
        · cases h

/-- What the loop goes on with is a character at the start. -/
theorem exists_char_of_eq_some {data : List UInt8} {n : ℕ} (h : codepointBytes data = some n) :
    ∃ c s, IsChar c ∧ data = c ++ s ∧ c.length = n := by
  obtain ⟨c, s, hc, rfl⟩ := exists_char_of_codepointBytes h
  rw [codepointBytes_append hc] at h
  exact ⟨c, s, hc, rfl, Option.some.inj h⟩

theorem codepointBytes_pos {data : List UInt8} {n : ℕ} (h : codepointBytes data = some n) : 0 < n := by
  obtain ⟨c, s, hc, -, rfl⟩ := exists_char_of_eq_some h
  exact List.length_pos_iff.mpr hc.ne_nil

/-- The loop of `utf8_range_ValidateUTF8Naive` with its variables. -/
def validateLoop (returnPosition : Bool) (data : List UInt8) (bytes errPos : ℕ) : ℕ :=
  let errPos := if returnPosition then errPos + bytes else errPos
  if bytes < data.length then
    match _ : codepointBytes (data.drop bytes) with
    | some next => validateLoop returnPosition (data.drop bytes) next errPos
    | none => errPos
  else errPos + (1 - returnPosition.toNat)
termination_by data.length - bytes
decreasing_by
  have := codepointBytes_pos ‹_›
  rw [List.length_drop]
  omega

/-- `utf8_range_ValidateUTF8Naive`. -/
def validateUTF8Naive (data : List UInt8) (returnPosition : Bool) : ℕ :=
  validateLoop returnPosition data 0 0

/-- The first loop of `utf8_range_SkipAscii`, with `utf8_range_UnalignedLoad64`. -/
def skipWords (data : List UInt8) : List UInt8 :=
  if 8 ≤ data.length ∧ Wire.littleEndian (data.take 8) &&& 0x8080808080808080 = 0 then
    skipWords (data.drop 8)
  else data
termination_by data.length
decreasing_by
  rw [List.length_drop]
  omega

/-- `utf8_range_SkipAscii`. -/
def skipAscii (data : List UInt8) : List UInt8 := (skipWords data).dropWhile asciiIsAscii

/-- `utf8_range_Validate`; without vector instructions there is one way to check what is behind the
ASCII, however long it is. -/
def validate (data : List UInt8) (returnPosition : Bool) : ℕ :=
  if data.length = 0 then 1 - returnPosition.toNat
  else
    let rest := skipAscii data
    (if returnPosition then data.length - rest.length else 0) + validateUTF8Naive rest returnPosition

/-- `utf8_range_IsValid`. -/
def isValid (data : List UInt8) : Bool := validate data false != 0

/-- `utf8_range_ValidPrefix`. -/
def validPrefix (data : List UInt8) : ℕ := validate data true

/-- What a check of the bytes returns, when their longest text has `n` bytes. -/
def result (returnPosition : Bool) (data : List UInt8) (n : ℕ) : ℕ :=
  if returnPosition then n else if n = data.length then 1 else 0

/-- The loop finds the longest text behind the bytes that it has passed. -/
theorem validateLoop_eq (returnPosition : Bool) (data : List UInt8) (bytes errPos : ℕ)
    (hle : bytes ≤ data.length) :
    ∃ n, LongestText (data.drop bytes) n ∧ validateLoop returnPosition data bytes errPos =
      (if returnPosition then errPos + bytes else errPos) + result returnPosition (data.drop bytes) n := by
  fun_induction validateLoop returnPosition data bytes errPos with
  | case1 data bytes errPos err hlt next h ih =>
    obtain ⟨c, s, hc, hs, rfl⟩ := exists_char_of_eq_some h
    rw [hs, List.drop_left] at ih
    obtain ⟨n, hn, heq⟩ := ih (by rw [List.length_append]; omega)
    rw [hs]
    refine ⟨c.length + n, hn.cons hc, heq.trans ?_⟩
    unfold result err
    cases returnPosition
    · simp
    · simp
      omega
  | case2 data bytes errPos err hlt h =>
    refine ⟨0, .zero fun c hc hpre => ?_, ?_⟩
    · obtain ⟨s, hs⟩ := hpre
      rw [← hs, codepointBytes_append hc] at h
      cases h
    · unfold result
      rw [List.length_drop]
      unfold err
      cases returnPosition
      · simp
        omega
      · simp
  | case3 data bytes errPos err hlt =>
    have hnil : data.drop bytes = [] := List.drop_eq_nil_of_le (by omega)
    rw [hnil]
    refine ⟨0, ⟨Nat.le_refl _, isText_nil, fun m hm _ => hm⟩, ?_⟩
    unfold result
    cases returnPosition
    · rfl
    · rfl

/-- The mask over the words has the highest bit of each byte. -/
theorem littleEndian_and_mask {bytes : List UInt8} :
    Wire.littleEndian bytes &&& Wire.littleEndian (List.replicate bytes.length 0x80) = 0 ↔
      ∀ b ∈ bytes, b.toNat < 128 := by
  induction bytes with
  | nil => simp [Wire.littleEndian]
  | cons b bytes ih =>
    have hlt := b.toNat_lt
    have hbit : ∀ n < 256, (n &&& 128 = 0 ↔ n < 128) := by decide +kernel
    have hparts : ∀ x : ℕ, x = 0 ↔ x % 2 ^ 8 = 0 ∧ x / 2 ^ 8 = 0 := fun x => by omega
    rw [List.length_cons, List.replicate_succ, Wire.littleEndian, Wire.littleEndian, hparts,
      Nat.and_mod_two_pow, Nat.and_div_two_pow, List.forall_mem_cons, ← ih, ← hbit _ hlt]
    have hlow : (b.toNat + 256 * Wire.littleEndian bytes) % 2 ^ 8 = b.toNat := by omega
    have hhigh : (b.toNat + 256 * Wire.littleEndian bytes) / 2 ^ 8 = Wire.littleEndian bytes := by omega
    rw [hlow, hhigh]
    have hmask (m : ℕ) : ((0x80 : UInt8).toNat + 256 * m) % 2 ^ 8 = 128 ∧
        ((0x80 : UInt8).toNat + 256 * m) / 2 ^ 8 = m := by
      change (128 + 256 * m) % 2 ^ 8 = 128 ∧ (128 + 256 * m) / 2 ^ 8 = m
      omega
    rw [(hmask _).1, (hmask _).2]

/-- ASCII in front makes the longest text longer by as much. -/
theorem longestText_ascii {front s : List UInt8} {n : ℕ} (hfront : ∀ b ∈ front, b.toNat < 128)
    (h : LongestText s n) : LongestText (front ++ s) (front.length + n) := by
  induction front with
  | nil => simpa using h
  | cons b front ih =>
    obtain ⟨hb, hrest⟩ := List.forall_mem_cons.mp hfront
    have hone := (ih hrest).cons (c := [b]) hb
    rwa [List.length_singleton, ← Nat.add_assoc, Nat.add_comm 1] at hone

/-- What is skipped word by word is ASCII. -/
theorem skipWords_spec (data : List UInt8) :
    ∃ front, (∀ b ∈ front, b.toNat < 128) ∧ data = front ++ skipWords data := by
  fun_induction skipWords data with
  | case1 data h ih =>
    obtain ⟨front, hfront, heq⟩ := ih
    refine ⟨data.take 8 ++ front, ?_, ?_⟩
    · have hlength : (data.take 8).length = 8 := List.length_take_of_le h.1
      have hascii : Wire.littleEndian (data.take 8) &&&
          Wire.littleEndian (List.replicate (data.take 8).length 0x80) = 0 ↔
            ∀ b ∈ data.take 8, b.toNat < 128 := littleEndian_and_mask
      rw [hlength] at hascii
      rw [List.forall_mem_append]
      exact ⟨hascii.mp h.2, hfront⟩
    · rw [List.append_assoc, ← heq, List.take_append_drop]
  | case2 data h => exact ⟨[], by simp⟩

/-- What is skipped is ASCII. -/
theorem skipAscii_spec (data : List UInt8) :
    ∃ front, (∀ b ∈ front, b.toNat < 128) ∧ data = front ++ skipAscii data := by
  obtain ⟨front, hfront, heq⟩ := skipWords_spec data
  refine ⟨front ++ (skipWords data).takeWhile asciiIsAscii, ?_, ?_⟩
  · rw [List.forall_mem_append]
    exact ⟨hfront, fun b hb => asciiIsAscii_iff.mp (List.mem_takeWhile_imp hb)⟩
  · rw [List.append_assoc, skipAscii, List.takeWhile_append_dropWhile, ← heq]

/-- The check returns what the longest text calls for. -/
theorem validate_eq (data : List UInt8) (returnPosition : Bool) :
    ∃ n, LongestText data n ∧ validate data returnPosition = result returnPosition data n := by
  unfold validate
  split
  · next hnil =>
    rw [List.length_eq_zero_iff] at hnil
    subst hnil
    refine ⟨0, ⟨Nat.le_refl _, isText_nil, fun m hm _ => hm⟩, ?_⟩
    cases returnPosition
    · rfl
    · rfl
  · obtain ⟨front, hfront, heq⟩ := skipAscii_spec data
    obtain ⟨n, hn, hloop⟩ := validateLoop_eq returnPosition (skipAscii data) 0 0 (Nat.zero_le _)
    rw [List.drop_zero] at hn hloop
    have hlong := longestText_ascii hfront hn
    rw [← heq] at hlong
    refine ⟨front.length + n, hlong, ?_⟩
    have hlength : data.length = front.length + (skipAscii data).length := by
      rw [← List.length_append, ← heq]
    unfold validateUTF8Naive
    dsimp only
    rw [hloop]
    unfold result
    cases returnPosition
    · simp [hlength]
    · simp [hlength]

/-- The check passes exactly the encodings of sequences of Unicode scalar values. -/
theorem isValid_iff (data : List UInt8) : isValid data = true ↔ IsText data := by
  obtain ⟨n, hn, heq⟩ := validate_eq data false
  rw [isValid, heq, hn.isText_iff]
  unfold result
  split <;> simp_all

/-- The prefix that is reported is text, and no longer prefix of the bytes is. -/
theorem validPrefix_longest (data : List UInt8) : LongestText data (validPrefix data) := by
  obtain ⟨n, hn, heq⟩ := validate_eq data true
  rw [validPrefix, heq]
  exact hn

/-- The check and the search for a prefix are exact: what passes is UTF-8, and what is reported is the
longest prefix that is. -/
theorem utf8Range_exact (data : List UInt8) :
    (isValid data = true ↔ IsText data) ∧ LongestText data (validPrefix data) :=
  ⟨isValid_iff data, validPrefix_longest data⟩

/-- The check is that of the strings of Lean. -/
theorem isValid_eq_validateUTF8 (data : List UInt8) :
    isValid data = (ByteArray.mk data.toArray).validateUTF8 := by
  rw [Bool.eq_iff_iff, ByteArray.validateUTF8_eq_true_iff, ← isText_iff_isValidUTF8, isValid_iff]

end Upb.Utf8Range
