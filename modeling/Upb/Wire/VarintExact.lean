import Upb.Wire.Encode
import Upb.Wire.Reads

/-!
# Varints are written minimally and read exactly

The writers have a fast form for a single byte, which `encode_varint` and `encode_length` take only when
there is room in the buffer, and the readers have one inlined. The long readers stop at the first byte
without the continuation bit, or behind the number of bytes they allow.
-/

namespace Upb.Wire

/-- `encode_varint`; `room` is `ptr != e->buf`. -/
def encodeVarintAt (room : Bool) (val : ℕ) : List UInt8 :=
  if val < 128 ∧ room then [UInt8.ofNat val] else longvarint 10 val

/-- `encode_longlength`. -/
def encodeLonglength (val : ℕ) : Encoded :=
  if int32Max < val then .error .maxSizeExceeded else .ok (longvarint 10 val)

/-- `encode_length`. -/
def encodeLengthAt (room : Bool) (val : ℕ) : Encoded :=
  if val < 128 ∧ room then .ok [UInt8.ofNat val] else encodeLonglength val

/-- `upb_Decoder_EncodeVarint32`, whose loop is that of `encode_longvarint`. -/
def decoderEncodeVarint32 (val : ℕ) : List UInt8 := longvarint 5 val

/-- A varint of this value, and no varint of the value is shorter. -/
def IsMinimal (p : List UInt8) (val : ℕ) : Prop :=
  IsVarint p.length p ∧ leb p = val ∧ ∀ q, IsVarint q.length q → leb q = val → p.length ≤ q.length

/-- A reader of varints of at most `n` bytes and at most `max`; `missing` is the outcome if there are
neither a last byte nor `n` bytes. -/
def lebReader {ε : Type} (missing malformed : ε) (n max : ℕ) (bytes : List UInt8) : Except ε (ℕ × ℕ) :=
  match splitVarint n bytes with
  | some (p, _) =>
    if leb p % 2 ^ 64 ≤ max then .ok (p.length, leb p % 2 ^ 64) else .error malformed
  | none => if bytes.length < n then .error missing else .error malformed

/-- A varint is one within its own length. -/
theorem IsVarint.self {n : ℕ} {p : List UInt8} (h : IsVarint n p) : IsVarint p.length p := by
  induction n generalizing p with
  | zero => simp [IsVarint, splitVarint] at h
  | succ n ih =>
    cases p with
    | nil => simp [IsVarint, splitVarint] at h
    | cons b bs =>
      rw [IsVarint, splitVarint] at h
      rw [IsVarint, List.length_cons, splitVarint]
      split at h
      next hb =>
        rw [if_pos hb]
        exact h
      next hb =>
        obtain ⟨⟨q, r⟩, hq, heq⟩ := Option.map_eq_some_iff.mp h
        obtain ⟨rfl, rfl⟩ : q = bs ∧ r = [] := by simpa using heq
        have hrec := ih hq
        rw [if_neg hb, show splitVarint q.length q = some (q, []) from hrec]
        rfl

/-- The loop writes as many bytes as the value needs. -/
theorem length_longvarint (k val : ℕ) :
    (longvarint k val).length ≤ 1 ∨ 2 ^ (((longvarint k val).length - 1) * 7) ≤ val := by
  induction k generalizing val with
  | zero => exact .inl (Nat.zero_le 1)
  | succ k ih =>
    rw [longvarint]
    by_cases h : val / 128 = 0
    · rw [if_pos h]
      exact .inl le_rfl
    · rw [if_neg h, List.length_cons, Nat.add_sub_cancel]
      have hdiv : 2 ^ ((longvarint k (val / 128)).length * 7) ≤ val ∨
          (longvarint k (val / 128)).length = 0 := by
        rcases Nat.eq_zero_or_pos (longvarint k (val / 128)).length with hzero | hpos
        · exact .inr hzero
        · left
          rcases ih (val / 128) with hle | hle
          · rw [show (longvarint k (val / 128)).length = 1 by omega]
            omega
          · have hexp : (longvarint k (val / 128)).length * 7 =
                ((longvarint k (val / 128)).length - 1) * 7 + 7 := by omega
            rw [hexp, Nat.pow_add]
            omega
      rcases hdiv with hdiv | hdiv
      · exact .inr hdiv
      · exact .inl (by omega)

/-- A varint with no byte more than its value needs is minimal. -/
theorem isMinimal_of_length {p : List UInt8} {val : ℕ} (hp : IsVarint p.length p) (hval : leb p = val)
    (hlength : p.length ≤ 1 ∨ 2 ^ ((p.length - 1) * 7) ≤ val) : IsMinimal p val := by
  refine ⟨hp, hval, ?_⟩
  intro q hq hqval
  have hpos := hq.length_pos
  rcases hlength with hle | hle
  · omega
  · by_contra hlt
    have hbound := leb_lt q
    have hpow : 2 ^ (q.length * 7) ≤ 2 ^ ((p.length - 1) * 7) :=
      Nat.pow_le_pow_right (by omega) (Nat.mul_le_mul_right 7 (by omega))
    omega

/-- For small values the loop writes the single byte of the fast form. -/
theorem longvarint_of_lt {k val : ℕ} (h : val < 128) : longvarint (k + 1) val = [UInt8.ofNat val] := by
  rw [longvarint, if_pos (by omega), Nat.mod_eq_of_lt h]

/-- Both forms write the same bytes. -/
theorem encodeVarintAt_eq (room : Bool) (val : ℕ) : encodeVarintAt room val = longvarint 10 val := by
  unfold encodeVarintAt
  split
  next h => rw [longvarint_of_lt h.1]
  next => rfl

/-- The writer's loop writes a minimal varint. -/
theorem isMinimal_longvarint {n val : ℕ} (hn : 0 < n) (hval : val < 2 ^ (n * 7)) :
    IsMinimal (longvarint n val) val := by
  obtain ⟨hsplit, hleb⟩ := splitVarint_longvarint le_rfl hval hn []
  rw [List.append_nil] at hsplit
  exact isMinimal_of_length (IsVarint.self hsplit) hleb (length_longvarint n val)

/-- The lengths that are written, and those that are refused. -/
theorem encodeLengthAt_eq (room : Bool) (val : ℕ) :
    encodeLengthAt room val = if int32Max < val then .error .maxSizeExceeded else .ok (longvarint 10 val) := by
  unfold encodeLengthAt
  split
  next h =>
    have hmax : ¬int32Max < val := by
      rw [int32Max]
      omega
    rw [if_neg hmax, longvarint_of_lt h.1]
  next => rfl

section Readers

variable {ε : Type} (missing malformed : ε) {bytes : List UInt8} {max n i val : ℕ}

/-- Bytes behind the last byte of a varint are not looked at. -/
theorem readLongFrom_append (w : List UInt8) (h : splitVarint n (bytes.drop i) ≠ none) :
    readLongFrom missing malformed (bytes ++ w) max n i val =
      readLongFrom missing malformed bytes max n i val := by
  induction n generalizing i val with
  | zero => rfl
  | succ n ih =>
    have hlt : i < bytes.length := by
      by_contra hge
      rw [List.drop_eq_nil_of_le (Nat.le_of_not_lt hge)] at h
      exact h rfl
    rw [List.drop_eq_getElem_cons hlt, splitVarint] at h
    rw [readLongFrom, readLongFrom, List.getElem?_append_left hlt, List.getElem?_eq_getElem hlt]
    dsimp only
    split
    · rfl
    next hb =>
      rw [if_neg hb] at h
      exact ih fun hnone => h (by rw [hnone]; rfl)

/-- Without a last byte the loop reaches the end of the bytes. -/
theorem readLongFrom_short (h : splitVarint n (bytes.drop i) = none) (hi : i ≤ bytes.length)
    (hlength : bytes.length < i + n) :
    readLongFrom missing malformed bytes max n i val = .error missing := by
  induction n generalizing i val with
  | zero => omega
  | succ n ih =>
    rw [readLongFrom]
    by_cases hlt : i < bytes.length
    · rw [List.drop_eq_getElem_cons hlt, splitVarint] at h
      rw [List.getElem?_eq_getElem hlt]
      dsimp only
      split at h
      · cases h
      next hb =>
        rw [if_neg hb]
        exact ih (Option.map_eq_none_iff.mp h) hlt (by omega)
    · rw [List.getElem?_eq_none (Nat.le_of_not_lt hlt)]

theorem readLong_append (w : List UInt8) (h : splitVarint n bytes ≠ none) :
    readLong missing malformed (bytes ++ w) n max = readLong missing malformed bytes n max := by
  cases n with
  | zero => exact absurd rfl h
  | succ n =>
    cases bytes with
    | nil => exact absurd rfl h
    | cons b bs =>
      rw [splitVarint] at h
      simp only [readLong, List.cons_append, List.getElem?_cons_zero, Nat.add_sub_cancel]
      split
      · rfl
      next hb =>
        rw [if_neg hb] at h
        apply @readLongFrom_append ε missing malformed (b :: bs)
        intro hnone
        rw [List.drop_one, List.tail_cons] at hnone
        exact h (by rw [hnone]; rfl)

theorem readLong_short (h : splitVarint n bytes = none) (hlength : bytes.length < n) :
    readLong missing malformed bytes n max = .error missing := by
  cases n with
  | zero => omega
  | succ n =>
    cases bytes with
    | nil => rfl
    | cons b bs =>
      rw [splitVarint] at h
      simp only [readLong, List.getElem?_cons_zero, Nat.add_sub_cancel]
      split at h
      · cases h
      next hb =>
        rw [if_neg hb]
        rw [List.length_cons] at hlength
        apply readLongFrom_short
        · exact Option.map_eq_none_iff.mp h
        · simp
        · rw [List.length_cons]
          omega

/-- The readers agree with the reference, if a single byte is never too large. -/
theorem readLong_eq_lebReader (hn : 0 < n) (hmax : 127 ≤ max) (bytes : List UInt8) :
    readLong missing malformed bytes n max = lebReader missing malformed n max bytes := by
  unfold lebReader
  cases h : splitVarint n bytes with
  | none =>
    dsimp only
    split
    next hlt => exact readLong_short missing malformed h hlt
    next hge =>
      rw [readLong_missing missing malformed max hn (Nat.le_of_not_lt hge), readLong_eq malformed bytes hn, h]
      rfl
  | some r =>
    obtain ⟨p, rest⟩ := r
    have hsome : splitVarint n bytes ≠ none := by simp [h]
    -- Behind the varint the reader does not look, so there may be as many bytes as it wants.
    rw [← readLong_append missing malformed (List.replicate n 0) hsome,
      readLong_missing missing malformed max hn (by simp), readLong_eq malformed _ hn, splitVarint_frame _ h]
    dsimp only [readOutcome]
    have hsmall : p.length = 1 → leb p % 2 ^ 64 ≤ max := by
      intro hlength
      have hlt := leb_lt_of_length hlength
      omega
    by_cases hle : leb p % 2 ^ 64 ≤ max
    · rw [if_pos (.inr hle), if_pos hle]
    · rw [if_neg (fun hor => hle (hor.elim hsmall id)), if_neg hle]

end Readers

/-- The reader of varints takes back what was written, and nothing of what follows. -/
theorem readLong_longvarint {ε : Type} (missing malformed : ε) {val : ℕ} (hval : val < 2 ^ 64)
    (rest : List UInt8) :
    readLong missing malformed (longvarint 10 val ++ rest) 10 (2 ^ 64 - 1) =
      .ok ((longvarint 10 val).length, val) := by
  obtain ⟨hsplit, hleb⟩ := @splitVarint_longvarint 10 10 val le_rfl (by omega) (by omega) rest
  rw [readLong_eq_lebReader missing malformed (by omega) (by omega), lebReader, hsplit]
  dsimp only
  rw [hleb, Nat.mod_eq_of_lt hval, if_pos (by omega)]

/-- The writers write minimal varints, which the reader takes back; the readers of varints, tags and sizes
agree with the reference on all bytes, and need no byte that is not there if there are a last byte or as
many bytes as they allow. -/
theorem varints_exact {ε : Type} (missing malformed : ε) :
    (∀ (room : Bool) (val : UInt64) (rest : List UInt8),
      IsMinimal (encodeVarintAt room val.toNat) val.toNat ∧
      encodeLengthAt room val.toNat =
        (if int32Max < val.toNat then .error .maxSizeExceeded else .ok (encodeVarintAt room val.toNat)) ∧
      readLong missing malformed (encodeVarintAt room val.toNat ++ rest) 10 (2 ^ 64 - 1) =
        .ok ((encodeVarintAt room val.toNat).length, val.toNat)) ∧
    (∀ val : UInt32, IsMinimal (decoderEncodeVarint32 val.toNat) val.toNat) ∧
    ∀ bytes : List UInt8,
      readLong missing malformed bytes 10 (2 ^ 64 - 1) = lebReader missing malformed 10 (2 ^ 64 - 1) bytes ∧
      readLong missing malformed bytes 5 (2 ^ 32 - 1) = lebReader missing malformed 5 (2 ^ 32 - 1) bytes ∧
      readLong missing malformed bytes 5 int32Max = lebReader missing malformed 5 int32Max bytes := by
  refine ⟨?_, ?_, ?_⟩
  · intro room val rest
    have hval : val.toNat < 2 ^ 64 := val.toNat_lt
    rw [encodeVarintAt_eq]
    exact ⟨isMinimal_longvarint (by omega) (by omega), encodeLengthAt_eq room val.toNat,
      readLong_longvarint missing malformed hval rest⟩
  · intro val
    have hval : val.toNat < 2 ^ 32 := val.toNat_lt
    exact isMinimal_longvarint (by omega) (by omega)
  · intro bytes
    exact ⟨readLong_eq_lebReader missing malformed (by omega) (by omega) bytes,
      readLong_eq_lebReader missing malformed (by omega) (by omega) bytes,
      readLong_eq_lebReader missing malformed (by omega) (by decide) bytes⟩

end Upb.Wire
