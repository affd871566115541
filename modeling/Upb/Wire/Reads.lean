import Mathlib.Tactic.IntervalCases
import Upb.Wire.BoundedReader
import Upb.Wire.Reader

/-!
# What the checked reader reads

Each operation of the checked reader succeeds exactly on the bytes it is meant for, and then stands
behind them.
-/

namespace Upb.Wire

open Upb.Common (Prog)

/-- `p` is a varint of at most `n` bytes: all of its bytes but the last have the continuation bit. -/
def IsVarint (n : ℕ) (p : List UInt8) : Prop := splitVarint n p = some (p, [])

instance (n : ℕ) (p : List UInt8) : Decidable (IsVarint n p) :=
  inferInstanceAs (Decidable (_ = _))

/-- A varint splits off the front of any bytes. -/
theorem splitVarint_eq_some_iff {n : ℕ} {l p rest : List UInt8} :
    splitVarint n l = some (p, rest) ↔ IsVarint n p ∧ l = p ++ rest := by
  constructor
  · intro h
    refine ⟨?_, splitVarint_append h⟩
    induction n generalizing l p with
    | zero => simp [splitVarint] at h
    | succ n ih =>
      cases l with
      | nil => simp [splitVarint] at h
      | cons b bs =>
        rw [splitVarint] at h
        split at h
        · next hb =>
          cases h
          rw [IsVarint, splitVarint, if_pos hb]
        · next hb =>
          obtain ⟨⟨q, r⟩, hq, heq⟩ := Option.map_eq_some_iff.mp h
          cases heq
          rw [IsVarint, splitVarint, if_neg hb, ih hq]
          rfl
  · rintro ⟨h, rfl⟩
    simpa using splitVarint_frame rest h

theorem IsVarint.length_pos {n : ℕ} {p : List UInt8} (h : IsVarint n p) : 0 < p.length :=
  (splitVarint_length h).1

theorem IsVarint.length_le {n : ℕ} {p : List UInt8} (h : IsVarint n p) : p.length ≤ n :=
  (splitVarint_length h).2

/-- Groups of seven bits. -/
theorem leb_lt (p : List UInt8) : leb p < 2 ^ (p.length * 7) := by
  induction p with
  | nil => simp [leb]
  | cons b p ih =>
    rw [leb, List.length_cons, show (p.length + 1) * 7 = p.length * 7 + 7 by omega, Nat.pow_add]
    omega

/-- The value of a varint of at most five bytes does not wrap around. -/
theorem IsVarint.leb_lt_two_pow {p : List UInt8} (h : IsVarint 5 p) : leb p < 2 ^ 35 := by
  have hlen : p.length * 7 ≤ 35 := by
    have := h.length_le
    omega
  exact (leb_lt p).trans_le (Nat.pow_le_pow_right (by omega) hlen)

/-- A varint of one byte is small. -/
theorem leb_lt_of_length {p : List UInt8} (h : p.length = 1) : leb p < 128 := by
  have := leb_lt p
  rw [h] at this
  exact this

namespace BoundedReader

/-- `r'` is the reader `r` after the bytes `v`. -/
def Reads (r : BoundedReader) (v : List UInt8) (r' : BoundedReader) : Prop :=
  r.rest = v ++ r'.rest ∧ r' = r.advance v.length

variable {r r' r'' : BoundedReader} {v w : List UInt8}

/-- The reader behind the first bytes. -/
theorem reads_advance (h : r.rest = v ++ w) : Reads r v (r.advance v.length) := by
  refine ⟨?_, rfl⟩
  rw [advance, h, List.drop_left]

/-- What is left behind the first bytes. -/
theorem rest_advance (h : r.rest = v ++ w) : (r.advance v.length).rest = w := by
  rw [advance, h, List.drop_left]

theorem Reads.rest_eq (h : Reads r v r') : r.rest = v ++ r'.rest := h.1

theorem reads_nil (r : BoundedReader) : Reads r [] r := ⟨rfl, rfl⟩

theorem Reads.trans (h : Reads r v r') (h' : Reads r' w r'') : Reads r (v ++ w) r'' := by
  obtain ⟨hrest, rfl⟩ := h
  obtain ⟨hrest', rfl⟩ := h'
  refine ⟨by rw [hrest, hrest', List.append_assoc], ?_⟩
  simp [advance, Nat.add_assoc, List.drop_drop]

/-- The readers behind a varint. -/
theorem readLong_eq_ok {n max val : ℕ} (hn : 0 < n) :
    stream.readLong n max r = .ok (val, r') ↔
      ∃ p, IsVarint n p ∧ (p.length = 1 ∨ leb p % 2 ^ 64 ≤ max) ∧ val = leb p % 2 ^ 64 ∧
        Reads r p r' := by
  rw [stream_readLong hn]
  constructor
  · intro h
    cases hs : splitVarint n r.rest with
    | none => rw [hs] at h; cases h
    | some q =>
      obtain ⟨p, rest⟩ := q
      obtain ⟨hp, hrest⟩ := splitVarint_eq_some_iff.mp hs
      rw [hs, readOutcome] at h
      by_cases hmax : p.length = 1 ∨ leb p % 2 ^ 64 ≤ max
      · rw [if_pos hmax] at h
        cases h
        exact ⟨p, hp, hmax, rfl, reads_advance hrest⟩
      · rw [if_neg hmax] at h
        cases h
  · rintro ⟨p, hp, hmax, rfl, hrest, rfl⟩
    rw [splitVarint_eq_some_iff.mpr ⟨hp, hrest⟩, readOutcome, if_pos hmax]
    rfl

/-- The readers behind so many bytes. -/
theorem take_eq_ok {n : ℕ} :
    take n r = .ok (v, r') ↔ v.length = n ∧ Reads r v r' := by
  rw [take]
  constructor
  · intro h
    split at h
    · next hn =>
      cases h
      have hlen : (r.rest.take n).length = n := List.length_take_of_le hn
      refine ⟨hlen, ?_, by rw [hlen]⟩
      rw [advance, List.take_append_drop]
    · cases h
  · rintro ⟨rfl, hrest, rfl⟩
    rw [if_pos (by rw [hrest, List.length_append]; omega), hrest, List.take_left]

theorem skip_eq_ok {n : ℕ} :
    stream.skip n r = .ok ((), r') ↔ ∃ v, v.length = n ∧ Reads r v r' := by
  have hskip : stream.skip n = take n >>= fun _ => pure () := rfl
  rw [hskip, Prog.bind_eq_ok]
  constructor
  · rintro ⟨v, t, htake, hp⟩
    cases hp
    exact ⟨v, take_eq_ok.mp htake⟩
  · rintro ⟨v, h⟩
    exact ⟨v, r', take_eq_ok.mpr h, rfl⟩

theorem readFixed_eq_ok {n val : ℕ} :
    stream.readFixed n r = .ok (val, r') ↔
      ∃ v, v.length = n ∧ val = littleEndian v ∧ Reads r v r' := by
  have hfixed : stream.readFixed n = take n >>= fun b => pure (littleEndian b) := rfl
  rw [hfixed, Prog.bind_eq_ok]
  constructor
  · rintro ⟨v, t, htake, hp⟩
    cases hp
    obtain ⟨hlen, hreads⟩ := take_eq_ok.mp htake
    exact ⟨v, hlen, rfl, hreads⟩
  · rintro ⟨v, hlen, rfl, hreads⟩
    exact ⟨v, r', take_eq_ok.mpr ⟨hlen, hreads⟩, rfl⟩

end BoundedReader

/-- `p` is a tag of at most five bytes. -/
structure IsTag (number : ℕ) (wireType : WireType) (p : List UInt8) : Prop where
  varint : IsVarint 5 p
  lt : leb p < 2 ^ 32
  value : leb p = number * 8 + wireType.toNat

theorem getWireType_eq_some_iff {tag : ℕ} {w : WireType} :
    getWireType tag = some w ↔ tag % 8 = w.toNat := by
  have h : tag % 8 < 8 := Nat.mod_lt _ (by omega)
  have hall : ∀ k < 8, ∀ w, getWireType k = some w ↔ k = w.toNat := by
    intro k hk w
    interval_cases k <;> cases w <;> simp [getWireType, WireType.toNat]
  have hmod : getWireType tag = getWireType (tag % 8) := by
    rw [getWireType, getWireType, Nat.mod_mod]
  rw [hmod]
  exact hall _ h w

theorem IsTag.getWireType {number : ℕ} {w : WireType} {p : List UInt8} (h : IsTag number w p) :
    getWireType (leb p) = some w := by
  rw [getWireType_eq_some_iff, h.value]
  cases w <;> simp only [WireType.toNat] <;> omega

theorem IsTag.getFieldNumber {number : ℕ} {w : WireType} {p : List UInt8} (h : IsTag number w p) :
    getFieldNumber (leb p) = number := by
  rw [Wire.getFieldNumber, h.value]
  cases w <;> simp only [WireType.toNat] <;> omega

/-- A tag with a wire type. -/
theorem IsTag.of_getWireType {w : WireType} {p : List UInt8} (hp : IsVarint 5 p)
    (hlt : leb p < 2 ^ 32) (hw : Wire.getWireType (leb p) = some w) :
    IsTag (Wire.getFieldNumber (leb p)) w p := by
  refine ⟨hp, hlt, ?_⟩
  have := getWireType_eq_some_iff.mp hw
  rw [Wire.getFieldNumber]
  omega

/-- A written varint. -/
theorem isVarint_encodeVarint {n val : ℕ} (hn : 0 < n) (hn' : n ≤ 10) (hval : val < 2 ^ (n * 7)) :
    IsVarint n (encodeVarint val) := by
  have h := splitVarint_encodeVarint hn hn' hval []
  rwa [List.append_nil] at h

/-- A written tag. -/
theorem isTag_encodeVarint {number : ℕ} (w : WireType) (hn : number < 2 ^ 29) :
    IsTag number w (encodeVarint (makeTag number w)) := by
  have htag : makeTag number w = number * 8 + w.toNat := by
    rw [makeTag, Nat.mod_eq_of_lt (by omega)]
  have hlt : number * 8 + w.toNat < 2 ^ 32 := by
    cases w <;> simp only [WireType.toNat] <;> omega
  have hleb : leb (encodeVarint (makeTag number w)) = number * 8 + w.toNat := by
    rw [leb_encodeVarint (by omega), htag]
  exact ⟨isVarint_encodeVarint (by decide) (by decide) (by omega), by omega, hleb⟩

namespace BoundedReader

variable {r r' : BoundedReader}

/-- Reading a tag. -/
theorem readTag_eq_ok {tag : ℕ} :
    readTag stream r = .ok (tag, r') ↔
      ∃ p, IsVarint 5 p ∧ leb p < 2 ^ 32 ∧ tag = leb p ∧ Reads r p r' := by
  rw [readTag, readLong_eq_ok (by omega)]
  refine exists_congr fun p => and_congr_right fun hp => ?_
  rw [Nat.mod_eq_of_lt (hp.leb_lt_two_pow.trans (by decide))]
  have hsmall : p.length = 1 → leb p < 128 := leb_lt_of_length
  refine ⟨fun ⟨hmax, h⟩ => ⟨by omega, h⟩, fun ⟨hlt, h⟩ => ⟨.inr (by omega), h⟩⟩

/-- Reading the size of delimited data. -/
theorem readSize_eq_ok {size : ℕ} :
    readSize stream r = .ok (size, r') ↔
      ∃ p, IsVarint 5 p ∧ leb p ≤ int32Max ∧ size = leb p ∧ Reads r p r' := by
  rw [readSize, readLong_eq_ok (by omega)]
  refine exists_congr fun p => and_congr_right fun hp => ?_
  rw [Nat.mod_eq_of_lt (hp.leb_lt_two_pow.trans (by decide))]
  have hsmall : p.length = 1 → leb p < 128 := leb_lt_of_length
  rw [int32Max]
  refine ⟨fun ⟨hmax, h⟩ => ⟨by omega, h⟩, fun ⟨hlt, h⟩ => ⟨.inr (by omega), h⟩⟩

/-- Reading a varint. -/
theorem readVarint_eq_ok {val : ℕ} :
    readVarint stream r = .ok (val, r') ↔
      ∃ p, IsVarint 10 p ∧ val = leb p % 2 ^ 64 ∧ Reads r p r' := by
  rw [readVarint, readLong_eq_ok (by omega)]
  refine exists_congr fun p => and_congr_right fun hp => ?_
  have := Nat.mod_lt (leb p) (show 0 < 2 ^ 64 by decide)
  exact ⟨fun h => h.2, fun h => ⟨.inr (by omega), h⟩⟩

end BoundedReader

end Upb.Wire
