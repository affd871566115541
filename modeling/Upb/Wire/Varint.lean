import Mathlib.Data.Nat.ModEq
import Mathlib.Data.Nat.Notation
import Mathlib.Tactic.Ring

/-!
# Varints

The varint readers of `upb/wire/reader.c` and the varint writer of `upb/wire/encode.c`. The readers
add each byte less one, shifted into place, so that the one cancels the continuation bit of the byte
before; modulo `2^64` this gives the groups of seven bits, the least significant group first.
-/

namespace Upb.Wire

/-- The loop of `_upb_WireReader_ReadLongVarint`, `_upb_WireReader_ReadLongTag` and
`_upb_WireReader_ReadLongSize` from the byte `i` on, with at most `n` more bytes: the length of the
varint and its value. A byte that is not there fails with `missing`. -/
def readLongFrom {ε : Type} (missing malformed : ε) (bytes : List UInt8) (max : ℕ) :
    ℕ → ℕ → ℕ → Except ε (ℕ × ℕ)
  | 0, _, _ => .error malformed
  | n + 1, i, val =>
    match bytes[i]? with
    | none => .error missing
    | some byte =>
      let val := (val + ((byte.toNat + 2 ^ 64 - 1) % 2 ^ 64 * 2 ^ (i * 7)) % 2 ^ 64) % 2 ^ 64
      if byte.toNat < 128 then
        if max < val then .error malformed else .ok (i + 1, val)
      else readLongFrom missing malformed bytes max n (i + 1) val

/-- `upb_WireReader_ReadVarint`, `upb_WireReader_ReadTag` and `upb_WireReader_ReadSize`: a varint of
at most `n` bytes, at most `max` unless it is a single byte. -/
def readLong {ε : Type} (missing malformed : ε) (bytes : List UInt8) (n max : ℕ) :
    Except ε (ℕ × ℕ) :=
  match bytes[0]? with
  | none => .error missing
  | some byte =>
    if byte.toNat < 128 then .ok (1, byte.toNat)
    else readLongFrom missing malformed bytes max (n - 1) 1 byte.toNat

/-- The loop of `encode_longvarint`, which writes at most ten bytes. -/
def longvarint : ℕ → ℕ → List UInt8
  | 0, _ => []
  | n + 1, val =>
    if val / 128 = 0 then [UInt8.ofNat (val % 128)]
    else UInt8.ofNat (val % 128 + 128) :: longvarint n (val / 128)

/-- `encode_varint` of a 64-bit value. -/
def encodeVarint (val : ℕ) : List UInt8 :=
  if val < 128 then [UInt8.ofNat val] else longvarint 10 val

/-- The number that groups of seven bits stand for, the least significant group first. -/
def leb : List UInt8 → ℕ
  | [] => 0
  | b :: bs => b.toNat % 128 + 128 * leb bs

/-- Splits off a varint of at most `n` bytes: all of its bytes but the last have the continuation
bit. -/
def splitVarint : ℕ → List UInt8 → Option (List UInt8 × List UInt8)
  | 0, _ => none
  | _, [] => none
  | n + 1, b :: bs =>
    if b.toNat < 128 then some ([b], bs)
    else (splitVarint n bs).map fun (p, rest) => (b :: p, rest)

theorem leb_append (p q : List UInt8) : leb (p ++ q) = leb p + 2 ^ (p.length * 7) * leb q := by
  induction p with
  | nil => simp [leb]
  | cons b p ih =>
    simp only [List.cons_append, leb, ih, List.length_cons]
    rw [show (p.length + 1) * 7 = 7 + p.length * 7 by omega, Nat.pow_add]
    ring

/-- What splits off is a prefix. -/
theorem splitVarint_append {n : ℕ} {l p rest : List UInt8} (h : splitVarint n l = some (p, rest)) :
    l = p ++ rest := by
  induction n generalizing l p with
  | zero => simp [splitVarint] at h
  | succ n ih =>
    cases l with
    | nil => simp [splitVarint] at h
    | cons b bs =>
      rw [splitVarint] at h
      split at h
      · cases h
        rfl
      · obtain ⟨⟨q, r⟩, hq, heq⟩ := Option.map_eq_some_iff.mp h
        cases heq
        rw [ih hq]
        rfl

/-- What splits off has between one and `n` bytes. -/
theorem splitVarint_length {n : ℕ} {l p rest : List UInt8} (h : splitVarint n l = some (p, rest)) :
    0 < p.length ∧ p.length ≤ n := by
  induction n generalizing l p with
  | zero => simp [splitVarint] at h
  | succ n ih =>
    cases l with
    | nil => simp [splitVarint] at h
    | cons b bs =>
      rw [splitVarint] at h
      split at h
      · cases h
        simp
      · obtain ⟨⟨q, r⟩, hq, heq⟩ := Option.map_eq_some_iff.mp h
        cases heq
        have := ih hq
        simp only [List.length_cons]
        omega

/-- More bytes behind a varint do not change it. -/
theorem splitVarint_frame {n : ℕ} {l p rest : List UInt8} (w : List UInt8)
    (h : splitVarint n l = some (p, rest)) : splitVarint n (l ++ w) = some (p, rest ++ w) := by
  induction n generalizing l p with
  | zero => simp [splitVarint] at h
  | succ n ih =>
    cases l with
    | nil => simp [splitVarint] at h
    | cons b bs =>
      rw [splitVarint] at h
      rw [List.cons_append, splitVarint]
      split at h
      · next hb =>
        cases h
        rw [if_pos hb]
      · next hb =>
        obtain ⟨⟨q, r⟩, hq, heq⟩ := Option.map_eq_some_iff.mp h
        cases heq
        rw [if_neg hb, ih hq]
        rfl

/-- A varint that only more bytes complete is longer than the bytes before them. -/
theorem splitVarint_none {n : ℕ} {l w p rest : List UInt8} (h : splitVarint n l = none)
    (hw : splitVarint n (l ++ w) = some (p, rest)) : l.length < p.length := by
  induction n generalizing l p with
  | zero => simp [splitVarint] at hw
  | succ n ih =>
    cases l with
    | nil => exact (splitVarint_length hw).1
    | cons b bs =>
      rw [splitVarint] at h
      rw [List.cons_append, splitVarint] at hw
      split at h
      · cases h
      · next hb =>
        rw [if_neg hb] at hw
        obtain ⟨⟨q, r⟩, hq, heq⟩ := Option.map_eq_some_iff.mp hw
        cases heq
        have := ih (Option.map_eq_none_iff.mp h) hq
        simp only [List.length_cons]
        omega

/-- The accumulated value after one more byte. -/
private theorem accumulate_modEq {val b i m : ℕ} (h : val ≡ m + 2 ^ (i * 7) [MOD 2 ^ 64]) :
    (val + ((b + 2 ^ 64 - 1) % 2 ^ 64 * 2 ^ (i * 7)) % 2 ^ 64) % 2 ^ 64 ≡
      m + 2 ^ (i * 7) * b [MOD 2 ^ 64] := by
  have hb : (b + 2 ^ 64 - 1) + 1 = b + 2 ^ 64 := by omega
  calc (val + ((b + 2 ^ 64 - 1) % 2 ^ 64 * 2 ^ (i * 7)) % 2 ^ 64) % 2 ^ 64
      ≡ val + ((b + 2 ^ 64 - 1) % 2 ^ 64 * 2 ^ (i * 7)) % 2 ^ 64 [MOD 2 ^ 64] := Nat.mod_modEq _ _
    _ ≡ (m + 2 ^ (i * 7)) + (b + 2 ^ 64 - 1) * 2 ^ (i * 7) [MOD 2 ^ 64] :=
        h.add ((Nat.mod_modEq _ _).trans ((Nat.mod_modEq _ _).mul_right _))
    _ = m + ((b + 2 ^ 64 - 1) + 1) * 2 ^ (i * 7) := by rw [Nat.add_mul, Nat.one_mul]; omega
    _ = m + 2 ^ (i * 7) * b + 2 ^ 64 * 2 ^ (i * 7) := by rw [hb, Nat.add_mul, Nat.mul_comm b]; omega
    _ ≡ m + 2 ^ (i * 7) * b + 0 [MOD 2 ^ 64] :=
        Nat.ModEq.add_left _ ((Nat.modEq_zero_iff_dvd).mpr ⟨_, rfl⟩)

/-- The outcome of reading a varint off a list of bytes. -/
def readOutcome {ε : Type} (malformed : ε) (max : ℕ) :
    Option (List UInt8 × List UInt8) → Except ε (ℕ × ℕ)
  | none => .error malformed
  | some (p, _) =>
    if p.length = 1 ∨ leb p % 2 ^ 64 ≤ max then .ok (p.length, leb p % 2 ^ 64) else .error malformed

/-- The loop reads the bytes that follow the continuation bytes `q`. -/
private theorem readLongFrom_eq {ε : Type} (malformed : ε) (max n : ℕ) {val : ℕ} {q : List UInt8}
    (l : List UInt8)
    (hq : q ≠ []) (hval : val ≡ leb q + 2 ^ (q.length * 7) [MOD 2 ^ 64]) :
    readLongFrom malformed malformed (q ++ l) max n q.length val =
      readOutcome malformed max ((splitVarint n l).map fun (p, rest) => (q ++ p, rest)) := by
  have hqpos : 0 < q.length := List.length_pos_iff.mpr hq
  induction n generalizing q l val with
  | zero => simp [readLongFrom, splitVarint, readOutcome]
  | succ n ih =>
    rw [readLongFrom]
    cases l with
    | nil => simp [splitVarint, readOutcome]
    | cons b bs =>
      have hget : (q ++ b :: bs)[q.length]? = some b := by simp
      simp only [hget, splitVarint]
      have hacc := accumulate_modEq (b := b.toNat) hval
      set val' := (val + ((b.toNat + 2 ^ 64 - 1) % 2 ^ 64 * 2 ^ (q.length * 7)) % 2 ^ 64) % 2 ^ 64
        with hval'
      split
      · next hb =>
        have hleb : val' = leb (q ++ [b]) % 2 ^ 64 := by
          rw [leb_append, leb, leb, Nat.mul_zero, Nat.add_zero, Nat.mod_eq_of_lt hb]
          have := hacc
          rw [Nat.ModEq, hval', Nat.mod_mod] at this
          rw [hval', ← this]
        simp only [Option.map_some, readOutcome, List.length_append, List.length_cons,
          List.length_nil, Nat.zero_add, ← hleb]
        by_cases hmax : max < val'
        · rw [if_pos hmax, if_neg (by omega)]
        · rw [if_neg hmax, if_pos (by omega)]
      · next hb =>
        have hb256 : b.toNat < 256 := b.toNat_lt
        have hnext : val' ≡ leb (q ++ [b]) + 2 ^ ((q ++ [b]).length * 7) [MOD 2 ^ 64] := by
          refine hacc.trans (congrArg (· % 2 ^ 64) ?_)
          simp only [leb_append, leb, List.length_append, List.length_cons, List.length_nil]
          rw [show (q.length + (0 + 1)) * 7 = q.length * 7 + 7 by omega, Nat.pow_add]
          have hsplit : b.toNat = b.toNat % 128 + 128 := by omega
          generalize hm : b.toNat % 128 = m at *
          rw [hsplit]
          ring
        have hrec := ih (q := q ++ [b]) bs (by simp) hnext (by simp)
        rw [List.append_assoc, List.singleton_append, List.length_append, List.length_singleton]
          at hrec
        rw [hrec]
        cases h : splitVarint n bs <;> simp

/-- Reading a varint off a list of bytes splits it off. -/
theorem readLong_eq {ε : Type} (malformed : ε) (l : List UInt8) {n : ℕ} (hn : 0 < n) (max : ℕ) :
    readLong malformed malformed l n max = readOutcome malformed max (splitVarint n l) := by
  obtain ⟨n, rfl⟩ : ∃ k, n = k + 1 := ⟨n - 1, by omega⟩
  cases l with
  | nil => simp [readLong, splitVarint, readOutcome]
  | cons b bs =>
    simp only [readLong, List.getElem?_cons_zero, splitVarint, Nat.add_sub_cancel]
    split
    · next hb =>
      simp [readOutcome, leb, Nat.mod_eq_of_lt hb]
    · next hb =>
      have hb256 : b.toNat < 256 := b.toNat_lt
      have hval : b.toNat ≡ leb [b] + 2 ^ ([b].length * 7) [MOD 2 ^ 64] :=
        congrArg (· % 2 ^ 64) (by simp [leb]; omega)
      have hrec := readLongFrom_eq malformed max n bs (List.cons_ne_nil b []) hval
      simpa using hrec

/-- The loop meets no missing byte among enough bytes. -/
private theorem readLongFrom_missing {ε : Type} (missing malformed : ε) {bytes : List UInt8}
    (max : ℕ) {n i val : ℕ} (h : i + n ≤ bytes.length) :
    readLongFrom missing malformed bytes max n i val =
      readLongFrom malformed malformed bytes max n i val := by
  induction n generalizing i val with
  | zero => rfl
  | succ n ih =>
    rw [readLongFrom, readLongFrom, List.getElem?_eq_getElem (by omega)]
    simp only [ih (i := i + 1) (by omega)]

/-- The reader meets no missing byte among `n` bytes. -/
theorem readLong_missing {ε : Type} (missing malformed : ε) {bytes : List UInt8} {n : ℕ} (max : ℕ)
    (hn : 0 < n) (h : n ≤ bytes.length) :
    readLong missing malformed bytes n max = readLong malformed malformed bytes n max := by
  have hrest : 1 + (n - 1) ≤ bytes.length := by omega
  rw [readLong, readLong, List.getElem?_eq_getElem (by omega)]
  simp only [readLongFrom_missing missing malformed max hrest]

/-- The writer's loop is read back from the front of any bytes. -/
theorem splitVarint_longvarint {n k val : ℕ} (hk : n ≤ k) (hval : val < 2 ^ (n * 7))
    (hn : 0 < n) (rest : List UInt8) :
    splitVarint n (longvarint k val ++ rest) = some (longvarint k val, rest) ∧
      leb (longvarint k val) = val := by
  induction n generalizing k val with
  | zero => omega
  | succ n ih =>
    obtain ⟨k, rfl⟩ : ∃ j, k = j + 1 := ⟨k - 1, by omega⟩
    rw [longvarint]
    by_cases h0 : val / 128 = 0
    · have hbyte : (UInt8.ofNat (val % 128)).toNat = val := by
        rw [UInt8.toNat_ofNat']
        omega
      rw [if_pos h0, List.singleton_append, splitVarint, if_pos (by omega), leb, leb, hbyte]
      exact ⟨rfl, by omega⟩
    · have hbyte : (UInt8.ofNat (val % 128 + 128)).toNat = val % 128 + 128 := by
        rw [UInt8.toNat_ofNat']
        omega
      have hn0 : 0 < n := by
        rcases Nat.eq_zero_or_pos n with rfl | h
        · simp at hval
          omega
        · exact h
      have hdiv : val / 128 < 2 ^ (n * 7) := by
        rw [Nat.div_lt_iff_lt_mul (by omega)]
        calc val < 2 ^ ((n + 1) * 7) := hval
          _ = 2 ^ (n * 7) * 128 := by rw [Nat.add_mul, Nat.pow_add]
      obtain ⟨hsplit, hleb⟩ := ih (k := k) (by omega) hdiv hn0
      rw [if_neg h0, List.cons_append, splitVarint, if_neg (by omega), hsplit, leb, hbyte, hleb]
      exact ⟨rfl, by omega⟩

/-- A written varint is read back from the front of any bytes. -/
theorem splitVarint_encodeVarint {n val : ℕ} (hn : 0 < n) (hn' : n ≤ 10) (hval : val < 2 ^ (n * 7))
    (rest : List UInt8) :
    splitVarint n (encodeVarint val ++ rest) = some (encodeVarint val, rest) := by
  rw [encodeVarint]
  split
  · next h =>
    obtain ⟨n, rfl⟩ : ∃ k, n = k + 1 := ⟨n - 1, by omega⟩
    have : (UInt8.ofNat val).toNat < 128 := by
      rw [UInt8.toNat_ofNat']
      omega
    rw [List.singleton_append, splitVarint, if_pos this]
  · exact (splitVarint_longvarint hn' hval hn rest).1

theorem leb_encodeVarint {val : ℕ} (hval : val < 2 ^ 70) : leb (encodeVarint val) = val := by
  rw [encodeVarint]
  split
  · next h =>
    have : (UInt8.ofNat val).toNat = val := by
      rw [UInt8.toNat_ofNat']
      omega
    rw [leb, leb, this]
    omega
  · exact (splitVarint_longvarint (le_refl 10) hval (by omega) []).2

end Upb.Wire
