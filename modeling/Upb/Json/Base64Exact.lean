import Mathlib.Tactic.SplitIfs
import Mathlib.Tactic.Tauto
import Upb.Json.Base64

/-!
# Base64 is decoded exactly

Four characters that are looked up give a number of 24 bits, or a negative one if any of them is no
character of base64. In place, the bytes behind the group that is read stay as they are.
-/

namespace Upb.Json

open Common (bind_eq_ok)
open Common.Base64

/-- The entry of a character in the table, with its sign extended. -/
def word (ch : UInt8) : BitVec 32 :=
  match value ch with
  | some v => BitVec.ofNat 32 v
  | none => BitVec.allOnes 32

/-- The number of a group of four characters. -/
def groupVal (v0 v1 v2 v3 : BitVec 32) : BitVec 32 := v0 <<< 18 ||| v1 <<< 12 ||| v2 <<< 6 ||| v3 <<< 0

/-- The characters that are looked up: the groups up to the first that is none, and what is left behind
the last. -/
def consulted : List UInt8 → List UInt8
  | a :: b :: c :: d :: rest =>
    a :: b :: c :: d ::
      if (value a).isSome ∧ (value b).isSome ∧ (value c).isSome ∧ (value d).isSome then consulted rest else []
  | [_] => []
  | rest => rest

/-- No character is looked up outside of the table. -/
def InTable (charSigned : Bool) (text : List UInt8) : Prop :=
  charSigned = true → ∀ ch ∈ consulted text, ch.toNat < 128

section Lookups

theorem table_eq (n : Fin 256) : base64Table[n.val]? = some (match value (UInt8.ofNat n.val) with
    | some v => (v : ℤ)
    | none => -1) := by
  revert n
  decide +kernel

/-- A lookup is inside of the table, or far behind it. -/
theorem tablelookup_eq (charSigned : Bool) (ch : UInt8) :
    tablelookup charSigned ch =
      if charSigned = true ∧ 128 ≤ ch.toNat then .error .outOfBounds else .ok (word ch) := by
  have htable := table_eq ⟨ch.toNat, ch.toNat_lt⟩
  rw [UInt8.ofNat_toNat] at htable
  rw [tablelookup]
  by_cases h : charSigned = true ∧ 128 ≤ ch.toNat
  · rw [if_pos h, if_pos h]
    have hlength : base64Table.length ≤ ch.toNat + (2 ^ 32 - 2 ^ 8) := by
      have : base64Table.length = 256 := by decide +kernel
      omega
    rw [List.getElem?_eq_none hlength]
  · rw [if_neg h, if_neg h, htable, word]
    cases value ch with
    | some v => rfl
    | none => rfl

theorem tablelookup_ok {charSigned : Bool} {ch : UInt8} (h : charSigned = true → ch.toNat < 128) :
    tablelookup charSigned ch = .ok (word ch) := by
  rw [tablelookup_eq, if_neg]
  rintro ⟨hsigned, hlarge⟩
  have := h hsigned
  omega

/-- The upper bits tell whether a character was found. -/
theorem getLsbD_word {i : ℕ} (ch : UInt8) (hi : 6 ≤ i) (hi' : i < 32) :
    (word ch).getLsbD i = (value ch).isNone := by
  rw [word]
  cases hvalue : value ch with
  | some v =>
    have hlt : v < 2 ^ i := Nat.lt_of_lt_of_le (value_lt hvalue)
      (show 2 ^ 6 ≤ 2 ^ i from Nat.pow_le_pow_right (by omega) hi)
    rw [BitVec.getLsbD_ofNat, Nat.testBit_lt_two_pow hlt]
    simp
  | none => exact BitVec.getLsbD_allOnes.trans (decide_eq_true hi')

/-- The number of a group is negative when a character was not found. -/
theorem groupVal_neg (a b c d : UInt8) :
    (groupVal (word a) (word b) (word c) (word d)).toInt < 0 ↔
      ¬((value a).isSome ∧ (value b).isSome ∧ (value c).isSome ∧ (value d).isSome) := by
  have hmsb : (groupVal (word a) (word b) (word c) (word d)).msb =
      ((value a).isNone || (value b).isNone || (value c).isNone || (value d).isNone) := by
    rw [BitVec.msb_eq_getLsbD_last, groupVal]
    simp only [BitVec.getLsbD_or, BitVec.getLsbD_shiftLeft]
    rw [getLsbD_word a (by omega) (by omega), getLsbD_word b (by omega) (by omega),
      getLsbD_word c (by omega) (by omega), getLsbD_word d (by omega) (by omega)]
    simp
  rw [BitVec.toInt_neg_iff, ← ge_iff_le, ← BitVec.msb_eq_true_iff_two_mul_ge, hmsb]
  cases value a <;> cases value b <;> cases value c <;> cases value d <;> simp

theorem toNat_groupVal {v w x y : ℕ} (hv : v < 64) (hw : w < 64) (hx : x < 64) (hy : y < 64) :
    (groupVal (BitVec.ofNat 32 v) (BitVec.ofNat 32 w) (BitVec.ofNat 32 x) (BitVec.ofNat 32 y)).toNat =
      v * 2 ^ 18 + w * 2 ^ 12 + x * 2 ^ 6 + y := by
  have h12 := Nat.two_pow_add_eq_or_of_lt (i := 18) (b := w * 2 ^ 12) (by omega) v
  have h6 := Nat.two_pow_add_eq_or_of_lt (i := 12) (b := x * 2 ^ 6) (by omega) (v * 2 ^ 6 + w)
  have h0 := Nat.two_pow_add_eq_or_of_lt (i := 6) (b := y) hy (v * 2 ^ 12 + w * 2 ^ 6 + x)
  have e12 : 2 ^ 18 * v + w * 2 ^ 12 = 2 ^ 12 * (v * 2 ^ 6 + w) := by omega
  have e6 : 2 ^ 12 * (v * 2 ^ 6 + w) + x * 2 ^ 6 = 2 ^ 6 * (v * 2 ^ 12 + w * 2 ^ 6 + x) := by omega
  have hshift : ∀ {n k : ℕ}, n < 64 → k ≤ 18 → (BitVec.ofNat 32 n <<< k).toNat = n * 2 ^ k := by
    intro n k hn hk
    have hlt : n * 2 ^ k < 2 ^ 32 := by
      calc n * 2 ^ k ≤ n * 2 ^ 18 := Nat.mul_le_mul_left _ (Nat.pow_le_pow_right (by omega) hk)
        _ < 2 ^ 32 := by omega
    rw [BitVec.toNat_shiftLeft, BitVec.toNat_ofNat, Nat.mod_eq_of_lt (show n < 2 ^ 32 by omega),
      Nat.shiftLeft_eq, Nat.mod_eq_of_lt hlt]
  rw [groupVal, BitVec.toNat_or, BitVec.toNat_or, BitVec.toNat_or, hshift hv (Nat.le_refl _), hshift hw (by omega),
    hshift hx (by omega), hshift hy (by omega), Nat.mul_comm v, ← h12, e12, ← h6, e6, Nat.pow_zero, Nat.mul_one,
    ← h0]

/-- The bytes of a group. -/
theorem byteOf_groupVal {a b c d : UInt8} {v w x y : ℕ} (ha : value a = some v) (hb : value b = some w)
    (hc : value c = some x) (hd : value d = some y) :
    byteOf (groupVal (word a) (word b) (word c) (word d)) 16 = UInt8.ofNat (v * 4 + w / 16) ∧
      byteOf (groupVal (word a) (word b) (word c) (word d)) 8 = UInt8.ofNat (w % 16 * 16 + x / 4) ∧
      byteOf (groupVal (word a) (word b) (word c) (word d)) 0 = UInt8.ofNat (x % 4 * 64 + y) := by
  have hv := value_lt ha
  have hw := value_lt hb
  have hx := value_lt hc
  have hy := value_lt hd
  have hval := toNat_groupVal hv hw hx hy
  simp only [word, ha, hb, hc, hd]
  generalize groupVal _ _ _ _ = val at hval ⊢
  have hmsb : val.msb = false := by
    rw [BitVec.msb_eq_false_iff_two_mul_lt]
    omega
  have hbyte : ∀ shift, byteOf val shift = UInt8.ofNat (val.toNat / 2 ^ shift % 256) := by
    intro shift
    rw [byteOf, BitVec.toNat_and, BitVec.sshiftRight_eq_of_msb_false hmsb, BitVec.toNat_ushiftRight,
      Nat.shiftRight_eq_div_pow]
    congr 1
    exact Nat.and_two_pow_sub_one_eq_mod _ 8
  refine ⟨?_, ?_, ?_⟩
  all_goals
    rw [hbyte, hval]
    congr 1
    omega

end Lookups

section InPlace

variable {charSigned : Bool} {st : Base64State} {done rest : List UInt8} {limit : ℕ}

/-- The bytes that are decoded, and those behind a position, which are as they were. -/
structure InPlace (st : Base64State) (done rest : List UInt8) (limit : ℕ) : Prop where
  out : st.out = done.length
  taken : st.buffer.take st.out = done
  rest : st.buffer.drop limit = rest
  out_le : st.out ≤ limit
  limit_le : limit ≤ st.buffer.length

/-- A byte is written before the position. -/
theorem InPlace.put (h : InPlace st done rest limit) (hlt : st.out < limit) (byte : UInt8) :
    ∃ st', st.put limit byte = .ok st' ∧ InPlace st' (done ++ [byte]) rest limit ∧ st'.out = st.out + 1 ∧
      st'.ptr = st.ptr ∧ st'.stop = st.stop := by
  have hlimit := h.limit_le
  have hlength : st.out < st.buffer.length := by omega
  refine ⟨_, if_pos hlt, ⟨?_, ?_, ?_, hlt, ?_⟩, rfl, rfl, rfl⟩
  · rw [List.length_append, List.length_singleton, ← h.out]
  · dsimp only
    rw [List.set_eq_take_append_cons_drop, if_pos hlength, h.taken, h.out,
      List.append_cons, List.take_append_of_le_length (by simp), List.take_of_length_le (by simp)]
  · dsimp only
    rw [List.drop_set_of_lt hlt, h.rest]
  · dsimp only
    rw [List.length_set]
    exact hlimit

theorem InPlace.char (h : InPlace st done rest st.ptr) (i : ℕ) : st.char i = rest.getD i 0 := by
  rw [Base64State.char, ← h.rest, List.getD_eq_getElem?_getD, List.getD_eq_getElem?_getD, List.getElem?_drop]

/-- More bytes are read. -/
theorem InPlace.read {group : List UInt8} (h : InPlace st done (group ++ rest) limit) :
    InPlace st done rest (limit + group.length) := by
  have hlength := congrArg List.length h.rest
  rw [List.length_drop, List.length_append] at hlength
  have hlimit := h.limit_le
  have hout := h.out_le
  refine ⟨h.out, h.taken, ?_, by omega, by omega⟩
  rw [← List.drop_drop, h.rest, List.drop_left]

/-- In the last two or three characters there is no group. -/
theorem groupVal_zero (v0 v1 v2 : BitVec 32) :
    v0 <<< 18 ||| v1 <<< 12 ||| v2 <<< 6 = groupVal v0 v1 v2 (word 65) ∧
      v0 <<< 18 ||| v1 <<< 12 = groupVal v0 v1 (word 65) (word 65) := by
  have hzero : word 65 = 0 := by decide
  rw [groupVal, groupVal, hzero]
  simp

/-- The characters that are left stand for bytes, or for none. -/
def Rest (r : Except Base64Fault (List UInt8)) (done : List UInt8) : Option (List UInt8) → Prop
  | some tail => r = .ok (done ++ tail)
  | none => r = .error .corrupt

theorem base64Rest_pair {a b : UInt8} {more : List UInt8} (h : InPlace st done (a :: b :: more) st.ptr)
    (hstop : st.stop = st.ptr + 2) (ha : charSigned = true → a.toNat < 128)
    (hb : charSigned = true → b.toNat < 128) :
    Rest (base64Rest charSigned st) done (pairBytes a b) := by
  have hin : InPlace st done more (st.ptr + [a, b].length) := InPlace.read h
  have hlt : st.out < st.stop := by
    have := h.out_le
    omega
  obtain ⟨st', hput, hin', -⟩ := (hstop ▸ hin).put hlt
    (byteOf (groupVal (word a) (word b) (word 65) (word 65)) 16)
  have hneg := groupVal_neg a b 65 65
  have hchar : st.char 0 = a ∧ st.char 1 = b := ⟨h.char 0, h.char 1⟩
  have hpartial : partialbase64 charSigned st =
      if (groupVal (word a) (word b) (word 65) (word 65)).toInt < 0 then .error .corrupt else .ok st' := by
    simp only [partialbase64, show st.stop - st.ptr = 2 by omega, hchar, tablelookup_ok ha, tablelookup_ok hb,
      (groupVal_zero _ _ 0).2, bind, Except.bind, hput]
  rw [base64Rest, if_pos (by omega), hpartial, pairBytes]
  cases hva : value a with
  | none =>
    rw [if_pos (hneg.mpr (by simp [hva]))]
    rfl
  | some v =>
    cases hvb : value b with
    | none =>
      rw [if_pos (hneg.mpr (by simp [hvb]))]
      rfl
    | some w =>
      have hzero : value 65 = some 0 := by decide
      have hbyte := (byteOf_groupVal hva hvb hzero hzero).1
      rw [if_neg (fun hlt => hneg.mp hlt (by simp [hva, hvb, hzero]))]
      show Except.ok (st'.buffer.take st'.out) = _
      rw [hin'.taken, hbyte]
      rfl

theorem base64Rest_triple {a b c : UInt8} {more : List UInt8}
    (h : InPlace st done (a :: b :: c :: more) st.ptr) (hstop : st.stop = st.ptr + 3)
    (ha : charSigned = true → a.toNat < 128) (hb : charSigned = true → b.toNat < 128)
    (hc : charSigned = true → c.toNat < 128) :
    Rest (base64Rest charSigned st) done (tripleBytes a b c) := by
  have hin : InPlace st done more (st.ptr + [a, b, c].length) := InPlace.read h
  have hle := h.out_le
  obtain ⟨st₁, hput₁, hin₁, hout₁, -, hstop₁⟩ := (hstop ▸ hin).put (by omega)
    (byteOf (groupVal (word a) (word b) (word c) (word 65)) 16)
  obtain ⟨st₂, hput₂, hin₂, -⟩ := (hstop₁ ▸ hin₁).put (by omega)
    (byteOf (groupVal (word a) (word b) (word c) (word 65)) 8)
  have hneg := groupVal_neg a b c 65
  have hchar : st.char 0 = a ∧ st.char 1 = b ∧ st.char 2 = c := ⟨h.char 0, h.char 1, h.char 2⟩
  have hpartial : partialbase64 charSigned st =
      if (groupVal (word a) (word b) (word c) (word 65)).toInt < 0 then .error .corrupt else .ok st₂ := by
    simp only [partialbase64, show st.stop - st.ptr = 3 by omega, hchar, tablelookup_ok ha, tablelookup_ok hb,
      tablelookup_ok hc, (groupVal_zero _ _ _).1, bind, Except.bind, hput₁, hput₂]
  rw [base64Rest, if_pos (by omega), hpartial, tripleBytes]
  have hzero : value 65 = some 0 := by decide
  cases hva : value a with
  | none =>
    rw [if_pos (hneg.mpr (by simp [hva]))]
    rfl
  | some v =>
    cases hvb : value b with
    | none =>
      rw [if_pos (hneg.mpr (by simp [hvb]))]
      rfl
    | some w =>
      cases hvc : value c with
      | none =>
        rw [if_pos (hneg.mpr (by simp [hvc]))]
        rfl
      | some x =>
        obtain ⟨h16, h8, -⟩ := byteOf_groupVal hva hvb hvc hzero
        rw [if_neg (fun hlt => hneg.mp hlt (by simp [hva, hvb, hvc, hzero]))]
        show Except.ok (st₂.buffer.take st₂.out) = _
        rw [hin₂.taken, h16, h8, List.append_assoc]
        rfl

/-- The result of the decoding is that of base64. -/
def Agrees (r : Except Base64Fault (List UInt8)) (done text : List UInt8) : Prop :=
  match r with
  | .ok out => ∃ tail, IsBase64 text tail ∧ out = done ++ tail
  | .error e => e = .corrupt ∧ ∀ tail, ¬IsBase64 text tail

theorem Rest.agrees {r : Except Base64Fault (List UInt8)} {text : List UInt8} {o : Option (List UInt8)}
    (h : Rest r done o) (ho : ∀ tail, IsBase64 text tail ↔ o = some tail) : Agrees r done text := by
  cases o with
  | some tail =>
    rw [show r = _ from h]
    exact ⟨tail, (ho tail).mpr rfl, rfl⟩
  | none =>
    rw [show r = _ from h]
    exact ⟨rfl, fun tail htail => nomatch (ho tail).mp htail⟩

/-- The result of decoding from a state on. -/
def decodeFrom (charSigned : Bool) (n : ℕ) (st : Base64State) : Except Base64Fault (List UInt8) :=
  base64Groups charSigned n st >>= base64Rest charSigned

/-- A group in which all characters can be looked up. -/
theorem decodeFrom_group {n : ℕ} {a b c d : UInt8} (h : InPlace st done (a :: b :: c :: d :: rest) st.ptr)
    (ha : charSigned = true → a.toNat < 128) (hb : charSigned = true → b.toNat < 128)
    (hc : charSigned = true → c.toNat < 128) (hd : charSigned = true → d.toNat < 128) :
    (∃ v w x y st', value a = some v ∧ value b = some w ∧ value c = some x ∧ value d = some y ∧
      decodeFrom charSigned (n + 1) st = decodeFrom charSigned n st' ∧
      InPlace st' (done ++ bytes [v, w, x, y]) rest st'.ptr ∧ st'.ptr = st.ptr + 4 ∧ st'.stop = st.stop) ∨
    (¬((value a).isSome ∧ (value b).isSome ∧ (value c).isSome ∧ (value d).isSome) ∧
      decodeFrom charSigned (n + 1) st = base64Rest charSigned
        (if st.stop - st.ptr = 4 ∧ d = padChar then
          (if c = padChar then { st with stop := st.stop - 2 } else { st with stop := st.stop - 1 })
        else st)) := by
  have hchar : st.char 0 = a ∧ st.char 1 = b ∧ st.char 2 = c ∧ st.char 3 = d :=
    ⟨h.char 0, h.char 1, h.char 2, h.char 3⟩
  have hneg := groupVal_neg a b c d
  have hfold : word a <<< 18 ||| word b <<< 12 ||| word c <<< 6 ||| word d <<< 0 =
      groupVal (word a) (word b) (word c) (word d) := rfl
  by_cases hall : (value a).isSome ∧ (value b).isSome ∧ (value c).isSome ∧ (value d).isSome
  · left
    obtain ⟨hva, hvb, hvc, hvd⟩ := hall
    obtain ⟨v, hva⟩ := Option.isSome_iff_exists.mp hva
    obtain ⟨w, hvb⟩ := Option.isSome_iff_exists.mp hvb
    obtain ⟨x, hvc⟩ := Option.isSome_iff_exists.mp hvc
    obtain ⟨y, hvd⟩ := Option.isSome_iff_exists.mp hvd
    obtain ⟨h16, h8, h0⟩ := byteOf_groupVal hva hvb hvc hvd
    have hin : InPlace st done rest (st.ptr + [a, b, c, d].length) := InPlace.read h
    have hle := h.out_le
    have hlen : [a, b, c, d].length = 4 := rfl
    rw [hlen] at hin
    obtain ⟨st₁, hput₁, hin₁, hout₁, hptr₁, hstop₁⟩ := hin.put (by omega)
      (byteOf (groupVal (word a) (word b) (word c) (word d)) 16)
    obtain ⟨st₂, hput₂, hin₂, hout₂, hptr₂, hstop₂⟩ := hin₁.put (by omega)
      (byteOf (groupVal (word a) (word b) (word c) (word d)) 8)
    obtain ⟨st₃, hput₃, hin₃, -, hptr₃, hstop₃⟩ := hin₂.put (by omega)
      (byteOf (groupVal (word a) (word b) (word c) (word d)) 0)
    refine ⟨v, w, x, y, { st₃ with ptr := st₃.ptr + 4 }, hva, hvb, hvc, hvd, ?_, ?_, ?_, ?_⟩
    · rw [decodeFrom, decodeFrom, base64Groups]
      simp only [hchar, tablelookup_ok ha, tablelookup_ok hb, tablelookup_ok hc, tablelookup_ok hd, bind,
        Except.bind, hfold]
      rw [if_neg (fun hlt => hneg.mp hlt (by simp [hva, hvb, hvc, hvd]))]
      rw [← hptr₁] at hput₂ hput₃
      rw [← hptr₂] at hput₃
      simp only [hput₁, hput₂, hput₃]
    · have hptr : st₃.ptr + 4 = st.ptr + 4 := by rw [hptr₃, hptr₂, hptr₁]
      rw [← hptr] at hin₃
      have hdone : done ++ bytes [v, w, x, y] = done ++ [UInt8.ofNat (v * 4 + w / 16)] ++
          [UInt8.ofNat (w % 16 * 16 + x / 4)] ++ [UInt8.ofNat (x % 4 * 64 + y)] := by simp [bytes]
      rw [h16, h8, h0, ← hdone] at hin₃
      exact ⟨hin₃.out, hin₃.taken, hin₃.rest, hin₃.out_le, hin₃.limit_le⟩
    · show st₃.ptr + 4 = st.ptr + 4
      rw [hptr₃, hptr₂, hptr₁]
    · show st₃.stop = st.stop
      rw [hstop₃, hstop₂, hstop₁]
  · right
    refine ⟨hall, ?_⟩
    rw [decodeFrom, base64Groups]
    simp only [hchar, tablelookup_ok ha, tablelookup_ok hb, tablelookup_ok hc, tablelookup_ok hd, bind,
      Except.bind, hfold]
    rw [if_pos (hneg.mpr hall)]
    split_ifs <;> rfl

/-- What is decoded from a state on is what the rest stands for. -/
theorem decodeFrom_agrees {n : ℕ} (h : InPlace st done rest st.ptr) (hstop : st.stop = st.ptr + rest.length)
    (hn : n = rest.length / 4) (htable : InTable charSigned rest) :
    Agrees (decodeFrom charSigned n st) done rest := by
  induction n generalizing st done rest with
  | zero =>
    match rest, h, hstop, hn, htable with
    | [], h, hstop, _, _ =>
      rw [decodeFrom, base64Groups]
      show Agrees (base64Rest charSigned st) done []
      rw [base64Rest, if_neg (by simp at hstop; omega)]
      exact ⟨[], .intro .nil (by simp) (.inl rfl), by rw [List.append_nil, h.taken]⟩
    | [a], h, hstop, _, _ =>
      have hcorrupt : decodeFrom charSigned 0 st = .error .corrupt := by
        show base64Rest charSigned st = _
        rw [List.length_singleton] at hstop
        rw [base64Rest, if_pos (by omega), partialbase64, show st.stop - st.ptr = 1 by omega]
        rfl
      rw [hcorrupt]
      refine ⟨rfl, fun tail htail => ?_⟩
      obtain ⟨values, -, hlength, -⟩ := htail.short (by simp)
      exact hlength rfl
    | [a, b], h, hstop, _, htable =>
      exact (base64Rest_pair h hstop (fun hs => htable hs a (by simp [consulted]))
        (fun hs => htable hs b (by simp [consulted]))).agrees fun _ => isBase64_pair
    | [a, b, c], h, hstop, _, htable =>
      exact (base64Rest_triple h hstop (fun hs => htable hs a (by simp [consulted]))
        (fun hs => htable hs b (by simp [consulted])) (fun hs => htable hs c (by simp [consulted]))).agrees
        fun _ => isBase64_triple
    | _ :: _ :: _ :: _ :: _, _, _, hn, _ =>
      simp only [List.length_cons] at hn
      omega
  | succ n ih =>
    match rest, h, hstop, hn, htable with
    | a :: b :: c :: d :: rest, h, hstop, hn, htable =>
      simp only [List.length_cons] at hstop hn
      have hconsult : charSigned = true → ∀ ch ∈ [a, b, c, d], ch.toNat < 128 := by
        intro hsigned ch hch
        apply htable hsigned
        rw [consulted]
        simp only [List.mem_cons, List.not_mem_nil, or_false] at hch ⊢
        tauto
      rcases decodeFrom_group (n := n) h (fun hs => hconsult hs a (by simp)) (fun hs => hconsult hs b (by simp))
        (fun hs => hconsult hs c (by simp)) (fun hs => hconsult hs d (by simp)) with
        ⟨v, w, x, y, st', hva, hvb, hvc, hvd, heq, hin, hptr, hstop'⟩ | ⟨hnone, heq⟩
      · have hbelow : InTable charSigned rest := by
          intro hsigned ch hch
          apply htable hsigned
          rw [consulted, if_pos (by simp [hva, hvb, hvc, hvd])]
          simp only [List.mem_cons]
          tauto
        have hrec := ih hin (by omega) (by omega) hbelow
        rw [heq]
        cases hr : decodeFrom charSigned n st' with
        | ok out =>
          rw [hr] at hrec
          obtain ⟨tail, htail, rfl⟩ := hrec
          exact ⟨_, htail.cons_group hva hvb hvc hvd, by rw [List.append_assoc]⟩
        | error e =>
          rw [hr] at hrec
          refine ⟨hrec.1, fun tail htail => ?_⟩
          rcases htail.cases_group with ⟨_, _, _, _, tail', -, -, -, -, htail', -⟩ | ⟨-, hpad, -⟩
          · exact hrec.2 tail' htail'
          · rw [hpad, value_padChar] at hvd
            cases hvd
      · rw [heq]
        by_cases hpadded : st.stop - st.ptr = 4 ∧ d = padChar
        · obtain ⟨hlast, rfl⟩ := hpadded
          obtain rfl : rest = [] := List.length_eq_zero_iff.mp (by omega)
          rw [if_pos ⟨hlast, rfl⟩]
          by_cases hc : c = padChar
          · subst hc
            rw [if_pos rfl]
            have hst : InPlace { st with stop := st.stop - 2 } done [a, b, padChar, padChar] st.ptr :=
              ⟨h.out, h.taken, h.rest, h.out_le, h.limit_le⟩
            exact (base64Rest_pair hst (show st.stop - 2 = st.ptr + 2 by omega)
              (fun hs => hconsult hs a (by simp)) (fun hs => hconsult hs b (by simp))).agrees
              fun _ => isBase64_pair_padded
          · rw [if_neg hc]
            have hst : InPlace { st with stop := st.stop - 1 } done [a, b, c, padChar] st.ptr :=
              ⟨h.out, h.taken, h.rest, h.out_le, h.limit_le⟩
            exact (base64Rest_triple hst (show st.stop - 1 = st.ptr + 3 by omega)
              (fun hs => hconsult hs a (by simp)) (fun hs => hconsult hs b (by simp))
              (fun hs => hconsult hs c (by simp))).agrees fun _ => isBase64_triple_padded hc
        · rw [if_neg hpadded]
          have hcorrupt : base64Rest charSigned st = .error .corrupt := by
            rw [base64Rest, if_pos (by omega), partialbase64]
            split
            · omega
            · omega
            · rfl
          rw [hcorrupt]
          refine ⟨rfl, fun tail htail => ?_⟩
          rcases htail.cases_group with ⟨_, _, _, _, -, hva, hvb, hvc, hvd, -⟩ | ⟨rfl, hpad, -⟩
          · exact hnone (by simp [hva, hvb, hvc, hvd])
          · exact hpadded ⟨by rw [List.length_nil] at hstop; omega, hpad⟩
    | [], _, _, hn, _ | [_], _, _, hn, _ | [_, _], _, _, hn, _ | [_, _, _], _, _, hn, _ =>
      simp at hn

/-- A negative character is looked up far behind the table. -/
theorem tablelookup_error {ch : UInt8} (h : ¬ch.toNat < 128) :
    tablelookup true ch = .error .outOfBounds := by
  rw [tablelookup_eq, if_pos ⟨rfl, by omega⟩]

theorem tablelookup_of_lt {ch : UInt8} (h : ch.toNat < 128) : tablelookup true ch = .ok (word ch) :=
  tablelookup_ok fun _ => h

/-- The first group with a negative character. -/
theorem base64Groups_outOfBounds {n : ℕ} {a b c d : UInt8} (h : InPlace st done (a :: b :: c :: d :: rest) st.ptr)
    (hlarge : ∃ ch ∈ [a, b, c, d], ¬ch.toNat < 128) : base64Groups true (n + 1) st = .error .outOfBounds := by
  have hchar : st.char 0 = a ∧ st.char 1 = b ∧ st.char 2 = c ∧ st.char 3 = d :=
    ⟨h.char 0, h.char 1, h.char 2, h.char 3⟩
  rw [base64Groups]
  simp only [hchar]
  by_cases ha : a.toNat < 128
  · rw [tablelookup_of_lt ha]
    by_cases hb : b.toNat < 128
    · rw [tablelookup_of_lt hb]
      by_cases hc : c.toNat < 128
      · have hd : ¬d.toNat < 128 := by
          obtain ⟨ch, hch, hlarge⟩ := hlarge
          simp only [List.mem_cons, List.not_mem_nil, or_false] at hch
          rcases hch with rfl | rfl | rfl | rfl
          · exact absurd ha hlarge
          · exact absurd hb hlarge
          · exact absurd hc hlarge
          · exact hlarge
        rw [tablelookup_of_lt hc, tablelookup_error hd]
        rfl
      · rw [tablelookup_error hc]
        rfl
    · rw [tablelookup_error hb]
      rfl
  · rw [tablelookup_error ha]
    rfl

/-- A lookup outside of the table ends the decoding. -/
theorem decodeFrom_outOfBounds {n : ℕ} (h : InPlace st done rest st.ptr)
    (hstop : st.stop = st.ptr + rest.length) (hn : n = rest.length / 4)
    (hlarge : ∃ ch ∈ consulted rest, ¬ch.toNat < 128) : decodeFrom true n st = .error .outOfBounds := by
  induction n generalizing st done rest with
  | zero =>
    show base64Rest true st = _
    match rest, h, hstop, hn, hlarge with
    | [], _, _, _, hlarge => simp [consulted] at hlarge
    | [_], _, _, _, hlarge => simp [consulted] at hlarge
    | [a, b], h, hstop, _, hlarge =>
      have hchar : st.char 0 = a ∧ st.char 1 = b := ⟨h.char 0, h.char 1⟩
      have hlength : st.stop - st.ptr = 2 := by
        rw [hstop, Nat.add_sub_cancel_left]
        rfl
      rw [base64Rest, if_pos (by omega), partialbase64, hlength]
      simp only [hchar]
      by_cases ha : a.toNat < 128
      · have hb : ¬b.toNat < 128 := by
          simp [consulted] at hlarge
          omega
        rw [tablelookup_of_lt ha, tablelookup_error hb]
        rfl
      · rw [tablelookup_error ha]
        rfl
    | [a, b, c], h, hstop, _, hlarge =>
      have hchar : st.char 0 = a ∧ st.char 1 = b ∧ st.char 2 = c := ⟨h.char 0, h.char 1, h.char 2⟩
      have hlength : st.stop - st.ptr = 3 := by
        rw [hstop, Nat.add_sub_cancel_left]
        rfl
      rw [base64Rest, if_pos (by omega), partialbase64, hlength]
      simp only [hchar]
      by_cases ha : a.toNat < 128
      · rw [tablelookup_of_lt ha]
        by_cases hb : b.toNat < 128
        · have hc : ¬c.toNat < 128 := by
            simp [consulted] at hlarge
            omega
          rw [tablelookup_of_lt hb, tablelookup_error hc]
          rfl
        · rw [tablelookup_error hb]
          rfl
      · rw [tablelookup_error ha]
        rfl
    | _ :: _ :: _ :: _ :: _, _, _, hn, _ =>
      simp only [List.length_cons] at hn
      omega
  | succ n ih =>
    match rest, h, hstop, hn, hlarge with
    | a :: b :: c :: d :: rest, h, hstop, hn, hlarge =>
      simp only [List.length_cons] at hstop hn
      by_cases hhere : ∃ ch ∈ [a, b, c, d], ¬ch.toNat < 128
      · rw [decodeFrom, base64Groups_outOfBounds h hhere]
        rfl
      · have hlow : ∀ ch ∈ [a, b, c, d], ch.toNat < 128 := by
          intro ch hch
          by_contra hnot
          exact hhere ⟨ch, hch, hnot⟩
        obtain ⟨ch, hch, hbig⟩ := hlarge
        have hbehind : ch ∈ if (value a).isSome ∧ (value b).isSome ∧ (value c).isSome ∧ (value d).isSome then
            consulted rest else [] := by
          have hnot : ch ∉ [a, b, c, d] := fun hmem => hbig (hlow ch hmem)
          rw [consulted] at hch
          simp only [List.mem_cons, List.not_mem_nil, or_false] at hch hnot
          tauto
        rcases decodeFrom_group (n := n) h (fun _ => hlow a (by simp)) (fun _ => hlow b (by simp))
          (fun _ => hlow c (by simp)) (fun _ => hlow d (by simp)) with
          ⟨v, w, x, y, st', hva, hvb, hvc, hvd, heq, hin, hptr, hstop'⟩ | ⟨hnone, -⟩
        · rw [if_pos (by simp [hva, hvb, hvc, hvd])] at hbehind
          rw [heq]
          exact ih hin (by omega) (by omega) ⟨ch, hbehind, hbig⟩
        · rw [if_neg hnone] at hbehind
          cases hbehind
    | [], _, _, hn, _ | [_], _, _, hn, _ | [_, _], _, _, hn, _ | [_, _, _], _, _, hn, _ =>
      simp at hn

end InPlace

/-- Decoding a string in place gives the bytes that it stands for as base64, or an error if it is no
base64, when every character that is looked up is inside of the table. -/
theorem jsondecBase64_agrees {charSigned : Bool} {text : List UInt8} (h : InTable charSigned text) :
    Agrees (jsondecBase64 charSigned text) [] text := by
  have hplace : InPlace ⟨text, 0, 0, text.length⟩ [] text 0 :=
    ⟨rfl, rfl, rfl, Nat.le_refl _, Nat.zero_le _⟩
  exact decodeFrom_agrees hplace (Nat.zero_add _).symm rfl h

/-- A negative character that is looked up is looked up outside of the table. -/
theorem jsondecBase64_outOfBounds {charSigned : Bool} {text : List UInt8}
    (h : ¬InTable charSigned text) : jsondecBase64 charSigned text = .error .outOfBounds := by
  have hplace : InPlace ⟨text, 0, 0, text.length⟩ [] text 0 :=
    ⟨rfl, rfl, rfl, Nat.le_refl _, Nat.zero_le _⟩
  obtain ⟨rfl, hlarge⟩ : charSigned = true ∧ ∃ ch ∈ consulted text, ¬ch.toNat < 128 := by
    simpa [InTable] using h
  exact decodeFrom_outOfBounds hplace (Nat.zero_add _).symm rfl hlarge

/-- Decoding a string in place gives the bytes that it stands for as base64, or an error if it is no
base64; no byte is written before it is read. Where a character is looked up that is negative, the
lookup is outside of the table. -/
theorem jsondecBase64_exact (charSigned : Bool) (text : List UInt8) :
    (InTable charSigned text → Agrees (jsondecBase64 charSigned text) [] text) ∧
      (¬InTable charSigned text → jsondecBase64 charSigned text = .error .outOfBounds) :=
  ⟨jsondecBase64_agrees, jsondecBase64_outOfBounds⟩

section RoundTrip

theorem value_base64Char (n : Fin 64) : value (base64Char n.val) = some n.val := by
  revert n
  decide +kernel

theorem value_base64Char_of_lt {n : ℕ} (h : n < 64) : value (base64Char n) = some n :=
  value_base64Char ⟨n, h⟩

/-- The bytes of a group that was made up of them. -/
theorem ofNat_eq {n : ℕ} {a : UInt8} (h : n = a.toNat) : UInt8.ofNat n = a := by
  rw [h, UInt8.ofNat_toNat]

/-- What is written for bytes is base64 for them. -/
theorem isBase64_base64Text (b : List UInt8) : IsBase64 (base64Text b) b := by
  induction b using base64Text.induct with
  | case1 a b c rest ih =>
    have ha := a.toNat_lt
    have hb := b.toNat_lt
    have hc := c.toNat_lt
    have hgroup := ih.cons_group (value_base64Char_of_lt (show a.toNat / 4 < 64 by omega))
      (value_base64Char_of_lt (show a.toNat % 4 * 16 + b.toNat / 16 < 64 by omega))
      (value_base64Char_of_lt (show b.toNat % 16 * 4 + c.toNat / 64 < 64 by omega))
      (value_base64Char_of_lt (show c.toNat % 64 < 64 by omega))
    rw [bytes, ofNat_eq (a := a) (by omega), ofNat_eq (a := b) (by omega), ofNat_eq (a := c) (by omega)] at hgroup
    exact hgroup
  | case2 a b =>
    have ha := a.toNat_lt
    have hb := b.toNat_lt
    have hc := value_base64Char_of_lt (show b.toNat % 16 * 4 < 64 by omega)
    have hne : base64Char (b.toNat % 16 * 4) ≠ padChar := by
      intro heq
      rw [heq, value_padChar] at hc
      cases hc
    rw [base64Text, isBase64_triple_padded hne, tripleBytes_eq_some]
    refine ⟨_, _, _, value_base64Char_of_lt (show a.toNat / 4 < 64 by omega),
      value_base64Char_of_lt (show a.toNat % 4 * 16 + b.toNat / 16 < 64 by omega), hc, ?_⟩
    rw [bytes, ofNat_eq (a := a) (by omega), ofNat_eq (a := b) (by omega)]
  | case3 a =>
    have ha := a.toNat_lt
    rw [base64Text, isBase64_pair_padded, pairBytes_eq_some]
    refine ⟨_, _, value_base64Char_of_lt (show a.toNat / 4 < 64 by omega),
      value_base64Char_of_lt (show a.toNat % 4 * 16 < 64 by omega), ?_⟩
    rw [bytes, ofNat_eq (a := a) (by omega)]
  | case4 => exact .intro .nil (by simp) (.inl rfl)

/-- The characters that are written are no negative `char`s. -/
theorem base64Char_lt (n : ℕ) : (base64Char n).toNat < 128 := by
  by_cases h : n < base64Chars.length
  · rw [base64Char, List.getD_eq_getElem?_getD, List.getElem?_eq_getElem h]
    have hall : ∀ ch ∈ base64Chars, ch.toNat < 128 := by decide +kernel
    exact hall _ (List.getElem_mem h)
  · rw [base64Char, List.getD_eq_getElem?_getD, List.getElem?_eq_none (by omega)]
    decide

theorem base64Text_lt (b : List UInt8) : ∀ ch ∈ base64Text b, ch.toNat < 128 := by
  have hpad : padChar.toNat < 128 := by decide
  induction b using base64Text.induct with
  | case1 a b c rest ih =>
    rw [base64Text, List.forall_mem_append]
    refine ⟨?_, ih⟩
    simp [base64Char_lt]
  | case2 a b =>
    rw [base64Text]
    simp [base64Char_lt, hpad]
  | case3 a =>
    rw [base64Text]
    simp [base64Char_lt, hpad]
  | case4 => exact nofun

/-- What is looked up is in the text. -/
theorem mem_of_mem_consulted {text : List UInt8} {ch : UInt8} (h : ch ∈ consulted text) : ch ∈ text := by
  induction text using consulted.induct with
  | case1 a b c d rest ih =>
    rw [consulted] at h
    split at h
    all_goals
      simp only [List.mem_cons, List.not_mem_nil, or_false] at h ⊢
      tauto
  | case2 a => simp [consulted] at h
  | case3 rest hgroup hone =>
    rw [consulted] at h
    · exact h
    · exact hgroup
    · exact hone

/-- Bytes come back from what is written for them, whether `char` is signed or not. -/
theorem jsondecBase64_base64Text (charSigned : Bool) (b : List UInt8) :
    jsondecBase64 charSigned (base64Text b) = .ok b := by
  have htable : InTable charSigned (base64Text b) :=
    fun _ ch hch => base64Text_lt b ch (mem_of_mem_consulted hch)
  have hagrees := jsondecBase64_agrees htable
  have hbytes := isBase64_base64Text b
  cases hr : jsondecBase64 charSigned (base64Text b) with
  | ok out =>
    rw [hr] at hagrees
    obtain ⟨tail, htail, rfl⟩ := hagrees
    exact congrArg Except.ok (htail.unique hbytes)
  | error e =>
    rw [hr] at hagrees
    exact absurd hbytes (hagrees.2 b)

end RoundTrip

end Upb.Json
