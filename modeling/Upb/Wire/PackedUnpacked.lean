import Upb.Wire.RepeatedNumbers

/-!
# Packed and unpacked records mix

However the values of a repeated field are cut into unpacked and packed records, and whatever records
of other fields stand between them, the field ends up with the values in order. The values that a
closed enum does not declare are in the unknown fields, in order and under the number of the field.
-/

namespace Upb.Wire

open Upb.Common BoundedReader

/-- The decoder reads one record, of the number `k`, into a message. -/
def DecodesRecord (cfg : DecodeConfig) (depth : ℕ) (t : TableId) (k : ℕ) (rec : List UInt8)
    (d d' : Decoding) : Prop :=
  ∃ w tag v r', IsTag k w tag ∧ rec = tag ++ v ∧
    decodeField stream cfg rec.length (decodeMessage stream cfg rec.length depth) depth t d
      (.init 0 rec) = .ok (.inl d', r') ∧ r'.rest = []

/-- The values of a repeated field cut into records. An unpacked record holds one value, a packed one
any count of them, and records of other numbers stand between. The bytes lead from one message to
another. -/
inductive Cut (cfg : DecodeConfig) (depth : ℕ) (t : TableId) (n : ℕ) (f : LinkedField)
    (ext : Option ExtId) : List ℕ → List UInt8 → Decoding → Decoding → Prop
  | nil (d : Decoding) : Cut cfg depth t n f ext [] [] d d
  | unpacked {v : ℕ} {vs : List ℕ} {tag p rest : List UInt8} {d d' : Decoding}
      (htag : IsTag n (numberWireType f.field.descriptortype) tag)
      (hp : IsNumber f.field.descriptortype v p)
      (hrest : Cut cfg depth t n f ext vs rest (putUnpacked f ext d v (tag ++ p)) d') :
      Cut cfg depth t n f ext (v :: vs) (tag ++ p ++ rest) d d'
  | packed {vs vs' : List ℕ} {p rec rest : List UInt8} {d d' : Decoding}
      (hp : IsNumbers f.field.descriptortype vs p) (hrec : IsDelimited n p rec)
      (hrest : Cut cfg depth t n f ext vs' rest (putPacked f ext d vs) d') :
      Cut cfg depth t n f ext (vs ++ vs') (rec ++ rest) d d'
  | other {k : ℕ} {vs : List ℕ} {rec rest : List UInt8} {d d₁ d' : Decoding} (hk : k ≠ n)
      (hrec : DecodesRecord cfg depth t k rec d d₁) (hrest : Cut cfg depth t n f ext vs rest d₁ d') :
      Cut cfg depth t n f ext vs (rec ++ rest) d d'

/-- The records under a number are varint records of these values modulo `2^32`, in order. -/
inductive HoldsInOrder (n : ℕ) : List ℕ → List UInt8 → Prop
  | nil : HoldsInOrder n [] []
  | value {v : ℕ} {vs : List ℕ} {tag p rest : List UInt8} (htag : IsTag n .varint tag)
      (hp : IsVarint 10 p) (hv : leb p % 2 ^ 32 = v % 2 ^ 32) (hrest : HoldsInOrder n vs rest) :
      HoldsInOrder n (v :: vs) (tag ++ p ++ rest)
  | other {k : ℕ} {vs : List ℕ} {kept rest : List UInt8} (hk : k ≠ n) (hkept : Kept k kept)
      (hrest : HoldsInOrder n vs rest) : HoldsInOrder n vs (kept ++ rest)

variable {cfg : DecodeConfig} {fuel depth n : ℕ} {t : TableId} {f : LinkedField} {ext : Option ExtId}
  {vs : List ℕ} {bytes : List UInt8} {d d' : Decoding}

section Run

/-- A record that is decoded alone is decoded in front of other bytes. -/
theorem DecodesRecord.round {k : ℕ} {rec w : List UInt8} (h : DecodesRecord cfg depth t k rec d d')
    {r : BoundedReader} (hr : r.rest = rec ++ w) (hfuel : rec.length ≤ fuel) :
    rec ≠ [] ∧ ∃ r', Rounds stream cfg fuel (decodeMessage stream cfg fuel depth) depth t 1 d r d' r' ∧
      r'.rest = w := by
  obtain ⟨wt, tag, v, r₁, htag, rfl, hfield, hnil⟩ := h
  have hne : tag ++ v ≠ [] := by simp [htag.varint.ne_nil]
  have hround : Rounds stream cfg (tag ++ v).length (decodeMessage stream cfg (tag ++ v).length depth)
      depth t 1 d (.init 0 (tag ++ v)) d' r₁ :=
    .step (isDone_of_ne_nil hne) hfield (.refl d' r₁)
  obtain ⟨r', hround', hrest⟩ := hround.longer hfuel hr
  refine ⟨hne, r', hround', ?_⟩
  rw [hrest, hnil, List.nil_append]

/-- The decoder goes through the records of a cut. -/
theorem Cut.rounds (hf : IsPackable cfg t n f ext) (h : Cut cfg depth t n f ext vs bytes d d')
    (hmax : bytes.length ≤ int32Max) (hfuel : bytes.length ≤ fuel) :
    ∀ r : BoundedReader, r.rest = bytes → ∃ k r', k ≤ bytes.length ∧
      Rounds stream cfg fuel (decodeMessage stream cfg fuel depth) depth t k d r d' r' ∧
        r'.rest = [] := by
  induction h with
  | nil d =>
    intro r hr
    exact ⟨0, r, le_rfl, .refl d r, hr⟩
  | @unpacked v vs tag p rest d d' htag hp _ ih =>
    intro r hr
    have hpos := htag.varint.length_pos
    simp only [List.length_append] at hmax hfuel ⊢
    have hne : r.rest ≠ [] := by
      rw [hr]
      simp [htag.varint.ne_nil]
    obtain ⟨r₁, hfield, hrest⟩ := decodeField_unpacked hf d htag hp hr
    obtain ⟨k, r', hk, hrounds, hnil⟩ := ih (by omega) (by omega) r₁ hrest
    exact ⟨k + 1, r', by omega, .step (isDone_of_ne_nil hne) hfield hrounds, hnil⟩
  | @packed vs vs' p rec rest d d' hp hrec _ ih =>
    intro r hr
    have hpos := List.length_pos_iff.mpr hrec.ne_nil
    have hlen := hrec.length_le
    simp only [List.length_append] at hmax hfuel ⊢
    have hne : r.rest ≠ [] := by
      rw [hr]
      simp [hrec.ne_nil]
    have hsmall : p.length ≤ int32Max := by omega
    have hround : p.length ≤ fuel := by omega
    obtain ⟨r₁, hfield, hrest⟩ := decodeField_packed hf d hp hrec hsmall hround hr
    obtain ⟨k, r', hk, hrounds, hnil⟩ := ih (by omega) (by omega) r₁ hrest
    exact ⟨k + 1, r', by omega, .step (isDone_of_ne_nil hne) hfield hrounds, hnil⟩
  | @other k vs rec rest d d₁ d' hk hrec _ ih =>
    intro r hr
    simp only [List.length_append] at hmax hfuel ⊢
    obtain ⟨hne, r₁, hround, hrest⟩ := hrec.round hr (show rec.length ≤ fuel by omega)
    have hpos := List.length_pos_iff.mpr hne
    obtain ⟨k, r', hk, hrounds, hnil⟩ := ih (by omega) (by omega) r₁ hrest
    exact ⟨1 + k, r', by omega, hround.trans hrounds, hnil⟩

/-- `upb_Decode` of bytes that the checked decoder reads in rounds. -/
theorem upbDecode_of_rounds {maxDepth k : ℕ} {m : Message} {input : List UInt8} {r : BoundedReader}
    (hmax : input.length ≤ int32Max) (hk : k ≤ input.length)
    (h : Rounds stream cfg input.length
      (decodeMessage stream cfg input.length (effectiveMaxDepth maxDepth)) (effectiveMaxDepth maxDepth)
      t k ⟨m, false⟩ (.init 0 input) d' r) (hnil : r.rest = []) :
    (upbDecode cfg maxDepth t m input).map Decoded.msg = decodeEnd cfg t (d', none) := by
  have hinit : LazyChecks.Rel input.length ⟨input, 0, input.length⟩ .base (.init 0 input)
      (.init 0 input) :=
    (lazySim input.length hmax).rel_anti (Level.base_le (by decide))
      (LazyChecks.rel_init hmax (v := ⟨0, input⟩) le_rfl (by simp))
  obtain ⟨e, hlazy, hrel⟩ := h.lazy hmax le_rfl hinit
  obtain ⟨i, hi⟩ := Nat.exists_eq_add_of_le hk
  have hdone := ((lazySim input.length hmax).isDone (l := .base) (by decide) (by decide)).rel _ _ _ hrel
  rw [isDone_of_eq_nil hnil] at hdone
  rcases hdone with ⟨_, e', hdone, rfl, -⟩ | ⟨-, hpast⟩
  swap
  · exact hpast.elim
  have hloop := hlazy.messageLoop_eq i
  rw [← hi, messageLoop, messageLoop, Prog.loop_of_done hdone] at hloop
  rw [upbDecode_map_msg, messageLoop, hloop]
  rfl

end Run

section Contents

/-- An extension that is found for varints is not the extension of a message set. -/
theorem findField_ne_messageSetItem {e : ExtId}
    (h : findField cfg t n (some .varint) = .field f (some e)) (k : ℕ) (w : Option WireType) :
    findField cfg t k w ≠ .messageSetItem := by
  intro hk
  rw [findField] at h hk
  split at h
  · cases h
  split at hk
  · cases hk
  split at h
  swap
  · cases h
  next reg hreg =>
  rw [hreg] at hk
  simp only [findExtensionField] at h hk
  split at h
  · next hmode =>
    rcases hmode with hmode | ⟨-, hw⟩
    · rw [hmode] at hk
      simp only [true_or, if_true] at hk
      split at hk <;> cases hk
    · cases hw
  · split at h <;> cases h

/-- What an extension is found as. -/
theorem eq_ext_of_findField {w : Option WireType} {e : ExtId} (h : findField cfg t n w = .field f (some e)) :
    f = cfg.schema.ext e := by
  rw [findField] at h
  split at h
  · cases h
  split at h
  swap
  · cases h
  rw [findExtensionField] at h
  split at h
  · split at h
    · cases h
      rfl
    · cases h
  · split at h <;> cases h

/-- A record of another number leaves the elements of the field alone. -/
theorem elements_of_recordChanges (hf : IsPackable cfg t n f ext) {k : ℕ} (hk : k ≠ n) {w : WireType}
    {m m' : Message} (h : RecordChanges k (findField cfg t k (some w)) m m') :
    elements f.field ext m' = elements f.field ext m := by
  cases ext with
  | none =>
    have hslot := h.slots f.field.offset fun g hg => (hf.alone rfl k (some w) g hk hg).symm
    simp only [elements, Message.data, hslot]
  | some e =>
    have hset : findField cfg t k (some w) ≠ .messageSetItem :=
      findField_ne_messageSetItem (hf.found .varint) k (some w)
    have hother : ∀ g, findField cfg t k (some w) ≠ .field g (some e) := by
      intro g hg
      have hn := hf.numbered _ _ _ _ (hf.found .varint)
      have hk' := hf.numbered _ _ _ _ hg
      rw [eq_ext_of_findField (hf.found .varint)] at hn
      rw [eq_ext_of_findField hg, hn] at hk'
      exact hk hk'.symm
    simp only [elements, h.exts e hset hother]

/-- An undeclared value is left by the record that is kept for it. -/
theorem HoldsInOrder.enumValueUnknown (hn : n < 2 ^ 29) {rest : List UInt8} {vs' : List ℕ}
    (vs : List ℕ) (h : HoldsInOrder n vs' rest) :
    HoldsInOrder n (vs ++ vs') (vs.flatMap (Wire.enumValueUnknown n) ++ rest) := by
  induction vs with
  | nil => exact h
  | cons v vs ih =>
    have hlt : v % 2 ^ 32 < 2 ^ 32 := Nat.mod_lt _ (by decide)
    have hp : IsVarint 10 (encodeVarint (v % 2 ^ 32)) := isVarint_encodeVarint (by decide) le_rfl (by omega)
    have hleb : leb (encodeVarint (v % 2 ^ 32)) % 2 ^ 32 = v % 2 ^ 32 := by
      rw [leb_encodeVarint (by omega), Nat.mod_mod]
    rw [List.flatMap_cons, List.append_assoc]
    exact .value (isTag_encodeVarint .varint hn) hp hleb ih

/-- An undeclared value is a value of a closed enum. -/
theorem isNumber_of_not_declared {v : ℕ} {p : List UInt8} (hp : IsNumber f.field.descriptortype v p)
    (hv : declared f v = false) : numberWireType f.field.descriptortype = .varint ∧ IsVarint 10 p ∧
      leb p % 2 ^ 32 = v % 2 ^ 32 := by
  have henum : f.field.descriptortype = .enum := by
    by_contra hne
    rw [declared, MiniTableField.isClosedEnum, beq_false_of_ne hne] at hv
    cases hv
  rw [henum] at hp ⊢
  cases hp with
  | varint _ hp hv =>
    refine ⟨rfl, hp, ?_⟩
    rw [hv, ofVarint]
    omega
  | bit32 hw => cases hw
  | bit64 hw => cases hw

/-- What is in the message after the records of a cut. -/
structure Cut.Result (n : ℕ) (f : LinkedField) (ext : Option ExtId) (vs : List ℕ) (m m' : Message) :
    Prop where
  elements : elements f.field ext m' = elements f.field ext m ++ (vs.filter (declared f)).map .bits
  unknown : ∃ kept, m'.unknown = m.unknown ++ kept ∧ HoldsInOrder n (vs.filter (!declared f ·)) kept

theorem Cut.result (hf : IsPackable cfg t n f ext) (h : Cut cfg depth t n f ext vs bytes d d') :
    Cut.Result n f ext vs d.msg d'.msg := by
  induction h with
  | nil d => exact ⟨by simp, [], by simp, .nil⟩
  | @unpacked v vs tag p rest d d' htag hp _ ih =>
    obtain ⟨helems, kept, hunknown, hkept⟩ := ih
    cases hv : declared f v with
    | true =>
      simp only [putUnpacked, hv, if_true] at helems hunknown
      refine ⟨?_, kept, ?_, ?_⟩
      · rw [helems, elements_appendElements, List.filter_cons_of_pos hv, List.map_cons, List.append_assoc]
        rfl
      · rw [hunknown, unknown_appendElements]
      · rwa [List.filter_cons_of_neg (by rw [hv]; decide)]
    | false =>
      obtain ⟨hw, hvarint, hval⟩ := isNumber_of_not_declared hp hv
      rw [hw] at htag
      simp only [putUnpacked, hv] at helems hunknown
      refine ⟨?_, tag ++ p ++ kept, ?_, ?_⟩
      · rw [List.filter_cons_of_neg (by rw [hv]; decide)]
        exact helems
      · rw [hunknown, ← List.append_assoc]
        rfl
      · rw [List.filter_cons_of_pos (by rw [hv]; rfl)]
        exact .value htag hvarint hval hkept
  | @packed vs vs' p rec rest d d' hp hrec _ ih =>
    obtain ⟨helems, kept, hunknown, hkept⟩ := ih
    have hnumber := hf.numbered _ _ _ _ (hf.found .varint)
    have hn : n < 2 ^ 29 := by
      cases hrec with
      | mk htag _ _ =>
        have hlt := htag.lt
        have hvalue := htag.value
        omega
    simp only [putPacked, hnumber] at helems hunknown
    refine ⟨?_, (vs.filter (!declared f ·)).flatMap (enumValueUnknown n) ++ kept, ?_, ?_⟩
    · rw [helems, elements_addUnknown, elements_appendElements, List.filter_append, List.map_append,
        List.append_assoc]
    · rw [hunknown, Message.addUnknown, unknown_appendElements, List.append_assoc]
    · rw [List.filter_append]
      exact hkept.enumValueUnknown hn _
  | @other k vs rec rest d d₁ d' hk hrec _ ih =>
    obtain ⟨helems, kept, hunknown, hkept⟩ := ih
    obtain ⟨w, tag, v, r', htag, hbytes, hfield, -⟩ := hrec
    have hchanges := decodeField_changes hf.numbered htag hbytes hfield
    obtain ⟨kept', hunknown', hkept'⟩ := hchanges.unknown
    refine ⟨?_, kept' ++ kept, ?_, .other hk hkept' hkept⟩
    · rw [helems, elements_of_recordChanges hf hk hchanges]
    · rw [hunknown, hunknown', List.append_assoc]

end Contents

/-- A repeated closed enum with the values 0 and 1. -/
def enumField : LinkedField :=
  ⟨⟨1, 16, 0, 0, .enum, ⟨.array, false, false, false, .rep8Byte⟩⟩, .subenum ⟨64, 0, [3, 0]⟩⟩

/-- A table with the repeated enum alone. -/
def enumConfig : DecodeConfig :=
  { nestedConfig with
    schema :=
      { nestedConfig.schema with
        table := fun _ => ⟨[enumField.field], 1, 24, ⟨false, false, false⟩, 1, 0⟩
        sub := fun _ _ => enumField.sub } }

theorem findField_enumConfig (k : ℕ) (w : Option WireType) :
    findField enumConfig 0 k w = if k = 1 then .field enumField none else .notFound := by
  rcases k with _ | _ | k
  · rfl
  · rfl
  · have hnone : (enumConfig.schema.table 0).findFieldByNumber (k + 2) = none := by
      simp [enumConfig, MiniTable.findFieldByNumber, enumField]
    rw [findField, hnone]
    rfl

theorem isPackable_enumField : IsPackable enumConfig 0 1 enumField none where
  found w := findField_enumConfig 1 (some w)
  array := rfl
  packable := rfl
  positive := by decide
  numbered := by
    intro k w f ext h
    rw [findField_enumConfig] at h
    split at h
    · next hk =>
      cases h
      exact hk.symm
    · cases h
  alone := by
    intro _ k w g hk h
    rw [findField_enumConfig, if_neg hk] at h
    cases h

end Upb.Wire
