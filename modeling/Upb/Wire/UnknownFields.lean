import Upb.Wire.Grammar

/-!
# Unknown fields

A record that the decoder does not interpret is skipped, and its bytes are added to the unknown
fields of the message.
-/

namespace Upb.Wire

open Upb.Common BoundedReader

/-- One record with a field number and a wire type; a group holds records. -/
inductive IsRecord (lengthBytes : ℕ) (inner : ℕ → Prop) : ℕ → ℕ → WireType → List UInt8 → Prop
  | field {depth n : ℕ} {w : WireType} {tag v : List UInt8} (htag : IsTag n w tag)
      (hv : IsValue lengthBytes w v) : IsRecord lengthBytes inner depth n w (tag ++ v)
  | group {depth n : ℕ} {tag body endTag : List UInt8} (htag : IsTag n .startGroup tag)
      (hbody : Records lengthBytes inner inner depth body) (hend : IsTag n .endGroup endTag) :
      IsRecord lengthBytes inner (depth + 1) n .startGroup (tag ++ (body ++ endTag))

/-- A sequence starts with a record. -/
theorem Records.cons {lengthBytes depth n : ℕ} {inner number : ℕ → Prop} {w : WireType}
    {rec rest : List UInt8} (h : IsRecord lengthBytes inner depth n w rec) (hn : number n)
    (hrest : Records lengthBytes inner number depth rest) :
    Records lengthBytes inner number depth (rec ++ rest) := by
  cases h with
  | field htag hv => exact .field hn htag hv hrest
  | group htag hbody hend => exact .group hn htag hbody hend hrest

/-- The induction over the records of a sequence. -/
theorem Records.record_induction {lengthBytes depth : ℕ} {inner number : ℕ → Prop}
    {P : List UInt8 → Prop} (hnil : P [])
    (hcons : ∀ {n w rec rest}, IsRecord lengthBytes inner depth n w rec → number n →
      Records lengthBytes inner number depth rest → P rest → P (rec ++ rest))
    {s : List UInt8} (h : Records lengthBytes inner number depth s) : P s := by
  induction h with
  | nil => exact hnil
  | field hn htag hv hrest ih => exact hcons (.field htag hv) hn hrest (ih hcons)
  | group hn htag hbody hend hrest _ ih => exact hcons (.group htag hbody hend) hn hrest (ih hcons)

/-- Whatever its value, the decoder does not interpret a record of this wire type as this field. -/
def Uninterpreted (cfg : DecodeConfig) (found : Found) : WireType → Prop
  | .varint =>
    match found with
    | .field f _ => getVarintOp f.field.descriptortype = .unknownField
    | _ => True
  | .bit32 =>
    match found with
    | .field f _ => f.field.descriptortype ≠ .float ∧ f.field.descriptortype ≠ .fixed32 ∧
        f.field.descriptortype ≠ .sfixed32
    | _ => True
  | .bit64 =>
    match found with
    | .field f _ => f.field.descriptortype ≠ .double ∧ f.field.descriptortype ≠ .fixed64 ∧
        f.field.descriptortype ≠ .sfixed64
    | _ => True
  | .delimited => getDelimitedOp cfg found = .unknownField
  | .startGroup =>
    match found with
    | .field f _ => f.field.descriptortype = .group → checkUnlinked f .subMessage = .unknownField
    | .messageSetItem => False
    | .notFound => True
  | .endGroup => True

section

variable {cfg : DecodeConfig} {found : Found} {fuel depth number : ℕ} {r r' : BoundedReader}

theorem decodeWireValue_varint (hop : Uninterpreted cfg found .varint) {val : ℕ}
    (hread : readVarint stream r = .ok (val, r')) :
    ∃ val', decodeWireValue stream cfg found (some .varint) r = .ok ((.unknownField, val'), r') := by
  rw [decodeWireValue, Prog.bind_of_ok hread]
  cases found with
  | field f ext =>
    have hop : getVarintOp f.field.descriptortype = .unknownField := hop
    have hnot : f.field.isClosedEnum = false := by
      rw [MiniTableField.isClosedEnum, beq_eq_false_iff_ne]
      intro hc
      rw [hc] at hop
      cases hop
    simp only [hnot, hop]
    exact ⟨_, rfl⟩
  | notFound => exact ⟨_, rfl⟩
  | messageSetItem => exact ⟨_, rfl⟩

theorem decodeWireValue_bit32 (hop : Uninterpreted cfg found .bit32) {val : ℕ}
    (hread : stream.readFixed 4 r = .ok (val, r')) :
    decodeWireValue stream cfg found (some .bit32) r = .ok ((.unknownField, val), r') := by
  rw [decodeWireValue, Prog.bind_of_ok hread]
  cases found with
  | field f ext =>
    obtain ⟨h₁, h₂, h₃⟩ := hop
    dsimp only
    generalize f.field.descriptortype = type at h₁ h₂ h₃
    cases type <;> first | rfl | contradiction
  | notFound => rfl
  | messageSetItem => rfl

theorem decodeWireValue_bit64 (hop : Uninterpreted cfg found .bit64) {val : ℕ}
    (hread : stream.readFixed 8 r = .ok (val, r')) :
    decodeWireValue stream cfg found (some .bit64) r = .ok ((.unknownField, val), r') := by
  rw [decodeWireValue, Prog.bind_of_ok hread]
  cases found with
  | field f ext =>
    obtain ⟨h₁, h₂, h₃⟩ := hop
    dsimp only
    generalize f.field.descriptortype = type at h₁ h₂ h₃
    cases type <;> first | rfl | contradiction
  | notFound => rfl
  | messageSetItem => rfl

theorem decodeWireValue_startGroup (hop : Uninterpreted cfg found .startGroup) :
    decodeWireValue stream cfg found (some .startGroup) r = .ok ((.unknownField, 0), r) := by
  cases found with
  | field f ext =>
    dsimp only [decodeWireValue]
    split
    · next h =>
      rw [hop h]
      rfl
    · rfl
  | notFound => rfl
  | messageSetItem => exact hop.elim

/-- The start of a capture does not matter to what is read. -/
theorem BoundedReader.Reads.capture {v : List UInt8} (h : Reads r v r') (c : ℕ × List UInt8) :
    Reads { r with captureStart := c } v { r' with captureStart := c } := by
  obtain ⟨hrest, rfl⟩ := h
  exact ⟨hrest, rfl⟩

/-- The rest of an uninterpreted record is skipped behind what was read of its value. -/
theorem skipUnknown_of_value {w : WireType} {v : List UInt8} (hop : Uninterpreted cfg found w)
    (hv : IsValue 5 w v) (h : Reads r v r') (c : ℕ × List UInt8) :
    ∃ val r₁ v₁, decodeWireValue stream cfg found (some w) r = .ok ((.unknownField, val), r₁) ∧
      Reads r v₁ r₁ ∧ skipUnknown stream fuel depth number (some w) val
        { r₁ with captureStart := c } = .ok ((), { r' with captureStart := c }) := by
  cases hv with
  | varint hv =>
    obtain ⟨val, hwire⟩ := decodeWireValue_varint hop (readVarint_eq_ok.mpr ⟨v, hv, rfl, h⟩)
    exact ⟨val, r', v, hwire, h, rfl⟩
  | bit32 hv =>
    have hwire := decodeWireValue_bit32 hop (readFixed_eq_ok.mpr ⟨v, hv, rfl, h⟩)
    exact ⟨_, r', v, hwire, h, rfl⟩
  | bit64 hv =>
    have hwire := decodeWireValue_bit64 hop (readFixed_eq_ok.mpr ⟨v, hv, rfl, h⟩)
    exact ⟨_, r', v, hwire, h, rfl⟩
  | @delimited len payload hlen hmax hv =>
    obtain ⟨h₁, h₂⟩ := h.split
    have hread : readSize stream r = .ok (leb len, r.advance len.length) :=
      readSize_eq_ok.mpr ⟨len, hlen, hmax, rfl, h₁⟩
    refine ⟨leb len, _, len, ?_, h₁, ?_⟩
    · rw [decodeWireValue, Prog.bind_of_ok hread]
      have hop : getDelimitedOp cfg found = .unknownField := hop
      rw [hop]
      rfl
    · have htake := take_eq_ok.mpr ⟨hv, h₂.capture c⟩
      exact Prog.bind_of_ok htake

/-- The same for a group. -/
theorem skipUnknown_of_group {body endTag : List UInt8} {inner : ℕ → Prop}
    (hbody : Records 5 inner inner depth body)
    (hend : IsTag number .endGroup endTag) (h : Reads r (body ++ endTag) r')
    (hfuel : r.rest.length ≤ fuel) (val : ℕ) :
    skipUnknown stream fuel (depth + 1) number (some .startGroup) val r = .ok ((), r') := by
  change skipGroup stream fuel (depth + 1) (number * 8) r = _
  rw [skipGroup_succ]
  have hlen := h.length_eq
  have hpos := hend.varint.length_pos
  rw [List.length_append] at hlen
  refine groupLoop_of_records hbody ?_ h (by omega) hfuel
  rw [Nat.mul_div_cancel _ (by omega)]
  exact hend

end

/-- The reader after an unknown record. -/
def afterUnknown (r : BoundedReader) (size : ℕ) : BoundedReader :=
  { r.advance size with
    start := (r.pos, r.rest)
    captureStart := (r.pos, r.rest)
    log := r.log ++ [⟨r.pos, size⟩] }

/-- The end of the capture of a record. -/
theorem endCapture_record {r r₁ : BoundedReader} {rec : List UInt8}
    (h : Reads { r with start := (r.pos, r.rest), captureStart := (r.pos, r.rest) } rec r₁) :
    stream.endCapture r₁ = .ok (rec, afterUnknown r rec.length) := by
  obtain ⟨hrest, rfl⟩ := h
  have hrest : r.rest = rec ++ r.rest.drop rec.length := hrest
  have htake : r.rest.take (r.pos + rec.length - r.pos) = rec := by
    rw [Nat.add_sub_cancel_left]
    conv_lhs => rw [hrest]
    rw [List.take_left]
  change Except.ok (r.rest.take (r.pos + rec.length - r.pos), _) = _
  rw [htake, afterUnknown]
  simp [advance]

/-- A record that is not interpreted is added to the unknown fields. -/
theorem decodeField_of_record {cfg : DecodeConfig} {fuel depth n : ℕ} {sub : SubDecoder BoundedReader}
    {t : TableId} {w : WireType} {inner : ℕ → Prop} {rec rest : List UInt8} {r : BoundedReader}
    (hop : Uninterpreted cfg (findField cfg t n (some w)) w) (hrec : IsRecord 5 inner depth n w rec)
    (hn : n ≠ 0) (hr : r.rest = rec ++ rest) (hfuel : r.rest.length ≤ fuel) (d : Decoding) :
    decodeField stream cfg fuel sub depth t d r =
      .ok (.inl { d with msg := d.msg.addUnknown rec }, afterUnknown r rec.length) := by
  let marked : BoundedReader := { r with start := (r.pos, r.rest) }
  let c : ℕ × List UInt8 := (r.pos, r.rest)
  -- the tag, the value, and the rest of the value under the capture
  have hparts : ∃ tag val r₁ r₂ r₃ v₁, IsTag n w tag ∧ w ≠ .endGroup ∧ Reads marked tag r₁ ∧
      decodeWireValue stream cfg (findField cfg t n (some w)) (some w) r₁ =
        .ok ((.unknownField, val), r₂) ∧ Reads r₁ v₁ r₂ ∧
      skipUnknown stream fuel depth n (some w) val { r₂ with captureStart := c } =
        .ok ((), { r₃ with captureStart := c }) ∧ Reads marked rec r₃ := by
    have hreads : Reads marked rec (marked.advance rec.length) := reads_advance hr
    cases hrec with
    | @field _ _ _ tag v htag hv =>
      obtain ⟨h₁, h₂⟩ := hreads.split
      obtain ⟨val, r₂, v₁, hwire, hreads₁, hskip⟩ := skipUnknown_of_value hop hv h₂ c
      have hw : w ≠ .endGroup := by cases hv <;> decide
      exact ⟨tag, val, _, r₂, _, v₁, htag, hw, h₁, hwire, hreads₁, hskip, h₁.trans h₂⟩
    | @group depth _ tag body endTag htag hbody hend =>
      obtain ⟨h₁, h₂⟩ := hreads.split
      have hlen : (marked.advance tag.length).rest.length ≤ fuel := by
        have := h₁.length_eq
        change r.rest.length = _ at this
        omega
      exact ⟨tag, 0, _, _, _, [], htag, by decide, h₁, decodeWireValue_startGroup hop, reads_nil _,
        skipUnknown_of_group hbody hend (h₂.capture c) hlen 0, h₁.trans h₂⟩
  obtain ⟨tag, val, r₁, r₂, r₃, v₁, htag, hw, h₁, hwire, h₂, hskip, h₃⟩ := hparts
  have hmark : stream.mark r = .ok ((), marked) := rfl
  have hread : readTag stream marked = .ok (leb tag, r₁) :=
    readTag_eq_ok.mpr ⟨tag, htag.varint, htag.lt, rfl, h₁⟩
  have hstart : stream.startCapture r₂ = .ok ((), { r₂ with captureStart := c }) := by
    change Except.ok ((), { r₂ with captureStart := r₂.start }) = _
    have hc : r₂.start = c := by
      rw [h₂.2, h₁.2]
      rfl
    rw [hc]
  have hdata : decodeFieldData stream cfg fuel sub depth t d n (some w) r₁ =
      .ok ({ d with msg := d.msg.addUnknown rec }, afterUnknown r rec.length) := by
    rw [decodeFieldData, Prog.bind_of_ok hwire]
    change decodeUnknownField stream fuel depth d n (some w) val r₂ = _
    rw [decodeUnknownField, if_neg hn, Prog.bind_of_ok hstart, Prog.bind_of_ok hskip,
      Prog.bind_of_ok (endCapture_record (h₃.capture c))]
    rfl
  rw [decodeField, Prog.bind_of_ok hmark, Prog.bind_of_ok hread]
  rw [htag.getWireType, htag.getFieldNumber, if_neg (by simpa using hw), Prog.bind_of_ok hdata]
  rfl

end Upb.Wire
