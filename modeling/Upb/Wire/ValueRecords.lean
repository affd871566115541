import Upb.Wire.EncodedNumbers
import Upb.Wire.RecordRuns

/-!
# Records of a value

A record of one value (a number, a string, a sub-message or a group) is read in the same way for a
singular field, for an extension and for a repeated field. What a singular field holds is replaced, and
a repeated field gets one more element. A packed record adds all of its numbers.
-/

namespace Upb.Wire

open Upb.Common BoundedReader

section Reading

variable {σ : Type} (S : Stream σ) (cfg : DecodeConfig)

/-- The actions that read one value. -/
def IsValueOp : DecodeOp → Prop
  | .scalar _ | .string | .bytes | .subMessage => True
  | _ => False

/-- The value that an action reads, a sub-message into a given one, and `missing_required`. -/
def readValue (sub : SubDecoder σ) (depth : ℕ) (f : LinkedField) (base : Message) (missing : Bool)
    (op : DecodeOp) (val : ℕ) : Reading σ (Slot × Bool) :=
  match op with
  | .scalar lg2 => pure (storeBits lg2 val, missing)
  | .string => do
    let s ← readString S cfg val true
    pure (s, missing)
  | .bytes => do
    let s ← readString S cfg val false
    pure (s, missing)
  | .subMessage => do
    let r ← decodeSubMessage S sub depth f ⟨base, missing⟩ val
    pure (.ofMessage r.msg, r.missingRequired)
  | _ => pure (.zero, missing)

variable {fuel depth val : ℕ} {sub : SubDecoder σ} {f : LinkedField} {d : Decoding} {op : DecodeOp}

/-- A singular field holds the value that is read, a sub-message being read into the one it holds. -/
theorem decodeToField_scalar (hmode : f.field.mode.fieldMode = .scalar) (hop : IsValueOp op) :
    decodeToField S cfg fuel sub depth f d op val =
      readValue S cfg sub depth f (((setPresence d.msg f.field op).data f.field).toMessage.getD .new)
        d.missingRequired op val >>= fun q =>
          pure ⟨(setPresence d.msg f.field op).setData f.field q.1, q.2⟩ := by
  rw [decodeToField, hmode]
  cases op with
  | scalar lg2 => simp [decodeToSubMessage, readValue]
  | string => simp [decodeToSubMessage, readValue]
  | bytes => simp [decodeToSubMessage, readValue]
  | subMessage => simp [decodeToSubMessage, readValue]
  | unknownField | messageSetItem | fixedPacked | varintPacked | packedEnum => exact hop.elim

/-- A repeated field gets the value that is read. -/
theorem decodeToField_array (hmode : f.field.mode.fieldMode = .array) (hop : IsValueOp op) :
    decodeToField S cfg fuel sub depth f d op val =
      readValue S cfg sub depth f .new d.missingRequired op val >>= fun q =>
        pure ⟨d.msg.setData f.field (.array ((d.msg.data f.field).toArray ++ [q.1])), q.2⟩ := by
  rw [decodeToField, hmode]
  cases op with
  | scalar lg2 => simp [decodeToArray, readValue]
  | string => simp [decodeToArray, readValue]
  | bytes => simp [decodeToArray, readValue]
  | subMessage => simp [decodeToArray, readValue]
  | unknownField | messageSetItem | fixedPacked | varintPacked | packedEnum => exact hop.elim

end Reading

section Records

variable {cfg : DecodeConfig} {depth n : ℕ} {t s : TableId} {f : LinkedField} {ext : Option ExtId}
  {tag p body bytes w : List UInt8} {v : Slot}

/-- An action reads a value from the bytes. -/
def ValueReads (cfg : DecodeConfig) (depth : ℕ) (f : LinkedField) (op : DecodeOp) (val : ℕ)
    (body : List UInt8) (v : Slot) : Prop :=
  ∀ (fuel : ℕ) (r : BoundedReader) (w : List UInt8), body.length ≤ fuel → r.rest = body ++ w →
    ∃ r', readValue stream cfg (decodeMessage stream cfg fuel depth) depth f .new false op val r =
      .ok ((v, false), r') ∧ r'.rest = w

/-- A record of a value of a field. -/
inductive ValueRecord (cfg : DecodeConfig) (depth : ℕ) (f : LinkedField) : List UInt8 → Slot → Prop
  | mk {tag hd body : List UInt8} {wt : WireType} {op : DecodeOp} {val : ℕ} {v : Slot}
      (htag : IsTag f.field.number wt tag) (hend : wt ≠ .endGroup)
      (hwire : ∀ ext (r : BoundedReader) (w : List UInt8), r.rest = hd ++ w →
        decodeWireValue stream cfg (.field f ext) (some wt) r = .ok ((op, val), r.advance hd.length))
      (hop : IsValueOp op) (hread : ValueReads cfg depth f op val body v) :
      ValueRecord cfg depth f (tag ++ (hd ++ body)) v

/-- A record of a value is not empty. -/
theorem ValueRecord.ne_nil (h : ValueRecord cfg depth f bytes v) : bytes ≠ [] := by
  cases h with
  | mk htag => simp [htag.varint.ne_nil]

/-- An action that reads a value is that of a known field. -/
theorem IsValueOp.known {op : DecodeOp} (h : IsValueOp op) :
    op ≠ .unknownField ∧ op ≠ .messageSetItem := by
  constructor <;> rintro rfl <;> exact h

/-- A singular field without a sub-message holds the value of the record afterwards. -/
theorem ValueRecord.updates_scalar (h : ValueRecord cfg depth f bytes v) (hf : Finds cfg t f ext)
    (hmode : f.field.mode.fieldMode = .scalar) {c : Slot} (hc : c.toMessage.getD .new = .new) :
    Updates cfg depth t f ext bytes c v := by
  cases h with
  | mk htag hend hwire hop hread =>
    refine updates_of_record hf htag hend (hwire ext) hop.known ?_
    intro m fuel r w hm hfuel hr
    obtain ⟨r', hval, hw⟩ := hread fuel r w hfuel hr
    refine ⟨r', ?_, hw⟩
    -- the slot of another member of the oneof has been cleared
    have hbase : ∀ op, ((setPresence m f.field op).data f.field).toMessage.getD .new = .new := by
      intro op
      rw [setPresence]
      split
      · exact hm ▸ hc
      · split
        · split
          · exact congrArg (fun s => (Slot.toMessage s).getD .new) (Message.data_setData m f.field .zero)
          · exact hm ▸ hc
        · exact hm ▸ hc
    rw [decodeToField_scalar stream cfg hmode hop, hbase, Prog.bind_of_ok hval]
    simp only [setData_setPresence]
    rfl

/-- A repeated field holds one element more after the record. -/
theorem ValueRecord.updates_array (h : ValueRecord cfg depth f bytes v) (hf : Finds cfg t f ext)
    (hmode : f.field.mode.fieldMode = .array) (hpresence : f.field.presence = 0) (c : Slot) :
    Updates cfg depth t f ext bytes c (.array (c.toArray ++ [v])) := by
  cases h with
  | mk htag hend hwire hop hread =>
    refine updates_of_record hf htag hend (hwire ext) hop.known ?_
    intro m fuel r w hm hfuel hr
    obtain ⟨r', hval, hw⟩ := hread fuel r w hfuel hr
    refine ⟨r', ?_, hw⟩
    rw [decodeToField_array stream cfg hmode hop, Prog.bind_of_ok hval, putContents,
      setPresence_of_zero hpresence, hm]
    rfl

/-- How a number is read that its field takes. -/
theorem decodeWireValue_number (cfg : DecodeConfig) {x : ℕ} (hpack : f.field.descriptortype.isPackable = true)
    (hp : IsNumber f.field.descriptortype x p) (hdecl : declared f x = true) :
    ∃ lg2 val, storeBits lg2 val = .bits x ∧ ∀ ext (r : BoundedReader) (w : List UInt8),
      r.rest = p ++ w → decodeWireValue stream cfg (.field f ext)
        (some (numberWireType f.field.descriptortype)) r = .ok ((.scalar lg2, val), r.advance p.length) := by
  cases hp with
  | varint hw hp hv =>
    generalize hu : leb p % 2 ^ 64 = u at hv
    have hlt : u < 2 ^ 64 := by
      rw [← hu]
      exact Nat.mod_lt _ (by decide)
    obtain ⟨lg2, hlg2⟩ := exists_getVarintOp hpack hw
    have hread : ∀ (r : BoundedReader) (w : List UInt8), r.rest = p ++ w →
        readVarint stream r = .ok (u, r.advance p.length) :=
      fun r w hr => readVarint_eq_ok.mpr ⟨p, hp, hu.symm, reads_advance hr⟩
    by_cases henum : f.field.descriptortype = .enum
    · have hclosed : f.field.isClosedEnum = true := by rw [MiniTableField.isClosedEnum, henum]; rfl
      rw [declared, hclosed] at hdecl
      have hcheck : f.sub.checkEnum x = true := hdecl
      rw [henum] at hv hlg2
      have hv : x = u % 2 ^ 32 := hv
      refine ⟨2, u, congrArg Slot.bits hv.symm, fun ext r w hr => ?_⟩
      rw [hw, decodeWireValue, Prog.bind_of_ok (hread r w hr)]
      dsimp only
      rw [if_pos hclosed, ← hv, if_pos hcheck, henum]
      rfl
    · have hclosed : f.field.isClosedEnum = false := beq_false_of_ne henum
      refine ⟨lg2, munge f.field.descriptortype u, ?_, fun ext r w hr => ?_⟩
      · rw [storeBits_munge hlg2 hlt, hv]
      · rw [hw, decodeWireValue, Prog.bind_of_ok (hread r w hr)]
        dsimp only
        rw [if_neg (by rw [hclosed]; exact Bool.false_ne_true), hlg2]
        rfl
  | bit32 hw hp hv =>
    have hlt : x < 2 ^ (8 * 4) := by
      have hlt := littleEndian_lt p
      rwa [hp, ← hv] at hlt
    refine ⟨2, x, congrArg Slot.bits (Nat.mod_eq_of_lt hlt), fun ext r w hr => ?_⟩
    have hread : stream.readFixed 4 r = .ok (x, r.advance p.length) :=
      readFixed_eq_ok.mpr ⟨p, hp, hv, reads_advance hr⟩
    rw [hw, decodeWireValue, Prog.bind_of_ok hread]
    dsimp only
    generalize f.field.descriptortype = type at hw
    cases type <;> first | rfl | cases hw
  | bit64 hw hp hv =>
    have hlt : x < 2 ^ (8 * 8) := by
      have hlt := littleEndian_lt p
      rwa [hp, ← hv] at hlt
    refine ⟨3, x, congrArg Slot.bits (Nat.mod_eq_of_lt hlt), fun ext r w hr => ?_⟩
    have hread : stream.readFixed 8 r = .ok (x, r.advance p.length) :=
      readFixed_eq_ok.mpr ⟨p, hp, hv, reads_advance hr⟩
    rw [hw, decodeWireValue, Prog.bind_of_ok hread]
    dsimp only
    generalize f.field.descriptortype = type at hw
    cases type <;> first | rfl | cases hw

/-- The record of a number. -/
theorem valueRecord_number {x : ℕ} (hpack : f.field.descriptortype.isPackable = true)
    (htag : IsTag f.field.number (numberWireType f.field.descriptortype) tag)
    (hp : IsNumber f.field.descriptortype x p) (hdecl : declared f x = true) :
    ValueRecord cfg depth f (tag ++ p) (.bits x) := by
  obtain ⟨lg2, val, hstore, hwire⟩ := decodeWireValue_number cfg hpack hp hdecl
  have hend : numberWireType f.field.descriptortype ≠ .endGroup := by
    cases f.field.descriptortype <;> decide
  have hread : ValueReads cfg depth f (.scalar lg2) val [] (.bits x) := by
    intro fuel r w _ hr
    refine ⟨r, ?_, hr⟩
    rw [readValue, hstore]
    rfl
  have hrec := ValueRecord.mk htag hend hwire trivial hread
  rwa [List.append_nil] at hrec

/-- A size is read. -/
theorem readSize_of_leb {size : List UInt8} (hsize : IsVarint 5 size) (hleb : leb size = p.length)
    (hlen : p.length ≤ int32Max) {r : BoundedReader} (hr : r.rest = size ++ w) :
    readSize stream r = .ok (p.length, r.advance size.length) := by
  rw [← hleb]
  exact readSize_eq_ok.mpr ⟨size, hsize, hleb ▸ hlen, rfl, reads_advance hr⟩

/-- A delimited record, by the action of its field. -/
theorem valueRecord_delimited (hrec : IsDelimited f.field.number p bytes) (hlen : p.length ≤ int32Max)
    {op : DecodeOp} (hdelim : ∀ ext, getDelimitedOp cfg (.field f ext) = op) (hop : IsValueOp op)
    (hread : ValueReads cfg depth f op p.length p v) : ValueRecord cfg depth f bytes v := by
  cases hrec with
  | mk htag hsize hleb =>
    rw [List.append_assoc]
    refine .mk htag (by decide) (fun ext r w hr => ?_) hop hread
    rw [decodeWireValue, Prog.bind_of_ok (readSize_of_leb hsize hleb hlen hr), hdelim]
    rfl

/-- The strings of a field are checked to be UTF-8. -/
def checksUtf8 (cfg : DecodeConfig) (f : MiniTableField) : Bool :=
  f.descriptortype == .string || maybeVerifyUtf8 cfg f == .string

theorem getDelimitedOp_string (hf : f.field.descriptortype = .string ∨ f.field.descriptortype = .bytes)
    (ext : Option ExtId) :
    getDelimitedOp cfg (.field f ext) = if checksUtf8 cfg f.field then .string else .bytes := by
  rcases hf with hf | hf
  · rw [getDelimitedOp, checksUtf8, hf]
    cases f.field.isArray <;> rfl
  · have hop : getDelimitedOp cfg (.field f ext) = maybeVerifyUtf8 cfg f.field := by
      rw [getDelimitedOp, hf]
      cases f.field.isArray <;> rfl
    have hverify : maybeVerifyUtf8 cfg f.field = .string ∨ maybeVerifyUtf8 cfg f.field = .bytes := by
      rw [maybeVerifyUtf8]
      split
      · exact .inl rfl
      · exact .inr rfl
    rw [hop, checksUtf8, hf]
    rcases hverify with h | h <;> rw [h] <;> rfl

/-- The record of a string. -/
theorem valueRecord_string (hf : f.field.descriptortype = .string ∨ f.field.descriptortype = .bytes)
    (hrec : IsDelimited f.field.number p bytes)
    (hlen : p.length ≤ int32Max) (hvalid : checksUtf8 cfg f.field = true → cfg.validUtf8 p = true) :
    ValueRecord cfg depth f bytes (.str p) := by
  have hread : ∀ (check : Bool) (r : BoundedReader) (w : List UInt8), r.rest = p ++ w →
      (check = true → cfg.validUtf8 p = true) →
      ∃ r', readString stream cfg p.length check r = .ok (.str p, r') ∧ r'.rest = w := by
    intro check r w hr hcheck
    have halias : stream.readStringAlwaysAlias p.length r =
        .ok (⟨r.pos, p⟩, { r.advance p.length with log := r.log ++ [⟨r.pos, p.length⟩] }) := by
      change BoundedReader.readStringAlwaysAlias p.length r = _
      rw [BoundedReader.readStringAlwaysAlias, hr, if_pos (by simp), List.take_left]
    refine ⟨{ r.advance p.length with log := r.log ++ [⟨r.pos, p.length⟩] }, ?_, rest_advance hr⟩
    rw [readString, Prog.bind_of_ok halias, if_neg fun h => h.2 (hcheck h.1)]
    rfl
  refine valueRecord_delimited hrec hlen (getDelimitedOp_string hf) ?_ ?_
  · split <;> trivial
  · intro fuel r w _ hr
    cases hcheck : checksUtf8 cfg f.field with
    | true =>
      obtain ⟨r', hval, hw⟩ := hread true r w hr fun _ => hvalid hcheck
      refine ⟨r', ?_, hw⟩
      rw [if_pos rfl, readValue, Prog.bind_of_ok hval]
      rfl
    | false =>
      obtain ⟨r', hval, hw⟩ := hread false r w hr fun h => absurd h Bool.false_ne_true
      refine ⟨r', ?_, hw⟩
      rw [if_neg Bool.false_ne_true, readValue, Prog.bind_of_ok hval]
      rfl

/-- The record of a sub-message, whose payload is decoded with one level less. -/
theorem valueRecord_message (hreq : cfg.checkRequired = false)
    (htype : f.field.descriptortype = .message) (hsub : f.sub.message = some s)
    (hrec : IsDelimited f.field.number p bytes) (hlen : p.length ≤ int32Max) {x : Message}
    (hp : Decodes cfg depth s p ⟨.new, false⟩ ⟨x, false⟩) :
    ValueRecord cfg (depth + 1) f bytes (.ofMessage x) := by
  have hdelim : ∀ ext, getDelimitedOp cfg (.field f ext) = .subMessage := by
    intro ext
    have hop : checkUnlinked f .subMessage = .subMessage := by
      rw [checkUnlinked, hsub]
      split <;> rfl
    rw [getDelimitedOp, htype]
    cases f.field.isArray <;> exact hop
  refine valueRecord_delimited hrec hlen hdelim trivial ?_
  · intro fuel r w hfuel hr
    have hrun := withLimit_recurseSubMessage cfg (depth + 1) (depth + 1) s ⟨.new, false⟩ hr hfuel
    rw [decodeSubPayload, hp.decodePayload_eq hreq] at hrun
    obtain ⟨r', hrun, hw⟩ := hrun
    refine ⟨r', ?_, hw⟩
    rw [readValue, decodeSubMessage, hsub]
    dsimp only
    rw [if_neg (by rw [htype]; decide), Prog.bind_of_ok hrun]
    rfl

/-- A group is decoded up to its end tag. -/
theorem decodeMessage_group (hreq : cfg.checkRequired = false) {d d' : Decoding}
    (hp : Decodes cfg depth s p d d') {endTag : List UInt8} (hend : IsTag n .endGroup endTag)
    {fuel : ℕ} (hfuel : p.length < fuel) {r : BoundedReader} (hr : r.rest = p ++ (endTag ++ w)) :
    ∃ r', decodeMessage stream cfg fuel (depth + 1) depth s d r = .ok ((d', some n), r') ∧
      r'.rest = w := by
  obtain ⟨k, r₁, hk, hrounds, hrest⟩ := hp.rounds hfuel.le hr
  obtain ⟨i, hi⟩ := Nat.exists_eq_add_of_lt (show k < fuel by omega)
  have hne : r₁.rest ≠ [] := by
    rw [hrest]
    simp [hend.varint.ne_nil]
  have hreads : Reads { r₁ with start := (r₁.pos, r₁.rest) } endTag
      (advance { r₁ with start := (r₁.pos, r₁.rest) } endTag.length) := reads_advance hrest
  have htag := readTag_eq_ok.mpr ⟨endTag, hend.varint, hend.lt, rfl, hreads⟩
  have hlast : decodeField stream cfg fuel (decodeMessage stream cfg fuel depth) depth s d' r₁ =
      .ok (.inr (d', some n), advance { r₁ with start := (r₁.pos, r₁.rest) } endTag.length) := by
    rw [decodeField, Prog.bind_of_ok (show stream.mark r₁ = .ok ((), _) from rfl), Prog.bind_of_ok htag]
    simp only [hend.getWireType, hend.getFieldNumber]
    rfl
  have hend : messageLoop stream cfg fuel (decodeMessage stream cfg fuel depth) depth s (i + 1) d' r₁ =
      .ok ((d', some n), advance { r₁ with start := (r₁.pos, r₁.rest) } endTag.length) := by
    rw [messageLoop, Prog.loop_of_not_done (isDone_of_ne_nil hne), Prog.bind_of_ok hlast]
    rfl
  have hloop := hrounds.messageLoop_eq (i + 1)
  rw [← Nat.add_assoc, ← hi, hend] at hloop
  refine ⟨advance { r₁ with start := (r₁.pos, r₁.rest) } endTag.length, ?_, rest_advance hrest⟩
  rw [decodeMessage_succ, Prog.bind_of_ok hloop, messageEnd_of_unchecked hreq]
  rfl

/-- The record of a group. -/
theorem valueRecord_group (hreq : cfg.checkRequired = false)
    (htype : f.field.descriptortype = .group) (hsub : f.sub.message = some s)
    (htag : IsTag f.field.number .startGroup tag) {endTag : List UInt8}
    (hend : IsTag f.field.number .endGroup endTag) {x : Message}
    (hp : Decodes cfg depth s p ⟨.new, false⟩ ⟨x, false⟩) :
    ValueRecord cfg (depth + 1) f (tag ++ (p ++ endTag)) (.ofMessage x) := by
  have hread : ValueReads cfg (depth + 1) f .subMessage 0 (p ++ endTag) (.ofMessage x) := by
    intro fuel r w hfuel hr
    rw [List.append_assoc] at hr
    rw [List.length_append] at hfuel
    have hpos := hend.varint.length_pos
    have hne : r.rest ≠ [] := by
      rw [hr]
      simp [hend.varint.ne_nil]
    obtain ⟨r', hrun, hw⟩ := decodeMessage_group hreq hp hend (show p.length < fuel by omega) hr
    refine ⟨r', ?_, hw⟩
    rw [readValue, decodeSubMessage, hsub]
    dsimp only
    rw [if_pos htype, bind_assoc, Prog.bind_of_ok (isDone_of_ne_nil hne), if_neg Bool.false_ne_true,
      recurseSubMessage, bind_assoc, Prog.bind_of_ok hrun]
    simp
  have hop : checkUnlinked f .subMessage = .subMessage := by
    rw [checkUnlinked, hsub]
    split <;> rfl
  have hwire : ∀ ext (r : BoundedReader) (w : List UInt8), r.rest = [] ++ w →
      decodeWireValue stream cfg (.field f ext) (some .startGroup) r =
        .ok ((.subMessage, 0), r.advance 0) := by
    intro ext r w _
    have hstart : decodeWireValue stream cfg (.field f ext) (some .startGroup) =
        if f.field.descriptortype = .group then pure (checkUnlinked f .subMessage, 0)
        else pure (.unknownField, 0) := rfl
    rw [hstart, if_pos htype, hop]
    rfl
  have hrec : ValueRecord cfg (depth + 1) f (tag ++ ([] ++ (p ++ endTag))) (.ofMessage x) :=
    .mk htag (by decide) hwire trivial hread
  exact hrec

/-- A packed record adds its numbers to a repeated field that takes them. -/
theorem updates_packed {vs : List ℕ} (hf : Finds cfg t f ext) (hmode : f.field.mode.fieldMode = .array)
    (hpresence : f.field.presence = 0) (hpack : f.field.descriptortype.isPackable = true)
    (hp : IsNumbers f.field.descriptortype vs p) (hdecl : ∀ x ∈ vs, declared f x = true)
    (hrec : IsDelimited f.field.number p bytes) (hlen : p.length ≤ int32Max) (c : Slot) :
    Updates cfg depth t f ext bytes c (.array (c.toArray ++ vs.map .bits)) := by
  have harray : f.field.isArray = true := by rw [MiniTableField.isArray, hmode]; rfl
  have hdelim : getDelimitedOp cfg (.field f ext) = repeatedDelimitedOp f.field.descriptortype := by
    simp only [getDelimitedOp, harray, if_true]
    generalize f.field.descriptortype = type at hpack
    cases type <;> first | rfl | cases hpack
  have hop := packedOp_of_isPackable hpack
  generalize repeatedDelimitedOp f.field.descriptortype = op at hop hdelim
  cases hrec with
  | @mk tag size htag hsize hleb =>
    rw [List.append_assoc]
    have hknown : op ≠ .unknownField ∧ op ≠ .messageSetItem := by
      cases hop <;> exact ⟨by rintro ⟨⟩, by rintro ⟨⟩⟩
    have hwire : ∀ (r : BoundedReader) (w : List UInt8), r.rest = size ++ w →
        decodeWireValue stream cfg (.field f ext) (some .delimited) r =
          .ok ((op, p.length), r.advance size.length) := by
      intro r w hr
      rw [decodeWireValue, Prog.bind_of_ok (readSize_of_leb hsize hleb hlen hr), hdelim]
      rfl
    refine updates_of_record hf htag (by decide) hwire hknown ?_
    · intro m fuel r w hm hfuel hr
      have hput : ∀ elems : List Slot,
          m.setData f.field (.array ((m.data f.field).toArray ++ elems)) =
            putContents f.field none m (.array (c.toArray ++ elems)) := by
        intro elems
        rw [putContents, setPresence_of_zero hpresence, hm]
      rw [decodeToField, hmode]
      cases hop with
      | fixed hsize' _ =>
        obtain ⟨r', hread, hw⟩ := decodeFixedPacked_eq hp hsize' hr
        refine ⟨r', ?_, hw⟩
        dsimp only [decodeToArray]
        rw [Prog.bind_of_ok hread, hput]
        rfl
      | varint hlg2 hw _ =>
        obtain ⟨r', hread, hw⟩ := decodeVarintPacked_eq hlg2 hw hp hfuel hr
        refine ⟨r', ?_, hw⟩
        dsimp only [decodeToArray]
        rw [Prog.bind_of_ok hread, hput]
        rfl
      | enum htype =>
        have hcheck : ∀ x ∈ vs, f.sub.checkEnum x = true := by
          intro x hx
          have hx := hdecl x hx
          rwa [declared, MiniTableField.isClosedEnum, htype] at hx
        rw [htype] at hp
        obtain ⟨r', hread, hw⟩ := decodeEnumPacked_eq (f := f) hp hfuel hr
        refine ⟨r', ?_, hw⟩
        have hnone : vs.filter (!f.sub.checkEnum ·) = [] := by
          simpa using hcheck
        dsimp only [decodeToArray]
        rw [Prog.bind_of_ok hread, List.filter_eq_self.mpr hcheck, hnone, hput]
        simp

end Records

end Upb.Wire
