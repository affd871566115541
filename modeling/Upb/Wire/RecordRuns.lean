import Upb.Wire.PackedUnpacked

/-!
# Runs over records

Bytes that are a sequence of records take the decoder from one message to another, whatever stands
behind them. Such runs compose. The records of one field change the contents of that field: what a
slot of the message or an extension holds.
-/

namespace Upb.Wire

open Upb.Common BoundedReader

variable {cfg : DecodeConfig} {depth : ℕ} {t : TableId} {d d' d'' : Decoding} {p q w : List UInt8}

/-- The decoder goes through these bytes in whole records and gets from one message to another. -/
def Decodes (cfg : DecodeConfig) (depth : ℕ) (t : TableId) (bytes : List UInt8) (d d' : Decoding) :
    Prop :=
  ∃ k r', k ≤ bytes.length ∧
    Rounds stream cfg bytes.length (decodeMessage stream cfg bytes.length depth) depth t k d
      (.init 0 bytes) d' r' ∧ r'.rest = []

/-- No bytes, no change. -/
theorem Decodes.nil (d : Decoding) : Decodes cfg depth t [] d d :=
  ⟨0, .init 0 [], le_rfl, .refl d _, rfl⟩

/-- The run is the same in front of other bytes. -/
theorem Decodes.rounds (h : Decodes cfg depth t p d d') {fuel : ℕ} (hfuel : p.length ≤ fuel)
    {r : BoundedReader} (hr : r.rest = p ++ w) :
    ∃ k r', k ≤ p.length ∧
      Rounds stream cfg fuel (decodeMessage stream cfg fuel depth) depth t k d r d' r' ∧ r'.rest = w := by
  obtain ⟨k, r₁, hk, hrounds, hnil⟩ := h
  obtain ⟨r', hrounds', hrest⟩ := hrounds.longer hfuel hr
  refine ⟨k, r', hk, hrounds', ?_⟩
  rw [hrest, hnil, List.nil_append]

/-- One run after the other. -/
theorem Decodes.append (h : Decodes cfg depth t p d d') (h' : Decodes cfg depth t q d' d'') :
    Decodes cfg depth t (p ++ q) d d'' := by
  have hlen : (p ++ q).length = p.length + q.length := List.length_append
  obtain ⟨k, r₁, hk, hrounds, hrest⟩ := h.rounds (show p.length ≤ (p ++ q).length by omega)
    (show (BoundedReader.init 0 (p ++ q)).rest = p ++ q from rfl)
  obtain ⟨k', r₂, hk', hrounds', hnil⟩ := h'.rounds (show q.length ≤ (p ++ q).length by omega)
    (show r₁.rest = q ++ [] by rw [hrest, List.append_nil])
  exact ⟨k + k', r₂, by omega, hrounds.trans hrounds', hnil⟩

/-- A run over one record. -/
theorem Decodes.of_field {rec : List UInt8} (hne : rec ≠ []) {r' : BoundedReader}
    (h : decodeField stream cfg rec.length (decodeMessage stream cfg rec.length depth) depth t d
      (.init 0 rec) = .ok (.inl d', r')) (hnil : r'.rest = []) : Decodes cfg depth t rec d d' :=
  ⟨1, r', List.length_pos_iff.mpr hne, .step (isDone_of_ne_nil hne) h (.refl d' r'), hnil⟩

/-- Without the check of required fields, the end of a message changes nothing. -/
theorem messageEnd_of_unchecked (hreq : cfg.checkRequired = false) (q : Decoding × Option ℕ) :
    messageEnd cfg t q = q := by
  rw [messageEnd, checkRequired, if_neg (by rw [hreq]; exact fun h => Bool.false_ne_true h.2)]

/-- The payload that a run goes through. -/
theorem Decodes.decodePayload_eq (hreq : cfg.checkRequired = false) (h : Decodes cfg depth t p d d') :
    decodePayload cfg (depth + 1) depth t d p = .ok (d', none) := by
  obtain ⟨k, r', hk, hrounds, hnil⟩ := h
  rw [decodePayload_of_rounds hk hrounds hnil, messageEnd_of_unchecked hreq]

/-- `upb_Decode` of an input that a run goes through. -/
theorem Decodes.upbDecode_eq {maxDepth : ℕ} {m m' : Message} (hreq : cfg.checkRequired = false)
    (hlen : p.length ≤ int32Max)
    (h : Decodes cfg (effectiveMaxDepth maxDepth) t p ⟨m, false⟩ ⟨m', false⟩) :
    (upbDecode cfg maxDepth t m p).map Decoded.msg = .ok m' :=
  (upbDecode_iff_decodePayload hlen).mpr (h.decodePayload_eq hreq)

section Contents

/-- What a field of a message, or an extension, holds. -/
def contents (f : MiniTableField) (ext : Option ExtId) (m : Message) : Slot :=
  match ext with
  | none => m.data f
  | some e => (m.getext e).getD .zero

/-- A message whose field, or extension, is set to hold something. -/
def putContents (f : MiniTableField) (ext : Option ExtId) (m : Message) (s : Slot) : Message :=
  match ext with
  | none => (setPresence m f .subMessage).setData f s
  | some e => m.setExt e s

variable {f : MiniTableField} {ext : Option ExtId} {m : Message} {s s' : Slot} {op : DecodeOp}

/-- The action does not matter once the contents are written. -/
theorem setData_setPresence (m : Message) (f : MiniTableField) (op : DecodeOp) (s : Slot) :
    (setPresence m f op).setData f s = (setPresence m f .subMessage).setData f s := by
  simp only [setPresence]
  split
  · rfl
  · split
    · split
      · split <;> simp [Message.setData, Message.setOneofCase]
      · split <;> simp [Message.setData, Message.setOneofCase]
    · rfl

/-- A field without presence has none to set. -/
theorem setPresence_of_zero (hf : f.presence = 0) (m : Message) (op : DecodeOp) :
    setPresence m f op = m := by
  rw [setPresence, MiniTableField.hasHasbit, MiniTableField.isInOneof, hf]
  rfl

@[simp] theorem contents_putContents (f : MiniTableField) (ext : Option ExtId) (m : Message)
    (s : Slot) : contents f ext (putContents f ext m s) = s := by
  cases ext with
  | none => exact Message.data_setData _ f s
  | some e => simp [contents, putContents, Message.getext_setExt]

@[simp] theorem putContents_putContents (f : MiniTableField) (ext : Option ExtId) (m : Message)
    (s s' : Slot) : putContents f ext (putContents f ext m s) s' = putContents f ext m s' := by
  cases ext with
  | some e => exact m.setExt_setExt e _ _
  | none =>
    simp only [putContents, setPresence]
    split
    · simp [Message.setHasbit, Message.setData]
    · split
      · simp [Message.setOneofCase, Message.setData, Message.oneofCase]
      · simp [Message.setData]

end Contents

section Updates

/-- The lookup finds a field of a table, or an extension, by its number, whatever the wire type. An
extension has its presence outside of its data. -/
structure Finds (cfg : DecodeConfig) (t : TableId) (f : LinkedField) (ext : Option ExtId) : Prop where
  found : ∀ w, findField cfg t f.field.number (some w) = .field f ext
  number_lt : f.field.number < 2 ^ 29
  presence : ext.isSome → f.field.presence = 0

/-- Bytes that take the contents of a field from one value to another, in every message. -/
def Updates (cfg : DecodeConfig) (depth : ℕ) (t : TableId) (f : LinkedField) (ext : Option ExtId)
    (bytes : List UInt8) (c c' : Slot) : Prop :=
  ∀ m, contents f.field ext m = c →
    Decodes cfg depth t bytes ⟨m, false⟩ ⟨putContents f.field ext m c', false⟩

variable {f : LinkedField} {ext : Option ExtId} {c c' c'' : Slot}

/-- One update after the other. -/
theorem Updates.append (h : Updates cfg depth t f ext p c c') (h' : Updates cfg depth t f ext q c' c'') :
    Updates cfg depth t f ext (p ++ q) c c'' := by
  intro m hm
  have hlast := h' (putContents f.field ext m c') (contents_putContents _ _ _ _)
  rw [putContents_putContents] at hlast
  exact (h m hm).append hlast

/-- The action of a field on the bytes of a value takes its contents from one value to another. -/
def FieldReads (cfg : DecodeConfig) (depth : ℕ) (f : LinkedField) (op : DecodeOp) (val : ℕ)
    (body : List UInt8) (c c' : Slot) : Prop :=
  ∀ (m : Message) (fuel : ℕ) (r : BoundedReader) (w : List UInt8), m.data f.field = c →
    body.length ≤ fuel → r.rest = body ++ w →
    ∃ r', decodeToField stream cfg fuel (decodeMessage stream cfg fuel depth) depth f ⟨m, false⟩ op val
      r = .ok (⟨putContents f.field none m c', false⟩, r') ∧ r'.rest = w

/-- What the action of a field does for an extension. -/
theorem FieldReads.decodeKnownField_eq {op : DecodeOp} {val fuel : ℕ} {body : List UInt8}
    (h : FieldReads cfg depth f op val body c c') (hf : Finds cfg t f ext) {m : Message}
    (hm : contents f.field ext m = c) {r : BoundedReader} (hfuel : body.length ≤ fuel)
    (hr : r.rest = body ++ w) :
    ∃ r', decodeKnownField stream cfg fuel (decodeMessage stream cfg fuel depth) depth f ext ⟨m, false⟩ op
      val r = .ok (⟨putContents f.field ext m c', false⟩, r') ∧ r'.rest = w := by
  cases ext with
  | none => exact h m fuel r w hm hfuel hr
  | some e =>
    have hdata : (extMessage f.field c).data f.field = c := Message.data_setData _ _ _
    obtain ⟨r', hread, hw⟩ := h (extMessage f.field c) fuel r w hdata hfuel hr
    refine ⟨r', ?_, hw⟩
    have hc : (m.getext e).getD .zero = c := hm
    rw [decodeKnownField, hc, Prog.bind_of_ok hread]
    simp only [putContents, setPresence_of_zero (hf.presence rfl), Message.data_setData,
      Message.unknown_setData]
    have hnil : (extMessage f.field c).unknown = [] := rfl
    rw [hnil, Message.addUnknown_nil]
    rfl

/-- A record is a tag, the bytes from which the action is read, and the bytes that the action reads. -/
theorem updates_of_record {tag hd body : List UInt8} {wt : WireType} {op : DecodeOp} {val : ℕ}
    (hf : Finds cfg t f ext) (htag : IsTag f.field.number wt tag) (hend : wt ≠ .endGroup)
    (hwire : ∀ (r : BoundedReader) (w : List UInt8), r.rest = hd ++ w →
      decodeWireValue stream cfg (.field f ext) (some wt) r = .ok ((op, val), r.advance hd.length))
    (hop : op ≠ .unknownField ∧ op ≠ .messageSetItem)
    (hread : FieldReads cfg depth f op val body c c') :
    Updates cfg depth t f ext (tag ++ (hd ++ body)) c c' := by
  intro m hm
  set rec := tag ++ (hd ++ body) with hrec
  have hlen : rec.length = tag.length + (hd.length + body.length) := by
    rw [hrec, List.length_append, List.length_append]
  have hr : (BoundedReader.init 0 rec).rest = tag ++ (hd ++ body) := rfl
  have hne : rec ≠ [] := by
    rw [hrec]
    simp [htag.varint.ne_nil]
  have hstep : ∃ r₁ : BoundedReader, r₁.rest = hd ++ body ∧
      decodeField stream cfg rec.length (decodeMessage stream cfg rec.length depth) depth t ⟨m, false⟩
        (.init 0 rec) = (decodeFieldData stream cfg rec.length (decodeMessage stream cfg rec.length depth)
          depth t ⟨m, false⟩ f.field.number (some wt) >>= fun d => pure (.inl d)) r₁ :=
    ⟨_, rest_advance (r := { (BoundedReader.init 0 rec) with start := _ }) hr,
      decodeField_of_tag htag hend hr⟩
  obtain ⟨r₁, hrest₁, htagged⟩ := hstep
  have hfuel : body.length ≤ rec.length := by omega
  obtain ⟨r', hknown, hnil⟩ := hread.decodeKnownField_eq (w := []) hf hm hfuel
    (show (r₁.advance hd.length).rest = body ++ [] by rw [rest_advance hrest₁, List.append_nil])
  have hdata : decodeFieldData stream cfg rec.length (decodeMessage stream cfg rec.length depth) depth t
      ⟨m, false⟩ f.field.number (some wt) r₁ = .ok (⟨putContents f.field ext m c', false⟩, r') := by
    rw [decodeFieldData, hf.found, Prog.bind_of_ok (hwire r₁ body hrest₁), ← hknown]
    cases op with
    | unknownField => exact absurd rfl hop.1
    | messageSetItem => exact absurd rfl hop.2
    | scalar | string | bytes | subMessage | fixedPacked | varintPacked | packedEnum => rfl
  refine .of_field hne ?_ hnil
  rw [htagged, Prog.bind_of_ok hdata]
  rfl

end Updates

end Upb.Wire
