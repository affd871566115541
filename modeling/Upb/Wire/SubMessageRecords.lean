import Upb.Message.Extensions
import Upb.Wire.Concat
import Upb.Wire.Payload

/-!
# Records of a sub-message field

A delimited record of a singular message field is decoded into the message that the field, or the
extension, holds already. Two records in a row therefore do what one record with both payloads does.
-/

namespace Upb.Wire

open Upb.Common BoundedReader

/-- A delimited record of a field number with a payload. -/
inductive IsDelimited (number : ℕ) (payload : List UInt8) : List UInt8 → Prop
  | mk {tag size : List UInt8} (htag : IsTag number .delimited tag) (hsize : IsVarint 5 size)
      (hlen : leb size = payload.length) : IsDelimited number payload (tag ++ size ++ payload)

theorem IsDelimited.ne_nil {number : ℕ} {payload rec : List UInt8} (h : IsDelimited number payload rec) :
    rec ≠ [] := by
  cases h with
  | mk htag hsize hlen =>
    intro hnil
    have := htag.varint.length_pos
    simp only [List.append_eq_nil_iff] at hnil
    rw [hnil.1.1] at this
    exact absurd this (by simp)

theorem IsDelimited.length_le {number : ℕ} {payload rec : List UInt8}
    (h : IsDelimited number payload rec) : payload.length ≤ rec.length := by
  cases h with
  | mk htag hsize hlen =>
    simp only [List.length_append]
    omega

section Slots

variable {f : MiniTableField} {e : ExtId} {m : Message}

/-- The message into which a record of a singular message field is decoded. -/
def subMessageOf (f : MiniTableField) (ext : Option ExtId) (m : Message) : Message :=
  match ext with
  | none => ((setPresence m f .subMessage).data f).toMessage.getD .new
  | some e => ((m.getext e).getD .zero).toMessage.getD .new

/-- The outer message with the decoded sub-message. -/
def putSubMessage (f : MiniTableField) (ext : Option ExtId) (m x : Message) : Message :=
  match ext with
  | none => (setPresence m f .subMessage).setData f (.ofMessage x)
  | some e => m.setExt e (.ofMessage x)

theorem subMessageOf_putSubMessage (f : MiniTableField) (ext : Option ExtId) (m x : Message) :
    subMessageOf f ext (putSubMessage f ext m x) = x := by
  cases ext with
  | some e => simp [subMessageOf, putSubMessage, Message.getext_setExt]
  | none =>
    simp only [subMessageOf, putSubMessage, setPresence]
    split
    · simp [Message.setHasbit, Message.setData, Message.data]
    · split
      · simp [Message.setOneofCase, Message.setData, Message.data, Message.oneofCase]
      · simp [Message.setData, Message.data]

theorem putSubMessage_putSubMessage (f : MiniTableField) (ext : Option ExtId) (m x y : Message) :
    putSubMessage f ext (putSubMessage f ext m x) y = putSubMessage f ext m y := by
  cases ext with
  | some e => exact m.setExt_setExt e _ _
  | none =>
    simp only [putSubMessage, setPresence]
    split
    · simp [Message.setHasbit, Message.setData]
    · split
      · simp [Message.setOneofCase, Message.setData, Message.oneofCase]
      · simp [Message.setData]

end Slots

section Field

variable {cfg : DecodeConfig} {fuel calls depth n : ℕ} {t s : TableId} {f : LinkedField}
  {ext : Option ExtId} {r : BoundedReader} (d : Decoding)

/-- A singular message field with its table, as the lookup finds it for delimited records. An extension
is in no oneof. -/
structure IsMessageField (cfg : DecodeConfig) (t : TableId) (n : ℕ) (f : LinkedField)
    (ext : Option ExtId) (s : TableId) : Prop where
  found : findField cfg t n (some .delimited) = .field f ext
  scalar : f.field.mode.fieldMode = .scalar
  type : f.field.descriptortype = .message
  linked : f.sub.message = some s
  presence : ext.isSome → f.field.isInOneof = false

/-- The field gets what its sub-message decoder returns. -/
theorem decodeKnownField_subMessage (hf : IsMessageField cfg t n f ext s)
    (sub : SubDecoder BoundedReader) (size : ℕ) :
    decodeKnownField stream cfg fuel sub depth f ext d .subMessage size =
      stream.withLimit size (recurseSubMessage sub depth s
        ⟨subMessageOf f.field ext d.msg, d.missingRequired⟩ none) >>= fun x =>
          pure ⟨putSubMessage f.field ext d.msg x.msg, x.missingRequired⟩ := by
  cases ext with
  | none =>
    rw [decodeKnownField, decodeToField, hf.scalar]
    simp only [decodeToSubMessage, decodeSubMessage, hf.linked, hf.type]
    rfl
  | some e =>
    rw [decodeKnownField, decodeToField, hf.scalar]
    have hslot : ∀ x, (setPresence (extMessage f.field x) f.field .subMessage).data f.field = x := by
      intro x
      rw [setPresence, hf.presence rfl]
      split
      · simp [extMessage, Message.data, Message.setData, Message.setHasbit]
      · simp [extMessage, Message.data, Message.setData]
    simp only [decodeToSubMessage, decodeSubMessage, hf.linked, hf.type, bind_assoc, pure_bind, hslot]
    rw [if_neg (by decide)]
    have hunknown : ∀ x, (setPresence (extMessage f.field x) f.field .subMessage).unknown = [] := by
      intro x
      rw [setPresence, hf.presence rfl]
      split <;> rfl
    simp only [Message.data_setData, Message.unknown_setData, hunknown, Message.addUnknown_nil]
    rfl

/-- A record of the field is decoded into the message that the field holds. -/
theorem decodeField_subMessage (hf : IsMessageField cfg t n f ext s) (calls depth : ℕ)
    {p rec w : List UInt8} (hrec : IsDelimited n p rec) (hlen : p.length ≤ int32Max) (hfuel : p.length ≤ fuel)
    (hr : r.rest = rec ++ w) :
    match decodeSubPayload cfg calls depth s ⟨subMessageOf f.field ext d.msg, d.missingRequired⟩ p with
    | .ok x => ∃ r', decodeField stream cfg fuel (decodeMessage stream cfg fuel calls) depth t d r =
        .ok (.inl ⟨putSubMessage f.field ext d.msg x.msg, x.missingRequired⟩, r') ∧ r'.rest = w
    | .error e =>
      decodeField stream cfg fuel (decodeMessage stream cfg fuel calls) depth t d r = .error e := by
  cases hrec with
  | @mk tag size htag hsize hleb =>
    rw [List.append_assoc, List.append_assoc] at hr
    have hop : getDelimitedOp cfg (.field f ext) = .subMessage := by
      simp [getDelimitedOp, MiniTableField.isArray, hf.scalar, hf.type, delimitedOp, checkUnlinked, hf.linked]
    rw [decodeField_of_tag htag (by decide) hr]
    generalize hr₁ : advance { r with start := (r.pos, r.rest) } tag.length = r₁
    have hrest₁ : r₁.rest = size ++ (p ++ w) := by
      rw [← hr₁]
      change r.rest.drop tag.length = _
      rw [hr, List.drop_left]
    have hread : readSize stream r₁ = .ok (p.length, r₁.advance size.length) := by
      rw [← hleb]
      exact readSize_eq_ok.mpr ⟨size, hsize, by omega, rfl, reads_advance hrest₁⟩
    have hwire : decodeWireValue stream cfg (.field f ext) (some .delimited) r₁ =
        .ok ((.subMessage, p.length), r₁.advance size.length) := by
      rw [decodeWireValue, Prog.bind_of_ok hread, hop]
      rfl
    have hdata : decodeFieldData stream cfg fuel (decodeMessage stream cfg fuel calls) depth t d n
        (some .delimited) r₁ = decodeKnownField stream cfg fuel (decodeMessage stream cfg fuel calls)
          depth f ext d .subMessage p.length (r₁.advance size.length) := by
      rw [decodeFieldData, hf.found, Prog.bind_of_ok hwire]
    have hrest₂ : (r₁.advance size.length).rest = p ++ w := by
      change r₁.rest.drop size.length = _
      rw [hrest₁, List.drop_left]
    have hrun := withLimit_recurseSubMessage cfg calls depth s
      ⟨subMessageOf f.field ext d.msg, d.missingRequired⟩ hrest₂ hfuel
    rw [Prog.bind_apply, hdata, decodeKnownField_subMessage d hf, Prog.bind_apply]
    cases hres : decodeSubPayload cfg calls depth s
        ⟨subMessageOf f.field ext d.msg, d.missingRequired⟩ p with
    | error e =>
      rw [hres] at hrun
      simp only [hrun]
    | ok x =>
      rw [hres] at hrun
      obtain ⟨r', hx, hw⟩ := hrun
      refine ⟨r', ?_, hw⟩
      rw [hx]
      rfl

/-- A payload that is one record of the field. -/
theorem decodePayload_subMessage (hf : IsMessageField cfg t n f ext s) {p rec : List UInt8}
    (hrec : IsDelimited n p rec) (hlen : p.length ≤ int32Max) :
    decodePayload cfg (calls + 1) depth t d rec =
      (decodeSubPayload cfg calls depth s ⟨subMessageOf f.field ext d.msg, d.missingRequired⟩ p).map
        fun x => messageEnd cfg t (⟨putSubMessage f.field ext d.msg x.msg, x.missingRequired⟩, none) := by
  have hrun := decodeField_subMessage d hf calls depth hrec hlen hrec.length_le
    (show (BoundedReader.init 0 rec).rest = rec ++ [] from (List.append_nil rec).symm)
  cases hres : decodeSubPayload cfg calls depth s
      ⟨subMessageOf f.field ext d.msg, d.missingRequired⟩ p with
  | error e =>
    rw [hres] at hrun
    exact decodePayload_of_error hrec.ne_nil hrun
  | ok x =>
    rw [hres] at hrun
    obtain ⟨r', hfield, hnil⟩ := hrun
    exact decodePayload_of_record hrec.ne_nil hfield hnil

/-- A sub-message that was decoded has not missed required fields. -/
theorem decodePayload_subMessage_eq_ok (hf : IsMessageField cfg t n f ext s) {p rec : List UInt8}
    (hrec : IsDelimited n p rec) (hlen : p.length ≤ int32Max) {m m' : Message} :
    decodePayload cfg (calls + 1) depth t ⟨m, false⟩ rec = .ok (⟨m', false⟩, none) ↔
      ∃ k x, depth = k + 1 ∧
        decodePayload cfg calls k s ⟨subMessageOf f.field ext m, false⟩ p = .ok (⟨x, false⟩, none) ∧
        m' = putSubMessage f.field ext m x ∧ checkRequired cfg t m' false = false := by
  rw [decodePayload_subMessage ⟨m, false⟩ hf hrec hlen, Prog.map_eq_ok]
  constructor
  · rintro ⟨⟨x, missing⟩, hx, hend⟩
    have hclean := messageEnd_eq hend
    simp only [Prod.mk.injEq, Decoding.mk.injEq, and_true] at hclean
    obtain ⟨rfl, rfl⟩ := hclean
    have hreq : checkRequired cfg t (putSubMessage f.field ext m x) false = false :=
      congrArg (fun q => q.1.missingRequired) hend
    cases depth with
    | zero => cases hx
    | succ k =>
      refine ⟨k, x, rfl, ?_, rfl, hreq⟩
      rw [decodeSubPayload] at hx
      split at hx
      · next h =>
        cases hx
        exact h
      · cases hx
      · cases hx
  · rintro ⟨k, x, rfl, hx, rfl, hreq⟩
    refine ⟨⟨x, false⟩, ?_, ?_⟩
    · rw [decodeSubPayload, hx]
    · rw [messageEnd, hreq]

end Field

/-- Two records of a field leave what one record with both payloads leaves. -/
theorem upbDecode_subMessage_append {cfg : DecodeConfig} {maxDepth n : ℕ} {t s : TableId}
    {f : LinkedField} {ext : Option ExtId} (hf : IsMessageField cfg t n f ext s)
    {p q recP recQ recPQ : List UInt8} (hp : IsDelimited n p recP) (hq : IsDelimited n q recQ)
    (hpq : IsDelimited n (p ++ q) recPQ) (hlenP : recP.length ≤ int32Max)
    (hlenQ : recQ.length ≤ int32Max) (hlenPQ : recPQ.length ≤ int32Max) {m m₁ m₂ : Message}
    (h₁ : (upbDecode cfg maxDepth t m recP).map Decoded.msg = .ok m₁)
    (h₂ : (upbDecode cfg maxDepth t m₁ recQ).map Decoded.msg = .ok m₂) :
    (upbDecode cfg maxDepth t m recPQ).map Decoded.msg = .ok m₂ := by
  have hsmall : p.length ≤ int32Max ∧ q.length ≤ int32Max ∧ (p ++ q).length ≤ int32Max :=
    ⟨hp.length_le.trans hlenP, hq.length_le.trans hlenQ, hpq.length_le.trans hlenPQ⟩
  rw [upbDecode_iff_decodePayload hlenP, decodePayload_subMessage_eq_ok hf hp hsmall.1] at h₁
  obtain ⟨k, x, hk, hx, rfl, -⟩ := h₁
  rw [upbDecode_iff_decodePayload hlenQ, decodePayload_subMessage_eq_ok hf hq hsmall.2.1] at h₂
  obtain ⟨k', y, hk', hy, rfl, hreq⟩ := h₂
  obtain rfl : k = k' := by omega
  rw [subMessageOf_putSubMessage] at hy
  rw [putSubMessage_putSubMessage] at hreq ⊢
  rw [upbDecode_iff_decodePayload hlenPQ, decodePayload_subMessage_eq_ok hf hpq hsmall.2.2]
  refine ⟨k, y, hk, ?_, rfl, hreq⟩
  rw [hk] at hx hy ⊢
  rw [decodePayload_append hx q, hy]

/-- Decoding is a left action of concatenation: after a first part that is accepted, the rest of the
input has the status and the result of a call on its own; and two records of a singular message field
do what one record with both payloads does. -/
theorem upbDecode_concat (cfg : DecodeConfig) (maxDepth : ℕ) (t : TableId) (m : Message) :
    (∀ a b d, (a ++ b).length ≤ int32Max → upbDecode cfg maxDepth t m a = .ok d →
      (upbDecode cfg maxDepth t m (a ++ b)).map Decoded.msg =
        (upbDecode cfg maxDepth t d.msg b).map Decoded.msg) ∧
    ∀ n f ext s p q recP recQ recPQ m₁ m₂, IsMessageField cfg t n f ext s →
      IsDelimited n p recP → IsDelimited n q recQ → IsDelimited n (p ++ q) recPQ →
      (recP ++ recQ).length ≤ int32Max → recPQ.length ≤ int32Max →
      (upbDecode cfg maxDepth t m recP).map Decoded.msg = .ok m₁ →
      (upbDecode cfg maxDepth t m₁ recQ).map Decoded.msg = .ok m₂ →
      (upbDecode cfg maxDepth t m (recP ++ recQ)).map Decoded.msg = .ok m₂ ∧
        (upbDecode cfg maxDepth t m recPQ).map Decoded.msg = .ok m₂ := by
  refine ⟨fun a b d hab h => upbDecode_append hab h, ?_⟩
  intro n f ext s p q recP recQ recPQ m₁ m₂ hf hp hq hpq hlen hlenPQ h₁ h₂
  rw [List.length_append] at hlen
  obtain ⟨d₁, hd₁, rfl⟩ := Prog.map_eq_ok.mp h₁
  refine ⟨?_, upbDecode_subMessage_append hf hp hq hpq (by omega) (by omega) hlenPQ h₁ h₂⟩
  rw [upbDecode_append (by rw [List.length_append]; omega) hd₁]
  exact h₂

/-- The message field of a table, in two records and in one. -/
theorem upbDecode_concat_nested :
    ∃ m₂, (upbDecode nestedConfig 0 0 .new ([10, 3, 18, 1, 7] ++ [10, 2, 18, 0])).map Decoded.msg =
        .ok m₂ ∧
      (upbDecode nestedConfig 0 0 .new [10, 5, 18, 1, 7, 18, 0]).map Decoded.msg = .ok m₂ := by
  have hfield : IsMessageField nestedConfig 0 1
      ⟨⟨1, 16, 64, 0, .message, ⟨.scalar, false, false, false, .rep8Byte⟩⟩, .submsg 0⟩ none 0 :=
    ⟨rfl, rfl, rfl, rfl, nofun⟩
  have htag : IsTag 1 .delimited [10] := ⟨by decide, by decide, by decide⟩
  have hp : IsDelimited 1 [18, 1, 7] [10, 3, 18, 1, 7] :=
    show IsDelimited 1 _ ([10] ++ [3] ++ [18, 1, 7]) from .mk htag (by decide) rfl
  have hq : IsDelimited 1 [18, 0] [10, 2, 18, 0] :=
    show IsDelimited 1 _ ([10] ++ [2] ++ [18, 0]) from .mk htag (by decide) rfl
  have hpq : IsDelimited 1 ([18, 1, 7] ++ [18, 0]) [10, 5, 18, 1, 7, 18, 0] :=
    show IsDelimited 1 _ ([10] ++ [5] ++ ([18, 1, 7] ++ [18, 0])) from .mk htag (by decide) rfl
  obtain ⟨haction, hmerge⟩ := upbDecode_concat nestedConfig 0 0 .new
  cases h₁ : upbDecode nestedConfig 0 0 .new [10, 3, 18, 1, 7] with
  | error e =>
    have hok : (upbDecode nestedConfig 0 0 .new [10, 3, 18, 1, 7]).toBool = true := by decide +kernel
    rw [h₁] at hok
    cases hok
  | ok d₁ =>
    cases h₁₂ : upbDecode nestedConfig 0 0 .new ([10, 3, 18, 1, 7] ++ [10, 2, 18, 0]) with
    | error e =>
      have hok : (upbDecode nestedConfig 0 0 .new ([10, 3, 18, 1, 7] ++ [10, 2, 18, 0])).toBool = true := by
        decide +kernel
      rw [h₁₂] at hok
      cases hok
    | ok d₂ =>
      have h₂ := haction _ [10, 2, 18, 0] d₁ (by decide) h₁
      rw [h₁₂] at h₂
      have hmsg : (upbDecode nestedConfig 0 0 .new [10, 3, 18, 1, 7]).map Decoded.msg = .ok d₁.msg :=
        congrArg (Except.map Decoded.msg) h₁
      exact ⟨d₂.msg, rfl, (hmerge 1 _ none 0 _ _ _ _ _ d₁.msg d₂.msg hfield hp hq hpq (by decide)
        (by decide) hmsg h₂.symm).2⟩

end Upb.Wire
