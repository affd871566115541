import Upb.Wire.Refinement
import Upb.Wire.UnknownFields

/-!
# Records of a wire type that their field does not admit

Such a record is unknown data: the decoder keeps its bytes and changes nothing else. The one cell of
the operation tables for which this fails is that of delimited records of repeated groups.
-/

namespace Upb

open Wire in
/-- The wire type of the values of a type. -/
def FieldType.wireType : FieldType → WireType
  | .double | .fixed64 | .sfixed64 => .bit64
  | .float | .fixed32 | .sfixed32 => .bit32
  | .int64 | .uint64 | .int32 | .bool | .uint32 | .enum | .sint32 | .sint64 => .varint
  | .string | .bytes | .message => .delimited
  | .group => .startGroup

namespace Wire

open Upb.Common BoundedReader

/-- The wire types of the records of a field; a repeated field of numbers may be packed. -/
def Admits (f : MiniTableField) (w : WireType) : Prop :=
  w = f.descriptortype.wireType ∨
    (f.isArray = true ∧ f.descriptortype.isPackable = true ∧ w = .delimited)

/-- `f` is the field of a table, or the known extension of it, that has the number `n`. In a message
set the group with the number 1 is an item and no record of an extension. -/
inductive Known (cfg : DecodeConfig) (t : TableId) (n : ℕ) (w : WireType) :
    LinkedField → Option ExtId → Prop
  | field {f : LinkedField}
      (h : ((cfg.schema.table t).findFieldByNumber n).bind (cfg.schema.field t) = some f) :
      Known cfg t n w f none
  | extension {reg : TableId → ℕ → Option ExtId} {e : ExtId}
      (h : ((cfg.schema.table t).findFieldByNumber n).bind (cfg.schema.field t) = none)
      (hreg : cfg.schema.extreg = some reg) (hext : (cfg.schema.table t).ext = ⟨true, false, false⟩)
      (he : reg t n = some e) : Known cfg t n w (cfg.schema.ext e) (some e)
  | messageSet {reg : TableId → ℕ → Option ExtId} {e : ExtId}
      (h : ((cfg.schema.table t).findFieldByNumber n).bind (cfg.schema.field t) = none)
      (hreg : cfg.schema.extreg = some reg) (hext : (cfg.schema.table t).ext = ⟨false, true, false⟩)
      (he : reg t n = some e) (hitem : ¬ (n = 1 ∧ w = .startGroup)) :
      Known cfg t n w (cfg.schema.ext e) (some e)

/-- Wherever the decoder, over the patch buffer stream, comes to the record `rec` in an input of at
most `INT32_MAX` bytes, with `depth` levels left, it changes nothing but the unknown fields of the
message, to which it adds the bytes of the record, and goes on behind it. The place is given by the
reader `r` that stands there with the stream `e`. -/
def KeptUnknown (cfg : DecodeConfig) (t : TableId) (depth : ℕ) (rec : List UInt8) : Prop :=
  ∀ (N fuel calls : ℕ) (d : Decoding) (g : LazyChecks.Ghost) (e : EpsCopyInputStream)
    (r : BoundedReader) (rest : List UInt8), N ≤ int32Max → N ≤ fuel →
    LazyChecks.Rel N g (.fresh .plain) e r → r.rest = rec ++ rest →
    ∃ e' r', decodeField EpsCopyInputStream.stream cfg fuel
        (decodeMessage EpsCopyInputStream.stream cfg fuel calls) depth t d e =
          .ok (.inl { d with msg := d.msg.addUnknown rec }, e') ∧
      LazyChecks.Rel N g .base e' r' ∧ r'.rest = rest

/-- The cell of the operation tables that is wrong: a delimited record of a repeated group. -/
def IsDelimitedGroup (f : LinkedField) (w : WireType) : Prop :=
  f.field.isArray = true ∧ f.field.descriptortype = .group ∧ w = .delimited ∧
    (f.field.mode.isExtension = true ∨ f.sub.message.isSome = true)

section

variable {cfg : DecodeConfig} {t : TableId} {n : ℕ} {w : WireType} {f : LinkedField}
  {ext : Option ExtId}

/-- A field that does not admit a wire type does not interpret it. -/
theorem uninterpreted_field (h : ¬ Admits f.field w) (hgroup : ¬ IsDelimitedGroup f w)
    (hw : w ≠ .endGroup) : Uninterpreted cfg (.field f ext) w := by
  have htype : w ≠ f.field.descriptortype.wireType := fun h' => h (.inl h')
  have hpacked : ¬ (f.field.isArray = true ∧ f.field.descriptortype.isPackable = true ∧
      w = .delimited) := fun h' => h (.inr h')
  cases w with
  | varint =>
    change getVarintOp f.field.descriptortype = _
    cases hd : f.field.descriptortype <;> simp [hd, FieldType.wireType, getVarintOp] at htype ⊢
  | bit32 =>
    refine ⟨?_, ?_, ?_⟩ <;> intro hd <;> simp [hd, FieldType.wireType] at htype
  | bit64 =>
    refine ⟨?_, ?_, ?_⟩ <;> intro hd <;> simp [hd, FieldType.wireType] at htype
  | delimited =>
    change getDelimitedOp cfg (.field f ext) = _
    by_cases harray : f.field.isArray = true
    · have hd : f.field.descriptortype = .group := by
        cases hd : f.field.descriptortype <;>
          simp [hd, harray, FieldType.wireType, FieldType.isPackable] at htype hpacked ⊢
      have hunlinked : checkUnlinked f .subMessage = .unknownField := by
        have hnot : ¬ (f.field.mode.isExtension = true ∨ f.sub.message.isSome = true) :=
          fun h' => hgroup ⟨harray, hd, rfl, h'⟩
        rw [not_or] at hnot
        rw [checkUnlinked, if_neg hnot.1, if_neg hnot.2]
      simp only [getDelimitedOp, if_pos harray, hd, repeatedDelimitedOp, hunlinked]
    · simp only [getDelimitedOp, if_neg harray]
      cases hd : f.field.descriptortype <;> simp [hd, FieldType.wireType, delimitedOp] at htype ⊢
  | startGroup =>
    intro hd
    simp [hd, FieldType.wireType] at htype
  | endGroup => exact absurd rfl hw

/-- What the lookup of the decoder finds for the record is not interpreted either. -/
theorem uninterpreted_known (hf : Known cfg t n w f ext) (h : ¬ Admits f.field w)
    (hgroup : ¬ IsDelimitedGroup f w) (hw : w ≠ .endGroup) :
    Uninterpreted cfg (findField cfg t n (some w)) w := by
  cases hf with
  | field hfind =>
    rw [findField, hfind]
    exact uninterpreted_field h hgroup hw
  | extension hfind hreg hext he =>
    simp only [findField, hfind, hreg, findExtensionField, hext, he, true_or, if_true]
    exact uninterpreted_field h hgroup hw
  | messageSet hfind hreg hext he hitem =>
    simp only [findField, hfind, hreg, findExtensionField, hext, he]
    by_cases hdel : w = .delimited
    · subst hdel
      simp only [true_and, or_true, if_true]
      exact uninterpreted_field h hgroup hw
    · have hne : some w ≠ some WireType.delimited := fun h' => hdel (Option.some.inj h')
      simp only [hne, and_false, or_false, true_and]
      by_cases hn : n = 1
      · subst hn
        have hstart : w ≠ .startGroup := fun h' => hitem ⟨rfl, h'⟩
        cases w <;> first | contradiction | trivial
      · simp only [hn, if_false]
        cases w <;> trivial

/-- A record of a wire type that its field does not admit is kept, unless it is a delimited record of
a repeated group. -/
theorem keptUnknown_of_not_isDelimitedGroup {inner : ℕ → Prop} {depth : ℕ} {rec : List UInt8}
    (hf : Known cfg t n w f ext) (h : ¬ Admits f.field w) (hgroup : ¬ IsDelimitedGroup f w)
    (hn : n ≠ 0) (hrec : IsRecord 5 inner depth n w rec) : KeptUnknown cfg t depth rec := by
  intro N fuel calls d g e r rest hN hfuel hrel hr
  have hw : w ≠ .endGroup := by
    cases hrec with
    | field htag hv => cases hv <;> decide
    | group => decide
  have hlen : r.rest.length ≤ fuel := by
    have hlength := hrel.length_rest
    have hlimit := hrel.core.limit_le
    have hinside := hrel.core.inside
    have hpos := hrel.core.wf.pos_nonneg
    omega
  have hstep : decodeField BoundedReader.stream cfg fuel
      (decodeMessage BoundedReader.stream cfg fuel calls) depth t d r = .ok (.inl _, _) :=
    decodeField_of_record (uninterpreted_known hf h hgroup hw) hrec hn hr hlen d
  have hout := decodeField_lazy cfg hN hfuel calls depth t d hrel
  rw [hstep] at hout
  rcases hout with ⟨a, e', he, rfl, hrel'⟩ | ⟨-, hpast⟩
  · refine ⟨e', _, he, hrel', ?_⟩
    change r.rest.drop _ = _
    rw [hr, List.drop_left]
  · exact hpast.elim

/-- The lookup finds the field of a delimited record. -/
theorem findField_known_delimited (hf : Known cfg t n .delimited f ext) :
    findField cfg t n (some .delimited) = .field f ext := by
  cases hf with
  | field hfind => rw [findField, hfind]
  | extension hfind hreg hext he => simp [findField, hfind, hreg, findExtensionField, hext, he]
  | messageSet hfind hreg hext he hitem => simp [findField, hfind, hreg, findExtensionField, hext, he]

/-- A sub-message of a repeated field becomes an element of its array. -/
theorem data_decodeToArray {fuel depth val : ℕ} {sub : SubDecoder BoundedReader} {d d' : Decoding}
    {r r' : BoundedReader}
    (h : decodeToArray stream cfg fuel sub depth f d .subMessage val r = .ok (d', r')) :
    ∃ x, d'.msg.data f.field = .array ((d.msg.data f.field).toArray ++ [x]) := by
  change (decodeSubMessage stream sub depth f ⟨.new, d.missingRequired⟩ val >>= _) r = _ at h
  obtain ⟨x, r₁, -, hpure⟩ := Prog.bind_eq_ok.mp h
  obtain rfl : _ = d' := congrArg Prod.fst (Except.ok.inj hpure)
  exact ⟨.ofMessage x.msg, by simp [Message.data, Message.setData]⟩

/-- A delimited record of a repeated group is not kept: it fails, or the array gets an element. -/
theorem decodeField_isDelimitedGroup {fuel depth : ℕ} {sub : SubDecoder BoundedReader}
    {inner : ℕ → Prop} {rec : List UInt8} (hf : Known cfg t n .delimited f ext)
    (hgroup : IsDelimitedGroup f .delimited) (hrec : IsRecord 5 inner depth n .delimited rec)
    {r r' : BoundedReader} (hr : r.rest = rec)
    (h : decodeField stream cfg fuel sub depth t ⟨.new, false⟩ r =
      .ok (.inl ⟨Message.new.addUnknown rec, false⟩, r')) : False := by
  obtain ⟨harray, htype, -, hlinked⟩ := hgroup
  have hop : getDelimitedOp cfg (.field f ext) = .subMessage := by
    have hcheck : checkUnlinked f .subMessage = .subMessage := by
      rw [checkUnlinked]
      split
      · rfl
      · next hext => rw [if_pos (hlinked.resolve_left hext)]
    simp only [getDelimitedOp, if_pos harray, htype, repeatedDelimitedOp, hcheck]
  have hmode : f.field.mode.fieldMode = .array := by simpa [MiniTableField.isArray] using harray
  cases hrec with
  | @field _ _ _ tag v htag hv =>
    rw [decodeField, Prog.bind_of_ok (show stream.mark r = .ok ((), _) from rfl), Prog.bind_eq_ok] at h
    obtain ⟨_, r₁, hread, h⟩ := h
    have hreads : Reads { r with start := (r.pos, r.rest) } tag
        (BoundedReader.advance { r with start := (r.pos, r.rest) } tag.length) := reads_advance hr
    have heq := hread.symm.trans (readTag_eq_ok.mpr ⟨tag, htag.varint, htag.lt, rfl, hreads⟩)
    cases heq
    rw [htag.getWireType, htag.getFieldNumber, if_neg (by simp), Prog.bind_eq_ok] at h
    obtain ⟨d', r₂, hdata, hpure⟩ := h
    have hd : d' = ⟨Message.new.addUnknown (tag ++ v), false⟩ :=
      Sum.inl.inj (congrArg Prod.fst (Except.ok.inj hpure))
    rw [decodeFieldData, findField_known_delimited hf, Prog.bind_eq_ok] at hdata
    obtain ⟨⟨op, size⟩, r₃, hwire, hdata⟩ := hdata
    rw [decodeWireValue, Prog.bind_eq_ok] at hwire
    obtain ⟨size', r₄, -, hpure'⟩ := hwire
    have hopsize := congrArg Prod.fst (Except.ok.inj hpure')
    rw [hop] at hopsize
    cases hopsize
    change decodeKnownField stream cfg fuel sub depth f ext _ .subMessage size r₃ = _ at hdata
    cases ext with
    | none =>
      rw [decodeKnownField, decodeToField, hmode] at hdata
      obtain ⟨x, hx⟩ := data_decodeToArray hdata
      rw [hd] at hx
      cases hx
    | some e =>
      rw [decodeKnownField, Prog.bind_eq_ok] at hdata
      obtain ⟨d₁, r₅, -, hpure''⟩ := hdata
      have hexts := congrArg (fun p => p.1.msg.exts) (Except.ok.inj hpure'')
      rw [hd] at hexts
      cases hexts

/-- A record of a wire type that its field does not admit is kept wherever it stands, if and only if
it is not a delimited record of a repeated group. -/
theorem keptUnknown_iff_not_isDelimitedGroup {inner : ℕ → Prop} {depth : ℕ} {rec : List UInt8}
    (hf : Known cfg t n w f ext) (h : ¬ Admits f.field w) (hn : n ≠ 0)
    (hrec : IsRecord 5 inner depth n w rec) (hlen : rec.length ≤ int32Max) :
    KeptUnknown cfg t depth rec ↔ ¬ IsDelimitedGroup f w := by
  refine ⟨fun hkept hgroup => ?_, fun hgroup => keptUnknown_of_not_isDelimitedGroup hf h hgroup hn hrec⟩
  obtain rfl := hgroup.2.2.1
  -- the record alone is an input
  have hrel := LazyChecks.rel_init hlen (v := ⟨0, rec⟩) le_rfl (by simp)
  obtain ⟨e', r', he, hrel', -⟩ := hkept rec.length rec.length 0 ⟨.new, false⟩ _ _ _ [] hlen le_rfl
    hrel (by simp [BoundedReader.stream, BoundedReader.init])
  have hout := decodeField_lazy cfg hlen le_rfl 0 depth t ⟨.new, false⟩ hrel
  rw [he] at hout
  cases hr : decodeField stream cfg rec.length (decodeMessage stream cfg rec.length 0) depth t
      ⟨.new, false⟩ (BoundedReader.stream.enter ⟨0, rec⟩) with
  | error err =>
    rw [hr] at hout
    rcases hout with herr | ⟨-, ha⟩ | hfree
    · cases herr
    · obtain ⟨_, _, ha⟩ := ha
      have := ha.lt_pos
      have := hrel'.pos_le
      omega
    · exact hfree.elim
  | ok q =>
    rw [hr] at hout
    rcases hout with ⟨a, e₁, heq, ha, -⟩ | ⟨-, hpast⟩
    · cases heq
      obtain ⟨res, r₁⟩ := q
      subst ha
      exact decodeField_isDelimitedGroup hf hgroup hrec rfl hr
    · exact hpast.elim

/-- A varint record of a bytes field. -/
theorem keptUnknown_iff_not_isDelimitedGroup_varint :
    KeptUnknown nestedConfig 0 100 [0x10, 0x05] := by
  have hf : Known nestedConfig 0 2 .varint
      ⟨⟨2, 24, 65, noSub, .bytes, ⟨.scalar, false, false, false, .repStringView⟩⟩, .null⟩ none :=
    .field rfl
  have htag : IsTag 2 .varint [0x10] := ⟨by decide, by decide, by decide⟩
  have hval : IsValue 5 .varint [0x05] := .varint (by decide)
  have hrec : IsRecord 5 (· ≠ 0) 100 2 .varint [0x10, 0x05] := .field htag hval
  refine (keptUnknown_iff_not_isDelimitedGroup hf ?_ (by decide) hrec (by decide)).mpr ?_
  · rintro (h | h)
    · cases h
    · cases h.2.2
  · exact fun h => by cases h.2.2.1

/-- A table with a repeated group of empty messages. -/
def groupsConfig : DecodeConfig :=
  { nestedConfig with
    schema :=
      { nestedConfig.schema with
        table := fun t => if t = 0 then
            ⟨[⟨1, 8, 0, 0, .group, ⟨.array, false, false, false, .rep8Byte⟩⟩], 1, 16,
              ⟨false, false, false⟩, 1, 0⟩
          else ⟨[], 0, 8, ⟨false, false, false⟩, 0, 0⟩
        sub := fun _ _ => .submsg 1 } }

/-- The delimited record `0a 01 0c` of a repeated group: its payload is read as the rest of a group,
the array gets an element and the unknown fields stay empty. -/
theorem upbDecode_delimited_group :
    IsRecord 5 (· ≠ 0) 100 1 .delimited [0x0a, 0x01, 0x0c] ∧
      ¬ Admits ⟨1, 8, 0, 0, .group, ⟨.array, false, false, false, .rep8Byte⟩⟩ .delimited ∧
      (upbDecode groupsConfig 0 0 .new [0x0a, 0x01, 0x0c]).toOption.map
        (fun d => ((d.msg.slots 8).toArray.length, d.msg.unknown)) = some (1, []) := by
  refine ⟨?_, ?_, by decide +kernel⟩
  · have htag : IsTag 1 .delimited [0x0a] := ⟨by decide, by decide, by decide⟩
    have hlen : IsVarint 5 [0x01] := by decide
    exact .field htag (.delimited hlen (by decide) (show [0x0c].length = _ from rfl))
  · rintro (h | h)
    · cases h
    · cases h.2.1

end

end Wire

end Upb
