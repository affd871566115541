import Upb.MiniDescriptor.ParseFields

/-!
# The field that the parser builds

`parsedField` is the mini table field that a consistent field of the encoder is parsed to, before the
layout. The type of the field is set with the defaults of the message and then modified by its own
flags; the two steps together always arrive at what the encoder was given.
-/

namespace Upb

namespace MiniDescriptor

namespace FieldSpec

/-- An open enum or a string without validation, stored under another type. -/
def isAlternate (f : FieldSpec) : Bool :=
  (f.type == .enum && !f.mod.isClosedEnum) || (f.type == .string && !f.mod.validateUtf8)

/-- The type under which the table stores the field. -/
def storedType (f : FieldSpec) : FieldType :=
  if f.type == .enum && !f.mod.isClosedEnum then .int32
  else if f.type == .string && !f.mod.validateUtf8 then .bytes
  else f.type

/-- The representation of a single value of a type that is not a pointer. -/
def scalarRep : FieldType → FieldRep
  | .double | .int64 | .uint64 | .fixed64 | .sfixed64 | .sint64 => .rep8Byte
  | .bool | .group | .message => .rep1Byte
  | .string | .bytes => .repStringView
  | _ => .rep4Byte

/-- The representation of the field. -/
def rep (platform : Platform) (f : FieldSpec) : FieldRep :=
  if f.mod.isRepeated || f.type == .group || f.type == .message then pointerRep platform
  else scalarRep f.type

/-- The presence class of the field. -/
def presenceClass (f : FieldSpec) : ℕ :=
  if f.mod.isRepeated || f.mod.isProto3Singular then kNoPresence
  else if f.mod.isRequired then kRequiredPresence
  else kHasbitPresence

/-- The field has a sub table. -/
def hasSub (f : FieldSpec) : Bool :=
  f.type == .message || f.type == .group || (f.type == .enum && f.mod.isClosedEnum)

/-- The field as it is parsed, with the running number of sub tables. -/
def parsedField (platform : Platform) (subCount : ℕ) (f : FieldSpec) : MiniTableField where
  number := f.number
  offset := f.presenceClass
  presence := 0
  submsgOfs := if f.hasSub then toUint16 subCount else noSub
  descriptortype := f.storedType
  mode :=
    { fieldMode := if f.mod.isRepeated then .array else .scalar
      isPacked := f.mod.isPacked
      isExtension := false
      isAlternate := f.isAlternate
      rep := f.rep platform }

end FieldSpec

/-- The encoded type before the shift for repeated fields is read back. -/
private theorem encodedTo_eq (type : FieldType) (closed : Bool) (h : closed = true → type = .enum) :
    let enc := if closed then kEncodedClosedEnum else typeToEncoded type
    encodedToType enc = some type ∧ encodedToFieldRep enc = some (FieldSpec.scalarRep type) ∧
      (enc = kEncodedGroup ↔ type = .group) ∧ (enc = kEncodedMessage ↔ type = .message) ∧
      (enc == kEncodedOpenEnum) = (type == .enum && !closed) := by
  revert closed
  cases type <;> decide

/-- The first step: the field with the defaults of the message. -/
private theorem setField_eq {msgMod : MessageModifiers} {f : FieldSpec} (hf : f.Consistent msgMod)
    (d : MtDecoder) :
    setField d (toBase92 (MtDataEncoder.encodedType f.type f.mod)) f.number msgMod.toBits =
      .ok (setTypeAndSub f.number (if f.mod.isRepeated then kNoPresence else kHasbitPresence)
        ⟨if f.mod.isRepeated then .array else .scalar, false, false, false, f.rep d.platform⟩ f.type
        msgMod.validateUtf8 msgMod.defaultIsPacked (f.type == .enum && !f.mod.isClosedEnum)
        d.subCount) := by
  obtain ⟨-, hrep, hfrom⟩ := encodedType_char f.mod hf.closedEnum
  obtain ⟨htype, hfrep, hgroup, hmessage, hopen⟩ := encodedTo_eq f.type f.mod.isClosedEnum
    hf.closedEnum
  obtain ⟨hb0, hb1, -⟩ := messageModifiers_testBit msgMod
  have hval : (if f.mod.isRepeated = true then fromBase92 (toBase92 (MtDataEncoder.encodedType f.type f.mod)) - kEncodedRepeatedBase
      else fromBase92 (toBase92 (MtDataEncoder.encodedType f.type f.mod))) =
      ((if f.mod.isClosedEnum then kEncodedClosedEnum else typeToEncoded f.type : ℕ) : ℤ) := by
    rw [hfrom]
    by_cases hr : f.mod.isRepeated = true
    · rw [if_pos hr, MtDataEncoder.encodedType, if_pos hr]
      omega
    · rw [if_neg hr, MtDataEncoder.encodedType, if_neg hr]
  rw [setField]
  simp only [hrep, hval, Int.natCast_nonneg, ↓reduceIte, Int.toNat_natCast, hgroup, hmessage, htype,
    hfrep, hopen, hb0, hb1]
  by_cases hptr : f.mod.isRepeated = true ∨ f.type = .group ∨ f.type = .message
  · have hr : f.rep d.platform = pointerRep d.platform := by
      rw [FieldSpec.rep, if_pos]
      simpa [or_assoc] using hptr
    simp only [hptr, ↓reduceIte, hr]
    rfl
  · have hr : f.rep d.platform = FieldSpec.scalarRep f.type := by
      rw [FieldSpec.rep, if_neg]
      simpa [or_assoc] using hptr
    simp only [hptr, ↓reduceIte, hr]
    rfl

/-- The number of sub tables after the first step. -/
private theorem setTypeAndSub_snd {f : FieldSpec} {number offset : ℕ} {mode : Mode}
    {validateUtf8 defaultIsPacked : Bool} {subCount : ℕ}
    (hclosed : f.mod.isClosedEnum = true → f.type = .enum) :
    (setTypeAndSub number offset mode f.type validateUtf8 defaultIsPacked
      (f.type == .enum && !f.mod.isClosedEnum) subCount).2 = subCount + f.hasSub.toNat := by
  rw [setTypeAndSub, FieldSpec.hasSub]
  cases hc : f.mod.isClosedEnum
  · cases f.type <;> cases validateUtf8 <;> rfl
  · rw [hclosed hc]
    rfl

/-- The two steps together build the field that the encoder was given. -/
private theorem modifyField_eq {msgMod : MessageModifiers} {f : FieldSpec}
    (hf : f.Consistent msgMod) (platform : Platform) (sub : ℕ) :
    modifyField (MtDataEncoder.encodedModifiers msgMod f.type f.mod)
      (setTypeAndSub f.number (if f.mod.isRepeated then kNoPresence else kHasbitPresence)
        ⟨if f.mod.isRepeated then .array else .scalar, false, false, false, f.rep platform⟩ f.type
        msgMod.validateUtf8 msgMod.defaultIsPacked (f.type == .enum && !f.mod.isClosedEnum) sub).1 =
      .ok (f.parsedField platform sub) := by
  obtain ⟨hb0, hb1, hb2, hb3, -, -⟩ := encodedModifiers_testBit
    (f.mod.isRepeated && f.type.isPackable && (f.mod.isPacked != msgMod.defaultIsPacked))
    f.mod.isRequired f.mod.isProto3Singular
    (f.type == .string && (f.mod.validateUtf8 != msgMod.validateUtf8))
  rw [modifyField]
  simp only [MtDataEncoder.encodedModifiers, hb0, hb1, hb2, hb3]
  obtain ⟨hclosed, hpacked, hsing, hreq, hutf, hmsg⟩ := hf
  obtain ⟨type, number, rep, packed, closed, singular, req, utf8⟩ := f
  obtain ⟨mu, mp, me⟩ := msgMod
  simp only at *
  -- the flags that the hypotheses rule out go first; the rest is evaluated
  cases rep with
  | false =>
    obtain rfl : packed = false := by cases packed <;> simp_all
    cases type <;> cases closed <;> first | (simp at hclosed; done) | skip
    all_goals cases utf8 <;> first | (simp at hutf; done) | skip
    all_goals
      cases singular <;> cases req <;> cases mu <;> cases mp <;>
        first | (simp at hsing hreq hmsg; done) | rfl
  | true =>
    obtain rfl : singular = false := by cases singular <;> simp_all
    obtain rfl : req = false := by cases req <;> simp_all
    cases type <;> cases closed <;> first | (simp at hclosed; done) | skip
    all_goals cases utf8 <;> first | (simp at hutf; done) | skip
    all_goals
      cases packed <;> cases mu <;> cases mp <;>
        first | (simp [FieldType.isPackable] at hpacked hmsg; done) | rfl

/-- The parser on the character of a type and then on its modifiers: a field that needs no modifiers
is complete at once. -/
theorem setField_modifyField {msgMod : MessageModifiers} {f : FieldSpec} (hf : f.Consistent msgMod)
    (d : MtDecoder) :
    ∃ f₀, setField d (toBase92 (MtDataEncoder.encodedType f.type f.mod)) f.number msgMod.toBits =
        .ok (f₀, d.subCount + f.hasSub.toNat) ∧
      modifyField (MtDataEncoder.encodedModifiers msgMod f.type f.mod) f₀ =
        .ok (f.parsedField d.platform d.subCount) ∧
      (MtDataEncoder.encodedModifiers msgMod f.type f.mod = 0 →
        f₀ = f.parsedField d.platform d.subCount) := by
  have hmod := modifyField_eq hf d.platform d.subCount
  refine ⟨_, ?_, hmod, fun hzero => ?_⟩
  · rw [setField_eq hf, ← setTypeAndSub_snd hf.closedEnum]
  · rw [hzero] at hmod
    exact Except.ok.inj hmod

end MiniDescriptor

end Upb
