import Upb.MiniDescriptor.Layout

/-!
# Parsing the fields of an encoded message

The characters that the encoder emits for a list of fields, and what the parser makes of them. Each
field is written as an optional skip, a type and optional modifiers; the ranges of these characters
are disjoint, so the parser reads them back one field at a time.
-/

namespace Upb

namespace MiniDescriptor

/-- The arguments of one call of `upb_MtDataEncoder_PutField`. -/
structure FieldSpec where
  type : FieldType
  number : ℕ
  mod : FieldModifiers
  deriving DecidableEq

/-- The calls of `upb_MtDataEncoder_PutField` for a list of fields. -/
def putFields (e : MtDataEncoder) (fs : List FieldSpec) : Option MtDataEncoder :=
  fs.foldlM (fun e f => e.putField f.type f.number f.mod) e

/-- The modifiers of a field fit together, and a message that validates UTF-8 has no string field
that does not. -/
structure FieldSpec.Consistent (msgMod : MessageModifiers) (f : FieldSpec) : Prop where
  closedEnum : f.mod.isClosedEnum = true → f.type = .enum
  packed : f.mod.isPacked = true → f.mod.isRepeated = true ∧ f.type.isPackable = true
  singular : f.mod.isProto3Singular = true →
    f.mod.isRepeated = false ∧ f.mod.isRequired = false ∧ f.type ≠ .message ∧ f.type ≠ .group
  required : f.mod.isRequired = true → f.mod.isRepeated = false
  validateUtf8 : f.mod.validateUtf8 = true → f.type = .string
  msgValidateUtf8 : msgMod.validateUtf8 = true → f.type = .string → f.mod.validateUtf8 = true

instance (msgMod : MessageModifiers) (f : FieldSpec) : Decidable (f.Consistent msgMod) :=
  decidable_of_iff
    ((f.mod.isClosedEnum = true → f.type = .enum) ∧
      (f.mod.isPacked = true → f.mod.isRepeated = true ∧ f.type.isPackable = true) ∧
      (f.mod.isProto3Singular = true → f.mod.isRepeated = false ∧ f.mod.isRequired = false ∧
        f.type ≠ .message ∧ f.type ≠ .group) ∧
      (f.mod.isRequired = true → f.mod.isRepeated = false) ∧
      (f.mod.validateUtf8 = true → f.type = .string) ∧
      (msgMod.validateUtf8 = true → f.type = .string → f.mod.validateUtf8 = true))
    ⟨fun ⟨h₁, h₂, h₃, h₄, h₅, h₆⟩ => ⟨h₁, h₂, h₃, h₄, h₅, h₆⟩,
      fun ⟨h₁, h₂, h₃, h₄, h₅, h₆⟩ => ⟨h₁, h₂, h₃, h₄, h₅, h₆⟩⟩

section Chars

/-- The characters of a skip. -/
def skipChars (last number : ℕ) : List ℕ :=
  if last + 1 ≠ number then putBase92Varint (number - last) kMinSkip kMaxSkip else []

/-- The characters of a modifier. -/
def modifierChars (mod : ℕ) : List ℕ :=
  if mod = 0 then [] else putBase92Varint mod kMinModifier kMaxModifier

/-- The characters of a field. -/
def fieldChars (msgMod : MessageModifiers) (last : ℕ) (f : FieldSpec) : List ℕ :=
  skipChars last f.number ++ toBase92 (MtDataEncoder.encodedType f.type f.mod) ::
    modifierChars (MtDataEncoder.encodedModifiers msgMod f.type f.mod)

/-- The characters of a list of fields. -/
def fieldsChars (msgMod : MessageModifiers) : ℕ → List FieldSpec → List ℕ
  | _, [] => []
  | last, f :: fs => fieldChars msgMod last f ++ fieldsChars msgMod f.number fs

/-- The last field number after a list of fields. -/
def lastNumber : ℕ → List FieldSpec → ℕ
  | last, [] => last
  | _, f :: fs => lastNumber f.number fs

theorem putModifier_eq (e : MtDataEncoder) (mod : ℕ) :
    e.putModifier mod = e.put (modifierChars mod) := by
  rw [MtDataEncoder.putModifier, modifierChars]
  split <;> simp [MtDataEncoder.put]

theorem putField_eq (e : MtDataEncoder) (f : FieldSpec) (hlt : e.lastFieldNum < f.number) :
    e.putField f.type f.number f.mod = some { e with
      lastFieldNum := f.number, out := e.out ++ fieldChars e.msgModifiers e.lastFieldNum f } := by
  rw [MtDataEncoder.putField, MtDataEncoder.maybePutFieldSkip, if_neg (by omega)]
  simp only [Option.bind_eq_bind, Option.bind_some, putModifier_eq, fieldChars, skipChars]
  split <;> simp [MtDataEncoder.put, MtDataEncoder.putFieldType]

/-- Fields with strictly increasing numbers are all written. -/
theorem putFields_eq (fs : List FieldSpec) (e : MtDataEncoder)
    (hsorted : (fs.map (·.number)).Pairwise (· < ·)) (hlt : ∀ f ∈ fs, e.lastFieldNum < f.number) :
    putFields e fs = some { e with
      lastFieldNum := lastNumber e.lastFieldNum fs
      out := e.out ++ fieldsChars e.msgModifiers e.lastFieldNum fs } := by
  induction fs generalizing e with
  | nil => simp [putFields, lastNumber, fieldsChars]
  | cons f fs ih =>
    rw [List.map_cons, List.pairwise_cons] at hsorted
    have hstep := putField_eq e f (hlt f List.mem_cons_self)
    have hrest := ih { e with
      lastFieldNum := f.number, out := e.out ++ fieldChars e.msgModifiers e.lastFieldNum f }
      hsorted.2 (fun g hg => hsorted.1 g.number (List.mem_map_of_mem hg))
    rw [putFields, List.foldlM_cons, hstep]
    change putFields _ fs = _
    rw [hrest]
    simp [lastNumber, fieldsChars]

end Chars

section Ranges

theorem digitRange_modifier : DigitRange kMinModifier kMaxModifier 4 where
  shift_eq := by decide
  bitsPerChar_eq := by decide
  pos := by decide
  digit := by decide

theorem digitRange_skip : DigitRange kMinSkip kMaxSkip 5 where
  shift_eq := by decide
  bitsPerChar_eq := by decide
  pos := by decide
  digit := by decide

theorem digitRange_oneofField : DigitRange kMinOneofField kMaxOneofField 6 where
  shift_eq := by decide
  bitsPerChar_eq := by decide
  pos := by decide
  digit := by decide

/-- What the parser reads off the character of a type. -/
theorem encodedType_char {type : FieldType} (mod : FieldModifiers)
    (hclosed : mod.isClosedEnum = true → type = .enum) :
    toBase92 (MtDataEncoder.encodedType type mod) ≤ kMaxField ∧
    (toBase92 kEncodedRepeatedBase ≤ toBase92 (MtDataEncoder.encodedType type mod) ↔
      mod.isRepeated = true) ∧
    fromBase92 (toBase92 (MtDataEncoder.encodedType type mod)) =
      MtDataEncoder.encodedType type mod := by
  have hcases : ∀ (closed rep : Bool), (closed = true → type = .enum) →
      toBase92 (MtDataEncoder.encodedType type ⟨rep, false, closed, false, false, false⟩) ≤ kMaxField ∧
      (toBase92 kEncodedRepeatedBase ≤
        toBase92 (MtDataEncoder.encodedType type ⟨rep, false, closed, false, false, false⟩) ↔
          rep = true) ∧
      fromBase92 (toBase92 (MtDataEncoder.encodedType type ⟨rep, false, closed, false, false, false⟩)) =
        MtDataEncoder.encodedType type ⟨rep, false, closed, false, false, false⟩ := by
    cases type <;> decide
  exact hcases mod.isClosedEnum mod.isRepeated hclosed

/-- The bits of the encoded modifiers are read back one by one. -/
theorem encodedModifiers_testBit (a b c d : Bool) :
    let n := a.toNat ||| (b.toNat <<< 1) ||| (c.toNat <<< 2) ||| (d.toNat <<< 3)
    n.testBit 0 = a ∧ n.testBit 1 = b ∧ n.testBit 2 = c ∧ n.testBit 3 = d ∧ n < 2 ^ 4 ∧
      (n = 0 ↔ a = false ∧ b = false ∧ c = false ∧ d = false) := by
  revert a b c d
  decide

theorem messageModifiers_testBit (m : MessageModifiers) :
    m.toBits.testBit 0 = m.validateUtf8 ∧ m.toBits.testBit 1 = m.defaultIsPacked ∧
      m.toBits.testBit 2 = m.isExtendable ∧ m.toBits < 2 ^ 4 := by
  obtain ⟨a, b, c⟩ := m
  revert a b c
  decide

end Ranges

end MiniDescriptor

end Upb
