import Upb.MiniDescriptor.AssignOffsets

/-!
# What a table built from an encoded message describes

`Fits` says that the number of fields and the layout of an encoded message fit the 16-bit members of
a table, and `Describes` that a table holds exactly what was encoded.
-/

namespace Upb

namespace MiniDescriptor

section Spec

variable (platform : Platform) (fs : List FieldSpec) (oneofs : List (List ℕ))

/-- The presence class of a field, or `kOneofBase` for the member of a oneof. -/
def linkClass (f : FieldSpec) : ℕ :=
  if f.number ∈ oneofs.flatten then kOneofBase else f.presenceClass

/-- The number of fields of a presence class outside of oneofs. -/
def specCount (c : ℕ) : ℕ := fs.countP (linkClass oneofs · == c)

/-- The slots that the message needs. -/
def messageSlots : List FieldRep :=
  oneofSlots (messageReps platform fs oneofs) ++
    (fs.filter (linkClass oneofs · < kOneofBase)).map (·.rep platform)

/-- The number of bytes before the first slot. -/
def headerBytes : ℕ :=
  (kReservedHasbits + specCount fs oneofs kRequiredPresence + specCount fs oneofs kHasbitPresence + 7) / 8

/-- The layout of the message in unbounded numbers. -/
def messageLayout : ℕ × (FieldRep → ℕ) :=
  idealLayout platform (headerBytes fs oneofs) (messageSlots platform fs oneofs)

/-- The offsets of the case words, in the order of the oneofs. -/
def messageCases : List ℕ :=
  caseOffsets platform
    (((fs.filter (linkClass oneofs · < kOneofBase)).map (·.rep platform)).foldl (advance platform)
      (messageLayout platform fs oneofs).2) (messageReps platform fs oneofs)

/-- The number of fields and the layout fit the 16-bit members of a table. -/
structure Fits : Prop where
  fields : fs.length + kOneofBase ≤ kIndexSentinel
  subs : ∀ i : Fin fs.length, (fs.get i).hasSub = true →
    (alignUp (fs.length * kSizeofField) (ptrSize platform) + ptrSize platform * subs (fs.take i) -
      kSizeofField * i) / 4 ≤ uint16Max
  required : specCount fs oneofs kRequiredPresence ≤ 63
  hasbits : kReservedHasbits + specCount fs oneofs kRequiredPresence +
    specCount fs oneofs kHasbitPresence ≤ 2 ^ 15
  size : (messageLayout platform fs oneofs).1 ≤ uint16Max
  cases : ∀ c ∈ messageCases platform fs oneofs, c < 2 ^ 15

end Spec

/-- The field is required: its hasbit is among the lowest ones. -/
def isRequired (t : MiniTable) (f : MiniTableField) : Bool :=
  kReservedHasbits ≤ f.presence ∧ f.presence < kReservedHasbits + t.requiredCount

/-- A field of the table is the one that was encoded. -/
structure DescribesField (t : MiniTable) (oneofs : List (List ℕ)) (f : FieldSpec)
    (g : MiniTableField) : Prop where
  type : g.type = f.type
  isRepeated : g.isArray = f.mod.isRepeated
  isScalar : g.isScalar = !f.mod.isRepeated
  isPacked : g.isPacked = f.mod.isPacked
  isRequired : MiniDescriptor.isRequired t g = f.mod.isRequired
  implicitPresence : (g.isScalar && g.presence == 0) = f.mod.isProto3Singular
  isClosedEnum : g.isClosedEnum = f.mod.isClosedEnum
  validateUtf8 : (g.descriptortype == .string) = f.mod.validateUtf8
  isInOneof : g.isInOneof = decide (f.number ∈ oneofs.flatten)

/-- The table is the one that was encoded: the same numbers in the same order, the same fields, and
two members share a case word exactly if they are in one oneof. -/
structure Describes (msgMod : MessageModifiers) (fs : List FieldSpec) (oneofs : List (List ℕ))
    (t : MiniTable) : Prop where
  numbers : t.fields.map (·.number) = fs.map (·.number)
  fieldCount : t.fieldCount = fs.length
  ext : t.ext = ⟨msgMod.isExtendable, false, false⟩
  field : ∀ (i : ℕ) (f : FieldSpec) (g : MiniTableField), fs[i]? = some f → t.fields[i]? = some g →
    DescribesField t oneofs f g
  oneof : ∀ (i j : ℕ) (f f' : FieldSpec) (g g' : MiniTableField), fs[i]? = some f →
    fs[j]? = some f' → t.fields[i]? = some g → t.fields[j]? = some g' →
    f.number ∈ oneofs.flatten → f'.number ∈ oneofs.flatten →
    (g.presence = g'.presence ↔ ∃ o ∈ oneofs, f.number ∈ o ∧ f'.number ∈ o)

end MiniDescriptor

end Upb
