import Upb.MiniDescriptor.Base92
import Upb.MiniTable.Field

/-!
# The mini descriptor encoder

`upb/mini_descriptor/internal/encode.c`. The encoder appends characters to a string; the buffer that
the C caller provides is taken to be large enough. A call that the C code answers with a null pointer
returns `none`.
-/

namespace Upb

namespace MiniDescriptor

/-- `kUpb_FieldModifier`, one flag a bit. -/
structure FieldModifiers where
  isRepeated : Bool
  isPacked : Bool
  isClosedEnum : Bool
  isProto3Singular : Bool
  isRequired : Bool
  validateUtf8 : Bool
  deriving DecidableEq

/-- `kUpb_MessageModifier`, one flag a bit. -/
structure MessageModifiers where
  validateUtf8 : Bool
  defaultIsPacked : Bool
  isExtendable : Bool
  deriving DecidableEq

/-- The message modifiers as they stand on the wire. -/
def MessageModifiers.toBits (m : MessageModifiers) : ℕ :=
  m.validateUtf8.toNat ||| (m.defaultIsPacked.toNat <<< 1) ||| (m.isExtendable.toNat <<< 2)

/-- The state of the oneof part of the encoder. -/
inductive OneofState where
  | notStarted | startedOneof | emittedOneofField
  deriving DecidableEq

/-- `upb_MtDataEncoder`: the message state and the characters written so far. -/
structure MtDataEncoder where
  msgModifiers : MessageModifiers
  lastFieldNum : ℕ
  oneofState : OneofState
  out : List ℕ

/-- `kUpb_EncodedValue_MaxField`, `'I'`. -/
def kMaxField : ℕ := 73
/-- `kUpb_EncodedValue_MinModifier`, `'L'`. -/
def kMinModifier : ℕ := 76
/-- `kUpb_EncodedValue_MaxModifier`, `'['`. -/
def kMaxModifier : ℕ := 91
/-- `kUpb_EncodedValue_End`, `'^'`. -/
def kEnd : ℕ := 94
/-- `kUpb_EncodedValue_MinSkip`, `'_'`. -/
def kMinSkip : ℕ := 95
/-- `kUpb_EncodedValue_MaxSkip`, `'~'`. -/
def kMaxSkip : ℕ := 126
/-- `kUpb_EncodedValue_OneofSeparator`, `'~'`. -/
def kOneofSeparator : ℕ := 126
/-- `kUpb_EncodedValue_FieldSeparator`, `'|'`. -/
def kFieldSeparator : ℕ := 124
/-- `kUpb_EncodedValue_MinOneofField`, `' '`. -/
def kMinOneofField : ℕ := 32
/-- `kUpb_EncodedValue_MaxOneofField`, `'b'`. -/
def kMaxOneofField : ℕ := 98
/-- `kUpb_EncodedVersion_MapV1`, `'%'`. -/
def kVersionMapV1 : ℕ := 37
/-- `kUpb_EncodedVersion_MessageV1`, `'$'`. -/
def kVersionMessageV1 : ℕ := 36
/-- `kUpb_EncodedVersion_MessageSetV1`, `'&'`. -/
def kVersionMessageSetV1 : ℕ := 38

/-- `kUpb_EncodedType_OpenEnum`. -/
def kEncodedOpenEnum : ℕ := 12
/-- `kUpb_EncodedType_Group`. -/
def kEncodedGroup : ℕ := 16
/-- `kUpb_EncodedType_Message`. -/
def kEncodedMessage : ℕ := 17
/-- `kUpb_EncodedType_ClosedEnum`. -/
def kEncodedClosedEnum : ℕ := 18
/-- `kUpb_EncodedType_RepeatedBase`. -/
def kEncodedRepeatedBase : ℕ := 20

/-- `kUpb_TypeToEncoded`. -/
def typeToEncoded : FieldType → ℕ
  | .double => 0 | .float => 1 | .fixed32 => 2 | .fixed64 => 3 | .sfixed32 => 4 | .sfixed64 => 5
  | .int32 => 6 | .uint32 => 7 | .sint32 => 8 | .int64 => 9 | .uint64 => 10 | .sint64 => 11
  | .enum => 12 | .bool => 13 | .bytes => 14 | .string => 15 | .group => 16 | .message => 17

namespace MtDataEncoder

/-- `upb_MtDataEncoder_PutRaw` and its callers: append characters. -/
def put (e : MtDataEncoder) (cs : List ℕ) : MtDataEncoder := { e with out := e.out ++ cs }

/-- `upb_MtDataEncoder_PutModifier`. -/
def putModifier (e : MtDataEncoder) (mod : ℕ) : MtDataEncoder :=
  if mod = 0 then e else e.put (putBase92Varint mod kMinModifier kMaxModifier)

/-- `upb_MtDataEncoder_StartMessage`. -/
def startMessage (msgMod : MessageModifiers) : MtDataEncoder :=
  putModifier ⟨msgMod, 0, .notStarted, [kVersionMessageV1]⟩ msgMod.toBits

/-- `_upb_MtDataEncoder_MaybePutFieldSkip`. -/
def maybePutFieldSkip (e : MtDataEncoder) (fieldNum : ℕ) : Option MtDataEncoder :=
  if fieldNum ≤ e.lastFieldNum then none
  else
    let e' := if e.lastFieldNum + 1 ≠ fieldNum then
        e.put (putBase92Varint (fieldNum - e.lastFieldNum) kMinSkip kMaxSkip)
      else e
    some { e' with lastFieldNum := fieldNum }

/-- The encoded type of `_upb_MtDataEncoder_PutFieldType`. -/
def encodedType (type : FieldType) (mod : FieldModifiers) : ℕ :=
  let encoded := if mod.isClosedEnum then kEncodedClosedEnum else typeToEncoded type
  if mod.isRepeated then encoded + kEncodedRepeatedBase else encoded

/-- `_upb_MtDataEncoder_PutFieldType`. -/
def putFieldType (e : MtDataEncoder) (type : FieldType) (mod : FieldModifiers) : MtDataEncoder :=
  e.put [toBase92 (encodedType type mod)]

/-- The encoded modifiers of `_upb_MtDataEncoder_MaybePutModifiers`. -/
def encodedModifiers (msgMod : MessageModifiers) (type : FieldType) (mod : FieldModifiers) : ℕ :=
  let flipPacked := mod.isRepeated && type.isPackable && (mod.isPacked != msgMod.defaultIsPacked)
  let flipUtf8 := type == .string && (mod.validateUtf8 != msgMod.validateUtf8)
  flipPacked.toNat ||| (mod.isRequired.toNat <<< 1) ||| (mod.isProto3Singular.toNat <<< 2) |||
    (flipUtf8.toNat <<< 3)

/-- `upb_MtDataEncoder_PutField`. -/
def putField (e : MtDataEncoder) (type : FieldType) (fieldNum : ℕ) (mod : FieldModifiers) :
    Option MtDataEncoder := do
  let e ← e.maybePutFieldSkip fieldNum
  let e := e.putFieldType type mod
  some (e.putModifier (encodedModifiers e.msgModifiers type mod))

/-- `upb_MtDataEncoder_StartOneof`. -/
def startOneof (e : MtDataEncoder) : MtDataEncoder :=
  let sep := if e.oneofState = .notStarted then kEnd else kOneofSeparator
  { e.put [sep] with oneofState := .startedOneof }

/-- `upb_MtDataEncoder_PutOneofField`. -/
def putOneofField (e : MtDataEncoder) (fieldNum : ℕ) : MtDataEncoder :=
  let e := if e.oneofState = .emittedOneofField then e.put [kFieldSeparator] else e
  { e.put (putBase92Varint fieldNum (toBase92 0) (toBase92 63)) with
    oneofState := .emittedOneofField }

/-- `upb_MtDataEncoder_EncodeMap`. -/
def encodeMap (keyType valueType : FieldType) (keyMod valueMod : FieldModifiers) :
    Option MtDataEncoder := do
  let e ← putField ⟨⟨false, false, false⟩, 0, .notStarted, [kVersionMapV1]⟩ keyType 1 keyMod
  e.putField valueType 2 valueMod

/-- `upb_MtDataEncoder_EncodeMessageSet`. -/
def encodeMessageSet : List ℕ := [kVersionMessageSetV1]

end MtDataEncoder

end MiniDescriptor

end Upb
