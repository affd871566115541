import Upb.MiniDescriptor.Encode
import Upb.MiniTable.Message

/-!
# The mini descriptor decoder

The parser of `upb/mini_descriptor/decode.c` for messages. While a descriptor is parsed the member
`offset` of a field holds its presence class, or the link to the next member of its oneof. Members
of 16 bits are reduced modulo 2^16 where the C code assigns to them. An error jump of the C code is
an `Except` error; allocations succeed.
-/

namespace Upb

namespace MiniDescriptor

/-- The errors of `upb_MdDecoder_ErrorJmp`, with the values that their texts print. -/
inductive MdError where
  /-- "Invalid field type: %d" -/
  | invalidFieldType (type : ℤ)
  /-- "Cannot flip packed on unpackable field %u" -/
  | cannotFlipPacked (number : ℕ)
  /-- "Cannot flip ValidateUtf8 on field %u, type=%d, mode=%d" -/
  | cannotFlipValidateUtf8 (number : ℕ) (type : FieldType) (mode : Mode)
  /-- "Invalid modifier(s) for repeated field %u" -/
  | invalidModifiersForRepeated (number : ℕ)
  /-- "Field %u cannot be both singular and required" -/
  | singularAndRequired (number : ℕ)
  /-- "Field %u cannot be a singular submessage" -/
  | singularSubmessage (number : ℕ)
  /-- "Empty oneof" -/
  | emptyOneof
  /-- "Couldn't add field number %u to oneof, no such field number." -/
  | noSuchOneofField (number : ℕ)
  /-- "Cannot add repeated, required, or singular field %u to oneof." -/
  | cannotAddToOneof (number : ℕ)
  /-- "Overlong varint" -/
  | overlongVarint
  /-- "Submessage offset overflow" -/
  | submessageOffsetOverflow
  /-- "Invalid field number: %u" -/
  | invalidFieldNumber (number : ℕ)
  /-- "Invalid char: %c" -/
  | invalidChar (ch : ℕ)
  /-- "Message size exceeded maximum size of %zu bytes" -/
  | messageTooLarge
  /-- "Too many required fields" -/
  | tooManyRequiredFields
  /-- "map %s did not have expected number (%d vs %d)" -/
  | mapFieldNumber (expected number : ℕ)
  /-- "map %s cannot be repeated or map, or be in oneof" -/
  | mapFieldNotScalar (expected : ℕ)
  /-- "map %s cannot have type %d" -/
  | mapFieldType (expected : ℕ) (type : FieldType)
  /-- "%hu fields in map" -/
  | mapFieldCount (count : ℕ)
  /-- "Map entry cannot have oneof" -/
  | mapHasOneof
  /-- "Invalid message set encode length: %zu" -/
  | messageSetLength (len : ℕ)
  /-- "Invalid message version: %c" -/
  | invalidVersion (ch : ℕ)
  deriving DecidableEq

/-- `upb_MiniTablePlatform`. -/
inductive Platform where
  | bits32 | bits64
  deriving DecidableEq

/-- `upb_OneOfLayoutItem`. -/
structure OneOfLayoutItem where
  fieldIndex : ℕ
  rep : FieldRep
  deriving DecidableEq

/-- `upb_MtDecoder`, for messages. -/
structure MtDecoder where
  table : MiniTable
  platform : Platform
  oneofs : List OneOfLayoutItem
  repCounts : FieldRep → ℕ
  subCount : ℕ

/-- The value of an assignment to a `uint16_t`. -/
def toUint16 (n : ℕ) : ℕ := n % 2 ^ 16

/-- `kUpb_OneOfLayoutItem_IndexSentinel`. -/
def kIndexSentinel : ℕ := 2 ^ 16 - 1

/-- `kUpb_MaxFieldNumber`. -/
def kMaxFieldNumber : ℕ := 2 ^ 29 - 1

/-- `kNoPresence`. -/
def kNoPresence : ℕ := 0
/-- `kHasbitPresence`. -/
def kHasbitPresence : ℕ := 1
/-- `kRequiredPresence`. -/
def kRequiredPresence : ℕ := 2
/-- `kOneofBase`. -/
def kOneofBase : ℕ := 3

/-- `upb_MtDecoder_FieldIsPackable`. -/
def fieldIsPackable (f : MiniTableField) : Bool := f.isArray && f.descriptortype.isPackable

/-- `kUpb_EncodedToType`; `none` past the end of the table. -/
def encodedToType : ℕ → Option FieldType
  | 0 => some .double | 1 => some .float | 2 => some .fixed32 | 3 => some .fixed64
  | 4 => some .sfixed32 | 5 => some .sfixed64 | 6 => some .int32 | 7 => some .uint32
  | 8 => some .sint32 | 9 => some .int64 | 10 => some .uint64 | 11 => some .sint64
  | 12 => some .enum | 13 => some .bool | 14 => some .bytes | 15 => some .string
  | 16 => some .group | 17 => some .message | 18 => some .enum | _ => none

/-- `kUpb_EncodedToFieldRep`; `none` past the end of the table. Groups and messages are pointers and
do not use it. -/
def encodedToFieldRep : ℕ → Option FieldRep
  | 0 => some .rep8Byte | 1 => some .rep4Byte | 2 => some .rep4Byte | 3 => some .rep8Byte
  | 4 => some .rep4Byte | 5 => some .rep8Byte | 6 => some .rep4Byte | 7 => some .rep4Byte
  | 8 => some .rep4Byte | 9 => some .rep8Byte | 10 => some .rep8Byte | 11 => some .rep8Byte
  | 12 => some .rep4Byte | 13 => some .rep1Byte | 14 => some .repStringView
  | 15 => some .repStringView | 16 => some .rep1Byte | 17 => some .rep1Byte | 18 => some .rep4Byte
  | _ => none

/-- The representation of a pointer. -/
def pointerRep : Platform → FieldRep
  | .bits32 => .rep4Byte
  | .bits64 => .rep8Byte

/-- `upb_MiniTable_SetTypeAndSub`: the type, flags and sub index of a field of the given mode. -/
def setTypeAndSub (number offset : ℕ) (mode : Mode) (type : FieldType) (validateUtf8 defaultIsPacked
    isProto3Enum : Bool) (subCount : ℕ) : MiniTableField × ℕ :=
  let (type, mode) :=
    if isProto3Enum then (.int32, { mode with isAlternate := true })
    else if type = .string ∧ !validateUtf8 then (.bytes, { mode with isAlternate := true })
    else (type, mode)
  let packable := mode.fieldMode == .array && type.isPackable
  let mode := if packable && defaultIsPacked then { mode with isPacked := true } else mode
  let hasSub := type == .message || type == .group || type == .enum
  (⟨number, offset, 0, if hasSub then toUint16 subCount else noSub, type, mode⟩,
    if hasSub then subCount + 1 else subCount)

/-- `upb_MiniTable_SetField`. -/
def setField (d : MtDecoder) (ch number : ℕ) (msgModifiers : ℕ) :
    Except MdError (MiniTableField × ℕ) := do
  let repeated := toBase92 kEncodedRepeatedBase ≤ ch
  let type := if repeated then fromBase92 ch - kEncodedRepeatedBase else fromBase92 ch
  -- a negative value is past the end of the tables, as an `unsigned long`
  let type' := if 0 ≤ type then type.toNat else 255
  let rep ←
    if repeated ∨ type' = kEncodedGroup ∨ type' = kEncodedMessage then .ok (pointerRep d.platform)
    else match encodedToFieldRep type' with
      | some rep => .ok rep
      | none => .error (.invalidFieldType type)
  let mode : Mode := ⟨if repeated then .array else .scalar, false, false, false, rep⟩
  match encodedToType type' with
  | none => .error (.invalidFieldType type)
  | some t =>
    .ok (setTypeAndSub number (if repeated then kNoPresence else kHasbitPresence) mode t
      (msgModifiers.testBit 0) (msgModifiers.testBit 1) (type' == kEncodedOpenEnum) d.subCount)

/-- `upb_MtDecoder_ModifyField`. -/
def modifyField (fieldModifiers : ℕ) (f : MiniTableField) : Except MdError MiniTableField := do
  let f ←
    if fieldModifiers.testBit 0 then
      if fieldIsPackable f then .ok { f with mode := { f.mode with isPacked := !f.mode.isPacked } }
      else .error (.cannotFlipPacked f.number)
    else .ok f
  let f ←
    if fieldModifiers.testBit 3 then
      if f.descriptortype ≠ .bytes ∨ !f.mode.isAlternate then
        .error (.cannotFlipValidateUtf8 f.number f.descriptortype f.mode)
      else .ok { f with descriptortype := .string, mode := { f.mode with isAlternate := false } }
    else .ok f
  let singular := fieldModifiers.testBit 2
  let required := fieldModifiers.testBit 1
  if (singular || required) ∧ f.offset ≠ kHasbitPresence then
    .error (.invalidModifiersForRepeated f.number)
  else if singular && required then .error (.singularAndRequired f.number)
  else if singular && f.isSubMessage then .error (.singularSubmessage f.number)
  else
    let f := if singular then { f with offset := kNoPresence } else f
    .ok (if required then { f with offset := kRequiredPresence } else f)

/-- `upb_MtDecoder_SizeOfRep`. -/
def sizeOfRep (platform : Platform) : FieldRep → ℕ
  | .rep1Byte => 1
  | .rep4Byte => 4
  | .repStringView => if platform = .bits32 then 8 else 16
  | .rep8Byte => 8

/-- `upb_MtDecoder_AlignOfRep`. -/
def alignOfRep (platform : Platform) : FieldRep → ℕ
  | .rep1Byte => 1
  | .rep4Byte => 4
  | .repStringView => if platform = .bits32 then 4 else 8
  | .rep8Byte => 8

/-- Add one to a member of `rep_counts_offsets`. -/
def bumpRep (counts : FieldRep → ℕ) (rep : FieldRep) : FieldRep → ℕ := fun r =>
  if r = rep then toUint16 (counts r + 1) else counts r

/-- `upb_MtDecoder_PushOneof`. -/
def pushOneof (d : MtDecoder) (item : OneOfLayoutItem) : Except MdError MtDecoder :=
  if item.fieldIndex = kIndexSentinel then .error .emptyOneof
  else .ok { d with
    repCounts := bumpRep (bumpRep d.repCounts .rep4Byte) item.rep
    oneofs := d.oneofs ++ [{ item with fieldIndex := toUint16 (item.fieldIndex + 2 ^ 16 - kOneofBase) }] }

/-- The representation that holds both, as `upb_MtDecoder_DecodeOneofField` chooses it. -/
def largerRep (platform : Platform) (current new : FieldRep) : FieldRep :=
  if sizeOfRep platform current < sizeOfRep platform new ∨
      (sizeOfRep platform new = sizeOfRep platform current ∧
        alignOfRep platform current < alignOfRep platform new) then new
  else current

/-- `upb_MtDecoder_DecodeOneofField`: the decoder with the member linked, the item and the rest. -/
def decodeOneofField (d : MtDecoder) (firstCh : ℕ) (rest : List ℕ) (item : OneOfLayoutItem) :
    Except MdError (MtDecoder × OneOfLayoutItem × List ℕ) :=
  match decodeVarint firstCh kMinOneofField kMaxOneofField rest with
  | none => .error .overlongVarint
  | some (number, rest) =>
    match d.table.findFieldByNumber number with
    | none => .error (.noSuchOneofField number)
    | some i =>
      match d.table.fields[i]? with
      | none => .error (.noSuchOneofField number)
      | some f =>
        if f.offset ≠ kHasbitPresence then .error (.cannotAddToOneof number)
        else
          -- prepend this field to the linked list
          let fields := d.table.fields.set i { f with offset := item.fieldIndex }
          .ok ({ d with table := { d.table with fields := fields } },
            ⟨toUint16 (i + kOneofBase), largerRep d.platform item.rep f.mode.rep⟩, rest)

/-- The loop of `upb_MtDecoder_DecodeOneofs`, which consumes at least one character a round. -/
def decodeOneofsLoop : ℕ → MtDecoder → OneOfLayoutItem → List ℕ → Except MdError MtDecoder
  | _, d, item, [] => pushOneof d item
  | 0, d, _, _ => .ok d
  | fuel + 1, d, item, ch :: rest =>
    if ch = kFieldSeparator then decodeOneofsLoop fuel d item rest
    else if ch = kOneofSeparator then do
      let d ← pushOneof d item
      decodeOneofsLoop fuel d { item with fieldIndex := kIndexSentinel } rest
    else do
      let (d, item, rest) ← decodeOneofField d ch rest item
      decodeOneofsLoop fuel d item rest

/-- `upb_MtDecoder_DecodeOneofs`, which reads to the end of the descriptor. -/
def decodeOneofs (d : MtDecoder) (rest : List ℕ) : Except MdError MtDecoder :=
  decodeOneofsLoop rest.length d ⟨kIndexSentinel, .rep1Byte⟩ rest

/-- The local state of `upb_MtDecoder_Parse`; the last field, once there is one, is the last one of
the table. -/
structure ParseState where
  d : MtDecoder
  msgModifiers : ℕ
  lastFieldNumber : ℕ
  needDenseBelow : Bool

/-- A new field at the end of the table. -/
def parseField (s : ParseState) (ch : ℕ) : Except MdError ParseState := do
  let number := (s.lastFieldNumber + 1) % 2 ^ 32
  if number = 0 ∨ kMaxFieldNumber < number then .error (.invalidFieldNumber number)
  else
    let (f, subCount) ← setField s.d ch number s.msgModifiers
    let table := { s.d.table with
      fields := s.d.table.fields ++ [f], fieldCount := toUint16 (s.d.table.fieldCount + 1) }
    .ok { s with d := { s.d with table, subCount }, lastFieldNumber := number }

/-- `upb_MtDecoder_ParseModifier`, with the extendable flag that its caller sets. -/
def parseModifier (s : ParseState) (ch : ℕ) (rest : List ℕ) :
    Except MdError (ParseState × List ℕ) :=
  match decodeVarint ch kMinModifier kMaxModifier rest with
  | none => .error .overlongVarint
  | some (mod, rest) => do
    let s ← match s.d.table.fields.getLast? with
      | some last => do
        let f ← modifyField mod last
        .ok { s with
          d := { s.d with table := { s.d.table with fields := s.d.table.fields.dropLast ++ [f] } } }
      | none => .ok { s with msgModifiers := mod }
    if s.msgModifiers.testBit 2 then
      .ok ({ s with d := { s.d with table := { s.d.table with
        ext := { s.d.table.ext with extendable := true } } } }, rest)
    else .ok (s, rest)

/-- `d->table.dense_below = d->table.field_count`, an assignment to a `uint8_t`. -/
def setDenseBelow (s : ParseState) : ParseState :=
  if s.needDenseBelow then
    { s with
      d := { s.d with table := { s.d.table with denseBelow := s.d.table.fieldCount % 2 ^ 8 } }
      needDenseBelow := false }
  else s

/-- A skip of field numbers. -/
def parseSkip (s : ParseState) (ch : ℕ) (rest : List ℕ) :
    Except MdError (ParseState × List ℕ) :=
  match decodeVarint ch kMinSkip kMaxSkip rest with
  | none => .error .overlongVarint
  | some (skip, rest) =>
    let s := setDenseBelow s
    -- the next field seen will increment
    .ok ({ s with lastFieldNumber := (s.lastFieldNumber + skip + (2 ^ 32 - 1)) % 2 ^ 32 }, rest)

/-- The loop of `upb_MtDecoder_Parse`, which consumes at least one character a round. -/
def parseLoop : ℕ → ParseState → List ℕ → Except MdError ParseState
  | _, s, [] => .ok s
  | 0, s, _ => .ok s
  | fuel + 1, s, ch :: rest =>
    if ch ≤ kMaxField then do
      let s ← parseField s ch
      parseLoop fuel s rest
    else if kMinModifier ≤ ch ∧ ch ≤ kMaxModifier then do
      let (s, rest) ← parseModifier s ch rest
      parseLoop fuel s rest
    else if ch = kEnd then do
      let d ← decodeOneofs s.d rest
      .ok { s with d }
    else if kMinSkip ≤ ch ∧ ch ≤ kMaxSkip then do
      let (s, rest) ← parseSkip s ch rest
      parseLoop fuel s rest
    else .error (.invalidChar ch)

/-- `upb_MtDecoder_Parse` of a message. -/
def parse (d : MtDecoder) (data : List ℕ) : Except MdError MtDecoder := do
  let s ← parseLoop data.length ⟨d, 0, 0, true⟩ data
  .ok (setDenseBelow s).d

end MiniDescriptor

end Upb
