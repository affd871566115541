import Upb.Wire.Encode

/-!
# The decoder

`upb/wire/decode.c` without the fast tables, over any stream. The recursion depth that is left is an
argument; nested calls are bounded by a number larger than that depth, so that the check of the depth
comes first. Every loop has `fuel` rounds. The strings of the result are byte strings: whether they alias the input does not show.
-/

namespace Upb.Wire

open Upb.Common (Prog)

/-- What `upb_Decode` is given besides the input and the message. -/
structure DecodeConfig where
  schema : Schema
  hash : Hashes
  /-- `utf8_range_IsValid`. -/
  validUtf8 : List UInt8 → Bool
  /-- `kUpb_DecodeOption_CheckRequired`. -/
  checkRequired : Bool
  /-- `kUpb_DecodeOption_AlwaysValidateUtf8`. -/
  alwaysValidateUtf8 : Bool

/-- A message that is being decoded, and `missing_required`. -/
structure Decoding where
  msg : Message
  missingRequired : Bool

/-- The result of `_upb_Decoder_FindField`. -/
inductive Found where
  /-- `kUpb_FakeFieldType_FieldNotFound`. -/
  | notFound
  /-- `kUpb_FakeFieldType_MessageSetItem`. -/
  | messageSetItem
  /-- A field of the table or, if it has a number, of an extension. -/
  | field (f : LinkedField) (ext : Option ExtId)

/-- The actions for the combinations of wire types and field types. -/
inductive DecodeOp where
  | unknownField | messageSetItem
  /-- A number of `2^lg2` bytes. -/
  | scalar (lg2 : ℕ)
  | string | bytes | subMessage
  | fixedPacked (lg2 : ℕ) | varintPacked (lg2 : ℕ) | packedEnum
  deriving DecidableEq

/-- `_upb_Decoder_Munge` of a 64-bit value. -/
def munge (type : FieldType) (val : ℕ) : ℕ :=
  match type with
  | .bool => if val ≠ 0 then 1 else 0
  | .sint32 => (val % 2 ^ 32 / 2) ^^^ (if val % 2 = 1 then 2 ^ 32 - 1 else 0)
  | .sint64 => (val / 2) ^^^ (if val % 2 = 1 then 2 ^ 64 - 1 else 0)
  | _ => val

/-- `_upb_Decoder_GetVarintOp`. -/
def getVarintOp : FieldType → DecodeOp
  | .int64 | .uint64 | .sint64 => .scalar 3
  | .int32 | .uint32 | .enum | .sint32 => .scalar 2
  | .bool => .scalar 0
  | _ => .unknownField

/-- The first half of `kDelimitedOps`. -/
def delimitedOp : FieldType → DecodeOp
  | .string => .string
  | .message => .subMessage
  | .bytes => .bytes
  | _ => .unknownField

/-- The second half of `kDelimitedOps`, for repeated fields. -/
def repeatedDelimitedOp : FieldType → DecodeOp
  | .double | .fixed64 | .sfixed64 => .fixedPacked 3
  | .float | .fixed32 | .sfixed32 => .fixedPacked 2
  | .int64 | .uint64 | .sint64 => .varintPacked 3
  | .int32 | .uint32 | .sint32 => .varintPacked 2
  | .bool => .varintPacked 0
  | .string => .string
  | .group | .message => .subMessage
  | .bytes => .bytes
  | .enum => .packedEnum

/-- `_upb_Decoder_CheckUnlinked`. -/
def checkUnlinked (f : LinkedField) (op : DecodeOp) : DecodeOp :=
  if f.field.mode.isExtension then op
  else if f.sub.message.isSome then op
  else .unknownField

/-- `kSizeInMap`; the size of a string is 0. -/
def sizeInMap : FieldType → ℕ
  | .double | .int64 | .uint64 | .fixed64 | .sfixed64 | .sint64 => 8
  | .float | .int32 | .fixed32 | .uint32 | .enum | .sfixed32 | .sint32 => 4
  | .bool => 1
  | .string | .bytes => 0
  | .group | .message => 8

/-- The numbers of `2^lg2` bytes that follow each other in `data`. -/
def fixedElems (lg2 : ℕ) : (count : ℕ) → (data : List UInt8) → List Slot
  | 0, _ => []
  | count + 1, data =>
    .bits (littleEndian (data.take (2 ^ lg2))) :: fixedElems lg2 count (data.drop (2 ^ lg2))

/-- The part of a 64-bit value that is stored. -/
def storeBits (lg2 val : ℕ) : Slot := .bits (val % 2 ^ (8 * 2 ^ lg2))

section

variable {σ : Type} (S : Stream σ) (cfg : DecodeConfig) (fuel : ℕ)

/-- A call of `_upb_Decoder_DecodeMessage` with a depth: the message and the number of the end group
tag, if one ended it. -/
abbrev SubDecoder (σ : Type) :=
  (depth : ℕ) → TableId → Decoding → Reading σ (Decoding × Option ℕ)

/-- `_upb_Decoder_FindExtensionField`. -/
def findExtensionField (reg : TableId → ℕ → Option ExtId) (t : TableId) (number : ℕ)
    (extMode : ExtMode) (wireType : Option WireType) : Found :=
  if extMode = ⟨true, false, false⟩ ∨
      (extMode = ⟨false, true, false⟩ ∧ wireType = some .delimited) then
    match reg t number with
    | some e => .field (cfg.schema.ext e) (some e)
    | none => .notFound
  else if extMode = ⟨false, true, false⟩ ∧ number = 1 then .messageSetItem
  else .notFound

/-- `_upb_Decoder_FindField`. -/
def findField (t : TableId) (number : ℕ) (wireType : Option WireType) : Found :=
  match ((cfg.schema.table t).findFieldByNumber number).bind (cfg.schema.field t) with
  | some f => .field f none
  | none =>
    match cfg.schema.extreg with
    | some reg => findExtensionField cfg reg t number (cfg.schema.table t).ext wireType
    | none => .notFound

/-- `_upb_Decoder_FieldRequiresUtf8Validation` of a field that is read as bytes. -/
def maybeVerifyUtf8 (f : MiniTableField) : DecodeOp :=
  if f.descriptortype = .bytes ∧ f.mode.isAlternate ∧ cfg.alwaysValidateUtf8 then .string else .bytes

/-- `_upb_Decoder_GetDelimitedOp`. -/
def getDelimitedOp : Found → DecodeOp
  | .field f _ =>
    let op := if f.field.isArray then repeatedDelimitedOp f.field.descriptortype
      else delimitedOp f.field.descriptortype
    match op with
    | .subMessage => checkUnlinked f .subMessage
    | .bytes => maybeVerifyUtf8 cfg f.field
    | op => op
  | _ => .unknownField

/-- `_upb_Decoder_DecodeWireValue`: the action and the value, which is a size for delimited data. -/
def decodeWireValue (found : Found) (wireType : Option WireType) : Reading σ (DecodeOp × ℕ) :=
  match wireType with
  | some .varint => do
    let val ← readVarint S
    match found with
    | .field f _ =>
      if f.field.isClosedEnum then
        if f.sub.checkEnum (val % 2 ^ 32) then pure (getVarintOp f.field.descriptortype, val)
        else pure (.unknownField, val)
      else pure (getVarintOp f.field.descriptortype, munge f.field.descriptortype val)
    | _ => pure (.unknownField, val)
  | some .bit32 => do
    let val ← S.readFixed 4
    match found with
    | .field f _ =>
      match f.field.descriptortype with
      | .float | .fixed32 | .sfixed32 => pure (.scalar 2, val)
      | _ => pure (.unknownField, val)
    | _ => pure (.unknownField, val)
  | some .bit64 => do
    let val ← S.readFixed 8
    match found with
    | .field f _ =>
      match f.field.descriptortype with
      | .double | .fixed64 | .sfixed64 => pure (.scalar 3, val)
      | _ => pure (.unknownField, val)
    | _ => pure (.unknownField, val)
  | some .delimited => do
    let size ← readSize S
    pure (getDelimitedOp cfg found, size)
  | some .startGroup =>
    match found with
    | .field f _ =>
      if f.field.descriptortype = .group then pure (checkUnlinked f .subMessage, 0)
      else pure (.unknownField, 0)
    | .messageSetItem => pure (.messageSetItem, 0)
    | .notFound => pure (.unknownField, 0)
  | some .endGroup => throw .malformed
  | none => throw .malformed

/-- `_upb_Decoder_ReadString2`. -/
def readString (size : ℕ) (validateUtf8 : Bool) : Reading σ Slot := do
  let view ← S.readStringAlwaysAlias size
  if validateUtf8 ∧ ¬ cfg.validUtf8 view.data then throw .badUtf8
  else pure (.str view.data)

/-- `_upb_Decoder_RecurseSubMessage`. -/
def recurseSubMessage (sub : SubDecoder σ) (depth : ℕ) (t : TableId) (d : Decoding)
    (expectedEndGroup : Option ℕ) : Reading σ Decoding :=
  match depth with
  | 0 => throw .maxDepthExceeded
  | depth + 1 => do
    let (d, endGroup) ← sub depth t d
    if endGroup ≠ expectedEndGroup then throw .malformed else pure d

/-- `_upb_Decoder_DecodeSubMessage` and `_upb_Decoder_DecodeKnownGroup`: a sub-message of a field. -/
def decodeSubMessage (sub : SubDecoder σ) (depth : ℕ) (f : LinkedField) (d : Decoding) (size : ℕ) :
    Reading σ Decoding :=
  match f.sub.message with
  | none => throw .nullPointer
  | some t =>
    if f.field.descriptortype = .group then do
      if ← S.isDone then throw .malformed
      else recurseSubMessage sub depth t d (some f.field.number)
    else S.withLimit size (recurseSubMessage sub depth t d none)

/-- `_upb_Decoder_DecodeFixedPacked`. -/
def decodeFixedPacked (lg2 size : ℕ) : Reading σ (List Slot) := do
  let data ← S.readStringEphemeral size
  if size % 2 ^ lg2 ≠ 0 then throw .malformed
  else pure (fixedElems lg2 (size / 2 ^ lg2) data)

/-- `_upb_Decoder_DecodeVarintPacked`. -/
def decodeVarintPacked (type : FieldType) (lg2 size : ℕ) : Reading σ (List Slot) :=
  S.withLimit size
    (Prog.loop S.isDone .outOfFuel
      (fun elems => do
        let val ← readVarint S
        pure (.inl (elems ++ [storeBits lg2 (munge type val)])))
      pure fuel [])

/-- `_upb_Decoder_AddEnumValueToUnknown`: the bytes that are added. -/
def enumValueUnknown (number val : ℕ) : List UInt8 :=
  encodeVarint (makeTag number .varint) ++ encodeVarint (val % 2 ^ 32)

/-- `_upb_Decoder_DecodeEnumPacked`: the elements and the unknown bytes. -/
def decodeEnumPacked (f : LinkedField) (size : ℕ) : Reading σ (List Slot × List UInt8) :=
  S.withLimit size
    (Prog.loop S.isDone .outOfFuel
      (fun (elems, unknown) => do
        let val ← readVarint S
        pure (.inl (if f.sub.checkEnum (val % 2 ^ 32) then (elems ++ [storeBits 2 val], unknown)
          else (elems, unknown ++ enumValueUnknown f.field.number val))))
      pure fuel ([], []))

/-- `_upb_Decoder_DecodeToArray`. -/
def decodeToArray (sub : SubDecoder σ) (depth : ℕ) (f : LinkedField) (d : Decoding) (op : DecodeOp)
    (val : ℕ) : Reading σ Decoding :=
  let arr := (d.msg.data f.field).toArray
  let store (elems : List Slot) : Decoding :=
    { d with msg := d.msg.setData f.field (.array (arr ++ elems)) }
  match op with
  | .scalar lg2 => pure (store [storeBits lg2 val])
  | .string => do
    let s ← readString S cfg val true
    pure (store [s])
  | .bytes => do
    let s ← readString S cfg val false
    pure (store [s])
  | .subMessage => do
    let r ← decodeSubMessage S sub depth f ⟨.new, d.missingRequired⟩ val
    pure { store [.ofMessage r.msg] with missingRequired := r.missingRequired }
  | .fixedPacked lg2 => do
    let elems ← decodeFixedPacked S lg2 val
    pure (store elems)
  | .varintPacked lg2 => do
    let elems ← decodeVarintPacked S fuel f.field.descriptortype lg2 val
    pure (store elems)
  | .packedEnum => do
    let (elems, unknown) ← decodeEnumPacked S fuel f val
    let d := store elems
    pure { d with msg := d.msg.addUnknown unknown }
  | .unknownField | .messageSetItem => pure d

/-- `_upb_Decoder_CheckRequired` of a table with required fields. -/
def checkRequired (t : TableId) (msg : Message) (missingRequired : Bool) : Bool :=
  if (cfg.schema.table t).requiredCount ≠ 0 ∧ cfg.checkRequired then
    missingRequired || !msg.isInitializedShallow (cfg.schema.table t)
  else missingRequired

/-- `_upb_Decoder_AddMapEntryUnknown`: the bytes that are added. Messages decoded under the depth that
is left do not nest deeper than it, so the encoder has enough calls. -/
def mapEntryUnknown (depth number : ℕ) (entry : TableId) (ent : Message) : Option (List UInt8) :=
  match encode cfg.schema cfg.hash {} (depth + 2) entry ent with
  | .ok buf =>
    some (encodeVarint (makeTag number .delimited) ++ encodeVarint (buf.length % 2 ^ 32) ++ buf)
  | .error _ => none

/-- The value field of a map entry, with the table of its messages. -/
def mapValueMessage (entry : TableId) : Option (MiniTableField × TableId) :=
  match cfg.schema.field entry 1 with
  | some f => if f.field.isSubMessage then f.sub.message.map fun t => (f.field, t) else none
  | none => none

/-- The empty entry of `_upb_Decoder_DecodeToMap`; its sub-message is created in advance. -/
def newMapEntry (entry : TableId) : Message :=
  match mapValueMessage cfg entry with
  | some (f, _) => Message.new.setData f (.ofMessage .new)
  | none => .new

/-- The map of a field, created if it is null. -/
def mapOrNew (entry : TableId) (s : Slot) : Option Slot :=
  match s with
  | .map keySize table values => some (.map keySize table values)
  | _ =>
    (cfg.schema.field entry 0).bind fun key =>
      let keySize := sizeInMap key.field.descriptortype
      (MapTable.new cfg.hash keySize).map fun table => .map keySize table []

/-- The insertion of a decoded entry into the map. -/
def mapInsertEntry (entry : TableId) (ent : Message) (s : Slot) : Option Slot :=
  match cfg.schema.field entry 0, cfg.schema.field entry 1 with
  | some key, some val =>
    (mapOrNew cfg entry s).bind fun map =>
      map.mapInsert cfg.hash (ent.data key.field) (ent.data val.field)
  | _, _ => none

/-- `_upb_Decoder_DecodeToMap`. -/
def decodeToMap (sub : SubDecoder σ) (depth : ℕ) (f : LinkedField) (d : Decoding) (size : ℕ) :
    Reading σ Decoding :=
  match f.sub.message with
  | none => throw .nullPointer
  | some entry => do
    let r ← decodeSubMessage S sub depth f ⟨newMapEntry cfg entry, d.missingRequired⟩ size
    let missing := match mapValueMessage cfg entry with
      | some (vf, vt) =>
        match (r.msg.data vf).toMessage with
        | some value => checkRequired cfg vt value r.missingRequired
        | none => r.missingRequired
      | none => r.missingRequired
    if r.msg.unknown ≠ [] then
      match mapOrNew cfg entry (d.msg.data f.field),
        mapEntryUnknown cfg depth f.field.number entry r.msg with
      | some map, some data => pure ⟨(d.msg.setData f.field map).addUnknown data, missing⟩
      | _, _ => throw .outOfMemory
    else
      match mapInsertEntry cfg entry r.msg (d.msg.data f.field) with
      | some map => pure ⟨d.msg.setData f.field map, missing⟩
      | none => throw .outOfMemory

/-- How `_upb_Decoder_DecodeToSubMessage` sets the presence of a field. -/
def setPresence (m : Message) (f : MiniTableField) (op : DecodeOp) : Message :=
  if f.hasHasbit then m.setHasbit f
  else if f.isInOneof then
    let m := if op = .subMessage ∧ m.oneofCase f ≠ f.number then m.setData f .zero else m
    m.setOneofCase f
  else m

/-- `_upb_Decoder_DecodeToSubMessage`. -/
def decodeToSubMessage (sub : SubDecoder σ) (depth : ℕ) (f : LinkedField) (d : Decoding)
    (op : DecodeOp) (val : ℕ) : Reading σ Decoding :=
  let d := { d with msg := setPresence d.msg f.field op }
  match op with
  | .subMessage => do
    let submsg := (d.msg.data f.field).toMessage.getD .new
    let r ← decodeSubMessage S sub depth f ⟨submsg, d.missingRequired⟩ val
    pure ⟨d.msg.setData f.field (.ofMessage r.msg), r.missingRequired⟩
  | .string => do
    let s ← readString S cfg val true
    pure { d with msg := d.msg.setData f.field s }
  | .bytes => do
    let s ← readString S cfg val false
    pure { d with msg := d.msg.setData f.field s }
  | .scalar lg2 => pure { d with msg := d.msg.setData f.field (storeBits lg2 val) }
  | _ => pure d

/-- The part of `_upb_Decoder_DecodeKnownField` that depends on the mode of the field. -/
def decodeToField (sub : SubDecoder σ) (depth : ℕ) (f : LinkedField) (d : Decoding) (op : DecodeOp)
    (val : ℕ) : Reading σ Decoding :=
  match f.field.mode.fieldMode with
  | .array => decodeToArray S cfg fuel sub depth f d op val
  | .map => decodeToMap S cfg sub depth f d val
  | .scalar => decodeToSubMessage S cfg sub depth f d op val

/-- The data of an extension as a message with one field. -/
def extMessage (f : MiniTableField) (s : Slot) : Message := Message.new.setData f s

/-- `_upb_Decoder_DecodeKnownField`. The data of an extension is decoded like a message with that one
field; unknown enum values go to the message that is extended. -/
def decodeKnownField (sub : SubDecoder σ) (depth : ℕ) (f : LinkedField) (ext : Option ExtId)
    (d : Decoding) (op : DecodeOp) (val : ℕ) : Reading σ Decoding :=
  match ext with
  | none => decodeToField S cfg fuel sub depth f d op val
  | some e => do
    let data := (d.msg.getext e).getD .zero
    let r ← decodeToField S cfg fuel sub depth f ⟨extMessage f.field data, d.missingRequired⟩ op val
    pure ⟨(d.msg.setExt e (r.msg.data f.field)).addUnknown r.msg.unknown, r.missingRequired⟩

/-- The rest of the value of an unknown field. -/
def skipUnknown (depth number : ℕ) (wireType : Option WireType) (val : ℕ) : Reading σ Unit :=
  match wireType with
  | some .delimited => do let _ ← S.readStringEphemeral val
  | some .startGroup => skipGroup S fuel depth (number * 8)
  | _ => pure ()

/-- `_upb_Decoder_DecodeUnknownField`. -/
def decodeUnknownField (depth : ℕ) (d : Decoding) (number : ℕ) (wireType : Option WireType)
    (val : ℕ) : Reading σ Decoding :=
  if number = 0 then throw .malformed
  else do
    S.startCapture
    skipUnknown S fuel depth number wireType val
    let data ← S.endCapture
    pure { d with msg := d.msg.addUnknown data }

/-- `_upb_Decoder_DecodeTop`. -/
def decodeTop (sub : SubDecoder σ) (depth : ℕ) (t : TableId) (m : Message) : Reading σ Message := do
  let (d, endGroup) ← sub depth t ⟨m, false⟩
  if endGroup ≠ none then throw .malformed
  else if d.missingRequired then throw .missingRequired
  else pure d.msg

/-- `upb_Decoder_AddUnknownMessageSetItem`: the bytes that are added. -/
def messageSetItemUnknown (typeId : ℕ) (data : List UInt8) : List UInt8 :=
  encodeTag 1 .startGroup ++ encodeTag 2 .varint ++ encodeVarint typeId ++ encodeTag 3 .delimited ++
    encodeVarint data.length ++ data ++ encodeTag 1 .endGroup

/-- `upb_Decoder_AddMessageSetItem`. The payload of a known item is decoded by `upb_Decode`; the
options of the decoder have lost the depth limit, so that the default limit applies as well. -/
def addMessageSetItem (sub : SubDecoder σ) (depth : ℕ) (t : TableId) (d : Decoding) (typeId : ℕ)
    (payload : View) : Reading σ Decoding :=
  match cfg.schema.extreg.bind fun reg => reg t typeId with
  | some e =>
    match (cfg.schema.ext e).sub.message with
    | none => throw .nullPointer
    | some itemTable =>
      if depth ≤ 1 then throw .maxDepthExceeded
      else do
        let m ← S.nested payload
          (decodeTop sub (min defaultDepthLimit (depth - 1)) itemTable .new)
        pure { d with msg := d.msg.setExt e (.ofMessage m) }
  | none => pure { d with msg := d.msg.addUnknown (messageSetItemUnknown typeId payload.data) }

/-- The state of the loop of `upb_Decoder_DecodeMessageSetItem`. -/
structure ItemState where
  decoding : Decoding
  typeId : Option ℕ
  payload : Option View

/-- One round of the loop of `upb_Decoder_DecodeMessageSetItem`. -/
def messageSetItemStep (sub : SubDecoder σ) (depth : ℕ) (t : TableId) (st : ItemState) :
    Reading σ (ItemState ⊕ Decoding) := do
  let tag ← readTag S
  if tag = makeTag 1 .endGroup then pure (.inr st.decoding)
  else if tag = makeTag 2 .varint then do
    let tmp ← readVarint S
    match st.typeId with
    | some _ => pure (.inl st)
    | none =>
      let typeId := tmp % 2 ^ 32
      match st.payload with
      | some payload =>
        let d ← addMessageSetItem S cfg sub depth t st.decoding typeId payload
        pure (.inl ⟨d, some typeId, st.payload⟩)
      | none => pure (.inl { st with typeId := some typeId })
  else if tag = makeTag 3 .delimited then do
    let size ← readSize S
    let view ← S.readStringAlwaysAlias size
    match st.payload with
    | some _ => pure (.inl st)
    | none =>
      match st.typeId with
      | some typeId =>
        let d ← addMessageSetItem S cfg sub depth t st.decoding typeId view
        pure (.inl ⟨d, st.typeId, some view⟩)
      | none => pure (.inl { st with payload := some view })
  else do
    skipValue S (skipGroup S fuel depth) tag
    pure (.inl st)

/-- `upb_Decoder_DecodeMessageSetItem`. -/
def decodeMessageSetItem (sub : SubDecoder σ) (depth : ℕ) (t : TableId) (d : Decoding) :
    Reading σ Decoding :=
  Prog.loop S.isDone .outOfFuel (messageSetItemStep S cfg fuel sub depth t) (fun _ => throw .malformed)
    fuel ⟨d, none, none⟩

/-- `_upb_Decoder_DecodeFieldData`. -/
def decodeFieldData (sub : SubDecoder σ) (depth : ℕ) (t : TableId) (d : Decoding) (number : ℕ)
    (wireType : Option WireType) : Reading σ Decoding := do
  let found := findField cfg t number wireType
  let (op, val) ← decodeWireValue S cfg found wireType
  match op with
  | .unknownField => decodeUnknownField S fuel depth d number wireType val
  | .messageSetItem => decodeMessageSetItem S cfg fuel sub depth t d
  | op =>
    match found with
    | .field f ext => decodeKnownField S cfg fuel sub depth f ext d op val
    | _ => pure d

/-- `_upb_Decoder_DecodeFieldNoFast`. -/
def decodeField (sub : SubDecoder σ) (depth : ℕ) (t : TableId) (d : Decoding) :
    Reading σ (Decoding ⊕ (Decoding × Option ℕ)) := do
  S.mark
  let tag ← readTag S
  let number := getFieldNumber tag
  let wireType := getWireType tag
  if wireType = some .endGroup then pure (.inr (d, some number))
  else do
    let d ← decodeFieldData S cfg fuel sub depth t d number wireType
    pure (.inl d)

/-- The body of `_upb_Decoder_DecodeMessage`. -/
def decodeMessageWith (sub : SubDecoder σ) : SubDecoder σ := fun depth t d => do
  let (d, endGroup) ← Prog.loop S.isDone .outOfFuel (decodeField S cfg fuel sub depth t)
    (fun d => pure (d, none)) fuel d
  pure (⟨d.msg, checkRequired cfg t d.msg d.missingRequired⟩, endGroup)

/-- `_upb_Decoder_DecodeMessage`, with at most `calls` nested calls. -/
def decodeMessage : (calls : ℕ) → SubDecoder σ
  | 0 => fun _ _ _ => throw .maxDepthExceeded
  | calls + 1 => decodeMessageWith S cfg fuel (decodeMessage calls)

/-- `upb_Decode` under a depth limit, on a stream over the input. -/
def decode (maxDepth : ℕ) (t : TableId) (m : Message) : Reading σ Message :=
  let depth := effectiveMaxDepth maxDepth
  decodeTop (decodeMessage S cfg fuel (depth + 1)) depth t m

end

end Upb.Wire
