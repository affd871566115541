import Upb.Message.Map
import Upb.Wire.InputStream
import Upb.Wire.Reader

/-!
# The encoder

`upb/wire/encode.c`. The encoder writes backwards; every function here returns the bytes that its C
counterpart writes in front of what is there already, and meets the errors in the same order. Calls
of `encode_message` nest to a given depth of calls at most, which the model needs because the items
of a message set do not count towards the depth limit.
-/

namespace Upb.Wire

/-- The codes of `upb_EncodeStatus` that can occur when allocations succeed, a null pointer that is
dereferenced, and the end of the nested calls that the model allows. -/
inductive EncodeError where
  | maxDepthExceeded | missingRequired | maxSizeExceeded | nullPointer | outOfFuel
  deriving DecidableEq

/-- What an encoding function writes. -/
abbrev Encoded := Except EncodeError (List UInt8)

/-- The options of `upb_Encode`. -/
structure EncodeOptions where
  deterministic : Bool := false
  skipUnknown : Bool := false
  checkRequired : Bool := false
  maxDepth : ℕ := 0

/-- `kUpb_WireFormat_DefaultDepthLimit`. -/
def defaultDepthLimit : ℕ := 100

/-- `upb_EncodeOptions_GetEffectiveMaxDepth` and `upb_DecodeOptions_GetEffectiveMaxDepth`. -/
def effectiveMaxDepth (maxDepth : ℕ) : ℕ := if maxDepth ≠ 0 then maxDepth else defaultDepthLimit

/-- `encode_tag`. -/
def encodeTag (number : ℕ) (wireType : WireType) : List UInt8 := encodeVarint (makeTag number wireType)

/-- `encode_length`. -/
def encodeLength (val : ℕ) : Encoded :=
  if int32Max < val then .error .maxSizeExceeded else .ok (encodeVarint val)

/-- The `n` bytes of a number, the least significant byte first. -/
def fixedBytes : ℕ → ℕ → List UInt8
  | 0, _ => []
  | n + 1, val => UInt8.ofNat (val % 256) :: fixedBytes n (val / 256)

/-- The conversion of the 32 bits of an `int32_t` to the 64 bits of an `int64_t`. -/
def signExtend (val : ℕ) : ℕ := if val < 2 ^ 31 then val else val + (2 ^ 64 - 2 ^ 32)

/-- `encode_zz32` and `encode_zz64`, on the bits of a number. -/
def encodeZz (bits val : ℕ) : ℕ :=
  (val * 2 % 2 ^ bits) ^^^ (if 2 ^ (bits - 1) ≤ val then 2 ^ bits - 1 else 0)

/-- The wire type and the bytes of a number; the other types have none. -/
def encodeNumber (type : FieldType) (val : ℕ) : Option (WireType × List UInt8) :=
  match type with
  | .double | .fixed64 | .sfixed64 => some (.bit64, fixedBytes 8 val)
  | .float | .fixed32 | .sfixed32 => some (.bit32, fixedBytes 4 val)
  | .int64 | .uint64 | .uint32 | .bool => some (.varint, encodeVarint val)
  | .int32 | .enum => some (.varint, encodeVarint (signExtend val))
  | .sint32 => some (.varint, encodeVarint (encodeZz 32 val))
  | .sint64 => some (.varint, encodeVarint (encodeZz 64 val))
  | .string | .bytes | .group | .message => none

/-- Writes something for each element, each in front of the one before. -/
def encodeBackwards {α : Type} (encode : α → Encoded) : List α → Encoded
  | [] => .ok []
  | a :: as => do
    let last ← encode a
    let front ← encodeBackwards encode as
    .ok (front ++ last)

/-- A function that writes a message of a table under a depth. -/
abbrev SubEncoder := (depth : ℕ) → TableId → Message → Encoded

/-- The message and the table of a sub-message that is written. -/
def subMessage (f : LinkedField) (s : Slot) : Except EncodeError (Message × TableId) :=
  match s.toMessage, f.sub.message with
  | some m, some t => .ok (m, t)
  | _, _ => .error .nullPointer

/-- One sub-message or group with its tags, under the depth that is left for it. -/
def encodeSubMessage (sub : SubEncoder) (depth : ℕ) (f : LinkedField) (s : Slot) : Encoded := do
  let (m, t) ← subMessage f s
  let body ← sub depth t m
  if f.field.descriptortype = .group then
    .ok (encodeTag f.field.number .startGroup ++ body ++ encodeTag f.field.number .endGroup)
  else do
    let len ← encodeLength body.length
    .ok (encodeTag f.field.number .delimited ++ len ++ body)

/-- One string with its tag. -/
def encodeString (f : LinkedField) (s : Slot) : Encoded := do
  let len ← encodeLength s.toStr.length
  .ok (encodeTag f.field.number .delimited ++ len ++ s.toStr)

/-- `encode_scalar`. -/
def encodeScalar (sub : SubEncoder) (depth : ℕ) (f : LinkedField) (s : Slot) : Encoded :=
  match f.field.descriptortype with
  | .string | .bytes => encodeString f s
  | .group | .message =>
    if s.toMessage.isNone then .ok []
    else if depth - 1 = 0 then .error .maxDepthExceeded
    else encodeSubMessage sub (depth - 1) f s
  | type =>
    match encodeNumber type s.toBits with
    | some (wireType, val) => .ok (encodeTag f.field.number wireType ++ val)
    | none => .ok []

/-- `encode_array`. -/
def encodeArray (sub : SubEncoder) (depth : ℕ) (f : LinkedField) (s : Slot) : Encoded :=
  if s.toArray = [] then .ok []
  else
    match f.field.descriptortype with
    | .string | .bytes => encodeBackwards (encodeString f) s.toArray.reverse
    | .group | .message =>
      if depth - 1 = 0 then .error .maxDepthExceeded
      else encodeBackwards (encodeSubMessage sub (depth - 1) f) s.toArray.reverse
    | type =>
      let elems := s.toArray.filterMap fun elem => encodeNumber type elem.toBits
      if f.field.isPacked then do
        let body := (elems.map (·.2)).flatten
        let len ← encodeLength body.length
        .ok (encodeTag f.field.number .delimited ++ len ++ body)
      else .ok (elems.map fun (wireType, val) => encodeTag f.field.number wireType ++ val).flatten

section

variable (sch : Schema) (hash : Hashes) (opts : EncodeOptions)

/-- `encode_mapentry`. -/
def encodeMapentry (sub : SubEncoder) (depth number : ℕ) (entry : TableId) (keySize : ℕ)
    (ent : MapKey × Slot) : Encoded :=
  match sch.field entry 0, sch.field entry 1 with
  | some keyField, some valField => do
    let val ← encodeScalar sub depth valField ent.2
    let key ← encodeScalar sub depth keyField (ent.1.toSlot keySize)
    let len ← encodeLength (key ++ val).length
    .ok (encodeTag number .delimited ++ len ++ key ++ val)
  | _, _ => .error .nullPointer

/-- `_upb_mapsorter_cmpstr`, as an order: the larger of two differing bytes comes first, and a prefix
comes before its extensions. -/
def cmpstr : List UInt8 → List UInt8 → Bool
  | [], _ => true
  | _ :: _, [] => false
  | a :: as, b :: bs => if a = b then cmpstr as bs else decide (b < a)

/-- The order of the entries of a map in `encode_map`: that of an iteration, or, for deterministic
output, the array part of an integer table and then the sorted entries of the hash part. -/
def mapOrder : MapTable → List (MapKey × ℕ)
  | .inttable t =>
    if opts.deterministic then
      let array := (List.range t.arraySize).filterMap fun k =>
        (t.arrayGet k).map fun v => (MapKey.int k, v)
      let sorted := (t.t.iterate (IntTable.ops hash.int)).mergeSort fun a b => decide (a.1 ≤ b.1)
      array ++ sorted.map fun p => (MapKey.int p.1, p.2)
    else (MapTable.inttable t).pairs hash
  | .strtable t =>
    if opts.deterministic then
      ((StrTable.pairs hash.str t).mergeSort fun a b => cmpstr a.1 b.1).map fun p => (.str p.1, p.2)
    else (MapTable.strtable t).pairs hash

/-- `encode_map`. -/
def encodeMap (sub : SubEncoder) (depth : ℕ) (f : LinkedField) (s : Slot) : Encoded :=
  match s with
  | .map keySize table values =>
    match f.sub.message with
    | none => .error .nullPointer
    | some entry =>
      encodeBackwards (encodeMapentry sch sub depth f.field.number entry keySize)
        ((mapOrder hash opts table).map fun p => (p.1, values[p.2]?.getD .zero))
  | _ => .ok []

/-- `encode_field`. -/
def encodeField (sub : SubEncoder) (depth : ℕ) (f : LinkedField) (s : Slot) : Encoded :=
  match f.field.mode.fieldMode with
  | .array => encodeArray sub depth f s
  | .map => encodeMap sch hash opts sub depth f s
  | .scalar => encodeScalar sub depth f s

/-- Whether the memory of a field is not zero. -/
def Slot.isNonzero : Slot → Bool
  | .zero => false
  | .bits val => val != 0
  | _ => true

/-- `encode_shouldencode`. -/
def encodeShouldencode (m : Message) (f : MiniTableField) : Bool :=
  if f.presence = 0 then
    match f.mode.rep with
    | .repStringView => !(m.data f).toStr.isEmpty
    | _ => Slot.isNonzero (m.data f)
  else if f.hasHasbit then m.getHasbit f
  else m.oneofCase f == f.number

/-- `encode_msgset_item`. -/
def encodeMsgsetItem (sub : SubEncoder) (depth : ℕ) (f : LinkedField) (s : Slot) : Encoded := do
  let (m, t) ← subMessage f s
  let body ← sub depth t m
  .ok (encodeTag 1 .startGroup ++ encodeTag 2 .varint ++ encodeVarint f.field.number ++
    encodeTag 3 .delimited ++ encodeVarint body.length ++ body ++ encodeTag 1 .endGroup)

/-- `encode_ext`. -/
def encodeExt (sub : SubEncoder) (depth : ℕ) (isMessageSet : Bool) (e : ExtId × Slot) : Encoded :=
  if isMessageSet then encodeMsgsetItem sub depth (sch.ext e.1) e.2
  else encodeField sch hash opts sub depth (sch.ext e.1) e.2

/-- `_upb_Extension_IsEmpty`. -/
def extensionIsEmpty (e : ExtId × Slot) : Bool :=
  match (sch.ext e.1).field.mode.fieldMode with
  | .scalar => false
  | .array => e.2.toArray.isEmpty
  | .map => (e.2.mapEntries hash).isEmpty

/-- `encode_exts`. -/
def encodeExts (sub : SubEncoder) (depth : ℕ) (ext : ExtMode) (m : Message) : Encoded :=
  if ext = ⟨false, false, false⟩ then .ok []
  else
    let present := m.exts.reverse.filter fun e => !extensionIsEmpty sch hash e
    let isMessageSet := ext = ⟨false, true, false⟩
    if present.isEmpty then .ok []
    else if opts.deterministic then
      encodeBackwards (encodeExt sch hash opts sub depth isMessageSet)
        (m.exts.mergeSort fun a b => decide ((sch.ext a.1).field.number ≤ (sch.ext b.1).field.number))
    else encodeBackwards (encodeExt sch hash opts sub depth isMessageSet) present

/-- The fields of a table with their sub-tables. -/
def linkedFields (t : TableId) : List LinkedField :=
  (List.range (sch.table t).fieldCount).filterMap (sch.field t)

/-- The body of `encode_message`. -/
def encodeMessageWith (sub : SubEncoder) (depth : ℕ) (t : TableId) (m : Message) : Encoded :=
  let table := sch.table t
  if opts.checkRequired ∧ table.requiredCount ≠ 0 ∧ ¬ m.isInitializedShallow table then
    .error .missingRequired
  else do
    let unknown := if opts.skipUnknown then [] else m.unknown
    let exts ← encodeExts sch hash opts sub depth table.ext m
    let fields ← encodeBackwards
      (fun f => encodeField sch hash opts sub depth f (m.data f.field))
      ((linkedFields sch t).filter fun f => encodeShouldencode m f.field).reverse
    .ok (fields ++ exts ++ unknown)

/-- `encode_message`, with at most `fuel` nested calls. -/
def encodeMessage : (fuel : ℕ) → SubEncoder
  | 0, _, _, _ => .error .outOfFuel
  | fuel + 1, depth, t, m => encodeMessageWith sch hash opts (encodeMessage fuel) depth t m

/-- `upb_Encode`. -/
def encode (fuel : ℕ) (t : TableId) (m : Message) : Encoded :=
  encodeMessage sch hash opts fuel (effectiveMaxDepth opts.maxDepth) t m

end

end Upb.Wire
