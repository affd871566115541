import Upb.Php.GPBWire

/-!
# Messages of the PHP runtime

`FieldDescriptor.php` and the reading half of `Message.php` on a 64-bit platform, without groups. The
classes of a schema are a type `κ`, and `pool` gives the declared fields of each of them. An object
has one content for each declared field of its class, in the same order.
-/

namespace Upb.Php

/-- The type of a field or of the values of a map; a message type with its class. -/
inductive FieldType (κ : Type) where
  | scalar (type : ScalarType)
  | message (klass : κ)
  deriving DecidableEq

/-- What a field holds. A singular field may belong to a oneof, and an optional scalar belongs to one
of its own. -/
inductive FieldKind (κ : Type) where
  | singular (type : FieldType κ) (oneofIndex : Option ℕ)
  | repeated (type : FieldType κ) (packed : Bool)
  | map (key : ScalarType) (value : FieldType κ)
  deriving DecidableEq

/-- `FieldDescriptor`. -/
structure FieldDescriptor (κ : Type) where
  number : ℕ
  kind : FieldKind κ
  deriving DecidableEq

/-- What a property of an object holds: a value, `null` for a message or a member of a oneof that is
not set, a repeated field or a map; and an object, with its unknown fields. -/
inductive Datum (κ : Type) where
  | null
  | scalar (v : Scalar)
  | message (klass : κ) (contents : List (Datum κ)) (unknown : List UInt8)
  | repeated (elements : List (Datum κ))
  | map (entries : List (Scalar × Datum κ))

/-- The properties of an object: the contents of the declared fields, and `unknown`. -/
structure Properties (κ : Type) where
  contents : List (Datum κ)
  unknown : List UInt8

/-- `GPBWire::getTagFieldNumber`. -/
def getTagFieldNumber (tag : PhpInt) : ℕ := (tag.sshiftRight 3 &&& 0x1fffffff).toNat

/-- `GPBWire::getTagWireType`. -/
def getTagWireType (tag : PhpInt) : ℕ := (tag &&& 0x7).toNat

variable {κ : Type}

namespace FieldType

/-- `GPBWire::getWireType`. -/
def wireType : FieldType κ → ℕ
  | .scalar type => type.getWireType
  | .message _ => 2

end FieldType

namespace FieldDescriptor

/-- `GPBWire::getWireType` of the type; that of a map is a message type. -/
def wireType (field : FieldDescriptor κ) : ℕ :=
  match field.kind with
  | .singular type _ => type.wireType
  | .repeated type _ => type.wireType
  | .map _ _ => 2

/-- `isPackable`, with the type. -/
def packable (field : FieldDescriptor κ) : Option ScalarType :=
  match field.kind with
  | .repeated (.scalar type) _ => if type.isPackable then some type else none
  | _ => none

/-- The content of a field before it is set. -/
def initial (field : FieldDescriptor κ) : Datum κ :=
  match field.kind with
  | .singular (.scalar type) none => .scalar type.defaultValue
  | .singular _ _ => .null
  | .repeated _ _ => .repeated []
  | .map _ _ => .map []

/-- Two members of one oneof. -/
def sameOneof (field other : FieldDescriptor κ) : Bool :=
  match field.kind, other.kind with
  | .singular _ (some i), .singular _ (some j) => i == j
  | _, _ => false

end FieldDescriptor

/-- The properties of a new object. -/
def newObject (fields : List (FieldDescriptor κ)) : Properties κ where
  contents := fields.map FieldDescriptor.initial
  unknown := []

/-- `getFieldByNumber`. -/
def getFieldByNumber (fields : List (FieldDescriptor κ)) (number : ℕ) : Option (FieldDescriptor κ) :=
  fields.find? (·.number = number)

namespace Properties

/-- The getter of a field. -/
def get (fields : List (FieldDescriptor κ)) (object : Properties κ) (field : FieldDescriptor κ) :
    Datum κ :=
  (((fields.zip object.contents).find? (·.1.number = field.number)).map Prod.snd).getD .null

/-- The content of a field is replaced; the other members of its oneof are not set any more. -/
def set (fields : List (FieldDescriptor κ)) (object : Properties κ) (field : FieldDescriptor κ)
    (content : Datum κ) : Properties κ where
  contents := List.zipWith (fun f old =>
    if f.number = field.number then content else if f.sameOneof field then .null else old)
    fields object.contents
  unknown := object.unknown

end Properties

/-- The check of a setter or of `offsetSet`. -/
def checkValue (utf8 : List UInt8 → Bool) (type : FieldType κ) (value : Datum κ) :
    Except Exception (Datum κ) :=
  match type, value with
  | .scalar type, .scalar v => (type.check utf8 v).map .scalar
  | _, value => .ok value

/-- `appendHelper`. -/
def appendHelper (utf8 : List UInt8 → Bool) (fields : List (FieldDescriptor κ))
    (object : Properties κ) (field : FieldDescriptor κ) (type : FieldType κ) (value : Datum κ) :
    Except Exception (Properties κ) :=
  match object.get fields field with
  | .repeated elements =>
    (checkValue utf8 type value).map fun value => object.set fields field (.repeated (elements ++ [value]))
  | _ => .ok object

/-- The entry of a key is replaced, or added at the end. -/
def updateEntry (key : Scalar) (value : Datum κ) : List (Scalar × Datum κ) → List (Scalar × Datum κ)
  | [] => [(key, value)]
  | (k, v) :: entries =>
    if k = key then (key, value) :: entries else (k, v) :: updateEntry key value entries

/-- `kvUpdateHelper`, with the checks of `MapField::offsetSet`. -/
def kvUpdateHelper (utf8 : List UInt8 → Bool) (fields : List (FieldDescriptor κ))
    (object : Properties κ) (field : FieldDescriptor κ) (keyType : ScalarType) (type : FieldType κ)
    (key : Scalar) (value : Datum κ) : Except Exception (Properties κ) :=
  match object.get fields field with
  | .map entries => do
    let key ← keyType.check utf8 key
    let value ← checkValue utf8 type value
    return object.set fields field (.map (updateEntry key value entries))
  | _ => .ok object

/-- The fields of a `MapEntry`. -/
def entryFields (key : ScalarType) (value : FieldType κ) : List (FieldDescriptor κ) :=
  [⟨1, .singular (.scalar key) none⟩, ⟨2, .singular value none⟩]

/-- `skipField`: the bytes that are added to the unknown fields. -/
def skipField (s : CodedInputStream) (tag : PhpInt) :
    Except Exception (List UInt8 × CodedInputStream) :=
  if getTagFieldNumber tag = 0 then .error (.decode "Illegal field number zero.")
  else do
    let start := s.position
    let s ←
      match getTagWireType tag with
      | 0 => (orThrow "Unexpected EOF inside varint." s.readVarint64).map Prod.snd
      | 1 => (orThrow "Unexpected EOF inside fixed64." s.readLittleEndian64).map Prod.snd
      | 5 => (orThrow "Unexpected EOF inside fixed32." s.readLittleEndian32).map Prod.snd
      | 2 => do
        let (length, s) ← orThrow "Unexpected EOF inside length." s.readVarint32
        (orThrow "Unexpected EOF inside length delimited data." (s.readRaw length.toInt)).map Prod.snd
      | _ => .error (.decode "Unexpected wire type.")
    .ok (writeVarintToArray tag ++ s.substr start s.position, s)

/-- How an object is read from a stream: `parseFromStream` of a message with these fields, or of a
`MapEntry`, whose setters make no checks. -/
abbrev Parser (κ : Type) := Bool → List (FieldDescriptor κ) → Properties κ → CodedInputStream →
  Except Exception (Properties κ × CodedInputStream)

/-- `GPBWire::readMessage`, where `false` makes the caller throw. -/
def readMessage (parse : Properties κ → CodedInputStream → Except Exception (Properties κ × CodedInputStream))
    (object : Properties κ) (s : CodedInputStream) : Except Exception (Properties κ × CodedInputStream) := do
  let (length, s) ← orThrow "Unexpected EOF inside message." s.readVarint64
  match s.incrementRecursionDepthAndPushLimit length.toInt with
  | none => .error (.decode "Fail to push limit.")
  | some (oldLimit, s) =>
    if s.recursionBudget < 0 then .error (.decode "Unexpected EOF inside message.")
    else do
      let (object, s) ← parse object s
      let (legitimate, s) := s.decrementRecursionDepthAndPopLimit oldLimit
      if legitimate then .ok (object, s) else .error (.decode "Unexpected EOF inside message.")

section Parsing

variable (pool : κ → List (FieldDescriptor κ)) (utf8 : List UInt8 → Bool) (parse : Parser κ)

/-- `parseFieldFromStreamNoTag` of a field that is no map. -/
def readValue (type : FieldType κ) (s : CodedInputStream) : Except Exception (Datum κ × CodedInputStream) :=
  match type with
  | .scalar type => (type.read s).map fun (v, s) => (.scalar v, s)
  | .message klass =>
    (readMessage (parse false (pool klass)) (newObject (pool klass)) s).map
      fun (object, s) => (.message klass object.contents object.unknown, s)

/-- A new `MapEntry`: its value is a new object, if it is a message. -/
def newEntry (key : ScalarType) (value : FieldType κ) : Properties κ where
  contents := [.scalar key.defaultValue,
    match value with
    | .scalar type => .scalar type.defaultValue
    | .message klass => .message klass (newObject (pool klass)).contents []]
  unknown := []

/-- `parseFieldFromStreamNoTag` of a map: the key and the value of the entry. -/
def readEntry (key : ScalarType) (value : FieldType κ) (s : CodedInputStream) :
    Except Exception (Scalar × Datum κ × CodedInputStream) :=
  (readMessage (parse true (entryFields key value)) (newEntry pool key value) s).map fun (entry, s) =>
    match entry.contents with
    | [.scalar k, v] => (k, v, s)
    | _ => (key.defaultValue, .null, s)

/-- The loop over the elements of a packed field. -/
def packedLoop (fields : List (FieldDescriptor κ)) (field : FieldDescriptor κ) (type : ScalarType) :
    ℕ → Properties κ → CodedInputStream → Except Exception (Properties κ × CodedInputStream)
  | 0, _, _ => .error .outOfFuel
  | fuel + 1, object, s =>
    if 0 < s.bytesUntilLimit then do
      let (v, s) ← type.read s
      let object ← appendHelper utf8 fields object field (.scalar type) (.scalar v)
      packedLoop fields field type fuel object s
    else .ok (object, s)

/-- A packed field: its length and its elements. -/
def readPacked (fields : List (FieldDescriptor κ)) (object : Properties κ) (field : FieldDescriptor κ)
    (type : ScalarType) (s : CodedInputStream) : Except Exception (Properties κ × CodedInputStream) := do
  let (length, s) ← orThrow "Unexpected EOF inside packed length." s.readVarint32
  match s.pushLimit length.toInt with
  | none => .error (.decode "Fail to push limit.")
  | some (limit, s) => do
    let (object, s) ← packedLoop utf8 fields field type (s.buffer.length + 1) object s
    .ok (object, s.popLimit limit)

/-- A value of a field in the normal format: it is read, and set, appended or put into the map. The
setters of a `MapEntry` make no checks. -/
def readNormal (entry : Bool) (fields : List (FieldDescriptor κ)) (object : Properties κ)
    (field : FieldDescriptor κ) (s : CodedInputStream) :
    Except Exception (Properties κ × CodedInputStream) :=
  match field.kind with
  | .singular type _ => do
    let (value, s) ← readValue pool parse type s
    let value ← if entry then .ok value else checkValue utf8 type value
    .ok (object.set fields field value, s)
  | .repeated type _ => do
    let (value, s) ← readValue pool parse type s
    let object ← appendHelper utf8 fields object field type value
    .ok (object, s)
  | .map keyType type => do
    let (key, value, s) ← readEntry pool parse keyType type s
    let object ← kvUpdateHelper utf8 fields object field keyType type key value
    .ok (object, s)

/-- `parseFieldFromStream`. -/
def parseFieldFromStream (entry : Bool) (fields : List (FieldDescriptor κ)) (object : Properties κ)
    (tag : PhpInt) (s : CodedInputStream) : Except Exception (Properties κ × CodedInputStream) :=
  let skip := (skipField s tag).map fun (bytes, s) =>
    ({ object with unknown := object.unknown ++ bytes }, s)
  match getFieldByNumber fields (getTagFieldNumber tag) with
  | none => skip
  | some field =>
    if getTagWireType tag = field.wireType then readNormal pool utf8 parse entry fields object field s
    else
      match field.packable with
      | some type =>
        if getTagWireType tag = 2 then readPacked utf8 fields object field type s else skip
      | none => skip

end Parsing

/-- `parseFromStream`, with the number of tags and nested messages that may still be read. -/
def parseFromStream (pool : κ → List (FieldDescriptor κ)) (utf8 : List UInt8 → Bool) : ℕ → Parser κ
  | 0, _, _, _, _ => .error .outOfFuel
  | fuel + 1, entry, fields, object, s =>
    let (tag, s) := s.readTag
    if tag = 0 then .ok (object, s)
    else do
      let (object, s) ←
        parseFieldFromStream pool utf8 (parseFromStream pool utf8 fuel) entry fields object tag s
      parseFromStream pool utf8 fuel entry fields object s

/-- `mergeFromString` of an object with these properties; each step reads a byte. -/
def mergeFromString (pool : κ → List (FieldDescriptor κ)) (utf8 : List UInt8 → Bool) (klass : κ)
    (object : Properties κ) (data : List UInt8) : Except Exception (Properties κ) :=
  (parseFromStream pool utf8 (data.length + 1) false (pool klass) object (.new data)).map Prod.fst

end Upb.Php
