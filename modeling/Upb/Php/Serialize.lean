import Upb.Php.Message

/-!
# Serializing messages of the PHP runtime

The two walks of `Message.php` over an object: `byteSize` predicts the size of its bytes, and
`serializeToStream` writes them into a buffer of this size. A value is compared with its default by
`!=` in one place and by `!==` elsewhere; for values of the type of the field both are the same.
-/

namespace Upb.Php

variable {κ : Type}

/-- `GPBWire::makeTag`. -/
def makeTag (number wireType : ℕ) : PhpInt := (BitVec.ofNat 64 number <<< 3) ||| BitVec.ofNat 64 wireType

namespace FieldDescriptor

/-- `GPBWire::tagSize`. -/
def tagSize (field : FieldDescriptor κ) : ℕ :=
  varint32Size (makeTag field.number field.wireType).toInt false

/-- The tag with the wire type of the field. -/
def tag (field : FieldDescriptor κ) : List UInt8 :=
  writeVarintToArray (makeTag field.number field.wireType)

/-- The tag of a packed field. -/
def packedTag (field : FieldDescriptor κ) : List UInt8 := writeVarintToArray (makeTag field.number 2)

/-- `existField` of a scalar: a member of a oneof that is set, or a value that is not the default. -/
def existScalar (field : FieldDescriptor κ) (type : ScalarType) (v : Scalar) : Bool :=
  match field.kind with
  | .singular _ (some _) => true
  | _ => !type.isDefault v

end FieldDescriptor

/-- The varint of a size. -/
def writeSize (size : ℕ) : List UInt8 := writeVarintToArray (BitVec.ofNat 64 size)

/-- A size and the size of its varint. -/
def delimitedSize (size : ℕ) : ℕ := size + varint32Size size false

/-- The field of the keys of a map. -/
def keyField (key : ScalarType) : FieldDescriptor κ := ⟨1, .singular (.scalar key) none⟩

/-- The field of the values of a map. -/
def valueField (value : FieldType κ) : FieldDescriptor κ := ⟨2, .singular value none⟩

/-- The size of a singular scalar field, or of the key or the value of a map. -/
def scalarByteSize (field : FieldDescriptor κ) (type : ScalarType) (v : Scalar) : ℕ :=
  if field.existScalar type v then field.tagSize + type.byteSize v else 0

/-- A singular scalar field, or the key or the value of a map: the arguments of `writeRaw`. -/
def serializeScalar (field : FieldDescriptor κ) (type : ScalarType) (v : Scalar) : List (List UInt8) :=
  if field.existScalar type v then field.tag :: type.write v else []

section Walks

variable (pool : κ → List (FieldDescriptor κ))

mutual

/-- The size of the fields of an object. -/
def fieldsByteSize : List (FieldDescriptor κ) → List (Datum κ) → ℕ
  | field :: fields, content :: contents => fieldByteSize field content + fieldsByteSize fields contents
  | _, _ => 0

/-- `fieldByteSize`. -/
def fieldByteSize (field : FieldDescriptor κ) : Datum κ → ℕ
  | .null => 0
  | .scalar v =>
    match field.kind with
    | .singular (.scalar type) _ => scalarByteSize field type v
    | _ => 0
  | .message klass contents unknown =>
    field.tagSize + delimitedSize (fieldsByteSize (pool klass) contents + unknown.length)
  | .repeated elements =>
    match field.kind with
    | .repeated type packed =>
      if elements.isEmpty then 0
      else if packed then field.tagSize + delimitedSize (elementsByteSize type elements)
      else elements.length * field.tagSize + elementsByteSize type elements
    | _ => 0
  | .map entries =>
    match field.kind with
    | .map key value => entries.length * field.tagSize + entriesByteSize key value entries
    | _ => 0

/-- `fieldDataOnlyByteSize` of an element or of a value of a map. -/
def dataByteSize (type : FieldType κ) : Datum κ → ℕ
  | .scalar v =>
    match type with
    | .scalar type => type.byteSize v
    | .message _ => 0
  | .message klass contents unknown =>
    delimitedSize (fieldsByteSize (pool klass) contents + unknown.length)
  | _ => 0

/-- The size of the elements of a repeated field. -/
def elementsByteSize (type : FieldType κ) : List (Datum κ) → ℕ
  | [] => 0
  | d :: elements => dataByteSize type d + elementsByteSize type elements

/-- The size of the entries of a map without their tags. -/
def entriesByteSize (key : ScalarType) (value : FieldType κ) : List (Scalar × Datum κ) → ℕ
  | [] => 0
  | (k, d) :: entries =>
    delimitedSize (scalarByteSize (keyField key : FieldDescriptor κ) key k + fieldByteSize (valueField value) d) +
      entriesByteSize key value entries

end

/-- `byteSize`. -/
def byteSize (fields : List (FieldDescriptor κ)) (object : Properties κ) : ℕ :=
  fieldsByteSize pool fields object.contents + object.unknown.length

mutual

/-- The fields of an object: the arguments of `writeRaw`. -/
def serializeFields : List (FieldDescriptor κ) → List (Datum κ) → List (List UInt8)
  | field :: fields, content :: contents => serializeField field content ++ serializeFields fields contents
  | _, _ => []

/-- `serializeFieldToStream`. -/
def serializeField (field : FieldDescriptor κ) : Datum κ → List (List UInt8)
  | .null => []
  | .scalar v =>
    match field.kind with
    | .singular (.scalar type) _ => serializeScalar field type v
    | _ => []
  | .message klass contents unknown =>
    field.tag :: writeSize (fieldsByteSize pool (pool klass) contents + unknown.length) ::
      (serializeFields (pool klass) contents ++ [unknown])
  | .repeated elements =>
    match field.kind with
    | .repeated type packed =>
      if elements.isEmpty then []
      else if packed then
        field.packedTag :: writeSize (elementsByteSize pool type elements) ::
          serializeElements none type elements
      else serializeElements (some field) type elements
    | _ => []
  | .map entries =>
    match field.kind with
    | .map key value => serializeEntries field key value entries
    | _ => []

/-- `GPBWire::serializeFieldToStream` of an element, without its tag. -/
def serializeData (type : FieldType κ) : Datum κ → List (List UInt8)
  | .scalar v =>
    match type with
    | .scalar type => type.write v
    | .message _ => []
  | .message klass contents unknown =>
    writeSize (fieldsByteSize pool (pool klass) contents + unknown.length) ::
      (serializeFields (pool klass) contents ++ [unknown])
  | _ => []

/-- The elements of a repeated field, with tags if there is a field. -/
def serializeElements (field : Option (FieldDescriptor κ)) (type : FieldType κ) :
    List (Datum κ) → List (List UInt8)
  | [] => []
  | d :: elements =>
    (field.map FieldDescriptor.tag).toList ++ serializeData type d ++ serializeElements field type elements

/-- The entries of a map, each as a message of its own. -/
def serializeEntries (field : FieldDescriptor κ) (key : ScalarType) (value : FieldType κ) :
    List (Scalar × Datum κ) → List (List UInt8)
  | [] => []
  | (k, d) :: entries =>
    field.tag ::
      writeSize (scalarByteSize (keyField key : FieldDescriptor κ) key k +
        fieldByteSize pool (valueField value) d) ::
      (serializeScalar (keyField key : FieldDescriptor κ) key k ++ serializeField (valueField value) d ++ [[]]) ++
      serializeEntries field key value entries

end

/-- `serializeToStream`. -/
def serializeToStream (fields : List (FieldDescriptor κ)) (object : Properties κ) : List (List UInt8) :=
  serializeFields pool fields object.contents ++ [object.unknown]

end Walks

/-- `CodedOutputStream`: the bytes that were written, and the number of bytes left in the buffer. -/
structure CodedOutputStream where
  written : List UInt8
  bufferSize : ℕ

namespace CodedOutputStream

/-- `getData`: what was not written is zero. -/
def getData (s : CodedOutputStream) : List UInt8 := s.written ++ List.replicate s.bufferSize 0

/-- A number of calls of `writeRaw`; the first that finds no room ends the serialization. -/
def writeRaw (s : CodedOutputStream) : List (List UInt8) → CodedOutputStream
  | [] => s
  | data :: rest =>
    if s.bufferSize < data.length then s
    else writeRaw ⟨s.written ++ data, s.bufferSize - data.length⟩ rest

end CodedOutputStream

/-- `serializeToString`. -/
def serializeToString (pool : κ → List (FieldDescriptor κ)) (fields : List (FieldDescriptor κ))
    (object : Properties κ) : List UInt8 :=
  (CodedOutputStream.writeRaw ⟨[], byteSize pool fields object⟩
    (serializeToStream pool fields object)).getData

end Upb.Php
