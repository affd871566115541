import Upb.Php.CodedInputStream

/-!
# Scalars of the PHP runtime on the wire

`GPBWire.php`, the writing half of `CodedOutputStream.php`, the checks of `GPBUtil.php` and the parts
of `Message.php` that deal with one scalar, on a 64-bit platform. A `float` or a `double` is given by
its bits.
-/

namespace Upb.Php

/-- The scalar types of `GPBType`. -/
inductive ScalarType where
  | double | float | int64 | uint64 | int32 | fixed64 | fixed32 | bool | string | bytes | uint32
  | enum | sfixed32 | sfixed64 | sint32 | sint64
  deriving DecidableEq

/-- A value of PHP that is neither null nor an object. -/
inductive Scalar where
  | int (v : PhpInt)
  | float (bits : BitVec 32)
  | double (bits : BitVec 64)
  | bool (b : Bool)
  | string (s : List UInt8)
  deriving DecidableEq

/-- An exception: of the decoder, of a setter, or the end of the steps that the model allows. -/
inductive Exception where
  | decode (message : String)
  | check (message : String)
  | outOfFuel
  deriving DecidableEq

namespace Scalar

def toInt : Scalar → PhpInt
  | .int v => v
  | _ => 0

def toStr : Scalar → List UInt8
  | .string s => s
  | _ => []

end Scalar

/-- `zigZagEncode32`. -/
def zigZagEncode32 (int32 : PhpInt) : PhpInt :=
  let trimInt32 := int32 &&& 0xFFFFFFFF
  ((trimInt32 <<< 1) ^^^ ((int32 <<< 32).sshiftRight 63)) &&& 0xFFFFFFFF

/-- `zigZagDecode32`. -/
def zigZagDecode32 (uint32 : PhpInt) : PhpInt :=
  let uint32 := uint32 ||| (uint32 &&& 0xFFFFFFFF)
  ((uint32.sshiftRight 1) &&& 0x7FFFFFFF) ^^^ (-(uint32 &&& 1))

/-- `zigZagEncode64`. -/
def zigZagEncode64 (int64 : PhpInt) : PhpInt := (int64 <<< 1) ^^^ (int64.sshiftRight 63)

/-- `zigZagDecode64`. -/
def zigZagDecode64 (uint64 : PhpInt) : PhpInt :=
  ((uint64.sshiftRight 1) &&& 0x7FFFFFFFFFFFFFFF) ^^^ (-(uint64 &&& 1))

/-- The loop of `writeVarintToArray`, of at most `n` bytes before the last. -/
def writeVarintLoop : ℕ → PhpInt → List UInt8
  | 0, low => [UInt8.ofNat low.toNat]
  | n + 1, low =>
    if 0x80 ≤ low.toInt ∨ low.toInt < 0 then
      UInt8.ofNat ((low ||| 0x80) &&& 0xFF).toNat ::
        writeVarintLoop n (low.sshiftRight 7 &&& ~~~((0x7F : PhpInt) <<< 57))
    else [UInt8.ofNat low.toNat]

/-- `writeVarintToArray`. -/
def writeVarintToArray (value : PhpInt) : List UInt8 := writeVarintLoop 9 value

/-- `writeLittleEndian32ToArray` and `pack`: `n` bytes, the least significant byte first. -/
def writeLittleEndian : ℕ → ℕ → List UInt8
  | 0, _ => []
  | n + 1, value => UInt8.ofNat (value % 256) :: writeLittleEndian n (value / 256)

namespace ScalarType

/-- `GPBWire::getWireType`. -/
def getWireType : ScalarType → ℕ
  | .float | .fixed32 | .sfixed32 => 5
  | .double | .fixed64 | .sfixed64 => 1
  | .uint32 | .uint64 | .int32 | .int64 | .sint32 | .sint64 | .enum | .bool => 0
  | .string | .bytes => 2

/-- `FieldDescriptor::isTypePackable`. -/
def isPackable : ScalarType → Bool
  | .string | .bytes => false
  | _ => true

/-- `Message::defaultValue`. -/
def defaultValue : ScalarType → Scalar
  | .double => .double 0
  | .float => .float 0
  | .bool => .bool false
  | .string | .bytes => .string []
  | _ => .int 0

/-- `=== $this->defaultValue($field)`; both zeros of a floating-point type are the default. -/
def isDefault : ScalarType → Scalar → Bool
  | .double, .double bits => bits &&& 0x7FFFFFFFFFFFFFFF == 0
  | .float, .float bits => bits &&& 0x7FFFFFFF == 0
  | type, v => v == type.defaultValue

/-- The arguments of `writeRaw` when a scalar is written without its tag. -/
def write (type : ScalarType) (v : Scalar) : List (List UInt8) :=
  match type with
  | .double => match v with
    | .double bits => [writeLittleEndian 8 bits.toNat]
    | _ => []
  | .float => match v with
    | .float bits => [writeLittleEndian 4 bits.toNat]
    | _ => []
  | .int64 | .uint64 | .int32 | .enum => [writeVarintToArray v.toInt]
  | .fixed32 | .sfixed32 => [writeLittleEndian 4 v.toInt.toNat]
  | .fixed64 | .sfixed64 => [writeLittleEndian 8 v.toInt.toNat]
  | .bool => [writeVarintToArray (if v = .bool true then 1 else 0)]
  | .string | .bytes => [writeVarintToArray (BitVec.ofNat 64 v.toStr.length), v.toStr]
  | .uint32 =>
    let value := if v.toInt.toInt < 0 then v.toInt + 4294967296 else v.toInt
    [writeVarintToArray value]
  | .sint32 => [writeVarintToArray (zigZagEncode32 v.toInt)]
  | .sint64 => [writeVarintToArray (zigZagEncode64 v.toInt)]

end ScalarType

/-- `GPBWire::varint32Size`. -/
def varint32Size (value : ℤ) (signExtended : Bool) : ℕ :=
  if value < 0 then (if signExtended then 10 else 5)
  else if value < 2 ^ 7 then 1
  else if value < 2 ^ 14 then 2
  else if value < 2 ^ 21 then 3
  else if value < 2 ^ 28 then 4
  else 5

/-- `GPBWire::varint64Size`. -/
def varint64Size (value : ℤ) : ℕ :=
  if value < 0 then 10
  else if value < 2 ^ 7 then 1
  else if value < 2 ^ 14 then 2
  else if value < 2 ^ 21 then 3
  else if value < 2 ^ 28 then 4
  else if value < 2 ^ 35 then 5
  else if value < 2 ^ 42 then 6
  else if value < 2 ^ 49 then 7
  else if value < 2 ^ 56 then 8
  else 9

/-- `Message::fieldDataOnlyByteSize` of a scalar. -/
def ScalarType.byteSize (type : ScalarType) (v : Scalar) : ℕ :=
  match type with
  | .bool => 1
  | .float | .fixed32 | .sfixed32 => 4
  | .double | .fixed64 | .sfixed64 => 8
  | .int32 | .enum => varint32Size v.toInt.toInt true
  | .uint32 => varint32Size v.toInt.toInt false
  | .uint64 | .int64 => varint64Size v.toInt.toInt
  | .sint32 => varint32Size (zigZagEncode32 v.toInt).toInt false
  | .sint64 => varint64Size (zigZagEncode64 v.toInt).toInt
  | .string | .bytes => v.toStr.length + varint32Size v.toStr.length false

/-- A reading method that returns `false` makes its caller throw. -/
def orThrow {α : Type} (message : String) :
    Option α × CodedInputStream → Except Exception (α × CodedInputStream)
  | (some a, s) => .ok (a, s)
  | (none, _) => .error (.decode message)

/-- `GPBWire::readString`. -/
def readString (s : CodedInputStream) : Option (List UInt8) × CodedInputStream :=
  match s.readVarint64 with
  | (some length, s) => s.readRaw length.toInt
  | (none, s) => (none, s)

/-- `Message::parseFieldFromStreamNoTag` of a scalar. -/
def ScalarType.read (type : ScalarType) (s : CodedInputStream) :
    Except Exception (Scalar × CodedInputStream) :=
  match type with
  | .double => do
    let (data, s) ← orThrow "Unexpected EOF inside double field." (s.readRaw 8)
    .ok (.double (BitVec.ofNat 64 (CodedInputStream.unpack data)), s)
  | .float => do
    let (data, s) ← orThrow "Unexpected EOF inside float field." (s.readRaw 4)
    .ok (.float (BitVec.ofNat 32 (CodedInputStream.unpack data)), s)
  | .int64 => do
    let (value, s) ← orThrow "Unexpected EOF inside int64 field." s.readVarint64
    .ok (.int value, s)
  | .uint64 => do
    let (value, s) ← orThrow "Unexpected EOF inside uint64 field." s.readVarint64
    .ok (.int value, s)
  | .int32 => do
    let (value, s) ← orThrow "Unexpected EOF inside int32 field." s.readVarint32
    .ok (.int value, s)
  | .fixed64 => do
    let (value, s) ← orThrow "Unexpected EOF inside fixed64 field." s.readLittleEndian64
    .ok (.int value, s)
  | .fixed32 => do
    let (value, s) ← orThrow "Unexpected EOF inside fixed32 field." s.readLittleEndian32
    .ok (.int value, s)
  | .bool => do
    let (value, s) ← orThrow "Unexpected EOF inside bool field." s.readVarint64
    .ok (.bool (value != 0), s)
  | .string => do
    let (value, s) ← orThrow "Unexpected EOF inside string field." (readString s)
    .ok (.string value, s)
  | .bytes => do
    let (value, s) ← orThrow "Unexpected EOF inside bytes field." (readString s)
    .ok (.string value, s)
  | .uint32 => do
    let (value, s) ← orThrow "Unexpected EOF inside uint32 field." s.readVarint32
    .ok (.int value, s)
  | .enum => do
    let (value, s) ← orThrow "Unexpected EOF inside enum field." s.readVarint32
    .ok (.int value, s)
  | .sfixed32 => do
    let (value, s) ← orThrow "Unexpected EOF inside sfixed32 field." s.readLittleEndian32
    .ok (.int (value ||| ((-(value.sshiftRight 31)) <<< 32)), s)
  | .sfixed64 => do
    let (value, s) ← orThrow "Unexpected EOF inside sfixed64 field." s.readLittleEndian64
    .ok (.int value, s)
  | .sint32 => do
    let (value, s) ← orThrow "Unexpected EOF inside sint32 field." s.readVarint32
    .ok (.int (zigZagDecode32 value), s)
  | .sint64 => do
    let (value, s) ← orThrow "Unexpected EOF inside sint64 field." s.readVarint64
    .ok (.int (zigZagDecode64 value), s)

/-- `GPBUtil::checkUint32`. -/
def checkUint32 (var : PhpInt) : PhpInt :=
  var ||| (-((var.sshiftRight 31) &&& 1) &&& ~~~(0xFFFFFFFF : PhpInt))

/-- The checks of `GPBUtil` that a setter makes, on a value of the right type: those of the other
types change nothing. `utf8` tells whether `preg_match('//u', …)` accepts a string. -/
def ScalarType.check (utf8 : List UInt8 → Bool) : ScalarType → Scalar → Except Exception Scalar
  | .uint32, .int v | .fixed32, .int v => .ok (.int (checkUint32 v))
  | .string, .string s =>
    if utf8 s then .ok (.string s) else .error (.check "Expect utf-8 encoding.")
  | _, v => .ok v

end Upb.Php
