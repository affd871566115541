import Mathlib.Algebra.Order.Floor.Ring
import Mathlib.Data.Rat.Floor
import Upb.Common.Except
import Upb.MiniTable.Field
import Upb.PhpExt.Numbers

/-!
# Repeated fields of the PHP extension

The conversion of PHP values (`convert.c`) and the two kinds of values that can be assigned to a
repeated field (`array.c`), on a 64-bit platform. A double is given by its bits. The PHP engine and
the rounding of floating-point conversions are parameters.
-/

namespace Upb.PhpExt

open Common

/-- `upb_CType`. -/
inductive CType where
  | bool | float | int32 | uint32 | enum | message | double | int64 | uint64 | string | bytes
  deriving DecidableEq

/-- `upb_FieldType_CType`. -/
def fieldTypeCType : FieldType → CType
  | .double => .double
  | .float => .float
  | .int64 => .int64
  | .uint64 => .uint64
  | .int32 => .int32
  | .fixed64 => .uint64
  | .fixed32 => .uint32
  | .bool => .bool
  | .string => .string
  | .group => .message
  | .message => .message
  | .bytes => .bytes
  | .uint32 => .uint32
  | .enum => .enum
  | .sfixed32 => .int32
  | .sfixed64 => .int64
  | .sint32 => .int32
  | .sint64 => .int64

/-- `pbphp_dtype_to_type`. -/
def pbphpDtypeToType : FieldType → CType
  | .float => .float
  | .double => .double
  | .bool => .bool
  | .string => .string
  | .bytes => .bytes
  | .message => .message
  | .group => .message
  | .enum => .enum
  | .int32 => .int32
  | .int64 => .int64
  | .uint32 => .int32
  | .uint64 => .uint64
  | .sint32 => .int32
  | .sint64 => .int64
  | .fixed32 => .uint32
  | .fixed64 => .uint64
  | .sfixed32 => .int32
  | .sfixed64 => .int64

/-- `_upb_CType_SizeLg2`. -/
def ctypeSizeLg2 : CType → ℕ
  | .bool => 0
  | .float | .int32 | .uint32 | .enum => 2
  | .message | .double | .int64 | .uint64 => 3
  | .string | .bytes => 4

/-- A value of PHP; `other` is an array, an object or a resource. -/
inductive Zval where
  | null
  | bool (b : Bool)
  | long (v : BitVec 64)
  | double (bits : BitVec 64)
  | string (s : List UInt8)
  | other

/-- `upb_MessageValue`: the bytes of the union that the element type uses. -/
inductive MessageValue where
  | bool (b : Bool)
  | word32 (bits : BitVec 32)
  | word64 (bits : BitVec 64)
  | str (s : List UInt8)
  deriving DecidableEq

/-- An exception of a conversion, or a user error. -/
inductive PhpError where
  | cannotConvert (v : Zval) (target : String)
  | outOfRange
  | invalidUtf8
  | userError (message : String)

/-- What the extension uses of the PHP engine and of the platform, and the conversions to messages:
`is_numeric_string`, the text of a double, the rounding of an integer to a double and of a double to
a float, the conversion of a NaN to an integer, `Message_GetUpbMessage`, and the wrapper messages of
`Convert_PhpToUpbAutoWrap`. -/
structure Engine (Desc : Type) where
  isNumericString : List UInt8 → Option (BitVec 64 ⊕ BitVec 64)
  doubleText : BitVec 64 → List UInt8
  doubleOfLong : BitVec 64 → BitVec 64
  floatOfDouble : BitVec 64 → BitVec 32
  longOfNan : BitVec 64
  getUpbMessage : Desc → Zval → Except PhpError MessageValue
  wrapper : Desc → Zval → Option (Except PhpError MessageValue)

/-- `TypeInfo`. -/
structure TypeInfo (Desc : Type) where
  type : CType
  desc : Option Desc

/-- `TypeInfo_Get`, for a field with the descriptor of its message, if it has one. -/
def typeInfoGet {Desc : Type} (type : FieldType) (desc : Option Desc) : TypeInfo Desc where
  type := fieldTypeCType type
  desc := desc

/-- `TypeInfo_Eq`. -/
def TypeInfo.eq {Desc : Type} [DecidableEq Desc] (a b : TypeInfo Desc) : Bool :=
  if a.type ≠ b.type then false
  else if a.type = .message ∧ a.desc ≠ b.desc then false
  else true

/-- The number that the bits of a double denote; an infinity counts as the next power of two, and a
NaN denotes none. -/
def doubleValue (bits : BitVec 64) : Option ℚ :=
  let negative := bits.msb
  let exponent : ℕ := (bits >>> 52).toNat % 2 ^ 11
  let fraction : ℕ := bits.toNat % 2 ^ 52
  if exponent = 2 ^ 11 - 1 ∧ fraction ≠ 0 then none
  else
    let magnitude : ℚ :=
      if exponent = 0 then (fraction : ℚ) / 2 ^ 1074
      else ((2 ^ 52 + fraction : ℕ) : ℚ) * 2 ^ exponent / 2 ^ 1075
    some (if negative then -magnitude else magnitude)

/-- The conversion of a double in range to an integer. -/
def truncate (q : ℚ) : ℤ := if q < 0 then -⌊-q⌋ else ⌊q⌋

/-- `Convert_PhpToInt64`. -/
def convertPhpToInt64 {Desc : Type} (engine : Engine Desc) : Zval → Except PhpError (BitVec 64)
  | .long v => .ok v
  | .double bits =>
    match doubleValue bits with
    | none => .ok engine.longOfNan
    | some q =>
      if 9223372036854774784 < q ∨ q < -9223372036854775808 then .error .outOfRange
      else .ok (BitVec.ofInt 64 (truncate q))
  | .string s =>
    match buftoint64 s with
    | some i64 => .ok (BitVec.ofInt 64 i64)
    | none => .error (.cannotConvert (.string s) "integer")
  | v => .error (.cannotConvert v "integer")

/-- `to_double`. -/
def toDouble {Desc : Type} (engine : Engine Desc) : Zval → Except PhpError (BitVec 64)
  | .long v => .ok (engine.doubleOfLong v)
  | .double bits => .ok bits
  | .string s =>
    match engine.isNumericString s with
    | some (.inl lval) => .ok (engine.doubleOfLong lval)
    | some (.inr dbl) => .ok dbl
    | none => .error (.cannotConvert (.string s) "double")
  | v => .error (.cannotConvert v "double")

/-- `to_bool`. -/
def toBool : Zval → Except PhpError Bool
  | .bool b => .ok b
  | .long v => .ok (v != 0)
  | .double bits => .ok (bits &&& 0x7FFFFFFFFFFFFFFF != 0)
  | .string s => .ok (!(s.isEmpty || s == [ascii '0']))
  | v => .error (.cannotConvert v "bool")

/-- The decimal text of an integer. -/
def longText (v : BitVec 64) : List UInt8 :=
  (if v.toInt < 0 then [ascii '-'] else []) ++ decimal 1 v.toInt.natAbs

/-- `to_string`; the value itself becomes the string. -/
def toString {Desc : Type} (engine : Engine Desc) : Zval → Except PhpError (List UInt8)
  | .string s => .ok s
  | .bool b => .ok (if b then [ascii '1'] else [])
  | .long v => .ok (longText v)
  | .double bits => .ok (engine.doubleText bits)
  | v => .error (.cannotConvert v "string")

/-- `utf8_range_IsValid`. -/
def utf8RangeIsValid (s : List UInt8) : Bool := (ByteArray.mk s.toArray).validateUTF8

/-- `Convert_PhpToUpb`. -/
def convertPhpToUpb {Desc : Type} (engine : Engine Desc) (v : Zval) (type : TypeInfo Desc) :
    Except PhpError MessageValue :=
  match type.type with
  | .int64 | .uint64 => (convertPhpToInt64 engine v).map .word64
  | .int32 | .enum | .uint32 => (convertPhpToInt64 engine v).map fun i64 => .word32 (i64.setWidth 32)
  | .double => (toDouble engine v).map .word64
  | .float => (toDouble engine v).map fun dbl => .word32 (engine.floatOfDouble dbl)
  | .bool => (toBool v).map .bool
  | .string => do
    let s ← toString engine v
    if utf8RangeIsValid s then .ok (.str s) else .error .invalidUtf8
  | .bytes => (toString engine v).map .str
  | .message =>
    match type.desc with
    | some desc => engine.getUpbMessage desc v
    | none => .error (.userError "type.desc")

/-- `Convert_PhpToUpbAutoWrap`. -/
def convertPhpToUpbAutoWrap {Desc : Type} (engine : Engine Desc) (v : Zval) (type : TypeInfo Desc) :
    Except PhpError MessageValue :=
  match type.desc.bind fun desc => engine.wrapper desc v with
  | some wrapped => wrapped
  | none => convertPhpToUpb engine v type

/-- `upb_Array`: the size of its elements, and the elements. -/
structure ElementArray where
  elemSizeLg2 : ℕ
  elements : List MessageValue
  deriving DecidableEq

/-- `upb_Array_New`. -/
def ElementArray.new (type : CType) : ElementArray where
  elemSizeLg2 := ctypeSizeLg2 type
  elements := []

/-- `upb_Array_Append`. -/
def ElementArray.append (a : ElementArray) (val : MessageValue) : ElementArray where
  elemSizeLg2 := a.elemSizeLg2
  elements := a.elements ++ [val]

/-- The PHP object `RepeatedField`. -/
structure RepeatedField (Desc : Type) where
  type : TypeInfo Desc
  array : ElementArray

namespace RepeatedField

variable {Desc : Type}

/-- `RepeatedField::__construct`. -/
def construct (type : FieldType) (klass : Option Desc) : Except PhpError (RepeatedField Desc) :=
  if pbphpDtypeToType type = .message ∧ klass.isNone then
    .error (.userError "Message/enum type must have concrete class.")
  else
    .ok {
      type := ⟨pbphpDtypeToType type, klass⟩
      array := .new (pbphpDtypeToType type) }

/-- `RepeatedField::append`. -/
def append (engine : Engine Desc) (f : RepeatedField Desc) (v : Zval) :
    Except PhpError (RepeatedField Desc) := do
  let msgval ← convertPhpToUpb engine v f.type
  return { f with array := f.array.append msgval }

/-- What is assigned to a repeated field. -/
inductive Assigned (Desc : Type) where
  | array (values : List Zval)
  | object (f : RepeatedField Desc)
  | other

/-- The loop of `RepeatedField_GetUpbArray` over a PHP array. -/
def appendValues (engine : Engine Desc) (type : TypeInfo Desc) (arr : ElementArray) :
    List Zval → Except PhpError ElementArray
  | [] => .ok arr
  | v :: values => do
    let val ← convertPhpToUpbAutoWrap engine v type
    appendValues engine type (arr.append val) values

/-- `RepeatedField_GetUpbArray`: the array that is set in the message. A user error ends the
request. -/
def getUpbArray [DecidableEq Desc] (engine : Engine Desc) (type : TypeInfo Desc) :
    Assigned Desc → Except PhpError ElementArray
  | .array values => appendValues engine type (.new type.type) values
  | .object f =>
    if !f.type.eq type then .error (.userError "Wrong type for this repeated field.")
    else .ok f.array
  | .other => .error (.userError "Must be a repeated field")

/-- The object that is constructed with a type and to which values are appended. -/
def ofValues (engine : Engine Desc) (type : FieldType) (values : List Zval) :
    Except PhpError (RepeatedField Desc) := do
  let f ← construct type none
  values.foldlM (append engine) f

variable {engine : Engine Desc}

/-- Appending values to an object is the loop over an array of them, when there are no messages. -/
theorem foldlM_append {f : RepeatedField Desc} (hdesc : f.type.desc = none) (values : List Zval) :
    values.foldlM (append engine) f =
      (appendValues engine f.type f.array values).map fun a => { f with array := a } := by
  induction values generalizing f with
  | nil => rfl
  | cons v values ih =>
    have hwrap : convertPhpToUpbAutoWrap engine v f.type = convertPhpToUpb engine v f.type := by
      rw [convertPhpToUpbAutoWrap, hdesc]
      rfl
    rw [List.foldlM_cons, append, appendValues, hwrap]
    cases convertPhpToUpb engine v f.type with
    | error e => rfl
    | ok val => exact ih (f := { f with array := f.array.append val }) hdesc

/-- The loop gets through values that convert. -/
theorem appendValues_of_convert {type : TypeInfo Desc} (hdesc : type.desc = none)
    {values : List Zval} (h : ∀ v ∈ values, ∃ val, convertPhpToUpb engine v type = .ok val)
    (arr : ElementArray) : ∃ a, appendValues engine type arr values = .ok a := by
  induction values generalizing arr with
  | nil => exact ⟨arr, rfl⟩
  | cons v values ih =>
    obtain ⟨val, hval⟩ := h v List.mem_cons_self
    have hwrap : convertPhpToUpbAutoWrap engine v type = .ok val := by
      rw [convertPhpToUpbAutoWrap, hdesc]
      exact hval
    obtain ⟨a, ha⟩ := ih (fun u hu => h u (List.mem_cons_of_mem v hu)) (arr.append val)
    refine ⟨a, ?_⟩
    rw [appendValues, hwrap]
    exact ha

/-- Every object of a type that is no message is constructed, and gets its values. -/
theorem ofValues_eq {type : FieldType} (h : pbphpDtypeToType type ≠ .message)
    (values : List Zval) :
    ofValues engine type values =
      (appendValues engine ⟨pbphpDtypeToType type, none⟩ (.new (pbphpDtypeToType type)) values).map
        fun a => ⟨⟨pbphpDtypeToType type, none⟩, a⟩ := by
  rw [ofValues, construct, if_neg fun hm => h hm.1]
  exact foldlM_append rfl values

/-- Only for `UInt32` does the table of the extension differ from that of the fields. -/
theorem pbphpDtypeToType_eq_iff (type : FieldType) :
    pbphpDtypeToType type = fieldTypeCType type ↔ type ≠ .uint32 := by
  cases type <;> decide

/-- For values that convert to the type of a field of neither messages nor enums: an object of this
type with the values can be assigned to the field, and gives it the array that the plain PHP array
gives it, exactly when the type is not `UInt32`. -/
theorem repeatedField_interchangeable [DecidableEq Desc] (engine : Engine Desc) (type : FieldType)
    (htype : type ≠ .message ∧ type ≠ .group ∧ type ≠ .enum) (values : List Zval)
    (hvalues : ∀ v ∈ values, ∃ val, convertPhpToUpb engine v (typeInfoGet type none) = .ok val) :
    (∃ f arr, ofValues engine type values = .ok f ∧
      getUpbArray engine (typeInfoGet type none) (.object f) = .ok arr ∧
      getUpbArray engine (typeInfoGet type none) (.array values) = .ok arr) ↔ type ≠ .uint32 := by
  have hmessage : pbphpDtypeToType type ≠ .message := by
    obtain ⟨h₁, h₂, -⟩ := htype
    cases type <;> first | exact absurd rfl h₁ | exact absurd rfl h₂ | decide
  constructor
  · rintro ⟨f, arr, hf, hobject, -⟩ rfl
    rw [ofValues_eq hmessage] at hf
    obtain ⟨a, -, rfl⟩ := map_eq_ok.mp hf
    cases hobject
  · intro h
    have hsame : pbphpDtypeToType type = fieldTypeCType type := (pbphpDtypeToType_eq_iff type).mpr h
    obtain ⟨a, ha⟩ := appendValues_of_convert rfl hvalues (.new (fieldTypeCType type))
    refine ⟨⟨typeInfoGet type none, a⟩, a, ?_, ?_, ha⟩
    · rw [ofValues_eq hmessage, hsame]
      exact congrArg (Except.map _) ha
    · have heq : TypeInfo.eq (typeInfoGet type none : TypeInfo Desc) (typeInfoGet type none) = true := by
        simp [TypeInfo.eq]
      simp only [getUpbArray, heq]
      rfl

/-- An engine for integers. -/
def integerEngine : Engine Empty where
  isNumericString _ := none
  doubleText _ := []
  doubleOfLong _ := 0
  floatOfDouble _ := 0
  longOfNan := 0
  getUpbMessage := nofun
  wrapper := nofun

/-- An object of `Int32` with two values, assigned to a field of this type. -/
theorem repeatedField_interchangeable_int32 :
    ∃ f arr, ofValues integerEngine .int32 [.long 1, .long 4294967295] = .ok f ∧
      getUpbArray integerEngine (typeInfoGet .int32 none) (.object f) = .ok arr ∧
      getUpbArray integerEngine (typeInfoGet .int32 none)
        (.array [.long 1, .long 4294967295]) = .ok arr := by
  refine (repeatedField_interchangeable integerEngine .int32 (by decide) _ ?_).mpr (by decide)
  intro v hv
  simp only [List.mem_cons, List.not_mem_nil, or_false] at hv
  rcases hv with rfl | rfl
  · exact ⟨.word32 1, rfl⟩
  · exact ⟨.word32 4294967295, rfl⟩

/-- An object of `UInt32` cannot be assigned to a field of this type; the plain array can. -/
theorem uint32_wrongType :
    (ofValues integerEngine .uint32 [.long 1] >>= fun f =>
      getUpbArray integerEngine (typeInfoGet .uint32 none) (.object f)) =
        .error (.userError "Wrong type for this repeated field.") ∧
    getUpbArray integerEngine (typeInfoGet .uint32 none) (.array [.long 1]) =
      .ok ⟨2, [.word32 1]⟩ := ⟨rfl, rfl⟩

end RepeatedField

end Upb.PhpExt
