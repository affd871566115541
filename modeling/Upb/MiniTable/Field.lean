import Mathlib.Algebra.Group.Nat.Defs
import Mathlib.Data.Int.Notation
import Mathlib.Data.Nat.Notation

/-!
# Mini table fields

`upb_MiniTableField` and its accessors. The bits of the C member `mode` are the members of `Mode`.
The type of a field is stored after a rewriting: an open enum is stored as an `Int32` and a string
without UTF-8 validation as `Bytes`, both with the alternate flag.
-/

namespace Upb

/-- `upb_FieldType`. -/
inductive FieldType where
  | double | float | int64 | uint64 | int32 | fixed64 | fixed32 | bool | string | group | message
  | bytes | uint32 | enum | sfixed32 | sfixed64 | sint32 | sint64
  deriving DecidableEq

/-- `upb_FieldType_IsPackable`. -/
def FieldType.isPackable : FieldType → Bool
  | .string | .bytes | .message | .group => false
  | _ => true

/-- `upb_FieldMode`. -/
inductive FieldMode where
  | map | array | scalar
  deriving DecidableEq

/-- `upb_FieldRep`; the layout orders fields by this enumeration. -/
inductive FieldRep where
  | rep1Byte | rep4Byte | repStringView | rep8Byte
  deriving DecidableEq

/-- The member `mode` of a field: mode, label flags and representation. -/
structure Mode where
  fieldMode : FieldMode
  isPacked : Bool
  isExtension : Bool
  isAlternate : Bool
  rep : FieldRep
  deriving DecidableEq

/-- `kUpb_NoSub`. -/
def noSub : ℕ := 65535

/-- `upb_MiniTableField`. A positive `presence` is a hasbit index, a negative one the complement of
the offset of a oneof case, and zero is no presence. -/
structure MiniTableField where
  number : ℕ
  offset : ℕ
  presence : ℤ
  submsgOfs : ℕ
  descriptortype : FieldType
  mode : Mode
  deriving DecidableEq

namespace MiniTableField

/-- `upb_MiniTableField_IsArray`. -/
def isArray (f : MiniTableField) : Bool := f.mode.fieldMode == .array

/-- `upb_MiniTableField_IsMap`. -/
def isMap (f : MiniTableField) : Bool := f.mode.fieldMode == .map

/-- `upb_MiniTableField_IsScalar`. -/
def isScalar (f : MiniTableField) : Bool := f.mode.fieldMode == .scalar

/-- `upb_MiniTableField_IsPacked`. -/
def isPacked (f : MiniTableField) : Bool := f.mode.isPacked

/-- `upb_MiniTableField_Type`: the type before the rewriting. The C code asserts that no other type
is alternate. -/
def type (f : MiniTableField) : FieldType :=
  if f.mode.isAlternate then
    match f.descriptortype with
    | .int32 => .enum
    | .bytes => .string
    | t => t
  else f.descriptortype

/-- `upb_MiniTableField_IsClosedEnum`. -/
def isClosedEnum (f : MiniTableField) : Bool := f.descriptortype == .enum

/-- `upb_MiniTableField_IsInOneof`. -/
def isInOneof (f : MiniTableField) : Bool := f.presence < 0

/-- `_upb_MiniTableField_HasHasbit`. -/
def hasHasbit (f : MiniTableField) : Bool := 0 < f.presence

/-- `upb_MiniTableField_IsSubMessage`. -/
def isSubMessage (f : MiniTableField) : Bool :=
  f.descriptortype == .message || f.descriptortype == .group

/-- `upb_MiniTableField_HasPresence`. -/
def hasPresence (f : MiniTableField) : Bool :=
  if f.mode.isExtension then f.isScalar else f.presence != 0

/-- `_upb_MiniTableField_OneofOffset`: the offset of the case word, `~presence`. -/
def oneofOffset (f : MiniTableField) : ℤ := -f.presence - 1

end MiniTableField

end Upb
