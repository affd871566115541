import Upb.Common.Decides
import Upb.Compare.UnknownFields
import Upb.Message.MapInsert
import Upb.Wire.Decode

/-!
# Comparing messages

`upb/message/compare.c` with `_upb_Message_NextBaseField`. The result `none` is a null pointer that is
read, a place that the code calls unreachable, or a nesting deeper than the fuel. The parameter `same`
says of two pointers whether they are equal.
-/

namespace Upb.Compare

open Upb.Common (thenTest allTest)

section

variable (sch : Schema) (hash : Hashes) (same : Slot → Slot → Bool)

/-- `upb_Message_HasBaseField`. -/
def hasBaseField (m : Message) (f : MiniTableField) : Bool :=
  if f.isInOneof then m.oneofCase f == f.number else m.getHasbit f

/-- `_upb_MiniTableField_DataIsZero`. -/
def dataIsZero (f : MiniTableField) (s : Slot) : Bool :=
  match f.mode.rep with
  | .repStringView => s.toStr.isEmpty
  | _ => !Wire.Slot.isNonzero s

/-- `upb_Map_Size`; null is an empty map. -/
def mapSize : Slot → ℕ
  | .map _ table _ => table.size
  | _ => 0

/-- A field that `_upb_Message_NextBaseField` does not skip as unset or empty. -/
def isSetBaseField (m : Message) (f : MiniTableField) : Bool :=
  if f.hasPresence then hasBaseField m f
  else if dataIsZero f (m.data f) then false
  else if f.isArray then !(m.data f).toArray.isEmpty
  else if f.isMap then mapSize (m.data f) != 0
  else true

/-- The indices of the fields that `_upb_Message_NextBaseField` goes through. -/
def baseFields (t : TableId) (m : Message) : List ℕ :=
  (List.range (sch.table t).fieldCount).filter fun i =>
    (sch.field t i).any fun f => isSetBaseField m f.field

/-- The bits of a number that are compared, by its C type. -/
def numberBits : FieldType → ℕ
  | .bool => 8
  | .float | .int32 | .uint32 | .fixed32 | .sfixed32 | .sint32 | .enum => 32
  | _ => 64

/-- `upb_MessageValue_IsEqual`. -/
def valueIsEqual (sub : TableId → Slot → Slot → Option Bool) (f : LinkedField) (val1 val2 : Slot) :
    Option Bool :=
  match f.field.descriptortype with
  | .string | .bytes => some (val1.toStr == val2.toStr)
  | .message | .group =>
    match f.sub.message with
    | some t => sub t val1 val2
    | none => none
  | type => some (val1.toBits % 2 ^ numberBits type == val2.toBits % 2 ^ numberBits type)

/-- `_upb_Array_IsEqual`. -/
def arrayIsEqual (eq : Slot → Slot → Option Bool) (arr1 arr2 : Slot) : Option Bool :=
  if same arr1 arr2 then some true
  else if arr1.toArray.length ≠ arr2.toArray.length then some false
  else allTest (fun val => eq val.1 val.2) (arr1.toArray.zip arr2.toArray)

/-- The key of one map as the other map takes it. -/
def keyIn (s1 s2 : Slot) (key : MapKey) : MapKey :=
  match s1, s2 with
  | .map keySize1 _ _, .map keySize2 _ _ => (key.toSlot keySize1).toKey keySize2
  | _, _ => key

/-- `_upb_Map_IsEqual`. -/
def mapIsEqual (eq : Slot → Slot → Option Bool) (map1 map2 : Slot) : Option Bool :=
  if same map1 map2 then some true
  else if mapSize map1 ≠ mapSize map2 then some false
  else
    allTest
      (fun ent =>
        match map2.mapGet hash (keyIn map1 map2 ent.1) with
        | none => some false
        | some val2 => eq ent.2 val2)
      (map1.mapEntries hash)

/-- The comparison of the contents of a field by its mode. -/
def contentsAreEqual (sub : TableId → Slot → Slot → Option Bool) (f : LinkedField) (val1 val2 : Slot) :
    Option Bool :=
  match f.field.mode.fieldMode with
  | .array => arrayIsEqual same (valueIsEqual sub f) val1 val2
  | .map =>
    match f.sub.message with
    | none => none
    | some entry =>
      match sch.field entry 1 with
      | none => none
      | some value => mapIsEqual hash same (valueIsEqual sub value) val1 val2
  | .scalar => valueIsEqual sub f val1 val2

/-- The two iterations of `_upb_Message_BaseFieldsAreEqual`. -/
def lockstep (eq : ℕ → Option Bool) : List ℕ → List ℕ → Option Bool
  | [], [] => some true
  | i :: is, j :: js => if i ≠ j then some false else thenTest (eq i) (lockstep eq is js)
  -- the field counts are different
  | _, _ => some false

/-- `_upb_Message_BaseFieldsAreEqual`. -/
def baseFieldsAreEqual (sub : TableId → Slot → Slot → Option Bool) (t : TableId) (m1 m2 : Message) :
    Option Bool :=
  lockstep
    (fun i => (sch.field t i).bind fun f =>
      contentsAreEqual sch hash same sub f (m1.data f.field) (m2.data f.field))
    (baseFields sch t m1) (baseFields sch t m2)

/-- The extensions that `upb_Message_NextExtension` goes through. -/
def extensions (m : Message) : List (ExtId × Slot) :=
  m.exts.filter fun e => !Wire.extensionIsEmpty sch hash e

/-- The comparison of an extension by its mode; maps cannot be extensions. -/
def extensionIsEqual (sub : TableId → Slot → Slot → Option Bool) (e : ExtId) (val1 val2 : Slot) :
    Option Bool :=
  match (sch.ext e).field.mode.fieldMode with
  | .map => none
  | _ => contentsAreEqual sch hash same sub (sch.ext e) val1 val2

/-- `_upb_Message_ExtensionsAreEqual`. -/
def extensionsAreEqual (sub : TableId → Slot → Slot → Option Bool) (m1 m2 : Message) : Option Bool :=
  thenTest
    (allTest
      (fun ext1 =>
        match m2.getext ext1.1 with
        | none => some false
        | some val2 => extensionIsEqual sch hash same sub ext1.1 ext1.2 val2)
      (extensions sch hash m1))
    (some ((extensions sch hash m1).length == (extensions sch hash m2).length))

variable {σ : Type} (S : Wire.Stream σ) (includeUnknownFields : Bool)

/-- The chunks of the unknown fields of a message. -/
def unknownChunks (m : Message) : List (List UInt8) := if m.unknown = [] then [] else [m.unknown]

/-- The comparison of the unknown fields, if the options ask for it. -/
def unknownIsEqual (m1 m2 : Message) : Option Bool :=
  if !includeUnknownFields then some true
  else
    match unknownFieldsAreEqual S 100 (unknownChunks m1) (unknownChunks m2) with
    | .ok result => some (result == .equal)
    | .error _ => some false

/-- `upb_Message_IsEqual`, where `sub` compares the sub-messages. -/
def messageIsEqual (sub : TableId → Slot → Slot → Option Bool) (t : TableId) (msg1 msg2 : Slot) :
    Option Bool :=
  if same msg1 msg2 then some true
  else
    match msg1.toMessage, msg2.toMessage with
    | some m1, some m2 =>
      thenTest (baseFieldsAreEqual sch hash same sub t m1 m2)
        (thenTest (extensionsAreEqual sch hash same sub m1 m2)
          (unknownIsEqual S includeUnknownFields m1 m2))
    | _, _ => none

/-- `upb_Message_IsEqual`, with at most `fuel` nested calls. -/
def isEqualMessage : (fuel : ℕ) → TableId → Slot → Slot → Option Bool
  | 0, _, _, _ => none
  | fuel + 1, t, msg1, msg2 =>
    messageIsEqual sch hash same S includeUnknownFields (isEqualMessage fuel) t msg1 msg2

end

end Upb.Compare
