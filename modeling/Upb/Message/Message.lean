import Upb.Hash.IntTable
import Upb.Hash.StrTable
import Upb.MiniTable.Schema

/-!
# Messages

A message holds its hasbits, its oneof cases, the contents of its fields by offset, its extensions in
the order of their creation, and its unknown fields as one string of bytes. Fields of one oneof share
an offset. Memory that was never written is zero: it reads as the number 0, as the empty string and
as a null pointer.

A map is one of the two hash tables. A table stores references to the values, which are kept in a
list, the way the C tables store pointers into an arena. The pointers are those of a 64-bit platform.
-/

namespace Upb

/-- The member `t` of a `upb_Map`: one of the hash tables, of references to values. -/
inductive MapTable where
  | inttable (t : IntTable ℕ)
  | strtable (t : StrTable ℕ)

/-- The contents of a field, of an array element, of a map value or of an extension. -/
inductive Slot where
  | zero
  /-- The raw bits of a number. -/
  | bits (val : ℕ)
  | str (data : List UInt8)
  | array (elems : List Slot)
  /-- A map with the size of its keys, 0 for strings. -/
  | map (keySize : ℕ) (table : MapTable) (values : List Slot)
  | message (hasbits : ℕ → Bool) (cases : ℕ → ℕ) (slots : ℕ → Slot) (exts : List (ExtId × Slot))
      (unknown : List UInt8)

/-- `upb_Message`. -/
structure Message where
  hasbits : ℕ → Bool
  /-- The oneof cases by the offset of the case word. -/
  cases : ℕ → ℕ
  slots : ℕ → Slot
  exts : List (ExtId × Slot)
  unknown : List UInt8

namespace Slot

/-- A pointer to a message. -/
def ofMessage (m : Message) : Slot := .message m.hasbits m.cases m.slots m.exts m.unknown

/-- The message that a slot points to; null if there is none. -/
def toMessage : Slot → Option Message
  | .message hasbits cases slots exts unknown => some ⟨hasbits, cases, slots, exts, unknown⟩
  | _ => none

/-- The bits of a number. -/
def toBits : Slot → ℕ
  | .bits val => val
  | _ => 0

/-- The bytes of a string. -/
def toStr : Slot → List UInt8
  | .str data => data
  | _ => []

/-- The elements of an array; null is an empty array. -/
def toArray : Slot → List Slot
  | .array elems => elems
  | _ => []

@[simp] theorem toMessage_ofMessage (m : Message) : (ofMessage m).toMessage = some m := rfl

end Slot

namespace Message

/-- `_upb_Message_New`: zeroed memory. -/
def new : Message := ⟨fun _ => false, fun _ => 0, fun _ => .zero, [], []⟩

/-- The contents of a field. -/
def data (m : Message) (f : MiniTableField) : Slot := m.slots f.offset

/-- Writes the contents of a field. -/
def setData (m : Message) (f : MiniTableField) (s : Slot) : Message :=
  { m with slots := Function.update m.slots f.offset s }

/-- `_upb_Message_GetHasbit`. -/
def getHasbit (m : Message) (f : MiniTableField) : Bool := m.hasbits f.presence.toNat

/-- `_upb_Message_SetHasbit`. -/
def setHasbit (m : Message) (f : MiniTableField) : Message :=
  { m with hasbits := Function.update m.hasbits f.presence.toNat true }

/-- `_upb_Message_GetOneofCase`. -/
def oneofCase (m : Message) (f : MiniTableField) : ℕ := m.cases f.oneofOffset.toNat

/-- Writes the case of the field's oneof. -/
def setOneofCase (m : Message) (f : MiniTableField) : Message :=
  { m with cases := Function.update m.cases f.oneofOffset.toNat f.number }

/-- `_upb_Message_IsInitializedShallow`: the hasbits of the required fields come first, behind the
eight bytes of the message header. -/
def isInitializedShallow (m : Message) (t : MiniTable) : Bool :=
  (List.range t.requiredCount).all fun i => m.hasbits (64 + i)

/-- `_upb_Message_AddUnknown`. -/
def addUnknown (m : Message) (data : List UInt8) : Message := { m with unknown := m.unknown ++ data }

/-- `_upb_Message_Getext`. -/
def getext (m : Message) (e : ExtId) : Option Slot := m.exts.lookup e

/-- Writes the contents of an extension, created if need be. -/
def setExt (m : Message) (e : ExtId) (s : Slot) : Message :=
  { m with exts :=
      if (m.getext e).isSome then m.exts.map fun x => if x.1 = e then (e, s) else x
      else m.exts ++ [(e, s)] }

@[simp] theorem data_setData (m : Message) (f : MiniTableField) (s : Slot) :
    (m.setData f s).data f = s := Function.update_self _ _ _

@[simp] theorem unknown_setData (m : Message) (f : MiniTableField) (s : Slot) :
    (m.setData f s).unknown = m.unknown := rfl

@[simp] theorem addUnknown_nil (m : Message) : m.addUnknown [] = m := by simp [addUnknown]

end Message

end Upb
