import Upb.Common.ByteMemory
import Upb.MiniTable.Field
import Upb.Wire.Encode

/-!
# Messages as bytes

The accessors of `upb/message/internal/accessors.h` on the bytes of a message, and what the decoder
does to them in `_upb_Decoder_DecodeToSubMessage`. The fields of a oneof lie at one offset, so that
the bytes of one are read as another's where an accessor does not look at the case word. Numbers and
pointers are those of a little-endian 64-bit platform.
-/

namespace Upb

open Upb.Common (ByteMemory)
open Upb.Wire (littleEndian fixedBytes)

/-- The size of a representation, as `_upb_MiniTableField_DataCopy` copies it. -/
def FieldRep.size : FieldRep → ℕ
  | .rep1Byte => 1
  | .rep4Byte => 4
  | .rep8Byte => 8
  | .repStringView => 16

/-- The bytes of a message, counted from its address. -/
abbrev RawMessage := ByteMemory

/-- The bytes of a cleared field. -/
def zeros (n : ℕ) : List UInt8 := List.replicate n 0

namespace RawMessage

/-- `_upb_Message_GetHasbit`. -/
def getHasbit (m : RawMessage) (f : MiniTableField) : Bool :=
  (m (f.presence.toNat / 8)).toNat.testBit (f.presence.toNat % 8)

/-- `_upb_Message_SetHasbit`. -/
def setHasbit (m : RawMessage) (f : MiniTableField) : RawMessage :=
  let byte := (m (f.presence.toNat / 8)).toNat ||| 2 ^ (f.presence.toNat % 8)
  m.store (f.presence.toNat / 8) [UInt8.ofNat byte]

/-- `_upb_Message_ClearHasbit`. -/
def clearHasbit (m : RawMessage) (f : MiniTableField) : RawMessage :=
  let byte := (m (f.presence.toNat / 8)).toNat
  m.store (f.presence.toNat / 8)
    [UInt8.ofNat (if m.getHasbit f then byte - 2 ^ (f.presence.toNat % 8) else byte)]

/-- `_upb_Message_GetOneofCase`. -/
def getOneofCase (m : RawMessage) (f : MiniTableField) : ℕ := littleEndian (m.load f.oneofOffset.toNat 4)

/-- `_upb_Message_SetOneofCase`. -/
def setOneofCase (m : RawMessage) (f : MiniTableField) : RawMessage :=
  m.store f.oneofOffset.toNat (fixedBytes 4 f.number)

/-- `_upb_Message_SetPresence`. -/
def setPresence (m : RawMessage) (f : MiniTableField) : RawMessage :=
  if f.hasHasbit then m.setHasbit f else if f.isInOneof then m.setOneofCase f else m

/-- `upb_Message_HasBaseField`. -/
def hasBaseField (m : RawMessage) (f : MiniTableField) : Bool :=
  if f.isInOneof then m.getOneofCase f == f.number else m.getHasbit f

/-- The bytes of a field. -/
def data (m : RawMessage) (f : MiniTableField) : List UInt8 := m.load f.offset f.mode.rep.size

/-- `_upb_MiniTableField_DataIsZero`; a string view is zero if its size is. -/
def dataIsZero (f : MiniTableField) (val : List UInt8) : Bool :=
  match f.mode.rep with
  | .repStringView => littleEndian (val.drop 8) == 0
  | _ => val == zeros f.mode.rep.size

/-- `_upb_Message_GetNonExtensionField`. -/
def getNonExtensionField (m : RawMessage) (f : MiniTableField) (defaultVal : List UInt8) : List UInt8 :=
  if (f.isInOneof || !dataIsZero f defaultVal) && !m.hasBaseField f then defaultVal else m.data f

/-- `upb_Message_SetBaseField`. -/
def setBaseField (m : RawMessage) (f : MiniTableField) (val : List UInt8) : RawMessage :=
  (m.setPresence f).store f.offset (val.take f.mode.rep.size)

/-- `upb_Message_ClearBaseField`. -/
def clearBaseField (m : RawMessage) (f : MiniTableField) : RawMessage :=
  if f.hasHasbit then (m.clearHasbit f).store f.offset (zeros f.mode.rep.size)
  else if f.isInOneof then
    if m.getOneofCase f ≠ f.number then m
    else (m.store f.oneofOffset.toNat (zeros 4)).store f.offset (zeros f.mode.rep.size)
  else m.store f.offset (zeros f.mode.rep.size)

/-- The pointer in a field that is a message. -/
def pointer (m : RawMessage) (f : MiniTableField) : ℕ := littleEndian (m.load f.offset 8)

/-- A pointer written to a field that is a message. -/
def setPointer (m : RawMessage) (f : MiniTableField) (addr : ℕ) : RawMessage :=
  m.store f.offset (fixedBytes 8 addr)

/-- How `_upb_Decoder_DecodeToSubMessage` sets the presence of a field. -/
def decodePresence (m : RawMessage) (f : MiniTableField) (isSubMessage : Bool) : RawMessage :=
  if f.hasHasbit then m.setHasbit f
  else if f.isInOneof then
    setOneofCase
      (if isSubMessage && m.getOneofCase f != f.number then m.store f.offset (zeros 8) else m) f
  else m

/-- `_upb_Decoder_DecodeToSubMessage` of a number or a string, given its bytes. -/
def decodeValue (m : RawMessage) (f : MiniTableField) (val : List UInt8) : RawMessage :=
  (m.decodePresence f false).store f.offset val

end RawMessage

/-- A message with the messages that it can point to, by their addresses. -/
structure MessageHeap (γ : Type) where
  msg : RawMessage
  heap : ℕ → Option γ

namespace MessageHeap

variable {γ : Type} (empty : γ)

/-- `upb_Message_GetOrCreateMutableMessage`, where `_upb_Message_New` returns `addr`. -/
def getOrCreateMutableMessage (s : MessageHeap γ) (f : MiniTableField) (addr : ℕ) : ℕ × MessageHeap γ :=
  if s.msg.pointer f ≠ 0 then (s.msg.pointer f, s)
  else
    (addr, { msg := (s.msg.setPointer f addr).setPresence f
             heap := Function.update s.heap addr (some empty) })

/-- `_upb_Decoder_DecodeToSubMessage` of a sub-message whose payload does `merge` to it, where
`_upb_Message_New` returns `addr`. -/
def decodeMessage (s : MessageHeap γ) (f : MiniTableField) (addr : ℕ) (merge : γ → γ) : MessageHeap γ :=
  let msg := s.msg.decodePresence f true
  if msg.pointer f ≠ 0 then
    { msg, heap := Function.update s.heap (msg.pointer f) ((s.heap (msg.pointer f)).map merge) }
  else
    { msg := msg.setPointer f addr, heap := Function.update s.heap addr (some (merge empty)) }

end MessageHeap

end Upb
