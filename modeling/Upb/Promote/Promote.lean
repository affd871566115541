import Upb.Common.Rounds
import Upb.Promote.DeleteUnknown
import Upb.Wire.Refinement

/-!
# Promotion

`upb/message/promote.c`: the unknown records of a field that was not linked when the message was
decoded are decoded and moved into the field. Each routine finds a record, decodes its payload and
deletes it, over and over. Which allocations get their memory is decided round by round by an
environment.
-/

namespace Upb.Promote

open Upb.Common Upb.Wire

/-- `upb_UnknownToMessage_Status`. -/
inductive UnknownToMessageStatus where
  | ok | parseError | outOfMemory | notFound
  deriving DecidableEq

/-- The statuses of `upb_MiniTable_ParseUnknownMessage`. -/
inductive ParseRet where
  | ok (message : Message)
  | parseError
  | outOfMemory

/-- What happens in one round besides the code: which allocations get their memory, what a decoding
that fails leaves of the message it was decoding into, and what comes of a record that is not
delimited, whose value is taken for the length of the memory behind it. -/
structure RoundEvent where
  newMessage : Bool
  decode : Bool
  container : Bool
  append : Bool
  split : Bool
  left : Message → Message
  stray : ParseRet

/-- The payload of a delimited record. -/
def recordPayload (rec : List UInt8) : Option (List UInt8) :=
  (splitVarint 5 rec).bind fun (tag, value) =>
    if getWireType (leb tag) = some .delimited then
      (splitVarint 10 value).map fun (len, payload) => payload.take (leb len % 2 ^ 64)
    else none

section

variable (cfg : DecodeConfig) (maxDepth : ℕ)

/-- The decoder of the payloads, without extensions. -/
def payloadConfig : DecodeConfig := { cfg with schema := { cfg.schema with extreg := none } }

/-- `upb_MiniTable_ParseUnknownMessage`. -/
def parseUnknownMessage (t : TableId) (ev : RoundEvent) (base : Option Message) (rec : List UInt8) :
    ParseRet :=
  if base.isNone ∧ ¬ ev.newMessage then .outOfMemory
  else
    match recordPayload rec with
    | none => ev.stray
    | some payload =>
      if ¬ ev.decode then .outOfMemory
      else
        match upbDecode (payloadConfig cfg) maxDepth t (base.getD .new) payload with
        | .ok d => .ok d.msg
        | .error .outOfMemory => .outOfMemory
        | .error _ => .parseError

section Message

variable (f : MiniTableField) (t : TableId)

/-- The state of `upb_MiniTable_PromoteUnknownToMessage`. -/
structure MessageState where
  msg : Message
  aux : List AuxPtr
  message : Option Message

/-- `upb_Message_SetMessage`, with the case of the oneof. -/
def setMessage (m : Message) (sub : Message) : Message :=
  let m := if f.hasHasbit then m.setHasbit f else if f.isInOneof then m.setOneofCase f else m
  m.setData f (.ofMessage sub)

/-- What `upb_MiniTable_PromoteUnknownToMessage` leaves behind. -/
def finishMessage (st : MessageState) : Message :=
  match st.message with
  | some sub => setMessage f st.msg sub
  | none => st.msg

/-- One round of `upb_MiniTable_PromoteUnknownToMessage`. A payload that cannot be decoded does not
leave the loop; a deletion that fails is not noticed. -/
def promoteMessageRound (ev : RoundEvent) (st : MessageState) :
    MessageState ⊕ (UnknownToMessageStatus × Message × List AuxPtr) :=
  match findUnknown st.aux f.number (effectiveMaxDepth maxDepth) with
  | .ok found =>
    match parseUnknownMessage cfg maxDepth t ev st.message (recordOf st.aux found) with
    | .ok m =>
      .inl { st with message := some m, aux := (deleteUnknown st.aux found ev.split).getD st.aux }
    | .parseError => .inl { st with message := st.message.map ev.left }
    | .outOfMemory => .inl { st with message := st.message.map ev.left }
  | .parseError => .inr (.parseError, finishMessage f st, st.aux)
  | .notPresent => .inr (if st.message.isSome then .ok else .notFound, finishMessage f st, st.aux)
  -- a search that does not end
  | .outOfFuel => .inl st

/-- `upb_MiniTable_PromoteUnknownToMessage` returns. -/
def MessageReturns (msg : Message) (aux : List AuxPtr) (env : ℕ → RoundEvent) : Prop :=
  Ends (promoteMessageRound cfg maxDepth f t) env ⟨msg, aux, none⟩ fun _ => True

end Message

section Repeated

variable (f : MiniTableField) (t : TableId)

/-- The state of the promotion to an array or a map. -/
structure FieldState where
  msg : Message
  aux : List AuxPtr

/-- How the promotion to an array or a map ends. -/
inductive PromoteEnd where
  | returned (status : UnknownToMessageStatus) (st : FieldState)
  /-- The array or the map could not be created and is a null pointer that is used. -/
  | nullPointer

/-- What comes of adding a decoded message to the array or the map. -/
inductive AddResult where
  | added (msg : Message)
  | outOfMemory (msg : Message)
  | nullPointer

/-- One round of a promotion to an array or a map, with the function that adds the decoded message. -/
def promoteRepeatedRound (add : RoundEvent → Message → Message → AddResult) (ev : RoundEvent)
    (st : FieldState) : FieldState ⊕ PromoteEnd :=
  match findUnknown st.aux f.number (effectiveMaxDepth maxDepth) with
  | .ok found =>
    match parseUnknownMessage cfg maxDepth t ev none (recordOf st.aux found) with
    | .ok m =>
      match add ev st.msg m with
      | .added msg => .inl ⟨msg, (deleteUnknown st.aux found ev.split).getD st.aux⟩
      | .outOfMemory msg => .inr (.returned .outOfMemory { st with msg })
      | .nullPointer => .inr .nullPointer
    | .parseError => .inr (.returned .parseError st)
    | .outOfMemory => .inr (.returned .outOfMemory st)
  | .parseError => .inr (.returned .ok st)
  | .notPresent => .inr (.returned .ok st)
  -- a search that does not end
  | .outOfFuel => .inl st

/-- The array, created on demand. -/
def getOrCreateArray (ev : RoundEvent) (s : Slot) : Option Slot :=
  match s with
  | .array elems => some (.array elems)
  | _ => if ev.container then some (.array []) else none

/-- `upb_Array_Append`, to an array that is created on demand. -/
def addToArray (ev : RoundEvent) (msg m : Message) : AddResult :=
  match getOrCreateArray ev (msg.data f) with
  | none => .nullPointer
  | some arr =>
    if ev.append then .added (msg.setData f (.array (arr.toArray ++ [.ofMessage m])))
    else .outOfMemory (msg.setData f arr)

/-- `upb_Message_GetOrCreateMutableMap`, with the table of the entries. -/
def getOrCreateMap (ev : RoundEvent) (s : Slot) : Option Slot :=
  match s with
  | .map keySize table values => some (.map keySize table values)
  | s => if ev.container then mapOrNew cfg t s else none

/-- `upb_Message_SetMapEntry`, of a map that is created on demand. -/
def addToMap (ev : RoundEvent) (msg m : Message) : AddResult :=
  match getOrCreateMap cfg t ev (msg.data f) with
  | none => .nullPointer
  | some map =>
    match if ev.append then mapInsertEntry cfg t m map else none with
    | some map => .added (msg.setData f map)
    | none => .outOfMemory (msg.setData f map)

/-- One round of `upb_MiniTable_PromoteUnknownToMessageArray`. -/
def promoteArrayRound : RoundEvent → FieldState → FieldState ⊕ PromoteEnd :=
  promoteRepeatedRound cfg maxDepth f t (addToArray f)

/-- One round of `upb_MiniTable_PromoteUnknownToMap`, with the table of the entries. -/
def promoteMapRound : RoundEvent → FieldState → FieldState ⊕ PromoteEnd :=
  promoteRepeatedRound cfg maxDepth f t (addToMap cfg f t)

/-- A promotion to an array or a map has returned. -/
def PromoteEnd.Returned : PromoteEnd → Prop
  | .returned _ _ => True
  | .nullPointer => False

/-- `upb_MiniTable_PromoteUnknownToMessageArray` returns. -/
def ArrayReturns (msg : Message) (aux : List AuxPtr) (env : ℕ → RoundEvent) : Prop :=
  Ends (promoteArrayRound cfg maxDepth f t) env ⟨msg, aux⟩ PromoteEnd.Returned

/-- `upb_MiniTable_PromoteUnknownToMap` returns. -/
def MapReturns (msg : Message) (aux : List AuxPtr) (env : ℕ → RoundEvent) : Prop :=
  Ends (promoteMapRound cfg maxDepth f t) env ⟨msg, aux⟩ PromoteEnd.Returned

end Repeated

end

end Upb.Promote
