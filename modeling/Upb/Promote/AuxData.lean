import Upb.Message.Message

/-!
# The unknown fields as they are stored

The member `aux_data` of a message: its unknown fields as views of bytes, between its extensions.
Deleting a record shortens the view that holds it, or splits it in two, for which it needs memory.
-/

namespace Upb

/-- `upb_TaggedAuxPtr`: an entry of `aux_data`. -/
inductive AuxPtr where
  | null
  | extension (e : ExtId)
  | unknown (data : List UInt8)
  deriving DecidableEq

/-- The bytes of an entry. -/
def AuxPtr.data : AuxPtr → List UInt8
  | .unknown data => data
  | _ => []

/-- The members of `upb_FindUnknownRet` for a record that was found: the position behind its entry, and
the place of the record in the bytes of the entry. -/
structure FindUnknownRet where
  iter : ℕ
  offset : ℕ
  len : ℕ
  deriving DecidableEq

/-- The bytes of a record that was found. -/
def recordOf (aux : List AuxPtr) (found : FindUnknownRet) : List UInt8 :=
  ((aux[found.iter - 1]?.getD .null).data.drop found.offset).take found.len

/-- `upb_Message_DeleteUnknown` of a record that was found; `none` is `kUpb_DeleteUnknown_AllocFail`,
which leaves the entries as they are. -/
def deleteUnknown (aux : List AuxPtr) (found : FindUnknownRet) (alloc : Bool) : Option (List AuxPtr) :=
  let i := found.iter - 1
  let unknown := (aux[i]?.getD .null).data
  if found.offset = 0 ∧ found.len = unknown.length then some (aux.set i .null)
  else if found.offset = 0 then some (aux.set i (.unknown (unknown.drop found.len)))
  else if found.offset + found.len = unknown.length then
    some (aux.set i (.unknown (unknown.take found.offset)))
  else if alloc then
    some (aux.take i ++ [.unknown (unknown.take found.offset),
      .unknown (unknown.drop (found.offset + found.len))] ++ aux.drop found.iter)
  else none

/-- The bytes of all entries. -/
def unknownSize (aux : List AuxPtr) : ℕ := (aux.map fun p => p.data.length).sum

/-- A record lies in the bytes of an entry. -/
structure FindUnknownRet.IsIn (found : FindUnknownRet) (before : List AuxPtr) (data : List UInt8) : Prop where
  iter : found.iter = before.length + 1
  fits : found.offset + found.len ≤ data.length
  positive : 0 < found.len

section

variable {before after : List AuxPtr} {data : List UInt8} {found : FindUnknownRet} {alloc : Bool}

/-- What is left of the entry of a deleted record. -/
def remainder (data : List UInt8) (found : FindUnknownRet) : List AuxPtr :=
  if found.offset = 0 ∧ found.len = data.length then [.null]
  else if found.offset = 0 then [.unknown (data.drop found.len)]
  else if found.offset + found.len = data.length then [.unknown (data.take found.offset)]
  else [.unknown (data.take found.offset), .unknown (data.drop (found.offset + found.len))]

/-- Deleting a record leaves the other entries alone; it fails only when an entry is to be split. -/
theorem deleteUnknown_eq (h : found.IsIn before data) :
    deleteUnknown (before ++ .unknown data :: after) found alloc =
      if found.offset ≠ 0 ∧ found.offset + found.len ≠ data.length ∧ alloc = false then none
      else some (before ++ remainder data found ++ after) := by
  have hi : found.iter - 1 = before.length := by rw [h.iter, Nat.add_sub_cancel]
  have hget : (before ++ .unknown data :: after)[before.length]? = some (.unknown data) := by simp
  have hset : ∀ p, (before ++ .unknown data :: after).set before.length p = before ++ [p] ++ after := by
    intro p
    rw [List.set_append_right _ _ le_rfl, Nat.sub_self]
    simp
  rw [deleteUnknown, hi, hget]
  simp only [Option.getD_some, AuxPtr.data, hset, remainder]
  have hdrop : (before ++ .unknown data :: after).drop found.iter = after := by
    have hlen : found.iter = (before ++ [AuxPtr.unknown data]).length := by rw [h.iter]; simp
    rw [List.append_cons, hlen, List.drop_left]
  by_cases h0 : found.offset = 0
  · by_cases hlen : found.len = data.length
    · simp [h0, hlen]
    · simp [h0, hlen]
  · by_cases hend : found.offset + found.len = data.length
    · simp [h0, hend]
    · cases alloc with
      | false => simp [h0, hend]
      | true => simp [h0, hend, hdrop]

theorem unknownSize_append (a b : List AuxPtr) : unknownSize (a ++ b) = unknownSize a + unknownSize b := by
  simp [unknownSize]

/-- A deleted record is gone. -/
theorem unknownSize_remainder (h : found.IsIn before data) :
    unknownSize (remainder data found) + found.len = data.length := by
  have hfits := h.fits
  rw [remainder]
  split
  · next hwhole => simp [unknownSize, AuxPtr.data, hwhole.2]
  · split
    · simp [unknownSize, AuxPtr.data]
      omega
    · split
      · simp [unknownSize, AuxPtr.data]
        omega
      · simp [unknownSize, AuxPtr.data]
        omega

/-- Deleting a record makes the unknown fields shorter. -/
theorem unknownSize_deleteUnknown (h : found.IsIn before data) {aux : List AuxPtr}
    (hdel : deleteUnknown (before ++ .unknown data :: after) found alloc = some aux) :
    unknownSize aux < unknownSize (before ++ .unknown data :: after) := by
  rw [deleteUnknown_eq h] at hdel
  split at hdel
  · cases hdel
  · cases hdel
    have hsize := unknownSize_remainder h
    have hpos := h.positive
    have hdata : unknownSize (.unknown data :: after) = data.length + unknownSize after := by
      simp [unknownSize, AuxPtr.data]
    rw [unknownSize_append, unknownSize_append, unknownSize_append, hdata]
    omega

end

end Upb
