import Upb.Wire.Reader

/-!
# Comparing unknown fields

`upb/message/internal/compare_unknown.c`. The unknown data of each message is read into a tree of
records, the records of every level are sorted by their tags, and the two trees are compared. The
unknown data of a message comes in chunks, in the order in which it was added. The arena and the size
of the temporary buffer are left out.
-/

namespace Upb.Compare

open Upb.Common (Prog)
open Upb.Wire

/-- `upb_UnknownField`: a field number, and the member of the data that the wire type selects. -/
inductive UnknownField where
  | varint (number value : ℕ)
  | bit64 (number value : ℕ)
  | delimited (number : ℕ) (data : List UInt8)
  | group (number : ℕ) (fields : List UnknownField)
  | bit32 (number value : ℕ)

namespace UnknownField

/-- The wire type of a record. -/
def wireType : UnknownField → WireType
  | .varint _ _ => .varint
  | .bit64 _ _ => .bit64
  | .delimited _ _ => .delimited
  | .group _ _ => .startGroup
  | .bit32 _ _ => .bit32

/-- The field number of a record. -/
def number : UnknownField → ℕ
  | .varint n _ => n
  | .bit64 n _ => n
  | .delimited n _ => n
  | .group n _ => n
  | .bit32 n _ => n

/-- The tag of a record. -/
def tag (f : UnknownField) : ℕ := f.number * 8 + f.wireType.toNat

end UnknownField

/-- The loop of `upb_UnknownFields_Merge` over the rest of the first and of the second run: what it
writes, and what it leaves of the two. -/
def mergeLoop : List UnknownField → List UnknownField →
    List UnknownField × List UnknownField × List UnknownField
  | f :: fs, g :: gs =>
    if f.tag ≤ g.tag then
      let (out, rest₁, rest₂) := mergeLoop fs (g :: gs)
      (f :: out, rest₁, rest₂)
    else
      let (out, rest₁, rest₂) := mergeLoop (f :: fs) gs
      (g :: out, rest₁, rest₂)
  | fs, gs => ([], fs, gs)
termination_by fs gs => fs.length + gs.length

/-- `upb_UnknownFields_Merge`. Both runs are copied to `tmp`, one behind the other. -/
def merge (run₁ run₂ : List UnknownField) : List UnknownField :=
  let tmp := run₁ ++ run₂
  let (out, rest₁, rest₂) := mergeLoop run₁ run₂
  if rest₁ ≠ [] then out ++ rest₁
  else if rest₂ ≠ [] then
    -- `memcpy(out, ptr1, end2 - ptr2)`: here `ptr1` is the end of the first run
    out ++ (tmp.drop run₁.length).take rest₂.length
  else out

/-- `upb_UnknownFields_SortRecursive`, on the records from `start` to `end`. -/
def sortRecursive (arr : List UnknownField) : List UnknownField :=
  if 1 < arr.length then
    let mid := arr.length / 2
    merge (sortRecursive (arr.take mid)) (sortRecursive (arr.drop mid))
  else arr
termination_by arr.length
decreasing_by
  · rw [List.length_take]
    omega
  · rw [List.length_drop]
    omega

/-- `upb_UnknownFields_Builder`: the records that were read. -/
structure Builder where
  fields : List UnknownField
  sorted : Bool
  lastTag : ℕ

namespace Builder

/-- A builder that has read nothing. -/
def init : Builder := ⟨[], true, 0⟩

/-- Adds a record, and notes whether its tag is smaller than the one before. -/
def add (b : Builder) (f : UnknownField) : Builder :=
  ⟨b.fields ++ [f], b.sorted && decide (b.lastTag ≤ f.tag), f.tag⟩

/-- `upb_UnknownFields_DoBuild`. -/
def doBuild (b : Builder) : List UnknownField := if b.sorted then b.fields else sortRecursive b.fields

end Builder

section

variable {σ : Type} (S : Stream σ)

/-- The data behind a tag; `group` reads the fields of a group. -/
def readField (group : Reading σ (List UnknownField)) (tag : ℕ) : Reading σ UnknownField :=
  match getWireType tag with
  | some .varint => do
    let value ← readVarint S
    pure (.varint (getFieldNumber tag) value)
  | some .bit64 => do
    let value ← S.readFixed 8
    pure (.bit64 (getFieldNumber tag) value)
  | some .bit32 => do
    let value ← S.readFixed 4
    pure (.bit32 (getFieldNumber tag) value)
  | some .delimited => do
    let size ← readSize S
    let sv ← S.readStringAlwaysAlias size
    pure (.delimited (getFieldNumber tag) sv.data)
  | some .startGroup => do
    let fields ← group
    pure (.group (getFieldNumber tag) fields)
  -- `UPB_UNREACHABLE`
  | _ => throw .malformed

/-- A round of the loop of `upb_CombineUnknownFields`. -/
def combineRound (group : Reading σ (List UnknownField)) (b : Builder) :
    Reading σ (Builder ⊕ Builder) := do
  let tag ← readTag S
  if getWireType tag = some .endGroup then pure (.inr b)
  else
    let f ← readField S group tag
    pure (.inl (b.add f))

/-- The loop of `upb_CombineUnknownFields`. -/
def combineLoop (fuel : ℕ) (group : Reading σ (List UnknownField)) (b : Builder) : Reading σ Builder :=
  Prog.loop S.isDone .outOfFuel (combineRound S group) pure fuel b

/-- What `upb_CombineUnknownFields` does at a start group tag, with so much depth left; here
`upb_UnknownFields_BuildFromBuffer` reads a group. -/
def buildGroup (fuel : ℕ) : (depth : ℕ) → Reading σ (List UnknownField)
  | 0 => throw .maxDepthExceeded
  | depth + 1 => do
    let b ← combineLoop S fuel (buildGroup fuel depth) .init
    pure b.doBuild

/-- `upb_CombineUnknownFields` on a fresh stream over a chunk; its loops have a round for every
byte. -/
def combineUnknownFields (maxDepth : ℕ) (b : Builder) (chunk : List UInt8) :
    Except DecodeError Builder :=
  (combineLoop S chunk.length (buildGroup S chunk.length maxDepth) b (S.enter ⟨0, chunk⟩)).map Prod.fst

/-- `upb_UnknownFields_Build`. -/
def build (maxDepth : ℕ) (chunks : List (List UInt8)) : Except DecodeError (List UnknownField) := do
  let b ← chunks.foldlM (combineUnknownFields S maxDepth) .init
  pure b.doBuild

end

mutual

/-- Compares the tags of two records and the data that the wire type selects. -/
def fieldIsEqual : UnknownField → UnknownField → Bool
  | .varint n v, .varint n' v' => decide (n = n') && decide (v = v')
  | .bit64 n v, .bit64 n' v' => decide (n = n') && decide (v = v')
  | .bit32 n v, .bit32 n' v' => decide (n = n') && decide (v = v')
  | .delimited n s, .delimited n' s' => decide (n = n') && decide (s = s')
  | .group n fs, .group n' gs => decide (n = n') && isEqual fs gs
  -- the tags are different
  | _, _ => false

/-- `upb_UnknownFields_IsEqual`. -/
def isEqual : List UnknownField → List UnknownField → Bool
  | [], [] => true
  | f :: fs, g :: gs => fieldIsEqual f g && isEqual fs gs
  -- the sizes are different
  | _, _ => false

end

/-- `upb_UnknownCompareResult`, without the failure of an allocation. -/
inductive UnknownCompareResult where
  | equal | notEqual | maxDepthExceeded
  deriving DecidableEq

/-- `upb_UnknownField_Compare`; only data that is no sequence of records gives an error. -/
def unknownFieldCompare {σ : Type} (S : Stream σ) (maxDepth : ℕ) (msg₁ msg₂ : List (List UInt8)) :
    Except DecodeError UnknownCompareResult :=
  let compare : Except DecodeError UnknownCompareResult := do
    let uf₁ ← build S maxDepth msg₁
    let uf₂ ← build S maxDepth msg₂
    pure (if isEqual uf₁ uf₂ then .equal else .notEqual)
  match compare with
  | .error .maxDepthExceeded => .ok .maxDepthExceeded
  | result => result

/-- `_upb_Message_UnknownFieldsAreEqual`, on the chunks of unknown data of two messages. -/
def unknownFieldsAreEqual {σ : Type} (S : Stream σ) (maxDepth : ℕ) (msg₁ msg₂ : List (List UInt8)) :
    Except DecodeError UnknownCompareResult :=
  if msg₁.isEmpty && msg₂.isEmpty then .ok .equal
  else if msg₁.isEmpty || msg₂.isEmpty then .ok .notEqual
  else unknownFieldCompare S maxDepth msg₁ msg₂

end Upb.Compare
