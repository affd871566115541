import Upb.MiniDescriptor.Decode

/-!
# The layout of a mini table

The second half of `upb/mini_descriptor/decode.c`: sub-table offsets, hasbits, the placement of the
fields by representation, and the three kinds of mini descriptors.
-/

namespace Upb

namespace MiniDescriptor

/-- `UPB_ALIGN_UP`. -/
def alignUp (size align : ℕ) : ℕ := (size + align - 1) / align * align

/-- `sizeof(upb_MiniTableField)`. -/
def kSizeofField : ℕ := 12

/-- `upb_MtDecoder_PtrSize`. -/
def ptrSize : Platform → ℕ
  | .bits32 => 4
  | .bits64 => 8

/-- `kUpb_Reserved_Hasbits`. -/
def kReservedHasbits : ℕ := 64

/-- The value of an assignment to an `int16_t`. -/
def toInt16 (n : ℤ) : ℤ := (n + 2 ^ 15) % 2 ^ 16 - 2 ^ 15

/-- The loop of `upb_MtDecoder_AllocateSubs`: `ofs` is the distance in bytes from the current field to
the next entry of the sub tables. -/
def allocateSubsLoop (ptr : ℕ) : ℕ → List MiniTableField → Except MdError (List MiniTableField)
  | _, [] => .ok []
  | ofs, f :: rest =>
    if f.submsgOfs = noSub then do
      let rest ← allocateSubsLoop ptr (ofs - kSizeofField) rest
      .ok (f :: rest)
    else if uint16Max < ofs / 4 then .error .submessageOffsetOverflow
    else do
      let rest ← allocateSubsLoop ptr (ofs + ptr - kSizeofField) rest
      .ok ({ f with submsgOfs := ofs / 4 } :: rest)

/-- `upb_MtDecoder_AllocateSubs`, with the start of the sub tables behind the fields. -/
def allocateSubs (d : MtDecoder) : Except MdError MtDecoder := do
  let ofs := alignUp (d.table.fieldCount * kSizeofField) (ptrSize d.platform)
  let fields ← allocateSubsLoop (ptrSize d.platform) ofs d.table.fields
  .ok { d with table := { d.table with fields } }

/-- `upb_MtDecoder_ParseMessage`. The sub tables start behind the fields that are counted; from here on
the table has no other fields. -/
def parseMessage (d : MtDecoder) (data : List ℕ) : Except MdError MtDecoder := do
  let d ← parse { d with table := { d.table with fields := [], fieldCount := 0 } } data
  allocateSubs { d with table := { d.table with fields := d.table.fields.take d.table.fieldCount } }

/-- The first loop of `upb_MtDecoder_AssignHasbits`: required fields, which have the lowest hasbits,
and fields without presence. -/
def assignRequired : ℕ → List MiniTableField → List MiniTableField × ℕ
  | lastHasbit, [] => ([], lastHasbit)
  | lastHasbit, f :: rest =>
    if f.offset = kRequiredPresence then
      let (rest, last) := assignRequired (lastHasbit + 1) rest
      ({ f with presence := toInt16 (lastHasbit + 1) } :: rest, last)
    else
      let (rest, last) := assignRequired lastHasbit rest
      ((if f.offset = kNoPresence then { f with presence := 0 } else f) :: rest, last)

/-- The second loop of `upb_MtDecoder_AssignHasbits`: the other fields with a hasbit. -/
def assignOptional : ℕ → List MiniTableField → List MiniTableField × ℕ
  | lastHasbit, [] => ([], lastHasbit)
  | lastHasbit, f :: rest =>
    if f.offset = kHasbitPresence then
      let (rest, last) := assignOptional (lastHasbit + 1) rest
      ({ f with presence := toInt16 (lastHasbit + 1) } :: rest, last)
    else
      let (rest, last) := assignOptional lastHasbit rest
      (f :: rest, last)

/-- `upb_MtDecoder_AssignHasbits`. -/
def assignHasbits (d : MtDecoder) : Except MdError MtDecoder :=
  let (fields, lastRequired) := assignRequired (kReservedHasbits - 1) d.table.fields
  if kReservedHasbits + 63 ≤ lastRequired then .error .tooManyRequiredFields
  else
    let (fields, last) := assignOptional lastRequired fields
    .ok { d with table := { d.table with
      fields, requiredCount := lastRequired - (kReservedHasbits - 1)
      size := if last = 0 then 0 else toUint16 ((last + 1 + 8 - 1) / 8) } }

/-- The representations in the order of the layout. -/
def allReps : List FieldRep := [.rep1Byte, .rep4Byte, .repStringView, .rep8Byte]

/-- One round of the placement loop of `upb_MtDecoder_CalculateAlignments`: a count becomes the base
offset of its representation. -/
def alignRep (platform : Platform) (s : ℕ × (FieldRep → ℕ)) (rep : FieldRep) : ℕ × (FieldRep → ℕ) :=
  let (base, counts) := s
  if counts rep = 0 then (base, counts)
  else
    let start := alignUp base (alignOfRep platform rep)
    (start + sizeOfRep platform rep * counts rep, Function.update counts rep (toUint16 start))

/-- `upb_MtDecoder_CalculateAlignments`. -/
def calculateAlignments (d : MtDecoder) : Except MdError MtDecoder :=
  let counts := (d.table.fields.filter fun f => f.offset < kOneofBase).foldl
    (fun counts f => bumpRep counts f.mode.rep) d.repCounts
  let (base, offsets) := allReps.foldl (alignRep d.platform) (d.table.size, counts)
  if uint16Max < base then .error .messageTooLarge
  else .ok { d with repCounts := offsets, table := { d.table with size := base } }

/-- `upb_MtDecoder_Place`. -/
def place (platform : Platform) (offsets : FieldRep → ℕ) (rep : FieldRep) :
    ℕ × (FieldRep → ℕ) :=
  (offsets rep, Function.update offsets rep (toUint16 (offsets rep + sizeOfRep platform rep)))

/-- The first loop of `upb_MtDecoder_AssignOffsets`: fields outside of oneofs. -/
def assignFieldOffsets (platform : Platform) :
    (FieldRep → ℕ) → List MiniTableField → List MiniTableField × (FieldRep → ℕ)
  | offsets, [] => ([], offsets)
  | offsets, f :: rest =>
    if kOneofBase ≤ f.offset then
      let (rest, offsets) := assignFieldOffsets platform offsets rest
      (f :: rest, offsets)
    else
      let (ofs, offsets) := place platform offsets f.mode.rep
      let (rest, offsets) := assignFieldOffsets platform offsets rest
      ({ f with offset := ofs } :: rest, offsets)

/-- The walk along the members of one oneof; it ends at the sentinel, and at a member behind the counted
fields, where the C code leaves the array. -/
def assignOneofMembers (caseOffset dataOffset : ℕ) :
    ℕ → ℕ → List MiniTableField → List MiniTableField
  | 0, _, fields => fields
  | fuel + 1, i, fields =>
    match fields[i]? with
    | none => fields
    | some f =>
      let fields := fields.set i
        { f with presence := toInt16 (-(caseOffset : ℤ) - 1), offset := dataOffset }
      if f.offset = kIndexSentinel then fields
      else assignOneofMembers caseOffset dataOffset fuel (f.offset - kOneofBase) fields

/-- The second loop of `upb_MtDecoder_AssignOffsets`: the case word and the data of each oneof. -/
def assignOneofOffsets (platform : Platform) :
    (FieldRep → ℕ) → List OneOfLayoutItem → List MiniTableField → List MiniTableField
  | _, [], fields => fields
  | offsets, item :: rest, fields =>
    let (caseOffset, offsets) := place platform offsets .rep4Byte
    let (dataOffset, offsets) := place platform offsets item.rep
    assignOneofOffsets platform offsets rest
      (assignOneofMembers caseOffset dataOffset fields.length item.fieldIndex fields)

/-- `upb_MtDecoder_AssignOffsets`. -/
def assignOffsets (d : MtDecoder) : MtDecoder :=
  let (fields, offsets) := assignFieldOffsets d.platform d.repCounts d.table.fields
  { d with table := { d.table with
    fields := assignOneofOffsets d.platform offsets d.oneofs fields
    size := toUint16 (alignUp d.table.size 8) } }

/-- `upb_MtDecoder_ValidateEntryField`. -/
def validateEntryField (f : MiniTableField) (expected : ℕ) : Except MdError Unit :=
  if f.number ≠ expected then .error (.mapFieldNumber expected f.number)
  else if !f.isScalar then .error (.mapFieldNotScalar expected)
  else
    let notOk : List FieldType := if expected = 1 then
      [.float, .double, .message, .group, .bytes, .enum] else [.group]
    if notOk.contains f.type then .error (.mapFieldType expected f.descriptortype) else .ok ()

/-- `offsetof(upb_MapEntry, k)`, after the hasbits. -/
def kMapEntryKeyOffset : ℕ := 16

/-- `offsetof(upb_MapEntry, v)`. -/
def kMapEntryValueOffset : ℕ := 32

/-- `sizeof(upb_MapEntry)`. -/
def kSizeofMapEntry : ℕ := 48

/-- `upb_MtDecoder_ParseMap`. -/
def parseMap (d : MtDecoder) (data : List ℕ) : Except MdError MtDecoder := do
  let d ← parseMessage d data
  let d ← assignHasbits d
  if d.table.fieldCount ≠ 2 then .error (.mapFieldCount d.table.fieldCount)
  else if d.oneofs ≠ [] then .error .mapHasOneof
  else match d.table.fields with
    | [k, v] => do
      validateEntryField k 1
      validateEntryField v 2
      .ok { d with table := { d.table with
        fields := [{ k with offset := kMapEntryKeyOffset }, { v with offset := kMapEntryValueOffset }]
        size := kSizeofMapEntry
        ext := { d.table.ext with isMapEntry := true } } }
    | _ => .error (.mapFieldCount d.table.fieldCount)

/-- The decoder that `upb_MiniTable_Build` starts from. -/
def MtDecoder.initial (platform : Platform) : MtDecoder where
  table := ⟨[], 0, kReservedHasbits / 8, ⟨false, false, false⟩, 0, 0⟩
  platform := platform
  oneofs := []
  repCounts := fun _ => 0
  subCount := 0

/-- `upb_MiniTable_Build`. -/
def build (platform : Platform) (data : List ℕ) : Except MdError MiniTable :=
  match data with
  | [] => .ok (MtDecoder.initial platform).table
  | vers :: data =>
    if vers = kVersionMapV1 then do
      let d ← parseMap (MtDecoder.initial platform) data
      .ok d.table
    else if vers = kVersionMessageV1 then do
      let d ← parseMessage (MtDecoder.initial platform) data
      let d ← assignHasbits d
      let d ← calculateAlignments d
      .ok (assignOffsets d).table
    else if vers = kVersionMessageSetV1 then
      if data ≠ [] then .error (.messageSetLength data.length)
      else .ok { (MtDecoder.initial platform).table with ext := ⟨false, true, false⟩ }
    else .error (.invalidVersion vers)

end MiniDescriptor

end Upb
