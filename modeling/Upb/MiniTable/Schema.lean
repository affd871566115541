import Upb.MiniTable.Message

/-!
# Linked tables

The tables of a program, linked to each other: `upb_MiniTableEnum`, `upb_MiniTableSub`,
`upb_MiniTableExtension` and the lookup of `upb_ExtensionRegistry`. A pointer to a table or to an
extension is a number.
-/

namespace Upb

/-- A pointer to a `upb_MiniTable`. -/
abbrev TableId := ℕ

/-- A pointer to a `upb_MiniTableExtension`. -/
abbrev ExtId := ℕ

/-- `upb_MiniTableEnum`: a bit mask for the values below `maskLimit`, and the other values behind
it. -/
structure MiniTableEnum where
  maskLimit : ℕ
  valueCount : ℕ
  data : List ℕ

/-- `upb_MiniTableEnum_CheckValue` of a 32-bit value. -/
def MiniTableEnum.checkValue (e : MiniTableEnum) (val : ℕ) : Bool :=
  if val < 64 then (e.data[0]?.getD 0 + e.data[1]?.getD 0 * 2 ^ 32).testBit val
  else if val < e.maskLimit then (e.data[val / 32]?.getD 0).testBit (val % 32)
  else ((e.data.drop (e.maskLimit / 32)).take e.valueCount).contains val

/-- `upb_MiniTableSub`; an unlinked sub-message is null. -/
inductive MiniTableSub where
  | null
  | submsg (table : TableId)
  | subenum (table : MiniTableEnum)

/-- `upb_MiniTable_GetSubMessageTable`. -/
def MiniTableSub.message : MiniTableSub → Option TableId
  | .submsg t => some t
  | _ => none

/-- `upb_MiniTable_GetSubEnumTable`, as the check of a value; a closed enum always has its table. -/
def MiniTableSub.checkEnum : MiniTableSub → ℕ → Bool
  | .subenum e => e.checkValue
  | _ => fun _ => false

/-- A field with its sub-table. -/
structure LinkedField where
  field : MiniTableField
  sub : MiniTableSub

/-- The linked tables of a program, its extensions, and the registry of the decoder, if any. -/
structure Schema where
  table : TableId → MiniTable
  /-- The sub-table of the field at an index. -/
  sub : TableId → ℕ → MiniTableSub
  ext : ExtId → LinkedField
  /-- `upb_ExtensionRegistry_Lookup`. -/
  extreg : Option (TableId → ℕ → Option ExtId)

/-- The field at an index of a table. -/
def Schema.field (sch : Schema) (t : TableId) (i : ℕ) : Option LinkedField :=
  ((sch.table t).fields[i]?).map fun f => ⟨f, sch.sub t i⟩

end Upb
