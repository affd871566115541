import Upb.Message.Message

/-!
# Maps

`upb/message/internal/map.h` over the two hash tables, for any hash functions.
-/

namespace Upb

/-- A key of a map as the hash tables see it. -/
inductive MapKey where
  | int (key : ℕ)
  | str (key : List UInt8)
  deriving DecidableEq

/-- The hash functions of the tables. -/
structure Hashes where
  str : List UInt8 → ℕ
  int : ℕ → ℕ

/-- `_upb_map_tokey` and `_upb_map_tointkey`: the key that a slot holds, of the given size in bytes
or, if the size is 0, a string. -/
def Slot.toKey (keySize : ℕ) (s : Slot) : MapKey :=
  if keySize = 0 then .str s.toStr else .int (s.toBits % 2 ^ (8 * keySize))

/-- `_upb_map_fromkey`. -/
def MapKey.toSlot (keySize : ℕ) : MapKey → Slot
  | .int key => .bits (key % 2 ^ (8 * keySize))
  | .str key => .str key

namespace MapTable

variable (hash : Hashes)

/-- The table of `_upb_Map_New`: keys of up to eight bytes are integers. -/
def new (keySize : ℕ) : Option MapTable :=
  if keySize ≤ 8 ∧ keySize ≠ 0 then (IntTable.init hash.int).map .inttable
  else (StrTable.init hash.str 4).map .strtable

/-- `_upb_Map_Size`. -/
def size : MapTable → ℕ
  | .inttable t => t.t.count + t.arrayCount
  | .strtable t => t.count

/-- `_upb_Map_Insert`, which removes the key first; `none` if the table has no room. -/
def insert (key : MapKey) (val : ℕ) : MapTable → Option MapTable
  | .inttable t =>
    match key with
    | .int k =>
      match IntTable.insert hash.int (IntTable.remove hash.int t k).2 k val with
      | some (true, t) => some (.inttable t)
      | _ => none
    | .str _ => none
  | .strtable t =>
    match key with
    | .str k =>
      let t := match StrTable.remove2 hash.str t k with
        | some (_, t) => t
        | none => t
      match StrTable.insert hash.str t k val with
      | some (true, t) => some (.strtable t)
      | _ => none
    | .int _ => none

/-- `_upb_Map_Get`. -/
def get (key : MapKey) : MapTable → Option ℕ
  | .inttable t =>
    match key with
    | .int k => IntTable.lookup hash.int t k
    | .str _ => none
  | .strtable t =>
    match key with
    | .str k => StrTable.lookup2 hash.str t k
    | .int _ => none

/-- A full iteration. -/
def pairs : MapTable → List (MapKey × ℕ)
  | .inttable t => (IntTable.pairs hash.int t).map fun p => (.int p.1, p.2)
  | .strtable t => (StrTable.pairs hash.str t).map fun p => (.str p.1, p.2)

end MapTable

namespace Slot

variable (hash : Hashes)

/-- `_upb_Map_Insert` into the map that a slot points to. -/
def mapInsert (map key val : Slot) : Option Slot :=
  match map with
  | .map keySize table values =>
    (table.insert hash (key.toKey keySize) values.length).map fun table =>
      .map keySize table (values ++ [val])
  | _ => none

/-- The entries of the map that a slot points to, in the order of an iteration; null is an empty
map. -/
def mapEntries : Slot → List (MapKey × Slot)
  | .map _ table values => (table.pairs hash).map fun p => (p.1, values[p.2]?.getD .zero)
  | _ => []

/-- The value of a key. -/
def mapGet (key : MapKey) : Slot → Option Slot
  | .map _ table values => (table.get hash key).map fun i => values[i]?.getD .zero
  | _ => none

end Slot

end Upb
