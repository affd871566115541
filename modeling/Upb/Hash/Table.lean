import Mathlib.Algebra.Group.Nat.Defs
import Mathlib.Data.Int.Notation
import Mathlib.Logic.Function.Basic
import Upb.Base.Log2
import Upb.Common.Chain

/-!
# The base hash table

`upb/hash/common.c` builds its string, integer and extension tables over one chained scatter table:
an array of `mask + 1` entries, each holding a key, a value and a pointer to another entry of the
same array. An entry pointer is modelled by its index. A key says by itself whether its entry is in
use; the hash and the equality of a key may also read the value, because the extension table keeps
half of its logical key there.

A `UPB_ASSERT(false)` that the code can reach is modelled by the result `none`.
-/

namespace Upb

/-- An entry of the table, `upb_tabent`. -/
structure Tabent (κ ν : Type) where
  val : ν
  key : κ
  next : Option ℕ

/-- The base table, `upb_table`; only the entries below `mask + 1` are allocated. -/
structure Table (κ ν : Type) where
  entries : ℕ → Tabent κ ν
  count : ℕ
  mask : ℕ

/-- What a table needs to know about its keys: `upb_key_empty`, `upb_tabent_isempty`, and the
`hashfunc_t` and `eqlfunc_t` that its callers pass. -/
structure KeyOps (κ ν ℓ : Type) where
  empty : κ
  isempty : κ → Bool
  hashfunc : κ → ν → ℕ
  eql : κ → ν → ℓ → Bool

variable {κ ν ℓ : Type}

namespace Table

/-- `upb_table_size`. -/
def size (t : Table κ ν) : ℕ := t.mask + 1

/-- `_upb_popcnt32`. -/
def popcnt32 (i : ℕ) : ℕ := (List.range 32).countP (i.testBit ·)

/-- `_upb_log2_table_size`. -/
def log2TableSize (t : Table κ ν) : ℕ := popcnt32 t.mask

/-- `upb_getentry`. -/
def getentry (t : Table κ ν) (hash : ℕ) : ℕ := hash &&& t.mask

/-- `isfull`: a load factor of 0.875. -/
def isfull (t : Table κ ν) : Bool := t.count == t.size - t.size >>> 3

/-- The state of entry `i`, written back. -/
def set (t : Table κ ν) (i : ℕ) (e : Tabent κ ν) : Table κ ν :=
  { t with entries := Function.update t.entries i e }

@[simp] theorem set_mask (t : Table κ ν) (i : ℕ) (e : Tabent κ ν) : (t.set i e).mask = t.mask := rfl

@[simp] theorem set_count (t : Table κ ν) (i : ℕ) (e : Tabent κ ν) :
    (t.set i e).count = t.count := rfl

@[simp] theorem set_entries (t : Table κ ν) (i j : ℕ) (e : Tabent κ ν) :
    (t.set i e).entries j = if j = i then e else t.entries j := Function.update_apply ..

/-- `e->next = next` for the entry `e` at `i`. -/
def setNext (t : Table κ ν) (i : ℕ) (next : Option ℕ) : Table κ ν :=
  t.set i { t.entries i with next := next }

variable (ops : KeyOps κ ν ℓ)

/-- `upb_tabent_isempty` of the entry at `i`. -/
def isempty (t : Table κ ν) (i : ℕ) : Bool := ops.isempty (t.entries i).key

/-- All entries zeroed, as after the `memset` of `init` and of the clear functions. -/
def zeroed [Inhabited ν] : ℕ → Tabent κ ν := fun _ => ⟨default, ops.empty, none⟩

/-- `init`, with allocations succeeding. -/
def init [Inhabited ν] (sizeLg2 : ℕ) : Option (Table κ ν) :=
  if 32 ≤ sizeLg2 then none
  else some { entries := zeroed ops, count := 0, mask := 2 ^ sizeLg2 - 1 }

/-- The clearing of the table part in `upb_strtable_clear` and its siblings. -/
def clear [Inhabited ν] (t : Table κ ν) : Table κ ν := { t with count := 0, entries := zeroed ops }

/-- `emptyent`: a free entry after `e`, else a free entry from the start. -/
def emptyent (t : Table κ ν) (e : ℕ) : Option ℕ :=
  (List.range' (e + 1) (t.size - (e + 1)) ++ List.range t.size).find? (t.isempty ops)

/-- The key of the entry at `i` equals the lookup key. -/
def eqlAt (t : Table κ ν) (key : ℓ) (i : ℕ) : Bool :=
  ops.eql (t.entries i).key (t.entries i).val key

/-- `e->next` of the entry at `i`. -/
def next (t : Table κ ν) (i : ℕ) : Option ℕ := (t.entries i).next

/-- `findentry`. -/
def findentry (t : Table κ ν) (key : ℓ) (hash : ℕ) : Option ℕ :=
  if t.count = 0 then none
  else
    let e := t.getentry hash
    if t.isempty ops e then none
    else Common.walkUntil t.next (t.eqlAt ops key) t.size e

/-- `lookup`. -/
def lookup (t : Table κ ν) (key : ℓ) (hash : ℕ) : Option ν :=
  (t.findentry ops key hash).map fun e => (t.entries e).val

/-- `insert`; `none` when an assertion fails. -/
def insert (t : Table κ ν) (tabkey : κ) (val : ν) (hash : ℕ) : Option (Table κ ν) :=
  let t := { t with count := t.count + 1 }
  let mainpos := t.getentry hash
  if t.isempty ops mainpos then
    -- our main position is empty; use it
    some (t.set mainpos ⟨val, tabkey, none⟩)
  else do
    let new ← t.emptyent ops mainpos
    let chain := t.getentry (ops.hashfunc (t.entries mainpos).key (t.entries mainpos).val)
    if chain = mainpos then
      -- the collider heads our chain; thread the new entry behind it
      let t := t.setNext new (t.next mainpos)
      let t := t.setNext mainpos (some new)
      some (t.set new { t.entries new with key := tabkey, val := val })
    else
      -- the collider belongs to another chain; evict it and take its entry
      let t := t.set new (t.entries mainpos)
      let chain ← Common.walkUntil t.next (fun e => t.next e == some mainpos) t.size chain
      let t := t.setNext chain (some new)
      some (t.set mainpos ⟨val, tabkey, none⟩)

/-- `rm`: the removed value and the table without it, or `none` when the key is absent. -/
def rm (t : Table κ ν) (key : ℓ) (hash : ℕ) : Option (ν × Table κ ν) :=
  let chain := t.getentry hash
  if t.isempty ops chain then none
  else if t.eqlAt ops key chain then
    let val := (t.entries chain).val
    let t := { t with count := t.count - 1 }
    match t.next chain with
    | some move =>
      let t := t.set chain (t.entries move)
      some (val, t.set move { t.entries move with key := ops.empty })
    | none => some (val, t.set chain { t.entries chain with key := ops.empty })
  else do
    let chain ← Common.walkUntil t.next (fun e => (t.next e).elim true (t.eqlAt ops key)) t.size chain
    let rm ← t.next chain
    let val := (t.entries rm).val
    let t := { t with count := t.count - 1 }
    let t := t.set rm { t.entries rm with key := ops.empty }
    some (val, t.setNext chain (t.next rm))

/-- `next`: the first used entry after `i`, or `none` for the past-the-end index. -/
def nextIndex (t : Table κ ν) (i : ℤ) : Option ℕ :=
  let start := (i + 1).toNat
  (List.range' start (t.size - start)).find? fun j => !t.isempty ops j

/-- The iteration of the callers: `nextIndex` from `i` until it is past the end. -/
def entriesFrom (t : Table κ ν) : ℕ → ℤ → List (κ × ν)
  | 0, _ => []
  | fuel + 1, i =>
    match t.nextIndex ops i with
    | none => []
    | some j => ((t.entries j).key, (t.entries j).val) :: t.entriesFrom fuel j

/-- A full iteration, from the index -1. -/
def iterate (t : Table κ ν) : List (κ × ν) := t.entriesFrom ops t.size (-1)

/-- The reinsertion loop of `upb_strtable_resize`, `upb_exttable_resize` and
`upb_inttable_insert`. -/
def insertAll (t : Table κ ν) (es : List (κ × ν)) : Option (Table κ ν) :=
  es.foldlM (fun t e => t.insert ops e.1 e.2 (ops.hashfunc e.1 e.2)) t

/-- `upb_strtable_resize` and `upb_exttable_resize`: every entry in iteration order goes into a new
table. The flag is the C result. -/
def resize [Inhabited ν] (t : Table κ ν) (sizeLg2 : ℕ) : Option (Bool × Table κ ν) :=
  match init ops sizeLg2 with
  | none => some (false, t)
  | some new => (new.insertAll ops (t.iterate ops)).map fun new => (true, new)

/-- The growth step of the three insert functions: a full table is resized to double its size. -/
def reserve [Inhabited ν] (t : Table κ ν) : Option (Bool × Table κ ν) :=
  if t.isfull then t.resize ops (t.log2TableSize + 1) else some (true, t)

/-- `upb_strtable_setentryvalue`, and the table part of `upb_inttable_setentryvalue` and
`upb_inttable_replace`. -/
def setentryvalue (t : Table κ ν) (i : ℕ) (v : ν) : Table κ ν :=
  t.set i { t.entries i with val := v }

end Table

/-- `_upb_entries_needed_for`. -/
def entriesNeededFor (expectedSize : ℕ) : ℕ := expectedSize + 1 + expectedSize / 7

end Upb
