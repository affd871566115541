import Upb.Hash.TableMap

/-!
# Integer tables

`upb_inttable` keeps the keys below `array_size` in an array with one presence bit each and all other
keys in a base table. The array part has at least one slot, so the key 0 never reaches the base
table, where it marks a free entry. The hash of a key is a parameter.
-/

namespace Upb

open Upb.Common (MapCmd MapOut)

variable {ν : Type} [Inhabited ν]

/-- `upb_inttable`; `presence k` is the bit of `k` in the presence mask. -/
structure IntTable (ν : Type) where
  t : Table ℕ ν
  array : ℕ → ν
  presence : ℕ → Bool
  arraySize : ℕ
  arrayCount : ℕ

namespace IntTable

variable (hash : ℕ → ℕ)

/-- `inthash` and `inteql`. -/
def ops : KeyOps ℕ ν ℕ where
  empty := 0
  isempty k := k == 0
  hashfunc k _ := hash k
  eql k _ l := k == l

/-- The logical key of an entry of the hash part. -/
def keyOf (k : ℕ) (_ : ν) : ℕ := k

/-- `upb_inttable_sizedinit`; the value of an absent array slot is never read. -/
def sizedinit (asize hsizeLg2 : ℕ) : Option (IntTable ν) :=
  (Table.init (ops hash) hsizeLg2).map fun t =>
    { t, array := fun _ => default, presence := fun _ => false, arraySize := max 1 asize,
      arrayCount := 0 }

/-- `upb_inttable_init`. -/
def init : Option (IntTable ν) := sizedinit hash 0 3

/-- `upb_inttable_insert`: the C result and the table after it. -/
def insert (t : IntTable ν) (key : ℕ) (val : ν) : Option (Bool × IntTable ν) :=
  if key < t.arraySize then
    some (true, { t with
      arrayCount := t.arrayCount + 1
      array := Function.update t.array key val
      presence := Function.update t.presence key true })
  else
    (t.t.reserve (ops hash)).bind fun (ok, new) =>
      if !ok then some (false, { t with t := new })
      else (new.insert (ops hash) key val (hash key)).map fun new => (true, { t with t := new })

/-- `inttable_array_get`. -/
def arrayGet (t : IntTable ν) (key : ℕ) : Option ν :=
  if t.presence key then some (t.array key) else none

/-- `upb_inttable_lookup`. -/
def lookup (t : IntTable ν) (key : ℕ) : Option ν :=
  if key < t.arraySize then t.arrayGet key else t.t.lookup (ops hash) key (hash key)

/-- `upb_inttable_replace`. -/
def replace (t : IntTable ν) (key : ℕ) (val : ν) : Bool × IntTable ν :=
  if key < t.arraySize then
    if t.presence key then (true, { t with array := Function.update t.array key val }) else (false, t)
  else
    match t.t.findentry (ops hash) key (hash key) with
    | some e => (true, { t with t := t.t.setentryvalue e val })
    | none => (false, t)

/-- `upb_inttable_remove`: the removed value, if any, and the table after it. -/
def remove (t : IntTable ν) (key : ℕ) : Option ν × IntTable ν :=
  if key < t.arraySize then
    if t.presence key then
      (some (t.array key), { t with
        arrayCount := t.arrayCount - 1
        array := Function.update t.array key default
        presence := Function.update t.presence key false })
    else (none, t)
  else
    match t.t.rm (ops hash) key (hash key) with
    | some (v, t') => (some v, { t with t := t' })
    | none => (none, t)

/-- `upb_inttable_clear`. -/
def clear (t : IntTable ν) : IntTable ν :=
  { t with
    arrayCount := 0, array := fun _ => default, presence := fun _ => false
    t := t.t.clear (ops hash) }

/-- `upb_inttable_next`: the next pair after the iterator, with the iterator at it. -/
def next (t : IntTable ν) (iter : ℤ) : Option (ℕ × ν × ℤ) :=
  let start := (iter + 1).toNat
  let inArray := (List.range' start (t.arraySize - start)).find? t.presence
  match inArray with
  | some i => some (i, t.array i, i)
  | none =>
    -- back up to exactly one position before the start of the table
    let i := if start ≤ t.arraySize then (t.arraySize : ℤ) - 1 else iter
    (t.t.nextIndex (ops hash) (i - t.arraySize)).map fun j =>
      ((t.t.entries j).key, (t.t.entries j).val, (j : ℤ) + t.arraySize)

/-- The iteration of the callers: `next` from `iter` until it returns false. -/
def pairsFrom (t : IntTable ν) : ℕ → ℤ → List (ℕ × ν)
  | 0, _ => []
  | fuel + 1, iter =>
    match t.next hash iter with
    | none => []
    | some (k, v, iter') => (k, v) :: t.pairsFrom fuel iter'

/-- A full iteration, from `UPB_INTTABLE_BEGIN`. -/
def pairs (t : IntTable ν) : List (ℕ × ν) := t.pairsFrom hash (t.arraySize + t.t.size) (-1)

/-- The commands of the integer table, which has no resize by the caller. -/
def step (t : IntTable ν) : MapCmd ℕ ν → Option (MapOut ℕ ν × IntTable ν)
  | .insert k v => (insert hash t k v).map fun (ok, t) => (.flag ok, t)
  | .remove k => let (v, t') := remove hash t k; some (.value v, t')
  | .lookup k => some (.value (lookup hash t k), t)
  | .replace k v => let (ok, t') := replace hash t k v; some (.flag ok, t')
  | .resize _ => none
  | .clear => some (.flag true, clear hash t)
  | .iterate => some (.pairs (pairs hash t), t)

/-- The invariant of integer tables: that of the hash part, which holds no key below the size of the
array part, and a count of the presence bits. -/
structure Inv (t : IntTable ν) : Prop where
  wf : t.t.Wf (ops hash) keyOf
  arraySize_pos : 0 < t.arraySize
  key_ge : ∀ i, t.t.Occ (ops hash) i → t.arraySize ≤ (t.t.entries i).key
  arrayCount_eq : t.arrayCount = (List.range t.arraySize).countP t.presence

/-- Only keys that are not present are inserted, and no resize is asked for. -/
def Legal (t : IntTable ν) : MapCmd ℕ ν → Prop
  | .insert k _ => lookup hash t k = none
  | .resize _ => False
  | _ => True

end IntTable

end Upb
