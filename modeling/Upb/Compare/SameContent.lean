import Mathlib.Data.List.Nodup
import Upb.Compare.Messages

/-!
# Equality of messages by content

`SameContent` says when two messages, fields or single values have equal contents: the same fields
and extensions are set, arrays are equal element by element, maps as finite maps, and messages by
recursion. `WellFormed` says that a message belongs to its table. The comparison of the code gives
`SameContent`.
-/

namespace Upb.Compare

open Upb.Common

/-- What contents belong to: a message of a table, a field, or a single value of a field. -/
inductive Place where
  | message (t : TableId)
  | field (f : LinkedField)
  | value (f : LinkedField)

section

variable (sch : Schema) (hash : Hashes)

/-- The field at an index is a base field of a table. -/
def IsBaseField (t : TableId) (i : ℕ) (f : LinkedField) : Prop :=
  i < (sch.table t).fieldCount ∧ sch.field t i = some f

/-- The value of an extension that is set and not an empty array. -/
def setExtension (m : Message) (e : ExtId) : Option Slot :=
  (m.getext e).filter fun v => !Wire.extensionIsEmpty sch hash (e, v)

/-- The type of a field is that of numbers. -/
def IsNumberType (f : LinkedField) : Prop :=
  f.field.descriptortype ≠ .string ∧ f.field.descriptortype ≠ .bytes ∧
    f.field.isSubMessage = false

/-- The type of a field is that of strings. -/
def IsStringType (f : LinkedField) : Prop :=
  f.field.descriptortype = .string ∨ f.field.descriptortype = .bytes

/-- Contents that belong to their place. A message has no unknown fields, each extension once, and
values that belong to their fields; a map has a table that keeps its invariant. -/
inductive WellFormed : Place → Slot → Prop where
  | message {t : TableId} {s : Slot} {m : Message} (hs : s.toMessage = some m)
      (unknown : m.unknown = []) (nodup : (m.exts.map Prod.fst).Nodup)
      (fields : ∀ i f, IsBaseField sch t i f → isSetBaseField m f.field = true →
        WellFormed (.field f) (m.data f.field))
      (notMap : ∀ p ∈ m.exts, (sch.ext p.1).field.mode.fieldMode ≠ .map)
      (exts : ∀ p ∈ m.exts, WellFormed (.field (sch.ext p.1)) p.2) : WellFormed (.message t) s
  | number {f : LinkedField} {s : Slot} (type : IsNumberType f)
      (range : s.toBits < 2 ^ numberBits f.field.descriptortype) : WellFormed (.value f) s
  | string {f : LinkedField} {s : Slot} (type : IsStringType f) : WellFormed (.value f) s
  | submessage {f : LinkedField} {t : TableId} {s : Slot} (type : f.field.isSubMessage = true)
      (table : f.sub.message = some t) (sub : WellFormed (.message t) s) : WellFormed (.value f) s
  | scalar {f : LinkedField} {s : Slot} (mode : f.field.mode.fieldMode = .scalar)
      (val : WellFormed (.value f) s) : WellFormed (.field f) s
  | array {f : LinkedField} {s : Slot} (mode : f.field.mode.fieldMode = .array)
      (elems : ∀ v ∈ s.toArray, WellFormed (.value f) v) : WellFormed (.field f) s
  | map {f key value : LinkedField} {entry : TableId} {s : Slot} {table : MapTable}
      {values : List Slot} (mode : f.field.mode.fieldMode = .map) (hentry : f.sub.message = some entry)
      (hkey : sch.field entry 0 = some key) (hvalue : sch.field entry 1 = some value)
      (hs : s = .map (Wire.sizeInMap key.field.descriptortype) table values)
      (inv : MapTable.Inv hash table)
      (keys : ∀ k v, s.mapGet hash k = some v →
        (k.toSlot (Wire.sizeInMap key.field.descriptortype)).toKey
          (Wire.sizeInMap key.field.descriptortype) = k)
      (vals : ∀ k v, s.mapGet hash k = some v → WellFormed (.value value) v) : WellFormed (.field f) s

/-- Equal contents. Unset and empty fields and extensions are not told apart. -/
inductive SameContent : Place → Slot → Slot → Prop where
  | message {t : TableId} {s1 s2 : Slot} {m1 m2 : Message} (hs1 : s1.toMessage = some m1)
      (hs2 : s2.toMessage = some m2)
      (set : ∀ i f, IsBaseField sch t i f →
        (isSetBaseField m1 f.field = true ↔ isSetBaseField m2 f.field = true))
      (fields : ∀ i f, IsBaseField sch t i f → isSetBaseField m1 f.field = true →
        SameContent (.field f) (m1.data f.field) (m2.data f.field))
      (setExts : ∀ e, setExtension sch hash m1 e = none ↔ setExtension sch hash m2 e = none)
      (exts : ∀ e v1 v2, setExtension sch hash m1 e = some v1 → setExtension sch hash m2 e = some v2 →
        SameContent (.field (sch.ext e)) v1 v2) : SameContent (.message t) s1 s2
  | number {f : LinkedField} {s1 s2 : Slot} (type : IsNumberType f) (val : s1.toBits = s2.toBits) :
      SameContent (.value f) s1 s2
  | string {f : LinkedField} {s1 s2 : Slot} (type : IsStringType f) (val : s1.toStr = s2.toStr) :
      SameContent (.value f) s1 s2
  | submessage {f : LinkedField} {t : TableId} {s1 s2 : Slot} (type : f.field.isSubMessage = true)
      (table : f.sub.message = some t) (sub : SameContent (.message t) s1 s2) :
      SameContent (.value f) s1 s2
  | scalar {f : LinkedField} {s1 s2 : Slot} (mode : f.field.mode.fieldMode = .scalar)
      (val : SameContent (.value f) s1 s2) : SameContent (.field f) s1 s2
  | array {f : LinkedField} {s1 s2 : Slot} (mode : f.field.mode.fieldMode = .array)
      (length : s1.toArray.length = s2.toArray.length)
      (elems : ∀ (i : ℕ) (v1 v2 : Slot), s1.toArray[i]? = some v1 → s2.toArray[i]? = some v2 →
        SameContent (.value f) v1 v2) : SameContent (.field f) s1 s2
  | map {f value : LinkedField} {entry : TableId} {s1 s2 : Slot}
      (mode : f.field.mode.fieldMode = .map) (hentry : f.sub.message = some entry)
      (hvalue : sch.field entry 1 = some value)
      (keys : ∀ k, s1.mapGet hash k = none ↔ s2.mapGet hash k = none)
      (vals : ∀ k v1 v2, s1.mapGet hash k = some v1 → s2.mapGet hash k = some v2 →
        SameContent (.value value) v1 v2) : SameContent (.field f) s1 s2

end

variable {sch : Schema} {hash : Hashes} {place : Place} {s1 s2 s3 : Slot}

theorem mem_of_lookup {α β : Type} [BEq α] [LawfulBEq α] {l : List (α × β)} {k : α} {v : β}
    (h : l.lookup k = some v) : (k, v) ∈ l := by
  obtain ⟨l1, l2, rfl, -⟩ := List.lookup_eq_some_iff.mp h
  exact List.mem_append_right l1 List.mem_cons_self

/-- Well-formed contents are equal to themselves. -/
theorem SameContent.refl {s : Slot} (h : WellFormed sch hash place s) :
    SameContent sch hash place s s := by
  induction h with
  | message hs unknown nodup fields notMap exts ihf ihe =>
    refine .message hs hs (fun _ _ _ => Iff.rfl) ihf (fun _ => Iff.rfl) fun e v1 v2 h1 h2 => ?_
    obtain rfl := Option.some.inj (h1.symm.trans h2)
    obtain ⟨hget, -⟩ := Option.filter_eq_some_iff.mp h1
    exact ihe (e, v1) (mem_of_lookup hget)
  | number type range => exact .number type rfl
  | string type => exact .string type rfl
  | submessage type table sub ih => exact .submessage type table ih
  | scalar mode val ih => exact .scalar mode ih
  | array mode elems ih =>
    refine .array mode rfl fun i v1 v2 h1 h2 => ?_
    obtain rfl := Option.some.inj (h1.symm.trans h2)
    exact ih v1 (List.mem_of_getElem? h1)
  | map mode hentry hkey hvalue hs inv keys vals ih =>
    refine .map mode hentry hvalue (fun _ => Iff.rfl) fun k v1 v2 h1 h2 => ?_
    obtain rfl := Option.some.inj (h1.symm.trans h2)
    exact ih k v1 h1

theorem SameContent.symm (h : SameContent sch hash place s1 s2) : SameContent sch hash place s2 s1 := by
  induction h with
  | message hs1 hs2 set fields setExts exts ihf ihe =>
    refine .message hs2 hs1 (fun i f hf => (set i f hf).symm) ?_ (fun e => (setExts e).symm) ?_
    · exact fun i f hf hset => ihf i f hf ((set i f hf).mpr hset)
    · exact fun e v1 v2 h1 h2 => ihe e v2 v1 h2 h1
  | number type val => exact .number type val.symm
  | string type val => exact .string type val.symm
  | submessage type table sub ih => exact .submessage type table ih
  | scalar mode val ih => exact .scalar mode ih
  | array mode length elems ih =>
    exact .array mode length.symm fun i v1 v2 h1 h2 => ih i v2 v1 h2 h1
  | map mode hentry hvalue keys vals ih =>
    exact .map mode hentry hvalue (fun k => (keys k).symm) fun k v1 v2 h1 h2 => ih k v2 v1 h2 h1

theorem IsNumberType.not_string {f : LinkedField} (h : IsNumberType f) : ¬IsStringType f := by
  rintro (hs | hs)
  · exact h.1 hs
  · exact h.2.1 hs

theorem IsStringType.not_message {f : LinkedField} (h : IsStringType f) :
    f.field.isSubMessage = false := by
  rcases h with hs | hs <;> rw [MiniTableField.isSubMessage, hs] <;> rfl

theorem SameContent.trans (h12 : SameContent sch hash place s1 s2)
    (h23 : SameContent sch hash place s2 s3) : SameContent sch hash place s1 s3 := by
  induction h12 generalizing s3 with
  | message hs1 hs2 set fields setExts exts ihf ihe =>
    cases h23 with
    | message hs2' hs3 set' fields' setExts' exts' =>
      obtain rfl := Option.some.inj (hs2.symm.trans hs2')
      refine .message hs1 hs3 (fun i f hf => (set i f hf).trans (set' i f hf)) ?_
        (fun e => (setExts e).trans (setExts' e)) ?_
      · exact fun i f hf hset => ihf i f hf hset (fields' i f hf ((set i f hf).mp hset))
      · intro e v1 v3 h1 h3
        obtain ⟨v2, h2⟩ := Option.ne_none_iff_exists'.mp fun hnone =>
          Option.some_ne_none v1 (h1.symm.trans ((setExts e).mpr hnone))
        exact ihe e v1 v2 h1 h2 (exts' e v2 v3 h2 h3)
  | number type val =>
    cases h23 with
    | number _ val' => exact .number type (val.trans val')
    | string type' => exact absurd type' type.not_string
    | submessage type' => exact absurd type' (by rw [type.2.2]; exact Bool.false_ne_true)
  | string type val =>
    cases h23 with
    | number type' => exact absurd type type'.not_string
    | string _ val' => exact .string type (val.trans val')
    | submessage type' => exact absurd type' (by rw [type.not_message]; exact Bool.false_ne_true)
  | submessage type table sub ih =>
    cases h23 with
    | number type' => exact absurd type (by rw [type'.2.2]; exact Bool.false_ne_true)
    | string type' => exact absurd type (by rw [type'.not_message]; exact Bool.false_ne_true)
    | submessage _ table' sub' =>
      obtain rfl := Option.some.inj (table.symm.trans table')
      exact .submessage type table (ih sub')
  | scalar mode val ih =>
    cases h23 with
    | scalar _ val' => exact .scalar mode (ih val')
    | array mode' => exact nomatch mode.symm.trans mode'
    | map mode' => exact nomatch mode.symm.trans mode'
  | array mode length elems ih =>
    cases h23 with
    | scalar mode' => exact nomatch mode.symm.trans mode'
    | array _ length' elems' =>
      refine .array mode (length.trans length') fun i v1 v3 h1 h3 => ?_
      obtain ⟨hi, -⟩ := List.getElem?_eq_some_iff.mp h1
      have h2 := List.getElem?_eq_getElem (length ▸ hi)
      exact ih i v1 _ h1 h2 (elems' i _ v3 h2 h3)
    | map mode' => exact nomatch mode.symm.trans mode'
  | map mode hentry hvalue keys vals ih =>
    cases h23 with
    | scalar mode' => exact nomatch mode.symm.trans mode'
    | array mode' => exact nomatch mode.symm.trans mode'
    | map _ hentry' hvalue' keys' vals' =>
      obtain rfl := Option.some.inj (hentry.symm.trans hentry')
      obtain rfl := Option.some.inj (hvalue.symm.trans hvalue')
      refine .map mode hentry hvalue (fun k => (keys k).trans (keys' k)) fun k v1 v3 h1 h3 => ?_
      obtain ⟨v2, h2⟩ := Option.ne_none_iff_exists'.mp fun hnone =>
        Option.some_ne_none v1 (h1.symm.trans ((keys k).mpr hnone))
      exact ih k v1 v2 h1 h2 (vals' k v2 v3 h2 h3)

end Upb.Compare
