import Upb.Compare.SameContent
import Upb.Wire.MapRecords
import Upb.Wire.MessageSetItems

/-!
# Contents that survive the wire

`Agrees` is equality of contents as a reader of messages sees it: presence, values, elements, map
entries, extensions and the unknown bytes, on every level. `Restorable` says of contents that they
belong to their place and that a decoder with so much depth left can hold them: numbers in the range of
their type, declared values of closed enums, valid strings where they are checked, registered
extensions, and unknown bytes that the decoder keeps as they stand.
-/

namespace Upb.Wire

open BoundedReader
open Upb.Compare (Place IsBaseField isSetBaseField setExtension IsNumberType IsStringType SameContent)

section Agrees

variable (sch : Schema) (hash : Hashes)

/-- Equal contents, with equal unknown bytes. Unset and empty fields and extensions are not told
apart. -/
inductive Agrees : Place → Slot → Slot → Prop where
  | message {t : TableId} {s1 s2 : Slot} {m1 m2 : Message} (hs1 : s1.toMessage = some m1)
      (hs2 : s2.toMessage = some m2) (unknown : m1.unknown = m2.unknown)
      (set : ∀ i f, IsBaseField sch t i f →
        (isSetBaseField m1 f.field = true ↔ isSetBaseField m2 f.field = true))
      (fields : ∀ i f, IsBaseField sch t i f → isSetBaseField m1 f.field = true →
        Agrees (.field f) (m1.data f.field) (m2.data f.field))
      (setExts : ∀ e, setExtension sch hash m1 e = none ↔ setExtension sch hash m2 e = none)
      (exts : ∀ e v1 v2, setExtension sch hash m1 e = some v1 → setExtension sch hash m2 e = some v2 →
        Agrees (.field (sch.ext e)) v1 v2) : Agrees (.message t) s1 s2
  | number {f : LinkedField} {s1 s2 : Slot} (type : IsNumberType f) (val : s1.toBits = s2.toBits) :
      Agrees (.value f) s1 s2
  | string {f : LinkedField} {s1 s2 : Slot} (type : IsStringType f) (val : s1.toStr = s2.toStr) :
      Agrees (.value f) s1 s2
  | submessage {f : LinkedField} {t : TableId} {s1 s2 : Slot} (type : f.field.isSubMessage = true)
      (table : f.sub.message = some t) (sub : Agrees (.message t) s1 s2) : Agrees (.value f) s1 s2
  | scalar {f : LinkedField} {s1 s2 : Slot} (mode : f.field.mode.fieldMode = .scalar)
      (val : Agrees (.value f) s1 s2) : Agrees (.field f) s1 s2
  | array {f : LinkedField} {s1 s2 : Slot} (mode : f.field.mode.fieldMode = .array)
      (length : s1.toArray.length = s2.toArray.length)
      (elems : ∀ (i : ℕ) (v1 v2 : Slot), s1.toArray[i]? = some v1 → s2.toArray[i]? = some v2 →
        Agrees (.value f) v1 v2) : Agrees (.field f) s1 s2
  | map {f value : LinkedField} {entry : TableId} {s1 s2 : Slot}
      (mode : f.field.mode.fieldMode = .map) (hentry : f.sub.message = some entry)
      (hvalue : sch.field entry 1 = some value)
      (keys : ∀ k, s1.mapGet hash k = none ↔ s2.mapGet hash k = none)
      (vals : ∀ k v1 v2, s1.mapGet hash k = some v1 → s2.mapGet hash k = some v2 →
        Agrees (.value value) v1 v2) : Agrees (.field f) s1 s2

end Agrees

/-- What agrees has the same contents for the comparison of messages, which looks at the unknown fields
apart. -/
theorem Agrees.sameContent {sch : Schema} {hash : Hashes} {place : Place} {s1 s2 : Slot}
    (h : Agrees sch hash place s1 s2) : SameContent sch hash place s1 s2 := by
  induction h with
  | message hs1 hs2 _ set _ setExts _ ihf ihe => exact .message hs1 hs2 set ihf setExts ihe
  | number type val => exact .number type val
  | string type val => exact .string type val
  | submessage type table _ ih => exact .submessage type table ih
  | scalar mode _ ih => exact .scalar mode ih
  | array mode length _ ih => exact .array mode length ih
  | map mode hentry hvalue keys _ ih => exact .map mode hentry hvalue keys ih

/-- A table whose fields the decoder finds by their numbers and whose storages do not overlap: only the
members of a oneof share theirs. -/
structure IsLayout (m : MiniTable) : Prop where
  searchable : m.Searchable
  number : ∀ f ∈ m.fields, f.number ≠ 0 ∧ f.number < 2 ^ 29
  offset : ∀ (i j : ℕ) (f g : MiniTableField), m.fields[i]? = some f → m.fields[j]? = some g → i ≠ j →
    f.offset = g.offset → f.presence < 0 ∧ f.presence = g.presence
  hasbit : ∀ (i j : ℕ) (f g : MiniTableField), m.fields[i]? = some f → m.fields[j]? = some g → i ≠ j →
    0 < f.presence → f.presence ≠ g.presence
  repeated : ∀ f ∈ m.fields, f.mode.fieldMode ≠ .scalar → f.presence = 0
  base : ∀ f ∈ m.fields, f.mode.isExtension = false
  rep : ∀ f ∈ m.fields, f.mode.rep = .repStringView ↔
    f.mode.fieldMode = .scalar ∧ (f.descriptortype = .string ∨ f.descriptortype = .bytes)

/-- A table is such a layout when its fields are, two by two. -/
theorem IsLayout.of_pairwise {m : MiniTable} (hsearch : m.Searchable)
    (hfields : ∀ f ∈ m.fields, f.number ≠ 0 ∧ f.number < 2 ^ 29 ∧
      (f.mode.fieldMode ≠ .scalar → f.presence = 0) ∧ f.mode.isExtension = false ∧
      (f.mode.rep = .repStringView ↔
        f.mode.fieldMode = .scalar ∧ (f.descriptortype = .string ∨ f.descriptortype = .bytes)))
    (hpairs : m.fields.Pairwise fun f g =>
      (f.offset = g.offset → f.presence < 0 ∧ f.presence = g.presence) ∧
        (0 < f.presence → f.presence ≠ g.presence)) : IsLayout m := by
  have hpair : ∀ (i j : ℕ) (f g : MiniTableField), m.fields[i]? = some f → m.fields[j]? = some g → i ≠ j →
      (f.offset = g.offset → f.presence < 0 ∧ f.presence = g.presence) ∧
        (0 < f.presence → f.presence ≠ g.presence) := by
    intro i j f g hf hg hij
    obtain ⟨hi, rfl⟩ := List.getElem?_eq_some_iff.mp hf
    obtain ⟨hj, rfl⟩ := List.getElem?_eq_some_iff.mp hg
    rcases Nat.lt_or_gt_of_ne hij with hlt | hgt
    · exact List.pairwise_iff_getElem.mp hpairs i j hi hj hlt
    · obtain ⟨hoffset, hhasbit⟩ := List.pairwise_iff_getElem.mp hpairs j i hj hi hgt
      refine ⟨fun heq => ?_, fun hpos heq => hhasbit (heq ▸ hpos) heq.symm⟩
      obtain ⟨hneg, hsame⟩ := hoffset heq.symm
      exact ⟨hsame ▸ hneg, hsame.symm⟩
  exact
    { searchable := hsearch
      number := fun f hf => ⟨(hfields f hf).1, (hfields f hf).2.1⟩
      offset := fun i j f g hf hg hij => (hpair i j f g hf hg hij).1
      hasbit := fun i j f g hf hg hij => (hpair i j f g hf hg hij).2
      repeated := fun f hf => (hfields f hf).2.2.1
      base := fun f hf => (hfields f hf).2.2.2.1
      rep := fun f hf => (hfields f hf).2.2.2.2 }

/-- A table with the numbers from 1 on is searchable. -/
theorem searchable_of_dense {m : MiniTable} (hcount : m.fieldCount = m.fields.length)
    (hdense : m.denseBelow = m.fields.length) (hfew : m.fields.length < 2 ^ 8)
    (hnumbers : m.fields.map (·.number) = (List.range m.fields.length).map (· + 1)) : m.Searchable := by
  have hnumber : ∀ i f, m.fields[i]? = some f → f.number = i + 1 := by
    intro i f hf
    have hi := congrArg (fun l => l[i]?) hnumbers
    simp only [List.getElem?_map, hf, List.getElem?_range (List.getElem?_eq_some_iff.mp hf).1] at hi
    simpa using hi
  refine (MiniTable.searchable_iff hcount (fun f hf => ?_) (hdense ▸ hfew) fun i _ => hnumber i).mpr
    ⟨?_, hdense.le⟩
  · obtain ⟨i, hi⟩ := List.mem_iff_getElem?.mp hf
    rw [hnumber i f hi]
    exact Nat.succ_ne_zero i
  · rw [MiniTable.Sorted, hnumbers, List.pairwise_map]
    exact List.pairwise_lt_range.imp fun h => by omega

/-- The decoder finds the fields of such a table. -/
theorem finds_of_isLayout {cfg : DecodeConfig} {t : TableId} {f : LinkedField} {i : ℕ}
    (h : IsLayout (cfg.schema.table t)) (hf : cfg.schema.field t i = some f) : Finds cfg t f none := by
  obtain ⟨g, hg, rfl⟩ := Option.map_eq_some_iff.mp hf
  obtain ⟨-, hlt⟩ := h.number g (List.mem_of_getElem? hg)
  refine ⟨fun w => ?_, hlt, nofun⟩
  have hfind : (cfg.schema.table t).findFieldByNumber g.number = some i :=
    (h.searchable.lookup g.number (by omega) i).mpr ⟨g, hg, rfl⟩
  rw [findField, hfind, Option.bind_some, hf]

/-- Unknown bytes that the decoder, whatever the message, adds to the unknown fields as they stand. -/
def KeepsUnknown (cfg : DecodeConfig) (depth : ℕ) (t : TableId) (bytes : List UInt8) : Prop :=
  ∀ m : Message, Decodes cfg depth t bytes ⟨m, false⟩ ⟨m.addUnknown bytes, false⟩

/-- Unknown records of numbers that the decoder does not interpret are kept as they stand. -/
theorem keepsUnknown_of_records {cfg : DecodeConfig} {depth : ℕ} {t : TableId} {bytes : List UInt8}
    {inner number : ℕ → Prop} (h : Records 5 inner number depth bytes)
    (hnumber : ∀ n, number n → n ≠ 0 ∧ ∀ w, Uninterpreted cfg (findField cfg t n (some w)) w) :
    KeepsUnknown cfg depth t bytes := by
  refine h.record_induction (P := KeepsUnknown cfg depth t) (fun m => ?_) ?_
  · rw [Message.addUnknown_nil]
    exact .nil _
  · intro n w rec rest hrec hn _ ih m
    obtain ⟨hne, hop⟩ := hnumber n hn
    have hfield : decodeField stream cfg rec.length (decodeMessage stream cfg rec.length depth) depth t
        ⟨m, false⟩ (.init 0 rec) =
          .ok (.inl ⟨m.addUnknown rec, false⟩, afterUnknown (.init 0 rec) rec.length) :=
      decodeField_of_record (hop w) hrec hne
        (show (BoundedReader.init 0 rec).rest = rec ++ [] from (List.append_nil rec).symm) le_rfl ⟨m, false⟩
    have hpos : rec ≠ [] := by
      cases hrec with
      | field htag => simp [htag.varint.ne_nil]
      | group htag => simp [htag.varint.ne_nil]
    have hsum : m.addUnknown (rec ++ rest) = (m.addUnknown rec).addUnknown rest := by
      rw [Message.addUnknown, Message.addUnknown, Message.addUnknown, List.append_assoc]
    have hnil : (afterUnknown (BoundedReader.init 0 rec) rec.length).rest = [] := by
      simp [afterUnknown, BoundedReader.init, advance]
    rw [hsum]
    exact (Decodes.of_field hpos hfield hnil).append (ih (m.addUnknown rec))

/-- The table is that of a message set. -/
def isMessageSet (sch : Schema) (t : TableId) : Bool := (sch.table t).ext == ⟨false, true, false⟩

/-- Contents that belong to their place and fit into so many levels below it. -/
inductive Restorable (cfg : DecodeConfig) : ℕ → Place → Slot → Prop where
  | message {depth : ℕ} {t : TableId} {s : Slot} {m : Message} (hs : s.toMessage = some m)
      (unknown : KeepsUnknown cfg depth t m.unknown) (nodup : (m.exts.map Prod.fst).Nodup)
      (fields : ∀ i f, IsBaseField cfg.schema t i f → encodeShouldencode m f.field = true →
        Restorable cfg depth (.field f) (m.data f.field))
      (found : isMessageSet cfg.schema t = false → ∀ p ∈ m.exts,
        Finds cfg t (cfg.schema.ext p.1) (some p.1))
      (notMap : ∀ p ∈ m.exts, (cfg.schema.ext p.1).field.mode.fieldMode ≠ .map)
      (exts : isMessageSet cfg.schema t = false → ∀ p ∈ m.exts,
        Restorable cfg depth (.field (cfg.schema.ext p.1)) p.2)
      (items : isMessageSet cfg.schema t = true → ∀ p ∈ m.exts,
        2 ≤ depth ∧ ∃ u, IsItemType cfg t (cfg.schema.ext p.1).field.number p.1 u)
      (payloads : isMessageSet cfg.schema t = true → ∀ p ∈ m.exts, ∀ u,
        (cfg.schema.ext p.1).sub.message = some u →
        Restorable cfg (min defaultDepthLimit (depth - 1)) (.message u) p.2) :
      Restorable cfg depth (.message t) s
  | number {depth : ℕ} {f : LinkedField} {s : Slot} (type : IsNumberType f)
      (kind : s = .zero ∨ s = .bits s.toBits) (range : s.toBits < 2 ^ valueBits f.field.descriptortype)
      (decl : declared f s.toBits = true) : Restorable cfg depth (.value f) s
  | string {depth : ℕ} {f : LinkedField} {s : Slot} (type : IsStringType f)
      (kind : s = .zero ∨ s = .str s.toStr)
      (valid : checksUtf8 cfg f.field = true → cfg.validUtf8 s.toStr = true) :
      Restorable cfg depth (.value f) s
  | submessage {depth : ℕ} {f : LinkedField} {t : TableId} {s : Slot}
      (type : f.field.isSubMessage = true) (table : f.sub.message = some t)
      (sub : Restorable cfg depth (.message t) s) : Restorable cfg (depth + 1) (.value f) s
  | scalar {depth : ℕ} {f : LinkedField} {s : Slot} (mode : f.field.mode.fieldMode = .scalar)
      (val : Restorable cfg depth (.value f) s) : Restorable cfg depth (.field f) s
  | array {depth : ℕ} {f : LinkedField} {s : Slot} (mode : f.field.mode.fieldMode = .array)
      (presence : f.field.presence = 0) (kind : s = .zero ∨ s = .array s.toArray)
      (elems : ∀ v ∈ s.toArray, Restorable cfg depth (.value f) v) : Restorable cfg depth (.field f) s
  | map {depth : ℕ} {f key value : LinkedField} {entry : TableId} {s : Slot} {table : MapTable}
      {values : List Slot} (mode : f.field.mode.fieldMode = .map) (presence : f.field.presence = 0)
      (type : f.field.descriptortype = .message) (hentry : f.sub.message = some entry)
      (hkey : cfg.schema.field entry 0 = some key) (hvalue : cfg.schema.field entry 1 = some value)
      (keyScalar : key.field.mode.fieldMode = .scalar) (valScalar : value.field.mode.fieldMode = .scalar)
      (apart : key.field.offset ≠ value.field.offset)
      (hs : s = .map (sizeInMap key.field.descriptortype) table values)
      (inv : MapTable.Inv cfg.hash table) (deep : table.pairs cfg.hash ≠ [] → 0 < depth)
      (keyKind : ∀ k v, s.mapGet cfg.hash k = some v →
        (k.toSlot (sizeInMap key.field.descriptortype)).toKey (sizeInMap key.field.descriptortype) = k)
      (keyType : key.field.isSubMessage = false)
      (keys : ∀ k v, s.mapGet cfg.hash k = some v →
        Restorable cfg (depth - 1) (.value key) (k.toSlot (sizeInMap key.field.descriptortype)))
      (vals : ∀ k v, s.mapGet cfg.hash k = some v → Restorable cfg (depth - 1) (.value value) v) :
      Restorable cfg depth (.field f) s

end Upb.Wire
