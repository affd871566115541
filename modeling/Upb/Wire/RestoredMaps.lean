import Upb.Common.Except
import Upb.Wire.RestoredFields

/-!
# What the records of a map restore

The encoder writes one record for each entry of a map, in some order, and the decoder inserts the
entries one after the other. The keys are all different, so each entry stays what it was.
-/

namespace Upb.Wire

open Upb.Common BoundedReader
open Upb.Compare (Place dataIsZero mapSize IsNumberType IsStringType mapEntries_spec)

section Order

variable {hash : Hashes} {opts : EncodeOptions}

/-- The order of the encoder is one of the entries that an iteration goes through. -/
theorem mapOrder_perm (table : MapTable) : (mapOrder hash opts table).Perm (table.pairs hash) := by
  cases table with
  | inttable t =>
    rw [mapOrder]
    split
    · have harray : ((List.range t.arraySize).filterMap fun k =>
          (t.arrayGet k).map fun v => (MapKey.int k, v)) =
            (((List.range t.arraySize).filter t.presence).map fun i => (i, t.array i)).map
              fun p => (MapKey.int p.1, p.2) := by
        induction List.range t.arraySize with
        | nil => rfl
        | cons k l ih =>
          rw [List.filterMap_cons, IntTable.arrayGet]
          cases hk : t.presence k with
          | false => simpa [hk] using ih
          | true => simpa [hk] using ih
      rw [MapTable.pairs, IntTable.pairs_eq, List.map_append, ← harray]
      exact List.Perm.append_left _ ((List.mergeSort_perm _ _).map _)
    · exact List.Perm.refl _
  | strtable t =>
    rw [mapOrder]
    split
    · exact (List.mergeSort_perm _ _).map _
    · exact List.Perm.refl _

end Order

variable {cfg : DecodeConfig} {opts : EncodeOptions} {depth fuel level keySize : ℕ} {t entry : TableId}
  {f key value : LinkedField} {c s : Slot} {k : MapKey} {v : Slot} {bytes : List UInt8}

section Entries

/-- The contents are a map, or null, that holds just these entries. -/
structure HoldsEntries (cfg : DecodeConfig) (keySize : ℕ) (value : LinkedField)
    (entries : List (MapKey × Slot)) (c : Slot) : Prop where
  isMap : (c = .zero ∧ entries = []) ∨ c.IsMap cfg.hash keySize entries.length
  keys : ∀ k, c.mapGet cfg.hash k = none ↔ k ∉ entries.map Prod.fst
  vals : ∀ p ∈ entries, ∀ v, c.mapGet cfg.hash p.1 = some v →
    Agrees cfg.schema cfg.hash (.value value) p.2 v

/-- Null holds no entries. -/
theorem holdsEntries_nil : HoldsEntries cfg keySize value [] .zero :=
  ⟨.inl ⟨rfl, rfl⟩, fun _ => ⟨fun _ => nofun, fun _ => rfl⟩, nofun⟩

/-- The number of the entries. -/
theorem HoldsEntries.mapSize_eq {entries : List (MapKey × Slot)}
    (h : HoldsEntries cfg keySize value entries c) : mapSize c = entries.length := by
  rcases h.isMap with ⟨rfl, rfl⟩ | hmap
  · rfl
  · cases hmap with
    | mk _ _ size => exact size

/-- Keys that agree are the same for the hash tables. -/
theorem toKey_eq_of_agrees {k k' : Slot} (htype : key.field.isSubMessage = false)
    (h : Agrees cfg.schema cfg.hash (.value key) k k') :
    k'.toKey (sizeInMap key.field.descriptortype) = k.toKey (sizeInMap key.field.descriptortype) := by
  cases h with
  | number type val =>
    have hsize : sizeInMap key.field.descriptortype ≠ 0 := by
      have hpack := isPackable_of_isNumberType type
      generalize key.field.descriptortype = type at hpack
      cases type <;> first | decide | cases hpack
    rw [Slot.toKey, Slot.toKey, if_neg hsize, if_neg hsize, val]
  | string type val =>
    have hsize : sizeInMap key.field.descriptortype = 0 := by
      rcases type with h | h <;> rw [h] <;> rfl
    rw [Slot.toKey, Slot.toKey, if_pos hsize, if_pos hsize, val]
  | submessage type =>
    rw [htype] at type
    cases type

/-- The parts of the record of an entry. -/
theorem encodeMapentry_eq_ok {sub : SubEncoder} {number : ℕ} (hkey : cfg.schema.field entry 0 = some key)
    (hvalue : cfg.schema.field entry 1 = some value)
    (h : encodeMapentry cfg.schema sub level number entry keySize (k, v) = .ok bytes) :
    ∃ p q, encodeScalar sub level key (k.toSlot keySize) = .ok p ∧ encodeScalar sub level value v = .ok q ∧
      (p ++ q).length ≤ int32Max ∧
      bytes = encodeTag number .delimited ++ encodeVarint (p ++ q).length ++ (p ++ q) := by
  rw [encodeMapentry, hkey, hvalue] at h
  dsimp only at h
  obtain ⟨q, hq, h⟩ := bind_eq_ok.mp h
  obtain ⟨p, hp, h⟩ := bind_eq_ok.mp h
  obtain ⟨len, hlen, h⟩ := bind_eq_ok.mp h
  obtain ⟨hmax, rfl⟩ := encodeLength_eq_ok.mp hlen
  cases h
  exact ⟨p, q, hp, hq, hmax, List.append_assoc _ _ _⟩

/-- A delimited record has a tag and a size. -/
theorem IsDelimited.two_le_length {n : ℕ} {p : List UInt8} (h : IsDelimited n p bytes) :
    2 ≤ bytes.length := by
  cases h with
  | mk htag hsize =>
    have htag := htag.varint.length_pos
    have hsize := hsize.length_pos
    simp only [List.length_append]
    omega

/-- What the results about the entries of one map field share: its mode, its type and its entries. -/
structure IsMapField (cfg : DecodeConfig) (f key value : LinkedField) (entry : TableId) : Prop where
  mode : f.field.mode.fieldMode = .map
  presence : f.field.presence = 0
  type : f.field.descriptortype = .message
  table : f.sub.message = some entry
  entry : IsEntry cfg entry key value
  keyType : key.field.isSubMessage = false

/-- The key and the value of an entry are restored, and the key is one of its type. -/
structure EntryRestores (cfg : DecodeConfig) (opts : EncodeOptions) (depth : ℕ) (key value : LinkedField)
    (ent : MapKey × Slot) : Prop where
  keyKind : (ent.1.toSlot (sizeInMap key.field.descriptortype)).toKey
    (sizeInMap key.field.descriptortype) = ent.1
  keyFits : Restorable cfg depth (.value key) (ent.1.toSlot (sizeInMap key.field.descriptortype))
  valFits : Restorable cfg depth (.value value) ent.2
  key : ValueRestores cfg opts depth key (ent.1.toSlot (sizeInMap key.field.descriptortype))
  val : ValueRestores cfg opts depth value ent.2

/-- The keys of a map have at most eight bytes. -/
theorem sizeInMap_le (type : FieldType) : sizeInMap type ≤ 8 := by
  cases type <;> decide

/-- The record of an entry with a new key adds the entry. -/
theorem updates_entry (hreq : cfg.checkRequired = false) (hfield : IsMapField cfg f key value entry)
    (hn : f.field.number < 2 ^ 29) {ent : MapKey × Slot} (hent : EntryRestores cfg opts depth key value ent)
    (henc : encodeMapentry cfg.schema (encodeMessage cfg.schema cfg.hash opts fuel) level f.field.number
      entry (sizeInMap key.field.descriptortype) ent = .ok bytes) {entries : List (MapKey × Slot)}
    (hc : HoldsEntries cfg (sizeInMap key.field.descriptortype) value entries c)
    (hnew : ent.1 ∉ entries.map Prod.fst) (hroom : entries.length < 2 ^ 30) :
    2 ≤ bytes.length ∧ ∃ c', HoldsEntries cfg (sizeInMap key.field.descriptortype) value (entries ++ [ent]) c' ∧
      ∀ t ext, Finds cfg t f ext → Updates cfg (depth + 1) t f ext bytes c c' := by
  obtain ⟨k, v⟩ := ent
  obtain ⟨p, q, hp, hq, hmax, rfl⟩ :=
    encodeMapentry_eq_ok hfield.entry.keyField hfield.entry.valField henc
  have hlen : (p ++ q).length = p.length + q.length := List.length_append
  obtain ⟨k', hk'⟩ := hent.key hfield.entry.findsKey.number_lt fuel (level - 1) p
    (encodeValue_of_encodeScalar (toMessage_ne_none hent.keyFits rfl) hp) (by omega)
  obtain ⟨v', hv'⟩ := hent.val hfield.entry.findsVal.number_lt fuel (level - 1) q
    (encodeValue_of_encodeScalar (toMessage_ne_none hent.valFits rfl) hq) (by omega)
  obtain ⟨msg, hdecodes, hmsgk, hmsgv, hunknown⟩ := decodes_entry hfield.entry hk'.record hv'.record
  have htokey : k'.toKey (sizeInMap key.field.descriptortype) = k :=
    (toKey_eq_of_agrees hfield.keyType hk'.agrees).trans hent.keyKind
  have hmap : (c = .zero ∧ entries.length = 0) ∨
      c.IsMap cfg.hash (sizeInMap key.field.descriptortype) entries.length :=
    hc.isMap.imp_left fun h => ⟨h.1, by rw [h.2]; rfl⟩
  have hshort := hk'.short
  obtain ⟨c', hins, hc', hget⟩ := mapInsertEntry_new hfield.entry (sizeInMap_le _) hmap hmsgk hmsgv
    (by rw [htokey]; exact (hc.keys k).mpr hnew) (by rw [int32Max] at hshort; rw [uint32Max]; omega) hroom
  rw [htokey] at hget
  have hdelimited := isDelimited_encode hn hmax
  refine ⟨?_, c', ⟨.inr ?_, fun x => ?_, fun x hx w hw => ?_⟩, fun t ext hf =>
    updates_mapEntry hreq hf hfield.mode hfield.presence hfield.type hfield.table hdelimited hmax hdecodes
      hunknown hins⟩
  · exact hdelimited.two_le_length
  · rw [List.length_append]
    exact hc'
  · rw [hget, List.map_append, List.mem_append, not_or]
    split
    · next heq => exact iff_of_false (Option.some_ne_none _) fun h => h.2 (List.mem_singleton.mpr heq)
    · next hne =>
      rw [hc.keys]
      exact ⟨fun h => ⟨h, fun hx => hne (List.mem_singleton.mp hx)⟩, fun h => h.1⟩
  · rw [hget] at hw
    rcases List.mem_append.mp hx with hx | hx
    · have hne : x.1 ≠ k := fun heq => hnew (heq ▸ List.mem_map.mpr ⟨x, hx, rfl⟩)
      rw [if_neg hne] at hw
      exact hc.vals x hx w hw
    · cases List.mem_singleton.mp hx
      rw [if_pos rfl] at hw
      cases hw
      exact hv'.agrees

/-- The records of entries with new keys add the entries. -/
theorem updates_entries (hreq : cfg.checkRequired = false) (hfield : IsMapField cfg f key value entry)
    (hn : f.field.number < 2 ^ 29) {l entries : List (MapKey × Slot)}
    (hl : ∀ ent ∈ l, EntryRestores cfg opts depth key value ent)
    (henc : encodeBackwards (encodeMapentry cfg.schema (encodeMessage cfg.schema cfg.hash opts fuel) level
      f.field.number entry (sizeInMap key.field.descriptortype)) l.reverse = .ok bytes)
    (hc : HoldsEntries cfg (sizeInMap key.field.descriptortype) value entries c)
    (hnodup : ((entries ++ l).map Prod.fst).Nodup) (hlen : 2 * entries.length + bytes.length ≤ int32Max) :
    ∃ c', HoldsEntries cfg (sizeInMap key.field.descriptortype) value (entries ++ l) c' ∧
      (l = [] ∧ bytes = [] ∧ c' = c ∨
        ∀ t ext, Finds cfg t f ext → Updates cfg (depth + 1) t f ext bytes c c') := by
  induction l generalizing bytes entries c with
  | nil =>
    cases henc
    rw [List.append_nil]
    exact ⟨c, hc, .inl ⟨rfl, rfl, rfl⟩⟩
  | cons ent l ih =>
    obtain ⟨front, rest, hfront, hrest, rfl⟩ := (encodeBackwards_reverse_cons ent l).mp henc
    rw [List.length_append] at hlen
    have hnew : ent.1 ∉ entries.map Prod.fst := by
      rw [List.map_append, List.map_cons] at hnodup
      intro hmem
      exact (List.disjoint_of_nodup_append hnodup) hmem List.mem_cons_self
    have hmax : int32Max = 2 ^ 31 - 1 := rfl
    have hsmall : entries.length < 2 ^ 30 := by omega
    obtain ⟨htwo, c₁, hc₁, hfirst⟩ := updates_entry hreq hfield hn (hl ent List.mem_cons_self) hfront hc hnew
      hsmall
    have hsplit : entries ++ ent :: l = (entries ++ [ent]) ++ l := by simp
    rw [hsplit] at hnodup ⊢
    have hbound : 2 * (entries ++ [ent]).length + rest.length ≤ int32Max := by
      rw [List.length_append, List.length_singleton]
      omega
    obtain ⟨c', hc', hrun⟩ := ih (fun x hx => hl x (List.mem_cons_of_mem _ hx)) hrest hc₁ hnodup hbound
    refine ⟨c', hc', .inr fun t ext hf => ?_⟩
    rcases hrun with ⟨-, rfl, rfl⟩ | hrun
    · rw [List.append_nil]
      exact hfirst t ext hf
    · exact (hfirst t ext hf).append (hrun t ext hf)

end Entries

section Maps

/-- Maps are restored. -/
theorem fieldRestores_map (hreq : cfg.checkRequired = false) (hfield : IsMapField cfg f key value entry)
    {table : MapTable} {values : List Slot}
    (hs : s = .map (sizeInMap key.field.descriptortype) table values) (inv : MapTable.Inv cfg.hash table)
    (deep : table.pairs cfg.hash ≠ [] → 0 < depth)
    (hents : ∀ k v, s.mapGet cfg.hash k = some v → EntryRestores cfg opts (depth - 1) key value (k, v)) :
    FieldRestores cfg opts depth f s := by
  intro hn fuel level bytes henc hlen
  obtain ⟨hnodup, hget, hkeys, hsize⟩ := mapEntries_spec (sizeInMap key.field.descriptortype) values inv
  rw [← hs] at hnodup hget hkeys hsize
  set ents := (mapOrder cfg.hash opts table).map fun p => (p.1, values[p.2]?.getD .zero) with hents_eq
  have hperm : ents.reverse.Perm (s.mapEntries cfg.hash) := by
    rw [hs, Slot.mapEntries]
    exact (List.reverse_perm _).trans ((mapOrder_perm table).map _)
  have hfst := hperm.map Prod.fst
  have hencode : encodeBackwards (encodeMapentry cfg.schema (encodeMessage cfg.schema cfg.hash opts fuel)
      level f.field.number entry (sizeInMap key.field.descriptortype)) ents.reverse.reverse = .ok bytes := by
    rw [encodeField, hfield.mode, hs] at henc
    dsimp only at henc
    rw [encodeMap, hfield.table] at henc
    rw [List.reverse_reverse]
    exact henc
  have hrestored : ∃ c', HoldsEntries cfg (sizeInMap key.field.descriptortype) value ents.reverse c' ∧
      (ents.reverse = [] ∧ bytes = [] ∧ c' = .zero ∨
        ∀ t ext, Finds cfg t f ext → Updates cfg depth t f ext bytes .zero c') := by
    cases depth with
    | zero =>
      have hpairs : table.pairs cfg.hash = [] := by
        by_contra hne
        exact absurd (deep hne) (by omega)
      have hnil : ents.reverse = [] := by
        rw [hs, Slot.mapEntries, hpairs] at hperm
        exact List.Perm.eq_nil hperm
      rw [hnil] at hencode ⊢
      cases hencode
      exact ⟨.zero, holdsEntries_nil, .inl ⟨rfl, rfl, rfl⟩⟩
    | succ depth =>
      have hall : ∀ ent ∈ ents.reverse, EntryRestores cfg opts depth key value ent :=
        fun ent hent => hents ent.1 ent.2 (hget ent (hperm.mem_iff.mp hent))
      have hdistinct : (([] ++ ents.reverse).map Prod.fst).Nodup := hfst.nodup_iff.mpr hnodup
      exact updates_entries hreq hfield hn hall hencode holdsEntries_nil hdistinct (by simpa using hlen)
  obtain ⟨c', hc', hrun⟩ := hrestored
  have hmem : ∀ k, k ∈ ents.reverse.map Prod.fst ↔ s.mapGet cfg.hash k ≠ none :=
    fun k => hfst.mem_iff.trans (hkeys k)
  refine ⟨c', .map hfield.mode hfield.table hfield.entry.valField (fun k => ?_) (fun k v1 v2 h1 h2 => ?_),
    fun hrep => ?_, ?_⟩
  · rw [hc'.keys, hmem, not_not]
  · have hk : (k, v1) ∈ ents.reverse := by
      have hk : k ∈ (s.mapEntries cfg.hash).map Prod.fst := (hkeys k).mpr (by rw [h1]; exact Option.some_ne_none _)
      obtain ⟨p, hp, rfl⟩ := List.mem_map.mp hk
      have hv := (hget p hp).symm.trans h1
      cases hv
      exact hperm.mem_iff.mpr hp
    exact hc'.vals _ hk v2 h2
  · have hother : f.field.mode.rep ≠ .repStringView := fun h => by
      have hscalar := (hrep.mp h).1
      rw [hfield.mode] at hscalar
      cases hscalar
    have hmap : ∀ x, hasContents f.field x = if Slot.isNonzero x then mapSize x != 0 else false := by
      intro x
      rw [hasContents, dataIsZero_of_not_string hother, MiniTableField.isArray, MiniTableField.isMap,
        hfield.mode]
      cases Slot.isNonzero x <;> rfl
    have hcount : mapSize c' = mapSize s := by
      rw [hc'.mapSize_eq, hperm.length_eq, hsize]
    rw [hmap, hmap, hcount, hs]
    rcases hc'.isMap with ⟨rfl, -⟩ | hc'
    · rw [hs] at hcount
      rw [← hcount]
      rfl
    · cases hc'
      rfl
  · refine hrun.imp_left fun h => ⟨?_, h.2⟩
    rw [hfield.mode]
    rintro ⟨⟩

end Maps

end Upb.Wire
