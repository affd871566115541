import Upb.Message.MapContents
import Upb.Wire.ValueRecords

/-!
# Records of a map entry

A record of a map field is a message of the entry's table with a key and a value. When both are read and
nothing unknown is left, the entry is inserted into the map, which is created with its first entry.
-/

namespace Upb.Wire

open Upb.Common BoundedReader

variable {cfg : DecodeConfig} {depth n : ℕ} {t entry : TableId} {f key val : LinkedField}
  {ext : Option ExtId} {p q bytes : List UInt8} {k v : Slot}

/-- Writing one field leaves the fields at other offsets. -/
theorem data_putContents_of_ne {f g : MiniTableField} (h : g.offset ≠ f.offset) (m : Message) (s : Slot) :
    (putContents f none m s).data g = m.data g := by
  have hdata : ∀ (m : Message) (s : Slot), (m.setData f s).data g = m.data g :=
    fun m s => Function.update_of_ne h _ _
  rw [putContents, hdata, setPresence]
  split
  · rfl
  · split
    · split
      · exact hdata m .zero
      · rfl
    · rfl

@[simp] theorem unknown_putContents (f : MiniTableField) (ext : Option ExtId) (m : Message) (s : Slot) :
    (putContents f ext m s).unknown = m.unknown := by
  cases ext with
  | some e => rfl
  | none =>
    simp only [putContents, setPresence, Message.unknown_setData]
    split
    · rfl
    · split
      · split <;> rfl
      · rfl

/-- The two fields of an entry, as the table of the entry has them. -/
structure IsEntry (cfg : DecodeConfig) (entry : TableId) (key val : LinkedField) : Prop where
  keyField : cfg.schema.field entry 0 = some key
  valField : cfg.schema.field entry 1 = some val
  findsKey : Finds cfg entry key none
  findsVal : Finds cfg entry val none
  keyScalar : key.field.mode.fieldMode = .scalar
  valScalar : val.field.mode.fieldMode = .scalar
  offset : key.field.offset ≠ val.field.offset

/-- A new entry holds nothing but an empty sub-message. -/
theorem newMapEntry_spec (h : IsEntry cfg entry key val) :
    (newMapEntry cfg entry).data key.field = .zero ∧
      ((newMapEntry cfg entry).data val.field).toMessage.getD .new = .new ∧
      (newMapEntry cfg entry).unknown = [] := by
  have hmessage : mapValueMessage cfg entry =
      if val.field.isSubMessage then val.sub.message.map fun t => (val.field, t) else none := by
    rw [mapValueMessage, h.valField]
  rw [newMapEntry]
  cases hval : mapValueMessage cfg entry with
  | none => exact ⟨rfl, rfl, rfl⟩
  | some q =>
    obtain ⟨g, s⟩ := q
    rw [hmessage] at hval
    split at hval
    · obtain ⟨s', -, hq⟩ := Option.map_eq_some_iff.mp hval
      cases hq
      refine ⟨?_, ?_, rfl⟩
      · exact Function.update_of_ne h.offset _ _
      · dsimp only
        rw [Message.data_setData]
        rfl
    · cases hval

/-- A key and a value are read into a new entry. -/
theorem decodes_entry (h : IsEntry cfg entry key val) (hp : ValueRecord cfg depth key p k)
    (hq : ValueRecord cfg depth val q v) :
    ∃ ent : Message, Decodes cfg depth entry (p ++ q) ⟨newMapEntry cfg entry, false⟩ ⟨ent, false⟩ ∧
      ent.data key.field = k ∧ ent.data val.field = v ∧ ent.unknown = [] := by
  obtain ⟨hkey, hval, hunknown⟩ := newMapEntry_spec h
  have hk := hp.updates_scalar h.findsKey h.keyScalar (c := .zero) rfl _ hkey
  have hfresh : (contents val.field none
      (putContents key.field none (newMapEntry cfg entry) k)).toMessage.getD .new = .new := by
    rw [contents, data_putContents_of_ne h.offset.symm]
    exact hval
  have hv := hq.updates_scalar h.findsVal h.valScalar hfresh _ rfl
  refine ⟨_, hk.append hv, ?_, ?_, ?_⟩
  · rw [data_putContents_of_ne h.offset]
    exact contents_putContents key.field none _ k
  · exact contents_putContents val.field none _ v
  · rw [unknown_putContents, unknown_putContents, hunknown]

/-- A record of a map entry that leaves nothing unknown inserts it. -/
theorem updates_mapEntry (hreq : cfg.checkRequired = false) (hf : Finds cfg t f ext)
    (hmode : f.field.mode.fieldMode = .map) (hpresence : f.field.presence = 0)
    (htype : f.field.descriptortype = .message) (hsub : f.sub.message = some entry)
    (hrec : IsDelimited f.field.number p bytes) (hlen : p.length ≤ int32Max) {ent : Message}
    (hp : Decodes cfg depth entry p ⟨newMapEntry cfg entry, false⟩ ⟨ent, false⟩)
    (hunknown : ent.unknown = []) {c c' : Slot} (hins : mapInsertEntry cfg entry ent c = some c') :
    Updates cfg (depth + 1) t f ext bytes c c' := by
  have hdelim : getDelimitedOp cfg (.field f ext) = .subMessage := by
    have hop : checkUnlinked f .subMessage = .subMessage := by
      rw [checkUnlinked, hsub]
      split <;> rfl
    rw [getDelimitedOp, htype, MiniTableField.isArray, hmode]
    exact hop
  cases hrec with
  | @mk tag size htag hsize hleb =>
    rw [List.append_assoc]
    have hwire : ∀ (r : BoundedReader) (w : List UInt8), r.rest = size ++ w →
        decodeWireValue stream cfg (.field f ext) (some .delimited) r =
          .ok ((.subMessage, p.length), r.advance size.length) := by
      intro r w hr
      rw [decodeWireValue, Prog.bind_of_ok (readSize_of_leb hsize hleb hlen hr), hdelim]
      rfl
    refine updates_of_record hf htag (by decide) hwire ⟨by rintro ⟨⟩, by rintro ⟨⟩⟩ ?_
    intro m fuel r w hm hfuel hr
    have hrun := withLimit_recurseSubMessage cfg (depth + 1) (depth + 1) entry
      ⟨newMapEntry cfg entry, false⟩ hr hfuel
    rw [decodeSubPayload, hp.decodePayload_eq hreq] at hrun
    obtain ⟨r', hrun, hw⟩ := hrun
    refine ⟨r', ?_, hw⟩
    have hsubmsg : decodeSubMessage stream (decodeMessage stream cfg fuel (depth + 1)) (depth + 1) f
        ⟨newMapEntry cfg entry, false⟩ p.length r = .ok (⟨ent, false⟩, r') := by
      rw [decodeSubMessage, hsub]
      dsimp only
      rw [if_neg (by rw [htype]; decide), hrun]
    have hchecked : ∀ (t : TableId) (m : Message), checkRequired cfg t m false = false := by
      intro t m
      rw [checkRequired, if_neg fun h => Bool.false_ne_true (hreq.symm.trans h.2)]
    rw [decodeToField, hmode]
    dsimp only
    rw [decodeToMap, hsub]
    dsimp only
    rw [Prog.bind_of_ok hsubmsg]
    simp only [hchecked, hunknown, ne_eq, not_true_eq_false, if_false, hm, hins]
    rw [putContents, setPresence_of_zero hpresence]
    cases mapValueMessage cfg entry with
    | none => rfl
    | some q =>
      dsimp only
      cases (ent.data q.1).toMessage <;> rfl

/-- The first entry or another one with a new key. -/
theorem mapInsertEntry_new (h : IsEntry cfg entry key val)
    (hsize : sizeInMap key.field.descriptortype ≤ 8) {c : Slot}
    (hc : (c = .zero ∧ n = 0) ∨ c.IsMap cfg.hash (sizeInMap key.field.descriptortype) n)
    {ent : Message} (hk : ent.data key.field = k) (hv : ent.data val.field = v)
    (hnew : c.mapGet cfg.hash (k.toKey (sizeInMap key.field.descriptortype)) = none)
    (hlen : k.toStr.length ≤ uint32Max) (hroom : n < 2 ^ 30) :
    ∃ c', mapInsertEntry cfg entry ent c = some c' ∧
      c'.IsMap cfg.hash (sizeInMap key.field.descriptortype) (n + 1) ∧
      ∀ x, c'.mapGet cfg.hash x =
        if x = k.toKey (sizeInMap key.field.descriptortype) then some v else c.mapGet cfg.hash x := by
  rw [mapInsertEntry, h.keyField, h.valField]
  dsimp only
  rw [hk, hv]
  rcases hc with ⟨rfl, rfl⟩ | hc
  · obtain ⟨table, htable, hmap, hnone⟩ := Slot.isMap_new cfg.hash hsize
    obtain ⟨c', hins, hc', hget⟩ := hmap.insert (hnone _) hlen hroom
    refine ⟨c', ?_, hc', fun x => ?_⟩
    · have hcreate : mapOrNew cfg entry .zero =
          (MapTable.new cfg.hash (sizeInMap key.field.descriptortype)).map fun table =>
            .map (sizeInMap key.field.descriptortype) table [] := by
        rw [mapOrNew, h.keyField]
        · rfl
        · exact nofun
      rw [hcreate, htable]
      exact hins
    · rw [hget, hnone]
      rfl
  · obtain ⟨c', hins, hc', hget⟩ := hc.insert hnew hlen hroom
    refine ⟨c', ?_, hc', hget⟩
    cases hc with
    | mk => exact hins

end Upb.Wire
