import Upb.Wire.DepthMonotone
import Upb.Wire.SubMessageRecords
import Upb.Wire.UnknownFields

/-!
# Items of a message set

An item of a message set is a group with the number of its type and a payload, in either order. The
decoder also takes the plain record of the extension. The group form puts a new message in the place of
the one that an earlier item left; the plain form decodes into it.
-/

namespace Upb.Wire

open Upb.Common BoundedReader

/-- The field of an item that holds the number of its type. -/
inductive IsTypeId (typeId : ℕ) : List UInt8 → Prop
  | mk {tag id : List UInt8} (htag : IsTag 2 .varint tag) (hid : IsVarint 10 id)
      (hval : leb id % 2 ^ 64 % 2 ^ 32 = typeId) : IsTypeId typeId (tag ++ id)

/-- An item group with a type and a payload, in either order. -/
inductive IsItem (typeId : ℕ) (payload : List UInt8) : List UInt8 → Prop
  | idFirst {start id msg stop : List UInt8} (hstart : IsTag 1 .startGroup start)
      (hid : IsTypeId typeId id) (hmsg : IsDelimited 3 payload msg) (hstop : IsTag 1 .endGroup stop) :
      IsItem typeId payload (start ++ (id ++ (msg ++ stop)))
  | payloadFirst {start id msg stop : List UInt8} (hstart : IsTag 1 .startGroup start)
      (hid : IsTypeId typeId id) (hmsg : IsDelimited 3 payload msg) (hstop : IsTag 1 .endGroup stop) :
      IsItem typeId payload (start ++ (msg ++ (id ++ stop)))

theorem IsTypeId.ne_nil {typeId : ℕ} {id : List UInt8} (h : IsTypeId typeId id) : id ≠ [] := by
  cases h with
  | mk htag hid hval => exact List.append_ne_nil_of_left_ne_nil htag.varint.ne_nil _

section Step

variable {cfg : DecodeConfig} {fuel depth typeId : ℕ} {sub : SubDecoder BoundedReader} {t : TableId}
  {r : BoundedReader} {w : List UInt8}

/-- What adding an item does. -/
def Adds (cfg : DecodeConfig) (sub : SubDecoder BoundedReader) (depth : ℕ) (t : TableId) (typeId : ℕ)
    (payload : List UInt8) (d d' : Decoding) : Prop :=
  ∀ v r, v.data = payload → ∃ r', addMessageSetItem stream cfg sub depth t d typeId v r = .ok (d', r') ∧
    r'.rest = r.rest

theorem readTag_of_tag {n : ℕ} {wt : WireType} {tag : List UInt8} (htag : IsTag n wt tag)
    (hr : r.rest = tag ++ w) :
    readTag stream r = .ok (n * 8 + wt.toNat, r.advance tag.length) := by
  rw [← htag.value]
  exact readTag_eq_ok.mpr ⟨tag, htag.varint, htag.lt, rfl, reads_advance hr⟩

/-- The number of the type is read. -/
theorem messageSetItemStep_typeId {id : List UInt8} (hid : IsTypeId typeId id) (d : Decoding)
    (payload : Option View) (hr : r.rest = id ++ w) :
    ∃ r' : BoundedReader, r'.rest = w ∧
      messageSetItemStep stream cfg fuel sub depth t ⟨d, none, payload⟩ r =
        (match payload with
          | some v => addMessageSetItem stream cfg sub depth t d typeId v >>= fun d' =>
              pure (Sum.inl ⟨d', some typeId, payload⟩)
          | none => pure (Sum.inl ⟨d, some typeId, none⟩) :
            Reading BoundedReader (ItemState ⊕ Decoding)) r' := by
  cases hid with
  | @mk tag id htag hid hval =>
    rw [List.append_assoc] at hr
    have hrest := rest_advance hr
    have hread : readVarint stream (r.advance tag.length) =
        .ok (leb id % 2 ^ 64, (r.advance tag.length).advance id.length) :=
      readVarint_eq_ok.mpr ⟨id, hid, rfl, reads_advance hrest⟩
    refine ⟨(r.advance tag.length).advance id.length, rest_advance hrest, ?_⟩
    rw [messageSetItemStep, Prog.bind_of_ok (readTag_of_tag htag hr), if_neg (by decide),
      if_pos (by decide), Prog.bind_of_ok hread]
    simp only [hval]
    cases payload <;> rfl

/-- The payload is read. -/
theorem messageSetItemStep_payload {p msg : List UInt8} (hmsg : IsDelimited 3 p msg)
    (hlen : p.length ≤ int32Max) (d : Decoding) (id : Option ℕ) (hr : r.rest = msg ++ w) :
    ∃ (v : View) (r' : BoundedReader), v.data = p ∧ r'.rest = w ∧
      messageSetItemStep stream cfg fuel sub depth t ⟨d, id, none⟩ r =
        (match id with
          | some typeId => addMessageSetItem stream cfg sub depth t d typeId v >>= fun d' =>
              pure (Sum.inl ⟨d', id, some v⟩)
          | none => pure (Sum.inl ⟨d, none, some v⟩) :
            Reading BoundedReader (ItemState ⊕ Decoding)) r' := by
  cases hmsg with
  | @mk tag size htag hsize hval =>
    rw [List.append_assoc, List.append_assoc] at hr
    have hrest := rest_advance hr
    have hrest' := rest_advance hrest
    have hread : readSize stream (r.advance tag.length) =
        .ok (p.length, (r.advance tag.length).advance size.length) := by
      rw [← hval]
      exact readSize_eq_ok.mpr ⟨size, hsize, by omega, rfl, reads_advance hrest⟩
    generalize hr₁ : (r.advance tag.length).advance size.length = r₁ at hrest' hread
    have halias : stream.readStringAlwaysAlias p.length r₁ =
        .ok (⟨r₁.pos, p⟩, { r₁.advance p.length with log := r₁.log ++ [⟨r₁.pos, p.length⟩] }) := by
      change BoundedReader.readStringAlwaysAlias p.length r₁ = _
      rw [BoundedReader.readStringAlwaysAlias, hrest', if_pos (by simp), List.take_left]
    refine ⟨⟨r₁.pos, p⟩, { r₁.advance p.length with log := r₁.log ++ [⟨r₁.pos, p.length⟩] }, rfl,
      rest_advance hrest', ?_⟩
    rw [messageSetItemStep, Prog.bind_of_ok (readTag_of_tag htag hr), if_neg (by decide),
      if_neg (by decide), if_pos (by decide), Prog.bind_of_ok hread, Prog.bind_of_ok halias]
    cases id <;> rfl

/-- The end of the group is read. -/
theorem messageSetItemStep_stop {stop : List UInt8} (hstop : IsTag 1 .endGroup stop) (st : ItemState)
    (hr : r.rest = stop ++ w) :
    messageSetItemStep stream cfg fuel sub depth t st r =
      .ok (.inr st.decoding, r.advance stop.length) := by
  rw [messageSetItemStep, Prog.bind_of_ok (readTag_of_tag hstop hr), if_pos (by decide)]
  rfl

/-- A program of a step that adds an item. -/
theorem Adds.run {p : List UInt8} {d d' : Decoding} (h : Adds cfg sub depth t typeId p d d') {v : View}
    (hv : v.data = p) (f : Decoding → ItemState) (r : BoundedReader) :
    ∃ r', r'.rest = r.rest ∧ (addMessageSetItem stream cfg sub depth t d typeId v >>= fun d' =>
      pure (.inl (f d') : ItemState ⊕ Decoding)) r = .ok (.inl (f d'), r') := by
  obtain ⟨r', hadd, hrest⟩ := h v r hv
  exact ⟨r', hrest, Prog.bind_of_ok hadd⟩

/-- The loop of `upb_Decoder_DecodeMessageSetItem`. -/
def itemLoop (cfg : DecodeConfig) (fuel : ℕ) (sub : SubDecoder BoundedReader) (depth : ℕ) (t : TableId)
    (rounds : ℕ) (st : ItemState) : Reading BoundedReader Decoding :=
  Prog.loop stream.isDone .outOfFuel (messageSetItemStep stream cfg fuel sub depth t)
    (fun _ => throw .malformed) rounds st

/-- A round of the loop. -/
theorem itemLoop_of_step {k : ℕ} {st st' : ItemState} {r' : BoundedReader} (hne : r.rest ≠ [])
    (hstep : messageSetItemStep stream cfg fuel sub depth t st r = .ok (.inl st', r')) :
    itemLoop cfg fuel sub depth t (k + 1) st r = itemLoop cfg fuel sub depth t k st' r' := by
  rw [itemLoop, Prog.loop_of_not_done (isDone_of_ne_nil hne), Prog.bind_of_ok hstep]
  rfl

/-- The end of the loop. -/
theorem itemLoop_of_stop {k : ℕ} {st : ItemState} {stop : List UInt8} (hstop : IsTag 1 .endGroup stop)
    (hr : r.rest = stop ++ w) :
    itemLoop cfg fuel sub depth t (k + 1) st r = .ok (st.decoding, r.advance stop.length) := by
  have hne : r.rest ≠ [] := by
    rw [hr]
    exact List.append_ne_nil_of_left_ne_nil hstop.varint.ne_nil _
  rw [itemLoop, Prog.loop_of_not_done (isDone_of_ne_nil hne),
    Prog.bind_of_ok (messageSetItemStep_stop hstop st hr)]
  rfl

/-- An item whose type comes first. -/
theorem itemLoop_idFirst {p id msg stop : List UInt8} (hid : IsTypeId typeId id)
    (hmsg : IsDelimited 3 p msg) (hstop : IsTag 1 .endGroup stop) (hlen : p.length ≤ int32Max) (n : ℕ)
    {d d' : Decoding} (hadds : Adds cfg sub depth t typeId p d d')
    (hr : r.rest = id ++ (msg ++ (stop ++ w))) :
    ∃ r', itemLoop cfg fuel sub depth t (n + 3) ⟨d, none, none⟩ r = .ok (d', r') ∧ r'.rest = w := by
  obtain ⟨r₁, hrest₁, hstep₁⟩ := messageSetItemStep_typeId hid d none hr
  obtain ⟨v, r₂, hv, hrest₂, hstep₂⟩ := messageSetItemStep_payload hmsg hlen d (some typeId) hrest₁
  obtain ⟨r₃, hrest₃, hadd⟩ := hadds.run hv (fun d' => ⟨d', some typeId, some v⟩) r₂
  have hne : r.rest ≠ [] ∧ r₁.rest ≠ [] := by
    rw [hr, hrest₁]
    exact ⟨List.append_ne_nil_of_left_ne_nil hid.ne_nil _,
      List.append_ne_nil_of_left_ne_nil hmsg.ne_nil _⟩
  rw [itemLoop_of_step hne.1 hstep₁, itemLoop_of_step hne.2 (hstep₂.trans hadd),
    itemLoop_of_stop hstop (hrest₃.trans hrest₂)]
  exact ⟨_, rfl, rest_advance (hrest₃.trans hrest₂)⟩

/-- An item whose payload comes first. -/
theorem itemLoop_payloadFirst {p id msg stop : List UInt8} (hid : IsTypeId typeId id)
    (hmsg : IsDelimited 3 p msg) (hstop : IsTag 1 .endGroup stop) (hlen : p.length ≤ int32Max) (n : ℕ)
    {d d' : Decoding} (hadds : Adds cfg sub depth t typeId p d d')
    (hr : r.rest = msg ++ (id ++ (stop ++ w))) :
    ∃ r', itemLoop cfg fuel sub depth t (n + 3) ⟨d, none, none⟩ r = .ok (d', r') ∧ r'.rest = w := by
  obtain ⟨v, r₁, hv, hrest₁, hstep₁⟩ := messageSetItemStep_payload hmsg hlen d none hr
  obtain ⟨r₂, hrest₂, hstep₂⟩ := messageSetItemStep_typeId hid d (some v) hrest₁
  obtain ⟨r₃, hrest₃, hadd⟩ := hadds.run hv (fun d' => ⟨d', some typeId, some v⟩) r₂
  have hne : r.rest ≠ [] ∧ r₁.rest ≠ [] := by
    rw [hr, hrest₁]
    exact ⟨List.append_ne_nil_of_left_ne_nil hmsg.ne_nil _,
      List.append_ne_nil_of_left_ne_nil hid.ne_nil _⟩
  rw [itemLoop_of_step hne.1 hstep₁, itemLoop_of_step hne.2 (hstep₂.trans hadd),
    itemLoop_of_stop hstop (hrest₃.trans hrest₂)]
  exact ⟨_, rfl, rest_advance (hrest₃.trans hrest₂)⟩

/-- A round of the field loop on an item group adds the item once, in either order. -/
theorem decodeField_item (hset : findField cfg t 1 (some .startGroup) = .messageSetItem)
    {p rec : List UInt8} (hrec : IsItem typeId p rec) (hlen : p.length ≤ int32Max) (hfuel : 3 ≤ fuel)
    {d d' : Decoding} (hadds : Adds cfg sub depth t typeId p d d') (hr : r.rest = rec ++ w) :
    ∃ r', decodeField stream cfg fuel sub depth t d r = .ok (.inl d', r') ∧ r'.rest = w := by
  obtain ⟨n, rfl⟩ : ∃ n, fuel = n + 3 := ⟨fuel - 3, by omega⟩
  have hdata : ∀ r : BoundedReader, decodeFieldData stream cfg (n + 3) sub depth t d 1
      (some .startGroup) r = itemLoop cfg (n + 3) sub depth t (n + 3) ⟨d, none, none⟩ r := by
    intro r
    rw [decodeFieldData, hset]
    rfl
  cases hrec with
  | @idFirst start id msg stop hstart hid hmsg hstop =>
    simp only [List.append_assoc] at hr
    obtain ⟨r', hloop, hw⟩ := itemLoop_idFirst hid hmsg hstop hlen n hadds
      (rest_advance (r := { r with start := (r.pos, r.rest) }) hr)
    refine ⟨r', ?_, hw⟩
    rw [decodeField_of_tag hstart (by decide) hr, Prog.bind_of_ok ((hdata _).trans hloop)]
    rfl
  | @payloadFirst start id msg stop hstart hid hmsg hstop =>
    simp only [List.append_assoc] at hr
    obtain ⟨r', hloop, hw⟩ := itemLoop_payloadFirst hid hmsg hstop hlen n hadds
      (rest_advance (r := { r with start := (r.pos, r.rest) }) hr)
    refine ⟨r', ?_, hw⟩
    rw [decodeField_of_tag hstart (by decide) hr, Prog.bind_of_ok ((hdata _).trans hloop)]
    rfl

end Step

/-- A payload that is accepted under a depth limit is accepted under a larger one. -/
theorem decodePayload_below {cfg : DecodeConfig} {calls calls' depth depth' : ℕ} {s : TableId}
    {d : Decoding} {p : List UInt8} {v : Decoding × Option ℕ} (hcalls : calls ≤ calls')
    (hdepth : depth ≤ depth') (h : decodePayload cfg calls depth s d p = .ok v) :
    decodePayload cfg calls' depth' s d p = .ok v := by
  obtain ⟨⟨v, r⟩, hrun, rfl⟩ := Prog.map_eq_ok.mp h
  exact Prog.map_eq_ok.mpr ⟨(v, r), decodeMessage_below hcalls depth depth' hdepth s d _ _ hrun, rfl⟩

/-- A message set: it has no fields of its own. -/
structure IsMessageSet (cfg : DecodeConfig) (t : TableId) : Prop where
  ext : (cfg.schema.table t).ext = ⟨false, true, false⟩
  fields : (cfg.schema.table t).fields = []
  required : (cfg.schema.table t).requiredCount = 0

/-- A registered item type: an extension of the message set by a singular message, in no oneof. -/
structure IsItemType (cfg : DecodeConfig) (t : TableId) (typeId : ℕ) (e : ExtId) (s : TableId) :
    Prop where
  messageSet : IsMessageSet cfg t
  registered : ∃ reg, cfg.schema.extreg = some reg ∧ reg t typeId = some e
  number : typeId < 2 ^ 29
  scalar : (cfg.schema.ext e).field.mode.fieldMode = .scalar
  type : (cfg.schema.ext e).field.descriptortype = .message
  linked : (cfg.schema.ext e).sub.message = some s
  presence : (cfg.schema.ext e).field.isInOneof = false

section Items

variable {cfg : DecodeConfig} {t s : TableId} {reg : TableId → ℕ → Option ExtId} {typeId maxDepth : ℕ}
  {e : ExtId}

/-- No field of a message set is found. -/
theorem IsMessageSet.no_field (h : IsMessageSet cfg t) (n : ℕ) :
    ((cfg.schema.table t).findFieldByNumber n).bind (cfg.schema.field t) = none := by
  rw [Option.bind_eq_none_iff]
  intro i _
  rw [Schema.field, h.fields]
  rfl

theorem IsMessageSet.findField_item (h : IsMessageSet cfg t) (hreg : cfg.schema.extreg = some reg) :
    findField cfg t 1 (some .startGroup) = .messageSetItem := by
  rw [findField, h.no_field, hreg]
  simp [findExtensionField, h.ext]

theorem IsMessageSet.checkRequired_eq (h : IsMessageSet cfg t) (m : Message) :
    checkRequired cfg t m false = false := by
  rw [checkRequired, if_neg (by simp [h.required])]

/-- The plain record of an item type is one of a singular message field. -/
theorem IsItemType.isMessageField (h : IsItemType cfg t typeId e s) :
    IsMessageField cfg t typeId (cfg.schema.ext e) (some e) s := by
  obtain ⟨reg, hreg, he⟩ := h.registered
  refine ⟨?_, h.scalar, h.type, h.linked, fun _ => h.presence⟩
  rw [findField, h.messageSet.no_field, hreg]
  simp [findExtensionField, h.messageSet.ext, he]

/-- The message of an item type; empty if there is none. -/
def itemOf (e : ExtId) (m : Message) : Message := ((m.getext e).getD .zero).toMessage.getD .new

theorem itemOf_setExt (e : ExtId) (m x : Message) : itemOf e (m.setExt e (.ofMessage x)) = x := by
  simp [itemOf, Message.getext_setExt]

/-- The depth limit for the payload of an item at the top of the input. -/
def itemDepth (maxDepth : ℕ) : ℕ := min defaultDepthLimit (effectiveMaxDepth maxDepth - 1)

/-- `upb_Decode` accepts a payload as that of an item, and leaves a message. -/
structure DecodesAsItem (cfg : DecodeConfig) (maxDepth : ℕ) (s : TableId) (p : List UInt8)
    (y : Message) : Prop where
  depth : 2 ≤ effectiveMaxDepth maxDepth
  length : p.length ≤ int32Max
  decodes : (upbDecode cfg (itemDepth maxDepth) s .new p).map Decoded.msg = .ok y

theorem DecodesAsItem.payload {p : List UInt8} {y : Message} (h : DecodesAsItem cfg maxDepth s p y) :
    decodePayload cfg (itemDepth maxDepth + 1) (itemDepth maxDepth) s ⟨.new, false⟩ p =
      .ok (⟨y, false⟩, none) := by
  have hdepth := h.depth
  have hlimit : effectiveMaxDepth (itemDepth maxDepth) = itemDepth maxDepth := by
    rw [effectiveMaxDepth, if_pos]
    rw [itemDepth, defaultDepthLimit]
    omega
  have hdecodes := (upbDecode_iff_decodePayload h.length).mp h.decodes
  rwa [hlimit] at hdecodes

/-- A known item replaces the message of its type. -/
theorem adds_known (h : IsItemType cfg t typeId e s) {p : List UInt8} {y : Message} {fuel : ℕ}
    (hp : DecodesAsItem cfg maxDepth s p y) (hfuel : p.length ≤ fuel) (m : Message) :
    Adds cfg (decodeMessage stream cfg fuel (effectiveMaxDepth maxDepth)) (effectiveMaxDepth maxDepth) t
      typeId p ⟨m, false⟩ ⟨m.setExt e (.ofMessage y), false⟩ := by
  rintro v r rfl
  obtain ⟨reg, hreg, he⟩ := h.registered
  have hdepth := hp.depth
  have hrun := decodeMessage_eq_decodePayload cfg (effectiveMaxDepth maxDepth) (itemDepth maxDepth) s
    ⟨.new, false⟩ (show (stream.enter v).rest.length ≤ fuel from hfuel)
  rw [show (stream.enter v).rest = v.data from rfl,
    decodePayload_below (by rw [itemDepth]; omega) le_rfl hp.payload] at hrun
  obtain ⟨r', hmsg, -⟩ := hrun
  have htop : decodeTop (decodeMessage stream cfg fuel (effectiveMaxDepth maxDepth))
      (itemDepth maxDepth) s .new (stream.enter v) = .ok (y, r') := by
    rw [decodeTop, Prog.bind_of_ok hmsg]
    rfl
  have hnested : stream.nested v (decodeTop (decodeMessage stream cfg fuel (effectiveMaxDepth maxDepth))
      (itemDepth maxDepth) s .new) r = .ok (y, stream.leave r r') := by
    rw [Stream.nested, htop]
  refine ⟨stream.leave r r', ?_, rfl⟩
  rw [addMessageSetItem, hreg, Option.bind_some, he]
  simp only [h.linked]
  rw [if_neg (by omega)]
  exact Prog.bind_of_ok hnested

/-- An unknown item is added to the unknown fields. -/
theorem adds_unknown (hreg : cfg.schema.extreg = some reg) (he : reg t typeId = none) (p : List UInt8)
    (sub : SubDecoder BoundedReader) (depth : ℕ) (m : Message) :
    Adds cfg sub depth t typeId p ⟨m, false⟩ ⟨m.addUnknown (messageSetItemUnknown typeId p), false⟩ := by
  rintro v r rfl
  refine ⟨r, ?_, rfl⟩
  rw [addMessageSetItem, hreg, Option.bind_some, he]
  rfl

/-- The parts of an item. -/
theorem IsItem.length_le {p rec : List UInt8} (h : IsItem typeId p rec) : p.length + 3 ≤ rec.length := by
  cases h with
  | idFirst hstart hid hmsg hstop =>
    have := hstart.varint.length_pos
    have := hstop.varint.length_pos
    have := List.length_pos_iff.mpr hid.ne_nil
    have := hmsg.length_le
    simp only [List.length_append]
    omega
  | payloadFirst hstart hid hmsg hstop =>
    have := hstart.varint.length_pos
    have := hstop.varint.length_pos
    have := List.length_pos_iff.mpr hid.ne_nil
    have := hmsg.length_le
    simp only [List.length_append]
    omega

/-- An input that is one item. -/
theorem upbDecode_item (hset : IsMessageSet cfg t) (hreg : cfg.schema.extreg = some reg)
    {p rec : List UInt8} (hrec : IsItem typeId p rec) (hlen : rec.length ≤ int32Max) {m m' : Message}
    (hadds : Adds cfg (decodeMessage stream cfg rec.length (effectiveMaxDepth maxDepth))
      (effectiveMaxDepth maxDepth) t typeId p ⟨m, false⟩ ⟨m', false⟩) :
    (upbDecode cfg maxDepth t m rec).map Decoded.msg = .ok m' := by
  have hle := hrec.length_le
  have hne : rec ≠ [] := by
    rintro rfl
    simp at hle
  obtain ⟨r', hfield, hnil⟩ := decodeField_item (hset.findField_item hreg) hrec (by omega)
    (show 3 ≤ rec.length by omega) hadds
    (show (BoundedReader.init 0 rec).rest = rec ++ [] from (List.append_nil rec).symm)
  rw [upbDecode_iff_decodePayload hlen, decodePayload_of_record hne hfield hnil, messageEnd,
    hset.checkRequired_eq]

/-- An item is a group record. -/
theorem IsItem.isRecord {p rec : List UInt8} (h : IsItem typeId p rec) (hlen : p.length ≤ int32Max)
    (depth : ℕ) : IsRecord 5 (fun _ => True) (depth + 1) 1 .startGroup rec := by
  have hid : ∀ {id rest : List UInt8}, IsTypeId typeId id →
      Records 5 (fun _ => True) (fun _ => True) depth rest →
      Records 5 (fun _ => True) (fun _ => True) depth (id ++ rest) := by
    intro id rest hid hrest
    cases hid with
    | mk htag hid hval => exact .field trivial htag (.varint hid) hrest
  have hmsg : ∀ {msg rest : List UInt8}, IsDelimited 3 p msg →
      Records 5 (fun _ => True) (fun _ => True) depth rest →
      Records 5 (fun _ => True) (fun _ => True) depth (msg ++ rest) := by
    intro msg rest hmsg hrest
    cases hmsg with
    | @mk tag size htag hsize hleb =>
      rw [List.append_assoc tag]
      exact .field trivial htag (.delimited hsize (by omega) hleb.symm) hrest
  cases h with
  | @idFirst start id msg stop hstart hid' hmsg' hstop =>
    have hbody := hid hid' (hmsg hmsg' .nil)
    rw [List.append_nil] at hbody
    rw [show id ++ (msg ++ stop) = (id ++ msg) ++ stop by rw [List.append_assoc]]
    exact .group hstart hbody hstop
  | @payloadFirst start id msg stop hstart hid' hmsg' hstop =>
    have hbody := hmsg hmsg' (hid hid' .nil)
    rw [List.append_nil] at hbody
    rw [show msg ++ (id ++ stop) = (msg ++ id) ++ stop by rw [List.append_assoc]]
    exact .group hstart hbody hstop

/-- Without a registry an item is kept as it is. -/
theorem upbDecode_unregistered (hset : IsMessageSet cfg t) (hreg : cfg.schema.extreg = none)
    {p rec : List UInt8} (hrec : IsItem typeId p rec) (hlen : rec.length ≤ int32Max) (m : Message) :
    (upbDecode cfg maxDepth t m rec).map Decoded.msg = .ok (m.addUnknown rec) := by
  have hle := hrec.length_le
  have hne : rec ≠ [] := by
    rintro rfl
    simp at hle
  have hfind : findField cfg t 1 (some .startGroup) = .notFound := by
    rw [findField, hset.no_field, hreg]
  obtain ⟨k, hk⟩ : ∃ k, effectiveMaxDepth maxDepth = k + 1 := by
    refine ⟨effectiveMaxDepth maxDepth - 1, ?_⟩
    rw [effectiveMaxDepth, defaultDepthLimit]
    split <;> omega
  rw [upbDecode_iff_decodePayload hlen, hk]
  have hop : Uninterpreted cfg (findField cfg t 1 (some .startGroup)) .startGroup := by
    rw [hfind]
    trivial
  have hfield : decodeField stream cfg rec.length (decodeMessage stream cfg rec.length (k + 1)) (k + 1) t
      ⟨m, false⟩ (.init 0 rec) =
        .ok (.inl ⟨m.addUnknown rec, false⟩, afterUnknown (.init 0 rec) rec.length) :=
    decodeField_of_record hop (hrec.isRecord (by omega) k) (by decide)
      (show (BoundedReader.init 0 rec).rest = rec ++ [] from (List.append_nil rec).symm) le_rfl ⟨m, false⟩
  rw [decodePayload_of_record hne hfield (by simp [afterUnknown, BoundedReader.init, advance]), messageEnd,
    hset.checkRequired_eq]

/-- A known item replaces the message of its type. -/
theorem upbDecode_known_item (h : IsItemType cfg t typeId e s) {p rec : List UInt8} {y : Message}
    (hp : DecodesAsItem cfg maxDepth s p y) (hrec : IsItem typeId p rec) (hlen : rec.length ≤ int32Max)
    (m : Message) :
    (upbDecode cfg maxDepth t m rec).map Decoded.msg = .ok (m.setExt e (.ofMessage y)) := by
  obtain ⟨reg, hreg, -⟩ := h.registered
  have hle := hrec.length_le
  exact upbDecode_item h.messageSet hreg hrec hlen (adds_known h hp (by omega) m)

/-- The plain record of an item type is decoded into the message of its type. -/
theorem upbDecode_plain_item (h : IsItemType cfg t typeId e s) {p rec : List UInt8}
    (hrec : IsDelimited typeId p rec) (hlen : rec.length ≤ int32Max) {m m' : Message} :
    (upbDecode cfg maxDepth t m rec).map Decoded.msg = .ok m' ↔
      ∃ k x, effectiveMaxDepth maxDepth = k + 1 ∧
        decodePayload cfg (k + 1) k s ⟨itemOf e m, false⟩ p = .ok (⟨x, false⟩, none) ∧
        m' = m.setExt e (.ofMessage x) := by
  have hsmall := hrec.length_le.trans hlen
  rw [upbDecode_iff_decodePayload hlen, decodePayload_subMessage_eq_ok h.isMessageField hrec hsmall]
  constructor
  · rintro ⟨k, x, hk, hx, hm', -⟩
    rw [hk] at hx
    exact ⟨k, x, hk, hx, hm'⟩
  · rintro ⟨k, x, hk, hx, rfl⟩
    rw [← hk] at hx
    exact ⟨k, x, hk, hx, rfl, h.messageSet.checkRequired_eq _⟩

/-- The empty payload leaves an empty item, unless required fields are checked. -/
theorem decodesAsItem_nil (hdepth : 2 ≤ effectiveMaxDepth maxDepth) (hreq : cfg.checkRequired = false) :
    DecodesAsItem cfg maxDepth s [] .new := by
  refine ⟨hdepth, by decide, ?_⟩
  rw [upbDecode_iff_decodePayload (by decide), decodePayload_nil]
  simp [messageEnd, checkRequired, hreq]

/-- The bytes that the decoder keeps of an unknown item are an item. -/
theorem isItem_messageSetItemUnknown (hid : typeId < 2 ^ 29) {p : List UInt8}
    (hlen : p.length ≤ int32Max) : IsItem typeId p (messageSetItemUnknown typeId p) := by
  rw [int32Max] at hlen
  have hparts : messageSetItemUnknown typeId p = encodeTag 1 .startGroup ++
      ((encodeTag 2 .varint ++ encodeVarint typeId) ++
        ((encodeTag 3 .delimited ++ encodeVarint p.length ++ p) ++ encodeTag 1 .endGroup)) := by
    simp only [messageSetItemUnknown, List.append_assoc]
  rw [hparts]
  refine .idFirst (isTag_encodeVarint _ (by decide)) (.mk (isTag_encodeVarint _ (by decide))
    (isVarint_encodeVarint (by decide) le_rfl (by omega)) ?_) (.mk (isTag_encodeVarint _ (by decide))
    (isVarint_encodeVarint (by decide) (by decide) (by omega)) (leb_encodeVarint (by omega)))
    (isTag_encodeVarint _ (by decide))
  rw [leb_encodeVarint (by omega)]
  omega

theorem length_encodeTag (w : WireType) :
    (encodeTag 1 w).length = 1 ∧ (encodeTag 2 w).length = 1 ∧ (encodeTag 3 w).length = 1 := by
  cases w <;> decide

/-- The other bytes of an item are no more than 14. -/
theorem length_messageSetItemUnknown (hid : typeId < 2 ^ 29) {p : List UInt8}
    (hlen : p.length ≤ int32Max) : (messageSetItemUnknown typeId p).length ≤ p.length + 14 := by
  rw [int32Max] at hlen
  have hid' : IsVarint 5 (encodeVarint typeId) :=
    isVarint_encodeVarint (by decide) (by decide) (by omega)
  have hsize : IsVarint 5 (encodeVarint p.length) :=
    isVarint_encodeVarint (by decide) (by decide) (by omega)
  have := hid'.length_le
  have := hsize.length_le
  simp only [messageSetItemUnknown, List.length_append, length_encodeTag]
  omega

/-- The decoder keeps no more bytes of an unknown item than it had. -/
theorem length_messageSetItemUnknown_le {p rec : List UInt8} (h : IsItem typeId p rec) :
    (messageSetItemUnknown typeId p).length ≤ rec.length := by
  have hid : ∀ {id : List UInt8}, IsTypeId typeId id → (encodeVarint typeId).length + 1 ≤ id.length := by
    intro id hid
    cases hid with
    | @mk tag id htag hid hval =>
      have hpos := htag.varint.length_pos
      have hlt := leb_lt id
      have hle : typeId ≤ leb id := by
        rw [← hval]
        exact (Nat.mod_le _ _).trans (Nat.mod_le _ _)
      have := (isVarint_encodeVarint hid.length_pos hid.length_le (hle.trans_lt hlt)).length_le
      rw [List.length_append]
      omega
  have hmsg : ∀ {msg : List UInt8}, IsDelimited 3 p msg →
      (encodeVarint p.length).length + 1 + p.length ≤ msg.length := by
    intro msg hmsg
    cases hmsg with
    | @mk tag size htag hsize hleb =>
      have hpos := htag.varint.length_pos
      have hlt := leb_lt size
      have hle := hsize.length_le
      have := (isVarint_encodeVarint hsize.length_pos (by omega) (hleb ▸ hlt)).length_le
      simp only [List.length_append]
      omega
  cases h with
  | @idFirst start id msg stop hstart hid' hmsg' hstop =>
    have := hstart.varint.length_pos
    have := hstop.varint.length_pos
    have := hid hid'
    have := hmsg hmsg'
    simp only [messageSetItemUnknown, List.length_append, length_encodeTag]
    omega
  | @payloadFirst start id msg stop hstart hid' hmsg' hstop =>
    have := hstart.varint.length_pos
    have := hstop.varint.length_pos
    have := hid hid'
    have := hmsg hmsg'
    simp only [messageSetItemUnknown, List.length_append, length_encodeTag]
    omega

end Items

/-- Decoded into the message `m`, an item group in either order and the plain record of the extension
leave the same message. -/
def FormsAgree (cfg : DecodeConfig) (maxDepth : ℕ) (t : TableId) (typeId : ℕ) (s : TableId)
    (m : Message) : Prop :=
  ∀ p y rec plain, DecodesAsItem cfg maxDepth s p y → IsItem typeId p rec → IsDelimited typeId p plain →
    rec.length ≤ int32Max → plain.length ≤ int32Max →
    ∃ m', (upbDecode cfg maxDepth t m rec).map Decoded.msg = .ok m' ∧
      (upbDecode cfg maxDepth t m plain).map Decoded.msg = .ok m'

/-- A second item of the same type leaves the message of the concatenated payloads. -/
def ItemsMerge (cfg : DecodeConfig) (maxDepth : ℕ) (t : TableId) (typeId : ℕ) (e : ExtId) (s : TableId)
    (m : Message) (p : List UInt8) : Prop :=
  ∀ q z recP recQ, DecodesAsItem cfg maxDepth s q z → IsItem typeId p recP → IsItem typeId q recQ →
    (recP ++ recQ).length ≤ int32Max →
    ∃ m', (upbDecode cfg maxDepth t m (recP ++ recQ)).map Decoded.msg = .ok m' ∧
      (upbDecode cfg (itemDepth maxDepth) s .new (p ++ q)).map Decoded.msg = .ok (itemOf e m')

/-- An item that is kept as unknown bytes by a decoder without its type is decoded from these bytes
as from the input. -/
def KeptItemDecodes (cfg : DecodeConfig) (maxDepth : ℕ) (t : TableId) (typeId : ℕ) (s : TableId) :
    Prop :=
  ∀ cfg₀ m p rec, IsMessageSet cfg₀ t → (cfg₀.schema.extreg.bind fun reg => reg t typeId) = none →
    IsItem typeId p rec → rec.length ≤ int32Max →
    ∃ kept, (upbDecode cfg₀ maxDepth t m rec).map Decoded.msg = .ok (m.addUnknown kept) ∧
      ∀ m' y, DecodesAsItem cfg maxDepth s p y →
        ∃ m'', (upbDecode cfg maxDepth t m' kept).map Decoded.msg = .ok m'' ∧
          (upbDecode cfg maxDepth t m' rec).map Decoded.msg = .ok m''

section Agreement

variable {cfg : DecodeConfig} {t s : TableId} {typeId maxDepth : ℕ} {e : ExtId}

theorem formsAgree_of_empty (h : IsItemType cfg t typeId e s) {m : Message} (hm : itemOf e m = .new) :
    FormsAgree cfg maxDepth t typeId s m := by
  intro p y rec plain hp hrec hplain hlen hlen'
  refine ⟨_, upbDecode_known_item h hp hrec hlen m, ?_⟩
  have hdepth := hp.depth
  rw [upbDecode_plain_item h hplain hlen']
  refine ⟨effectiveMaxDepth maxDepth - 1, y, by omega, ?_, rfl⟩
  rw [hm]
  refine decodePayload_below ?_ ?_ hp.payload <;> rw [itemDepth] <;> omega

theorem itemsMerge_of_empty (h : IsItemType cfg t typeId e s) {m : Message} {p : List UInt8}
    (hp : DecodesAsItem cfg maxDepth s p .new) : ItemsMerge cfg maxDepth t typeId e s m p := by
  intro q z recP recQ hq hrecP hrecQ hlen
  rw [List.length_append] at hlen
  have hleP := hrecP.length_le
  have hleQ := hrecQ.length_le
  obtain ⟨d₁, hd₁, hmsg₁⟩ := Prog.map_eq_ok.mp (upbDecode_known_item h hp hrecP (by omega) m)
  obtain ⟨d₂, hd₂, hmsg₂⟩ := Prog.map_eq_ok.mp hp.decodes
  refine ⟨(m.setExt e (.ofMessage .new)).setExt e (.ofMessage z), ?_, ?_⟩
  · rw [upbDecode_append (by rw [List.length_append]; omega) hd₁, hmsg₁]
    exact upbDecode_known_item h hq hrecQ (by omega) _
  · rw [upbDecode_append (by rw [List.length_append]; omega) hd₂, hmsg₂, itemOf_setExt]
    exact hq.decodes

theorem keptItemDecodes (h : IsItemType cfg t typeId e s) :
    KeptItemDecodes cfg maxDepth t typeId s := by
  intro cfg₀ m p rec hset hnone hrec hlen
  have hle := hrec.length_le
  have hkept := length_messageSetItemUnknown_le hrec
  cases hreg : cfg₀.schema.extreg with
  | none =>
    -- without a registry the group is kept as it is
    exact ⟨rec, upbDecode_unregistered hset hreg hrec hlen m, fun m' y hp =>
      ⟨_, upbDecode_known_item h hp hrec hlen m', upbDecode_known_item h hp hrec hlen m'⟩⟩
  | some reg =>
    rw [hreg] at hnone
    refine ⟨messageSetItemUnknown typeId p,
      upbDecode_item hset hreg hrec hlen (adds_unknown hreg hnone p _ _ m), fun m' y hp => ?_⟩
    exact ⟨_, upbDecode_known_item h hp (isItem_messageSetItemUnknown h.number (by omega)) (by omega) m',
      upbDecode_known_item h hp hrec hlen m'⟩

/-- With an empty payload the group form leaves an empty item, the plain form the one that is there. -/
theorem empty_of_formsAgree (h : IsItemType cfg t typeId e s) (hreq : cfg.checkRequired = false)
    (hdepth : 2 ≤ effectiveMaxDepth maxDepth) {m : Message} (hm : FormsAgree cfg maxDepth t typeId s m) :
    itemOf e m = .new := by
  have hnil : DecodesAsItem cfg maxDepth s [] .new := decodesAsItem_nil hdepth hreq
  have hrec := isItem_messageSetItemUnknown h.number (show ([] : List UInt8).length ≤ int32Max by decide)
  have htag := isTag_encodeVarint WireType.delimited h.number
  have hplain : IsDelimited typeId [] (encodeVarint (makeTag typeId .delimited) ++ [0] ++ []) :=
    .mk htag (by decide) rfl
  have hshort : (encodeVarint (makeTag typeId .delimited) ++ [0] ++ []).length ≤ int32Max := by
    have := htag.varint.length_le
    simp only [List.length_append, List.length_cons, List.length_nil, int32Max]
    omega
  have hlen : (messageSetItemUnknown typeId []).length ≤ int32Max := by
    exact (length_messageSetItemUnknown h.number (by decide)).trans (by decide)
  obtain ⟨m', hitem, hrecord⟩ := hm [] .new _ _ hnil hrec hplain hlen hshort
  rw [upbDecode_known_item h hnil hrec hlen m] at hitem
  cases hitem
  rw [upbDecode_plain_item h hplain hshort] at hrecord
  obtain ⟨k, x, -, hx, hm'⟩ := hrecord
  rw [decodePayload_nil] at hx
  have hx' := messageEnd_eq (Except.ok.inj hx)
  have heq := congrArg (itemOf e) hm'
  rw [itemOf_setExt, itemOf_setExt] at heq
  rw [heq]
  exact congrArg (fun q => q.1.msg) hx'

/-- With an empty second payload the two items leave an empty item. -/
theorem empty_of_itemsMerge (h : IsItemType cfg t typeId e s) (hreq : cfg.checkRequired = false)
    {m : Message} {p : List UInt8} {y : Message} (hp : DecodesAsItem cfg maxDepth s p y)
    (hsmall : p.length + 28 ≤ int32Max) (hm : ItemsMerge cfg maxDepth t typeId e s m p) : y = .new := by
  have hnil : DecodesAsItem cfg maxDepth s [] .new := decodesAsItem_nil hp.depth hreq
  have hrec := isItem_messageSetItemUnknown h.number (show ([] : List UInt8).length ≤ int32Max by decide)
  have hrecP := isItem_messageSetItemUnknown h.number hp.length
  have hlenP := length_messageSetItemUnknown h.number hp.length
  have hlenNil := length_messageSetItemUnknown h.number hnil.length
  rw [List.length_nil] at hlenNil
  obtain ⟨m', hitems, hboth⟩ := hm [] .new _ _ hnil hrecP hrec (by rw [List.length_append]; omega)
  rw [List.append_nil, hp.decodes] at hboth
  obtain ⟨d₁, hd₁, hmsg₁⟩ := Prog.map_eq_ok.mp (upbDecode_known_item h hp hrecP (by omega) m)
  rw [upbDecode_append (by rw [List.length_append]; omega) hd₁,
    upbDecode_known_item h hnil hrec (by omega)] at hitems
  cases hitems
  rw [itemOf_setExt] at hboth
  exact Except.ok.inj hboth

end Agreement

/-- A message set with one item type, whose table has no fields. -/
def itemConfig : DecodeConfig where
  schema :=
    { table := fun t => ⟨[], 0, 8, ⟨false, t == 0, false⟩, 0, 0⟩
      sub := fun _ _ => .null
      ext := fun _ => ⟨⟨4, 0, 0, 0, .message, ⟨.scalar, false, true, false, .rep8Byte⟩⟩, .submsg 1⟩
      extreg := some fun t n => if t = 0 ∧ n = 4 then some 0 else none }
  hash := ⟨fun _ => 0, fun _ => 0⟩
  validUtf8 := fun _ => true
  checkRequired := false
  alwaysValidateUtf8 := false

end Upb.Wire
