import Upb.Message.Extensions
import Upb.Wire.Payload
import Upb.Wire.UnknownFields

/-!
# What a record changes

The record of a field changes the contents of that field alone. Whatever it adds to the unknown fields
are records of its own number: the record itself, the undeclared values of a closed enum, a map entry
or the item of a message set.
-/

namespace Upb.Wire

open Upb.Common BoundedReader

/-- Records of one number, as the decoder adds them to the unknown fields. The length of a map entry
is written modulo `2^32`. -/
inductive Kept (n : ℕ) : List UInt8 → Prop
  | nil : Kept n []
  | record {depth : ℕ} {w : WireType} {rec rest : List UInt8}
      (hrec : IsRecord 5 (fun _ => True) depth n w rec) (hrest : Kept n rest) : Kept n (rec ++ rest)
  | mapEntry {tag size entry rest : List UInt8} (htag : IsTag n .delimited tag)
      (hsize : IsVarint 5 size) (hleb : leb size = entry.length % 2 ^ 32) (hrest : Kept n rest) :
      Kept n (tag ++ size ++ entry ++ rest)

namespace Kept

variable {n : ℕ} {a b : List UInt8}

theorem append (ha : Kept n a) (hb : Kept n b) : Kept n (a ++ b) := by
  induction ha with
  | nil => exact hb
  | record hrec _ ih =>
    rw [List.append_assoc]
    exact .record hrec ih
  | mapEntry htag hsize hleb _ ih =>
    rw [List.append_assoc]
    exact .mapEntry htag hsize hleb ih

theorem of_record {depth : ℕ} {w : WireType} {rec : List UInt8}
    (hrec : IsRecord 5 (fun _ => True) depth n w rec) : Kept n rec := by
  rw [← List.append_nil rec]
  exact .record hrec .nil

end Kept

/-- The record of an undeclared value. -/
theorem kept_enumValueUnknown {n : ℕ} (hn : n < 2 ^ 29) (val : ℕ) : Kept n (enumValueUnknown n val) := by
  have hlt : val % 2 ^ 32 < 2 ^ 32 := Nat.mod_lt _ (by decide)
  have hval : IsVarint 10 (encodeVarint (val % 2 ^ 32)) :=
    isVarint_encodeVarint (by decide) le_rfl (by omega)
  have hrec : IsRecord 5 (fun _ => True) 0 n .varint (enumValueUnknown n val) :=
    .field (isTag_encodeVarint .varint hn) (.varint hval)
  exact .of_record hrec

/-- The record of a map entry. -/
theorem kept_mapEntryUnknown {cfg : DecodeConfig} {depth n : ℕ} {entry : TableId} {ent : Message}
    {data : List UInt8} (hn : n < 2 ^ 29) (h : mapEntryUnknown cfg depth n entry ent = some data) :
    Kept n data := by
  rw [mapEntryUnknown] at h
  split at h
  · next buf _ =>
    cases h
    have hlt : buf.length % 2 ^ 32 < 2 ^ 32 := Nat.mod_lt _ (by decide)
    have hsize : IsVarint 5 (encodeVarint (buf.length % 2 ^ 32)) :=
      isVarint_encodeVarint (by decide) (by decide) (by omega)
    have hleb : leb (encodeVarint (buf.length % 2 ^ 32)) = buf.length % 2 ^ 32 :=
      leb_encodeVarint (by omega)
    have hentry := Kept.mapEntry (isTag_encodeVarint .delimited hn) hsize hleb .nil
    rwa [List.append_nil] at hentry
  · cases h

/-- The item of a message set. -/
theorem kept_messageSetItemUnknown {typeId : ℕ} {data : List UInt8} (hid : typeId < 2 ^ 32)
    (hdata : data.length ≤ int32Max) : Kept 1 (messageSetItemUnknown typeId data) := by
  rw [int32Max] at hdata
  have hvalue : IsValue 5 .varint (encodeVarint typeId) :=
    .varint (isVarint_encodeVarint (by decide) le_rfl (by omega))
  have hsize : leb (encodeVarint data.length) = data.length := leb_encodeVarint (by omega)
  have hpayload : IsValue 5 .delimited (encodeVarint data.length ++ data) :=
    .delimited (isVarint_encodeVarint (by decide) (by decide) (by omega))
      (by rw [hsize, int32Max]; exact hdata) hsize.symm
  have hbody : Records 5 (fun _ => True) (fun _ => True) 0
      (encodeTag 2 .varint ++ encodeVarint typeId ++
        (encodeTag 3 .delimited ++ (encodeVarint data.length ++ data) ++ [])) :=
    .field trivial (isTag_encodeVarint .varint (by decide)) hvalue
      (.field trivial (isTag_encodeVarint .delimited (by decide)) hpayload .nil)
  have hitem : IsRecord 5 (fun _ => True) 1 1 .startGroup _ :=
    .group (isTag_encodeVarint .startGroup (by decide)) hbody (isTag_encodeVarint .endGroup (by decide))
  have hbytes := Kept.of_record hitem
  simpa only [messageSetItemUnknown, encodeTag, List.append_assoc, List.append_nil] using hbytes

section Frame

variable {cfg : DecodeConfig} {fuel depth : ℕ} {sub : SubDecoder BoundedReader} {g : LinkedField}
  {d : Decoding} {op : DecodeOp} {val : ℕ}

/-- One message has the unknown fields of another and more records of a number. -/
def AddsKept (n : ℕ) (m m' : Message) : Prop := ∃ kept, m'.unknown = m.unknown ++ kept ∧ Kept n kept

theorem AddsKept.refl {n : ℕ} {m m' : Message} (h : m'.unknown = m.unknown) : AddsKept n m m' :=
  ⟨[], by rw [h, List.append_nil], .nil⟩

theorem AddsKept.addUnknown {n : ℕ} {m m' : Message} (h : m'.unknown = m.unknown) {data : List UInt8}
    (hdata : Kept n data) : AddsKept n m (m'.addUnknown data) :=
  ⟨data, by rw [Message.addUnknown, h], hdata⟩

/-- A message differs from another in the contents and the presence of one field, and in records of
the number of that field. -/
structure ChangesField (g : MiniTableField) (m m' : Message) : Prop where
  slots : ∀ o, o ≠ g.offset → m'.slots o = m.slots o
  exts : m'.exts = m.exts
  unknown : AddsKept g.number m m'

theorem ChangesField.setData (g : MiniTableField) (m : Message) (s : Slot) :
    ChangesField g m (m.setData g s) :=
  ⟨fun _ ho => Function.update_of_ne ho _ _, rfl, .refl rfl⟩

theorem ChangesField.setData_addUnknown (g : MiniTableField) (m : Message) (s : Slot)
    {data : List UInt8} (hdata : Kept g.number data) :
    ChangesField g m ((m.setData g s).addUnknown data) :=
  ⟨fun _ ho => Function.update_of_ne ho _ _, rfl, .addUnknown rfl hdata⟩

/-- The unknown bytes of a packed enum. -/
theorem decodeEnumPacked_kept (hn : g.field.number < 2 ^ 29) (size : ℕ) :
    Prog.Returns (decodeEnumPacked stream fuel g size) fun q => Kept g.field.number q.2 := by
  refine (Prog.returns_true _).bind fun saved _ => ?_
  refine Prog.Returns.bind ?_ fun q hq => (Prog.returns_true _).bind fun _ _ => .pure hq
  let I : List Slot × List UInt8 → Prop := fun q => Kept g.field.number q.2
  change Prog.Returns _ I
  refine Prog.Returns.loop (I := I) (fun q hq => .pure hq) ?_ fuel ([], []) .nil
  rintro ⟨elems, unknown⟩ hq
  refine (Prog.returns_true _).bind fun val _ => .pure ?_
  change I (if _ then _ else _)
  split
  · exact hq
  · exact hq.append (kept_enumValueUnknown hn val)

/-- A record of a repeated field. -/
theorem decodeToArray_changes (hn : g.field.number < 2 ^ 29) :
    Prog.Returns (decodeToArray stream cfg fuel sub depth g d op val) fun d' =>
      ChangesField g.field d.msg d'.msg := by
  have hstore : ∀ elems : List Slot, ChangesField g.field d.msg
      (d.msg.setData g.field (.array elems)) := fun _ => .setData _ _ _
  cases op with
  | unknownField => exact .pure ⟨fun _ _ => rfl, rfl, .refl rfl⟩
  | messageSetItem => exact .pure ⟨fun _ _ => rfl, rfl, .refl rfl⟩
  | scalar lg2 => exact .pure (hstore _)
  | string => exact (Prog.returns_true _).bind fun _ _ => .pure (hstore _)
  | bytes => exact (Prog.returns_true _).bind fun _ _ => .pure (hstore _)
  | subMessage => exact (Prog.returns_true _).bind fun _ _ => .pure (hstore _)
  | fixedPacked lg2 => exact (Prog.returns_true _).bind fun _ _ => .pure (hstore _)
  | varintPacked lg2 => exact (Prog.returns_true _).bind fun _ _ => .pure (hstore _)
  | packedEnum =>
    exact (decodeEnumPacked_kept hn val).bind fun q hq => .pure (.setData_addUnknown _ _ _ hq)

/-- A record of a map field. -/
theorem decodeToMap_changes (hn : g.field.number < 2 ^ 29) :
    Prog.Returns (decodeToMap stream cfg sub depth g d val) fun d' =>
      ChangesField g.field d.msg d'.msg := by
  rw [decodeToMap]
  split
  · exact .throw
  · refine (Prog.returns_true _).bind fun r _ => ?_
    simp only
    split
    · split
      · next hdata => exact .pure (.setData_addUnknown _ _ _ (kept_mapEntryUnknown hn hdata))
      · exact .throw
    · split
      · exact .pure (.setData _ _ _)
      · exact .throw

/-- The presence of a field, and its contents when another member of its oneof was set. -/
theorem changesField_setPresence (g : MiniTableField) (m : Message) (op : DecodeOp) :
    ChangesField g m (setPresence m g op) := by
  rw [setPresence]
  split
  · exact ⟨fun _ _ => rfl, rfl, .refl rfl⟩
  · split
    · simp only
      split
      · exact ⟨fun _ ho => Function.update_of_ne ho _ _, rfl, .refl rfl⟩
      · exact ⟨fun _ _ => rfl, rfl, .refl rfl⟩
    · exact ⟨fun _ _ => rfl, rfl, .refl rfl⟩

/-- A record of a singular field. -/
theorem decodeToSubMessage_changes :
    Prog.Returns (decodeToSubMessage stream cfg sub depth g d op val) fun d' =>
      ChangesField g.field d.msg d'.msg := by
  have hpresence := changesField_setPresence g.field d.msg op
  have hstore : ∀ s, ChangesField g.field d.msg ((setPresence d.msg g.field op).setData g.field s) :=
    fun s => ⟨fun o ho => (Function.update_of_ne ho _ _).trans (hpresence.slots o ho), hpresence.exts,
      hpresence.unknown⟩
  cases op with
  | subMessage => exact (Prog.returns_true _).bind fun _ _ => .pure (hstore _)
  | string => exact (Prog.returns_true _).bind fun _ _ => .pure (hstore _)
  | bytes => exact (Prog.returns_true _).bind fun _ _ => .pure (hstore _)
  | scalar lg2 => exact .pure (hstore _)
  | unknownField => exact .pure hpresence
  | messageSetItem => exact .pure hpresence
  | fixedPacked lg2 => exact .pure hpresence
  | varintPacked lg2 => exact .pure hpresence
  | packedEnum => exact .pure hpresence

/-- A record of a field of any mode. -/
theorem decodeToField_changes (hn : g.field.number < 2 ^ 29) :
    Prog.Returns (decodeToField stream cfg fuel sub depth g d op val) fun d' =>
      ChangesField g.field d.msg d'.msg := by
  rw [decodeToField]
  split
  · exact decodeToArray_changes hn
  · exact decodeToMap_changes hn
  · exact decodeToSubMessage_changes

/-- What a record of a number may do to a message, by what the lookup finds for it. -/
structure RecordChanges (n : ℕ) (found : Found) (m m' : Message) : Prop where
  unknown : AddsKept n m m'
  slots : ∀ o, (∀ f, found = .field f none → o ≠ f.field.offset) → m'.slots o = m.slots o
  exts : ∀ e, found ≠ .messageSetItem → (∀ f, found ≠ .field f (some e)) → m'.getext e = m.getext e

/-- A record of a field of the table or of an extension. -/
theorem decodeKnownField_changes {ext : Option ExtId} (hn : g.field.number < 2 ^ 29) :
    Prog.Returns (decodeKnownField stream cfg fuel sub depth g ext d op val) fun d' =>
      RecordChanges g.field.number (.field g ext) d.msg d'.msg := by
  cases ext with
  | none =>
    intro r d' r' h
    have hchange := decodeToField_changes hn r d' r' h
    refine ⟨hchange.unknown, fun o ho => hchange.slots o (ho g rfl), fun e _ _ => ?_⟩
    rw [Message.getext, hchange.exts]
    rfl
  | some e =>
    refine (decodeToField_changes hn).bind fun x hx => .pure ?_
    obtain ⟨kept, hunknown, hkept⟩ := hx.unknown
    have hunknown : x.msg.unknown = kept := hunknown
    refine ⟨?_, fun _ _ => rfl, fun e' _ he' => ?_⟩
    · rw [hunknown]
      exact .addUnknown rfl hkept
    · have hne : e' ≠ e := fun h => he' g (by rw [h])
      change (d.msg.setExt e _).getext e' = _
      rw [Message.getext_setExt, if_neg hne]

/-- What the items of a message set may do. -/
def ItemChanges (m m' : Message) : Prop := m'.slots = m.slots ∧ AddsKept 1 m m'

theorem ItemChanges.trans {m m' m'' : Message} (h : ItemChanges m m') (h' : ItemChanges m' m'') :
    ItemChanges m m'' := by
  obtain ⟨hslots, kept, hunknown, hkept⟩ := h
  obtain ⟨hslots', kept', hunknown', hkept'⟩ := h'
  exact ⟨hslots'.trans hslots, kept ++ kept', by rw [hunknown', hunknown, List.append_assoc],
    hkept.append hkept'⟩

theorem addMessageSetItem_changes {t : TableId} {typeId : ℕ} {payload : View} (hid : typeId < 2 ^ 32)
    (hdata : payload.data.length ≤ int32Max) :
    Prog.Returns (addMessageSetItem stream cfg sub depth t d typeId payload) fun d' =>
      ItemChanges d.msg d'.msg := by
  rw [addMessageSetItem]
  split
  · split
    · exact .throw
    · split
      · exact .throw
      · exact (Prog.returns_true _).bind fun _ _ => .pure ⟨rfl, .refl rfl⟩
  · exact .pure ⟨rfl, .addUnknown rfl (kept_messageSetItemUnknown hid hdata)⟩

/-- The invariant of the loop over the fields of an item. -/
structure ItemInvariant (m : Message) (st : ItemState) : Prop where
  changes : ItemChanges m st.decoding.msg
  typeId : ∀ id, st.typeId = some id → id < 2 ^ 32
  payload : ∀ v, st.payload = some v → v.data.length ≤ int32Max

theorem readSize_returns : Prog.Returns (readSize stream) fun size => size ≤ int32Max := by
  intro r size r' h
  obtain ⟨p, -, hmax, rfl, -⟩ := readSize_eq_ok.mp h
  exact hmax

theorem readStringAlwaysAlias_returns (size : ℕ) :
    Prog.Returns (stream.readStringAlwaysAlias size) fun v => v.data.length = size := by
  intro r v r' h
  change BoundedReader.readStringAlwaysAlias size r = _ at h
  rw [BoundedReader.readStringAlwaysAlias] at h
  split at h
  · next hsize =>
    cases h
    exact List.length_take_of_le hsize
  · cases h

theorem messageSetItemStep_changes {t : TableId} {m : Message} {st : ItemState}
    (hst : ItemInvariant m st) :
    Prog.Returns (messageSetItemStep stream cfg fuel sub depth t st)
      (Sum.elim (ItemInvariant m) fun d' => ItemChanges m d'.msg) := by
  refine (Prog.returns_true _).bind fun tag _ => ?_
  split
  · exact .pure hst.changes
  · split
    · refine (Prog.returns_true _).bind fun tmp _ => ?_
      have hid : tmp % 2 ^ 32 < 2 ^ 32 := Nat.mod_lt _ (by decide)
      split
      · exact .pure hst
      · simp only
        split
        · next payload hpayload =>
          refine (addMessageSetItem_changes hid (hst.payload _ hpayload)).bind fun d' hd' => .pure ?_
          exact ⟨hst.changes.trans hd', fun id h => by cases h; exact hid, hst.payload⟩
        · exact .pure ⟨hst.changes, fun id h => by cases h; exact hid, hst.payload⟩
    · split
      · refine readSize_returns.bind fun size hsize => ?_
        refine (readStringAlwaysAlias_returns size).bind fun view hview => ?_
        have hdata : view.data.length ≤ int32Max := by omega
        split
        · exact .pure hst
        · split
          · next typeId hid =>
            refine (addMessageSetItem_changes (hst.typeId _ hid) hdata).bind fun d' hd' => .pure ?_
            exact ⟨hst.changes.trans hd', hst.typeId, fun v h => by cases h; exact hdata⟩
          · exact .pure ⟨hst.changes, hst.typeId, fun v h => by cases h; exact hdata⟩
      · exact (Prog.returns_true _).bind fun _ _ => .pure hst

theorem decodeMessageSetItem_changes {t : TableId} :
    Prog.Returns (decodeMessageSetItem stream cfg fuel sub depth t d) fun d' =>
      ItemChanges d.msg d'.msg := by
  refine Prog.Returns.loop (I := ItemInvariant d.msg) (fun _ _ => .throw)
    (fun st hst => messageSetItemStep_changes hst) fuel ⟨d, none, none⟩ ?_
  exact ⟨⟨rfl, .refl rfl⟩, nofun, nofun⟩

end Frame

section Unknown

variable {cfg : DecodeConfig} {found : Found} {fuel depth n val : ℕ} {w : WireType}
  {r r₁ r' : BoundedReader} {op : DecodeOp} {tag : List UInt8}

/-- The bytes that `_upb_Decoder_DecodeWireValue` reads, and its value where that is a size. -/
def IsWireValue (val : ℕ) (v : List UInt8) : WireType → Prop
  | .varint => IsVarint 10 v
  | .bit32 => v.length = 4
  | .bit64 => v.length = 8
  | .delimited => IsVarint 5 v ∧ leb v ≤ int32Max ∧ val = leb v
  | .startGroup => v = []
  | .endGroup => False

/-- A read whose value decides the action. -/
private theorem reads_of_bind {x : Reading BoundedReader ℕ} {f : ℕ → Reading BoundedReader (DecodeOp × ℕ)}
    (h : (x >>= f) r = .ok ((op, val), r₁)) (hf : ∀ a, ∃ q, f a = pure q) :
    ∃ a, x r = .ok (a, r₁) := by
  obtain ⟨a, r₂, hx, ha⟩ := Prog.bind_eq_ok.mp h
  obtain ⟨q, hq⟩ := hf a
  rw [hq] at ha
  cases ha
  exact ⟨a, hx⟩

theorem isWireValue_of_decodeWireValue
    (h : decodeWireValue stream cfg found (some w) r = .ok ((op, val), r₁)) :
    ∃ v, Reads r v r₁ ∧ IsWireValue val v w := by
  cases w with
  | varint =>
    rw [decodeWireValue] at h
    obtain ⟨a, hread⟩ := reads_of_bind h fun a => by
      split
      · split
        · split <;> exact ⟨_, rfl⟩
        · exact ⟨_, rfl⟩
      · exact ⟨_, rfl⟩
    obtain ⟨p, hp, -, hreads⟩ := readVarint_eq_ok.mp hread
    exact ⟨p, hreads, hp⟩
  | bit32 =>
    rw [decodeWireValue] at h
    obtain ⟨a, hread⟩ := reads_of_bind h fun a => by
      split
      · split <;> exact ⟨_, rfl⟩
      · exact ⟨_, rfl⟩
    obtain ⟨p, hp, -, hreads⟩ := readFixed_eq_ok.mp hread
    exact ⟨p, hreads, hp⟩
  | bit64 =>
    rw [decodeWireValue] at h
    obtain ⟨a, hread⟩ := reads_of_bind h fun a => by
      split
      · split <;> exact ⟨_, rfl⟩
      · exact ⟨_, rfl⟩
    obtain ⟨p, hp, -, hreads⟩ := readFixed_eq_ok.mp hread
    exact ⟨p, hreads, hp⟩
  | delimited =>
    obtain ⟨size, r₂, hread, hpure⟩ := Prog.bind_eq_ok.mp h
    cases hpure
    obtain ⟨p, hp, hmax, rfl, hreads⟩ := readSize_eq_ok.mp hread
    exact ⟨p, hreads, hp, hmax, rfl⟩
  | startGroup =>
    refine ⟨[], ?_, rfl⟩
    unfold decodeWireValue at h
    dsimp only at h
    split at h
    · split at h <;> cases h <;> exact reads_nil _
    · cases h
      exact reads_nil _
    · cases h
      exact reads_nil _
  | endGroup => cases h

/-- What is read of the value and skipped behind it make a record. -/
theorem isRecord_of_skipUnknown {v : List UInt8} (htag : IsTag n w tag) (hv : IsWireValue val v w)
    (h : skipUnknown stream fuel depth n (some w) val r = .ok ((), r')) :
    ∃ v', Reads r v' r' ∧ IsRecord 5 (fun _ => True) depth n w (tag ++ (v ++ v')) := by
  cases w with
  | varint =>
    cases h
    refine ⟨[], reads_nil _, ?_⟩
    rw [List.append_nil]
    exact .field htag (.varint hv)
  | bit32 =>
    cases h
    refine ⟨[], reads_nil _, ?_⟩
    rw [List.append_nil]
    exact .field htag (.bit32 hv)
  | bit64 =>
    cases h
    refine ⟨[], reads_nil _, ?_⟩
    rw [List.append_nil]
    exact .field htag (.bit64 hv)
  | delimited =>
    obtain ⟨hlen, hmax, rfl⟩ := hv
    change (take (leb v) >>= fun _ => pure ()) r = _ at h
    obtain ⟨payload, r₂, htake, hpure⟩ := Prog.bind_eq_ok.mp h
    cases hpure
    obtain ⟨hpayload, hreads⟩ := take_eq_ok.mp htake
    exact ⟨payload, hreads, .field htag (.delimited hlen hmax hpayload)⟩
  | startGroup =>
    obtain rfl := hv
    obtain ⟨k, body, endTag, rfl, hbody, hend, hreads⟩ := records_of_skipGroup h
    rw [Nat.mul_div_cancel _ (by omega)] at hend
    refine ⟨body ++ endTag, hreads, ?_⟩
    rw [List.nil_append]
    exact .group htag hbody hend
  | endGroup => exact hv.elim

/-- A record that is not interpreted is added to the unknown fields as it stands. -/
theorem decodeUnknownField_kept {d d' : Decoding} {v : List UInt8} {marked : BoundedReader}
    (htag : IsTag n w tag) (hv : IsWireValue val v w)
    (hmarked : marked = { r with start := (r.pos, r.rest) }) (hreads : Reads marked (tag ++ v) r₁)
    (h : decodeUnknownField stream fuel depth d n (some w) val r₁ = .ok (d', r')) :
    ∃ rec, IsRecord 5 (fun _ => True) depth n w rec ∧ d' = { d with msg := d.msg.addUnknown rec } := by
  let c : ℕ × List UInt8 := (r.pos, r.rest)
  have hstart : stream.startCapture r₁ = .ok ((), { r₁ with captureStart := c }) := by
    change Except.ok ((), { r₁ with captureStart := r₁.start }) = _
    have hc : r₁.start = c := by
      rw [hreads.2, hmarked]
      rfl
    rw [hc]
  rw [decodeUnknownField] at h
  split at h
  · cases h
  rw [Prog.bind_of_ok hstart] at h
  obtain ⟨_, r₂, hskip, h⟩ := Prog.bind_eq_ok.mp h
  obtain ⟨v', hreads', hrec⟩ := isRecord_of_skipUnknown htag hv hskip
  have hwhole := (hreads.capture c).trans hreads'
  rw [List.append_assoc, hmarked] at hwhole
  rw [Prog.bind_of_ok (endCapture_record hwhole)] at h
  cases h
  exact ⟨_, hrec, rfl⟩

end Unknown

theorem getVarintOp_ne_messageSetItem (type : FieldType) : getVarintOp type ≠ .messageSetItem := by
  cases type <;> decide

theorem getDelimitedOp_ne_messageSetItem (cfg : DecodeConfig) (found : Found) :
    getDelimitedOp cfg found ≠ .messageSetItem := by
  cases found with
  | notFound => nofun
  | messageSetItem => nofun
  | field f ext =>
    rw [getDelimitedOp, checkUnlinked, maybeVerifyUtf8]
    cases f.field.descriptortype <;> cases f.field.isArray <;> simp only [delimitedOp, repeatedDelimitedOp]
      <;> repeat' split
    all_goals decide

/-- The action of an item is chosen for an item only. -/
theorem found_of_messageSetItem {cfg : DecodeConfig} {found : Found} {w : Option WireType} :
    Prog.Returns (decodeWireValue stream cfg found w) fun q =>
      q.1 = .messageSetItem → found = .messageSetItem := by
  rcases w with _ | w
  · exact .throw
  cases w with
  | varint =>
    refine (Prog.returns_true _).bind fun val _ => ?_
    split
    · split
      · split
        · exact .pure fun h => absurd h (getVarintOp_ne_messageSetItem _)
        · exact .pure nofun
      · exact .pure fun h => absurd h (getVarintOp_ne_messageSetItem _)
    · exact .pure nofun
  | bit32 =>
    refine (Prog.returns_true _).bind fun val _ => ?_
    split
    · split <;> exact .pure nofun
    · exact .pure nofun
  | bit64 =>
    refine (Prog.returns_true _).bind fun val _ => ?_
    split
    · split <;> exact .pure nofun
    · exact .pure nofun
  | delimited =>
    exact (Prog.returns_true _).bind fun _ _ =>
      .pure fun h => absurd h (getDelimitedOp_ne_messageSetItem _ _)
  | startGroup =>
    cases found with
    | field f ext =>
      unfold decodeWireValue
      dsimp only
      split
      · refine .pure fun h => absurd h ?_
        rw [checkUnlinked]
        split
        · decide
        · split <;> decide
      · exact .pure nofun
    | messageSetItem => exact .pure fun _ => rfl
    | notFound => exact .pure nofun
  | endGroup => exact .throw

/-- An item of a message set is found under the number 1. -/
theorem eq_one_of_findField_messageSetItem {cfg : DecodeConfig} {t : TableId} {n : ℕ}
    {w : Option WireType} (h : findField cfg t n w = .messageSetItem) : n = 1 := by
  rw [findField] at h
  split at h
  · cases h
  · split at h
    · rw [findExtensionField] at h
      split at h
      · split at h <;> cases h
      · split at h
        · next hmode => exact hmode.2
        · cases h
    · cases h

/-- The fields that the lookup finds under a number have that number. -/
def IsNumbered (cfg : DecodeConfig) (t : TableId) : Prop :=
  ∀ n w f ext, findField cfg t n w = .field f ext → f.field.number = n

/-- What the value of a field changes, if there is a field for it. -/
theorem decodeFoundField_changes {cfg : DecodeConfig} {t : TableId} (ht : IsNumbered cfg t)
    {fuel depth n val : ℕ} (hn : n < 2 ^ 29) {sub : SubDecoder BoundedReader} {w : WireType} {op : DecodeOp}
    {d d' : Decoding} {r r' : BoundedReader}
    (h : (match findField cfg t n (some w) with
      | .field g ext => decodeKnownField stream cfg fuel sub depth g ext d op val
      | _ => pure d : Reading BoundedReader Decoding) r = .ok (d', r')) :
    RecordChanges n (findField cfg t n (some w)) d.msg d'.msg := by
  cases hfound : findField cfg t n (some w) with
  | field g ext =>
    rw [hfound] at h
    have hnumber := ht n (some w) g ext hfound
    rw [← hnumber]
    exact decodeKnownField_changes (by omega) r d' r' h
  | notFound =>
    rw [hfound] at h
    cases h
    exact ⟨.refl rfl, fun _ _ => rfl, fun _ _ _ => rfl⟩
  | messageSetItem =>
    rw [hfound] at h
    cases h
    exact ⟨.refl rfl, fun _ _ => rfl, fun _ _ _ => rfl⟩

/-- What a record changes. -/
theorem decodeField_changes {cfg : DecodeConfig} {t : TableId} (ht : IsNumbered cfg t) {fuel depth n : ℕ}
    {sub : SubDecoder BoundedReader} {w : WireType} {tag v : List UInt8} {d d' : Decoding}
    {r r' : BoundedReader} (htag : IsTag n w tag) (hr : r.rest = tag ++ v)
    (h : decodeField stream cfg fuel sub depth t d r = .ok (.inl d', r')) :
    RecordChanges n (findField cfg t n (some w)) d.msg d'.msg := by
  have hn : n < 2 ^ 29 := by
    have hlt := htag.lt
    have hvalue := htag.value
    omega
  by_cases hw : w = .endGroup
  · subst hw
    have hread := readTag_eq_ok.mpr ⟨tag, htag.varint, htag.lt, rfl,
      reads_advance (show ({ r with start := (r.pos, r.rest) } : BoundedReader).rest = tag ++ v from hr)⟩
    rw [decodeField, Prog.bind_of_ok (show stream.mark r = .ok ((), _) from rfl), Prog.bind_of_ok hread]
      at h
    simp only [htag.getWireType] at h
    cases h
  rw [decodeField_of_tag htag hw hr] at h
  obtain ⟨d₁, r₁, hdata, hpure⟩ := Prog.bind_eq_ok.mp h
  cases hpure
  rw [decodeFieldData] at hdata
  obtain ⟨⟨op, val⟩, r₂, hwire, hop⟩ := Prog.bind_eq_ok.mp hdata
  obtain ⟨u, hreads, hu⟩ := isWireValue_of_decodeWireValue hwire
  cases op with
  | unknownField =>
    have htagged : Reads { r with start := (r.pos, r.rest) } tag
        (advance { r with start := (r.pos, r.rest) } tag.length) := reads_advance hr
    obtain ⟨rec, hrec, rfl⟩ := decodeUnknownField_kept htag hu rfl (htagged.trans hreads) hop
    exact ⟨.addUnknown rfl (.of_record hrec), fun _ _ => rfl, fun _ _ _ => rfl⟩
  | messageSetItem =>
    have hfound := found_of_messageSetItem _ _ _ hwire rfl
    obtain rfl := eq_one_of_findField_messageSetItem hfound
    obtain ⟨hslots, hunknown⟩ := decodeMessageSetItem_changes r₂ d' r' hop
    exact ⟨hunknown, fun _ _ => congrFun hslots _, fun _ hset => absurd hfound hset⟩
  | scalar lg2 => exact decodeFoundField_changes ht hn hop
  | string => exact decodeFoundField_changes ht hn hop
  | bytes => exact decodeFoundField_changes ht hn hop
  | subMessage => exact decodeFoundField_changes ht hn hop
  | fixedPacked lg2 => exact decodeFoundField_changes ht hn hop
  | varintPacked lg2 => exact decodeFoundField_changes ht hn hop
  | packedEnum => exact decodeFoundField_changes ht hn hop

end Upb.Wire
