import Upb.Wire.Decode

/-!
# The decoder simulates itself over related streams

For any simulation between two streams, the decoder over the one simulates the decoder over the
other: one proof, along the functions of the decoder, that every later comparison of two decoders
instantiates. The two decoders may give their loops different numbers of rounds if running out of
rounds is a free error of the right one.
-/

namespace Upb.Wire

open Upb.Common

variable {σ₁ σ₂ : Type} {S₁ : Stream σ₁} {S₂ : Stream σ₂} (sim : StreamSim S₁ S₂)
variable (cfg : DecodeConfig) {n₁ n₂ : ℕ}

namespace StreamSim

/-- The codes of the decoder, thrown on both sides. -/
theorem status {α₁ α₂ : Type} {R : α₁ → α₂ → Prop} {l : Level} {lvl : α₂ → Level} {e : DecodeError}
    (h : e ≠ .outOfBounds) (h' : e ≠ .outOfFuel) :
    sim.Triple R l (throw e) (throw e) lvl :=
  .throw fun _ _ _ => sim.allowed_status h h'

/-- The level that a call of the decoder leaves: at the limit, unless an end group tag ended it. -/
def endLevel (r : Decoding × Option ℕ) : Level :=
  match r.2 with
  | none => .atLimit
  | some _ => .base

/-- Two decoders of sub-messages simulate each other. -/
def SubSim (sub₁ : SubDecoder σ₁) (sub₂ : SubDecoder σ₂) : Prop :=
  ∀ depth t d, sim.Triple Eq .base (sub₁ depth t d) (sub₂ depth t d) endLevel

/-- The right decoder of the payload of a message set item fails with allowed errors only. -/
def GoodItems (sub₂ : SubDecoder σ₂) : Prop :=
  ∀ depth t m v₁ v₂ e, sim.viewRel v₁ v₂ → decodeTop sub₂ depth t m (S₂.enter v₂) = .error e →
    sim.allowed e

end StreamSim

open StreamSim

variable {sub₁ : SubDecoder σ₁} {sub₂ : SubDecoder σ₂} {cfg}

theorem decodeWireValue_triple (found : Found) (wireType : Option WireType) {l : Level}
    (hl : l.phase ≠ .done) (hbytes : 10 ≤ l.bytes) :
    sim.Triple Eq l (decodeWireValue S₁ cfg found wireType) (decodeWireValue S₂ cfg found wireType)
      fun _ => l.hit := by
  have hpure : ∀ (n : ℕ) (a : DecodeOp × ℕ), sim.Triple Eq (l.consume n) (pure a) (pure a)
      fun _ => l.hit := fun n a => .pure rfl (l.hit_le_consume n)
  have hpure' : ∀ a : DecodeOp × ℕ, sim.Triple Eq l (pure a) (pure a) fun _ => l.hit :=
    fun a => .pure rfl l.hit_le
  rcases wireType with _ | wireType
  · exact sim.status (by decide) (by decide)
  cases wireType with
  | varint =>
    refine (sim.readLong _ hl (by decide) hbytes).bind fun val _ h => ?_
    subst h
    cases found with
    | field f ext =>
      dsimp only
      split
      · split <;> exact hpure 10 _
      · exact hpure 10 _
    | notFound => exact hpure 10 _
    | messageSetItem => exact hpure 10 _
  | bit32 =>
    refine (sim.readFixed hl (by omega)).bind fun val _ h => ?_
    subst h
    cases found with
    | field f ext =>
      dsimp only
      split <;> exact hpure 4 _
    | notFound => exact hpure 4 _
    | messageSetItem => exact hpure 4 _
  | bit64 =>
    refine (sim.readFixed hl (by omega)).bind fun val _ h => ?_
    subst h
    cases found with
    | field f ext =>
      dsimp only
      split <;> exact hpure 8 _
    | notFound => exact hpure 8 _
    | messageSetItem => exact hpure 8 _
  | delimited =>
    refine (sim.readLong _ hl (by decide) (by omega)).bind fun size _ h => ?_
    subst h
    exact hpure 5 _
  | startGroup =>
    cases found with
    | field f ext =>
      dsimp only [decodeWireValue]
      split <;> exact hpure' _
    | notFound => exact hpure' _
    | messageSetItem => exact hpure' _
  | endGroup => exact sim.status (by decide) (by decide)

theorem readString_triple (size : ℕ) (validate : Bool) :
    sim.Triple Eq .base (readString S₁ cfg size validate) (readString S₂ cfg size validate)
      fun _ => .base := by
  refine (sim.readStringAlwaysAlias (by decide)).bind fun v₁ v₂ hv => ?_
  rw [sim.view_data hv]
  split
  · exact sim.status (by decide) (by decide)
  · exact .pure rfl le_rfl

theorem recurseSubMessage_triple (hsub : sim.SubSim sub₁ sub₂) (depth : ℕ) (t : TableId)
    (d : Decoding) (expected : Option ℕ) :
    sim.Triple Eq .base (recurseSubMessage sub₁ depth t d expected)
      (recurseSubMessage sub₂ depth t d expected) fun _ => endLevel (d, expected) := by
  cases depth with
  | zero => exact sim.status (by decide) (by decide)
  | succ depth =>
    refine (hsub depth t d).bind fun r _ h => ?_
    subst h
    dsimp only
    split
    · exact sim.status (by decide) (by decide)
    · next h =>
      refine .pure rfl ?_
      rw [endLevel, endLevel, Decidable.not_not.mp h]

theorem decodeSubMessage_triple (hsub : sim.SubSim sub₁ sub₂) (depth : ℕ) (f : LinkedField)
    (d : Decoding) (size : ℕ) :
    sim.Triple Eq .base (decodeSubMessage S₁ sub₁ depth f d size)
      (decodeSubMessage S₂ sub₂ depth f d size) fun _ => .base := by
  rw [decodeSubMessage, decodeSubMessage]
  split
  · exact sim.status (by decide) (by decide)
  · split
    · refine (sim.isDone (by decide) (by decide)).bind fun done _ h => ?_
      subst h
      cases done with
      | true => exact sim.status (by decide) (by decide)
      | false =>
        exact (recurseSubMessage_triple sim hsub depth _ d _).mono (Level.base_le (by decide))
          fun _ => le_rfl
    · exact sim.withLimit (by decide) (recurseSubMessage_triple sim hsub depth _ d none)

theorem decodeFixedPacked_triple (lg2 size : ℕ) :
    sim.Triple Eq .base (decodeFixedPacked S₁ lg2 size) (decodeFixedPacked S₂ lg2 size)
      fun _ => .base := by
  refine (sim.readStringEphemeral (by decide)).bind fun data _ h => ?_
  subst h
  split
  · exact sim.status (by decide) (by decide)
  · exact .pure rfl le_rfl

/-- A loop that only appends to what it has read so far. -/
private theorem packedLoop_triple {β : Type} (hn : n₁ = n₂ ∨ (n₂ ≤ n₁ ∧ sim.free .outOfFuel))
    (append : β → ℕ → β) (size : ℕ) (b : β) :
    sim.Triple Eq .base
      (S₁.withLimit size (Prog.loop S₁.isDone .outOfFuel
        (fun b => do let val ← readVarint S₁; pure (.inl (append b val))) pure n₁ b))
      (S₂.withLimit size (Prog.loop S₂.isDone .outOfFuel
        (fun b => do let val ← readVarint S₂; pure (.inl (append b val))) pure n₂ b))
      fun _ => .base := by
  refine sim.withLimit (by decide) (Simulation.Triple.loop Eq (sim.isDone (by decide) (by decide))
    (fun _ _ h => absurd h (sim.ahead_checked rfl)) (fun b₁ b₂ h => .pure h le_rfl)
    (fun b₁ b₂ h => ?_) hn rfl)
  subst h
  refine (sim.readLong (l := .fresh .plain) _ (by decide) (by decide) (by decide)).bind
    fun val _ h => ?_
  subst h
  exact .pure rfl ⟨Nat.zero_le _, .inl rfl, id⟩

theorem decodeVarintPacked_triple (hn : n₁ = n₂ ∨ (n₂ ≤ n₁ ∧ sim.free .outOfFuel))
    (type : FieldType) (lg2 size : ℕ) :
    sim.Triple Eq .base (decodeVarintPacked S₁ n₁ type lg2 size)
      (decodeVarintPacked S₂ n₂ type lg2 size) fun _ => .base :=
  packedLoop_triple sim hn (fun elems val => elems ++ [storeBits lg2 (munge type val)]) size []

theorem decodeEnumPacked_triple (hn : n₁ = n₂ ∨ (n₂ ≤ n₁ ∧ sim.free .outOfFuel))
    (f : LinkedField) (size : ℕ) :
    sim.Triple Eq .base (decodeEnumPacked S₁ n₁ f size) (decodeEnumPacked S₂ n₂ f size)
      fun _ => .base :=
  packedLoop_triple sim hn (fun b val => if f.sub.checkEnum (val % 2 ^ 32)
    then (b.1 ++ [storeBits 2 val], b.2)
    else (b.1, b.2 ++ enumValueUnknown f.field.number val)) size ([], [])

/-- A program whose value is then stored. -/
private theorem store_triple {α β : Type} {x : Reading σ₁ α} {y : Reading σ₂ α} (f : α → β)
    (h : sim.Triple Eq .base x y fun _ => .base) :
    sim.Triple Eq .base (x >>= fun a => pure (f a)) (y >>= fun a => pure (f a)) fun _ => .base :=
  h.bind fun _ _ h => h ▸ .pure rfl le_rfl

theorem decodeToArray_triple (hn : n₁ = n₂ ∨ (n₂ ≤ n₁ ∧ sim.free .outOfFuel))
    (hsub : sim.SubSim sub₁ sub₂) (depth : ℕ) (f : LinkedField) (d : Decoding) (op : DecodeOp)
    (val : ℕ) :
    sim.Triple Eq .base (decodeToArray S₁ cfg n₁ sub₁ depth f d op val)
      (decodeToArray S₂ cfg n₂ sub₂ depth f d op val) fun _ => .base := by
  cases op with
  | scalar lg2 => exact .pure rfl le_rfl
  | string => exact store_triple sim _ (readString_triple sim val true)
  | bytes => exact store_triple sim _ (readString_triple sim val false)
  | subMessage => exact store_triple sim _ (decodeSubMessage_triple sim hsub depth f _ val)
  | fixedPacked lg2 => exact store_triple sim _ (decodeFixedPacked_triple sim lg2 val)
  | varintPacked lg2 => exact store_triple sim _ (decodeVarintPacked_triple sim hn _ lg2 val)
  | packedEnum => exact store_triple sim _ (decodeEnumPacked_triple sim hn f val)
  | unknownField => exact .pure rfl le_rfl
  | messageSetItem => exact .pure rfl le_rfl

theorem decodeToMap_triple (hsub : sim.SubSim sub₁ sub₂) (depth : ℕ) (f : LinkedField) (d : Decoding)
    (size : ℕ) :
    sim.Triple Eq .base (decodeToMap S₁ cfg sub₁ depth f d size)
      (decodeToMap S₂ cfg sub₂ depth f d size) fun _ => .base := by
  rw [decodeToMap, decodeToMap]
  split
  · exact sim.status (by decide) (by decide)
  · refine (decodeSubMessage_triple sim hsub depth f _ size).bind fun r _ h => ?_
    subst h
    dsimp only
    split
    · split
      · exact .pure rfl le_rfl
      · exact sim.status (by decide) (by decide)
    · split
      · exact .pure rfl le_rfl
      · exact sim.status (by decide) (by decide)

theorem decodeToSubMessage_triple (hsub : sim.SubSim sub₁ sub₂) (depth : ℕ) (f : LinkedField)
    (d : Decoding) (op : DecodeOp) (val : ℕ) :
    sim.Triple Eq .base (decodeToSubMessage S₁ cfg sub₁ depth f d op val)
      (decodeToSubMessage S₂ cfg sub₂ depth f d op val) fun _ => .base := by
  cases op with
  | subMessage => exact store_triple sim _ (decodeSubMessage_triple sim hsub depth f _ val)
  | string => exact store_triple sim _ (readString_triple sim val true)
  | bytes => exact store_triple sim _ (readString_triple sim val false)
  | _ => exact .pure rfl le_rfl

theorem decodeToField_triple (hn : n₁ = n₂ ∨ (n₂ ≤ n₁ ∧ sim.free .outOfFuel))
    (hsub : sim.SubSim sub₁ sub₂) (depth : ℕ) (f : LinkedField) (d : Decoding) (op : DecodeOp)
    (val : ℕ) :
    sim.Triple Eq .base (decodeToField S₁ cfg n₁ sub₁ depth f d op val)
      (decodeToField S₂ cfg n₂ sub₂ depth f d op val) fun _ => .base := by
  rw [decodeToField, decodeToField]
  split
  · exact decodeToArray_triple sim hn hsub depth f d op val
  · exact decodeToMap_triple sim hsub depth f d val
  · exact decodeToSubMessage_triple sim hsub depth f d op val

theorem decodeKnownField_triple (hn : n₁ = n₂ ∨ (n₂ ≤ n₁ ∧ sim.free .outOfFuel))
    (hsub : sim.SubSim sub₁ sub₂) (depth : ℕ) (f : LinkedField) (ext : Option ExtId) (d : Decoding)
    (op : DecodeOp) (val : ℕ) :
    sim.Triple Eq .base (decodeKnownField S₁ cfg n₁ sub₁ depth f ext d op val)
      (decodeKnownField S₂ cfg n₂ sub₂ depth f ext d op val) fun _ => .base := by
  cases ext with
  | none => exact decodeToField_triple sim hn hsub depth f d op val
  | some e => exact store_triple sim _ (decodeToField_triple sim hn hsub depth f _ op val)

theorem skipUnknown_triple (hn : n₁ = n₂ ∨ (n₂ ≤ n₁ ∧ sim.free .outOfFuel)) (depth number : ℕ)
    (wireType : Option WireType) (val : ℕ) {l : Level} (hl : l.phase = .capturing) :
    sim.Triple Eq l (skipUnknown S₁ n₁ depth number wireType val)
      (skipUnknown S₂ n₂ depth number wireType val) fun _ => l.hit := by
  have hdone : l.phase ≠ .done := by rw [hl]; decide
  have hpure : sim.Triple Eq l (pure ()) (pure ()) fun _ => l.hit := .pure rfl l.hit_le
  rcases wireType with _ | wireType
  · exact hpure
  cases wireType with
  | delimited => exact (sim.readStringEphemeral hdone).bind fun _ _ _ => .pure rfl le_rfl
  | startGroup =>
    exact (skipGroup_triple sim hn depth (number * 8) hdone (by rw [hl]; decide)).mono l.hit_le
      fun _ => le_rfl
  | _ => exact hpure

theorem decodeUnknownField_triple (hn : n₁ = n₂ ∨ (n₂ ≤ n₁ ∧ sim.free .outOfFuel)) (depth : ℕ)
    (d : Decoding) (number : ℕ) (wireType : Option WireType) (val : ℕ) {l : Level}
    (hl : l.phase = .marked) :
    sim.Triple Eq l (decodeUnknownField S₁ n₁ depth d number wireType val)
      (decodeUnknownField S₂ n₂ depth d number wireType val) fun _ => .base := by
  rw [decodeUnknownField, decodeUnknownField]
  split
  · exact sim.status (by decide) (by decide)
  · refine (sim.startCapture hl).bind fun _ _ _ => ?_
    refine (skipUnknown_triple sim hn depth number wireType val rfl).bind fun _ _ _ => ?_
    exact (sim.endCapture rfl).bind fun _ _ h => h ▸ .pure rfl le_rfl

/-- The decoder of the payload of an item ends at the end of the payload. -/
theorem decodeTop_triple (hsub : sim.SubSim sub₁ sub₂) (depth : ℕ) (t : TableId) (m : Message) :
    sim.Triple Eq .base (decodeTop sub₁ depth t m) (decodeTop sub₂ depth t m)
      fun _ => .atLimit := by
  refine (hsub depth t ⟨m, false⟩).bind fun r _ h => ?_
  subst h
  obtain ⟨d, endGroup⟩ := r
  cases endGroup with
  | some number => exact sim.status (by decide) (by decide)
  | none =>
    dsimp only
    split
    · exact sim.status (by decide) (by decide)
    · split
      · exact sim.status (by decide) (by decide)
      · exact .pure rfl le_rfl

theorem addMessageSetItem_triple (hsub : sim.SubSim sub₁ sub₂) (hgood : sim.GoodItems sub₂)
    (depth : ℕ) (t : TableId) (d : Decoding) (typeId : ℕ) {v₁ v₂ : View} (hv : sim.viewRel v₁ v₂)
    {l : Level} (hl : l.phase = .plain) :
    sim.Triple Eq l (addMessageSetItem S₁ cfg sub₁ depth t d typeId v₁)
      (addMessageSetItem S₂ cfg sub₂ depth t d typeId v₂) fun _ => .base := by
  have hdone : l.phase ≠ .done := by rw [hl]; decide
  rw [addMessageSetItem, addMessageSetItem]
  split
  · split
    · exact sim.status (by decide) (by decide)
    · split
      · exact sim.status (by decide) (by decide)
      · refine (sim.nested hdone hv (fun e he => hgood _ _ _ v₁ v₂ e hv he)
          (decodeTop_triple sim hsub _ _ _)).bind fun _ _ h => ?_
        exact h ▸ .pure rfl (Level.base_le hdone)
  · rw [sim.view_data hv]
    exact .pure rfl (Level.base_le hdone)

/-- States of the item loop that differ in the payload only, which is related. -/
def ItemRel (st₁ st₂ : ItemState) : Prop :=
  st₁.decoding = st₂.decoding ∧ st₁.typeId = st₂.typeId ∧
    match st₁.payload, st₂.payload with
    | none, none => True
    | some v₁, some v₂ => sim.viewRel v₁ v₂
    | _, _ => False

theorem messageSetItemStep_triple (hn : n₁ = n₂ ∨ (n₂ ≤ n₁ ∧ sim.free .outOfFuel))
    (hsub : sim.SubSim sub₁ sub₂) (hgood : sim.GoodItems sub₂) (depth : ℕ) (t : TableId)
    {st₁ st₂ : ItemState} (hst : ItemRel sim st₁ st₂) :
    sim.Triple (Simulation.SumRel (ItemRel sim) Eq) (.fresh .plain)
      (messageSetItemStep S₁ cfg n₁ sub₁ depth t st₁) (messageSetItemStep S₂ cfg n₂ sub₂ depth t st₂)
      (Simulation.roundLevel .base fun _ => .base) := by
  obtain ⟨d, typeId, p₁⟩ := st₁
  obtain ⟨d', typeId', p₂⟩ := st₂
  obtain ⟨hd, hid, hp⟩ := hst
  dsimp only at hd hid hp
  subst hd hid
  have hpure : ∀ {l : Level}, Level.base ≤ l → ∀ {p₁ p₂ : Option View},
      (match p₁, p₂ with
        | none, none => True
        | some v₁, some v₂ => sim.viewRel v₁ v₂
        | _, _ => False) → ∀ (d : Decoding) (typeId : Option ℕ),
      sim.Triple (Simulation.SumRel (ItemRel sim) Eq) l
        (pure (.inl ⟨d, typeId, p₁⟩)) (pure (.inl ⟨d, typeId, p₂⟩))
        (Simulation.roundLevel .base fun _ : Decoding => .base) :=
    fun hl _ _ hp _ _ => .pure ⟨rfl, rfl, hp⟩ hl
  refine (sim.readLong (l := .fresh .plain) _ (by decide) (by decide) (by decide)).bind
    fun tag _ htag => ?_
  subst htag
  dsimp only
  split
  · exact .pure rfl (Level.base_le (by decide))
  split
  · refine (sim.readLong (l := (Level.fresh .plain).consume 5) _ (by decide) (by decide)
      (by decide)).bind fun tmp _ htmp => ?_
    subst htmp
    cases typeId with
    | some id => exact hpure (Level.base_le (by decide)) hp d (some id)
    | none =>
      match p₁, p₂, hp with
      | some v₁, some v₂, hp =>
        refine (addMessageSetItem_triple sim hsub hgood depth t d _ hp (by rfl)).bind
          fun d₁ _ h => ?_
        subst h
        exact hpure le_rfl hp d₁ _
      | none, none, hp => exact hpure (Level.base_le (by decide)) hp d _
  split
  · refine (sim.readLong (l := (Level.fresh .plain).consume 5) _ (by decide) (by decide)
      (by decide)).bind fun size _ hsize => ?_
    subst hsize
    refine (sim.readStringAlwaysAlias (by decide)).bind fun v₁ v₂ hv => ?_
    match p₁, p₂, hp with
    | some v₁, some v₂, hp => exact hpure (Level.base_le (by decide)) hp d typeId
    | none, none, hp =>
      cases typeId with
      | some id =>
        refine (addMessageSetItem_triple sim hsub hgood depth t d _ hv (by rfl)).bind
          fun d₁ _ h => ?_
        subst h
        exact hpure le_rfl hv d₁ (some id)
      | none => exact hpure (Level.base_le (by decide)) hv d none
  · refine (skipValue_triple sim (l := (Level.fresh .plain).consume 5) (by decide) (by decide)
      (fun tag => skipGroup_triple sim hn depth tag (by decide) (by decide)) tag).bind
      fun _ _ _ => ?_
    exact hpure (Level.base_le (by decide)) hp d typeId

theorem decodeMessageSetItem_triple (hn : n₁ = n₂ ∨ (n₂ ≤ n₁ ∧ sim.free .outOfFuel))
    (hsub : sim.SubSim sub₁ sub₂) (hgood : sim.GoodItems sub₂) (depth : ℕ) (t : TableId)
    (d : Decoding) :
    sim.Triple Eq .base (decodeMessageSetItem S₁ cfg n₁ sub₁ depth t d)
      (decodeMessageSetItem S₂ cfg n₂ sub₂ depth t d) fun _ => .base :=
  Simulation.Triple.loop (ItemRel sim) (sim.isDone (by decide) (by decide))
    (fun _ _ h => absurd h (sim.ahead_checked rfl))
    (fun _ _ _ => sim.status (by decide) (by decide))
    (fun _ _ hst => messageSetItemStep_triple sim hn hsub hgood depth t hst) hn ⟨rfl, rfl, trivial⟩

theorem decodeFoundField_triple (hn : n₁ = n₂ ∨ (n₂ ≤ n₁ ∧ sim.free .outOfFuel))
    (hsub : sim.SubSim sub₁ sub₂) (depth : ℕ) (found : Found) (d : Decoding) (op : DecodeOp) (val : ℕ)
    {l : Level} (hl : Level.base ≤ l) :
    sim.Triple Eq l
      (match found with
        | .field f ext => decodeKnownField S₁ cfg n₁ sub₁ depth f ext d op val
        | _ => pure d)
      (match found with
        | .field f ext => decodeKnownField S₂ cfg n₂ sub₂ depth f ext d op val
        | _ => pure d) fun _ => .base := by
  cases found with
  | field f ext => exact (decodeKnownField_triple sim hn hsub depth f ext d op val).mono hl fun _ => le_rfl
  | _ => exact .pure rfl hl

theorem decodeFieldData_triple (hn : n₁ = n₂ ∨ (n₂ ≤ n₁ ∧ sim.free .outOfFuel))
    (hsub : sim.SubSim sub₁ sub₂) (hgood : sim.GoodItems sub₂) (depth : ℕ) (t : TableId)
    (d : Decoding) (number : ℕ) (wireType : Option WireType) {l : Level} (hl : l.phase = .marked)
    (hbytes : 10 ≤ l.bytes) :
    sim.Triple Eq l (decodeFieldData S₁ cfg n₁ sub₁ depth t d number wireType)
      (decodeFieldData S₂ cfg n₂ sub₂ depth t d number wireType) fun _ => .base := by
  have hdone : l.phase ≠ .done := by rw [hl]; decide
  have hbase : Level.base ≤ l.hit := Level.base_le hdone
  refine (decodeWireValue_triple sim _ wireType hdone hbytes).bind fun r _ h => ?_
  subst h
  obtain ⟨op, val⟩ := r
  cases op with
  | unknownField => exact decodeUnknownField_triple sim hn depth d number wireType val hl
  | messageSetItem =>
    exact (decodeMessageSetItem_triple sim hn hsub hgood depth t d).mono hbase fun _ => le_rfl
  | _ => exact decodeFoundField_triple sim hn hsub depth _ d _ val hbase

theorem decodeField_triple (hn : n₁ = n₂ ∨ (n₂ ≤ n₁ ∧ sim.free .outOfFuel))
    (hsub : sim.SubSim sub₁ sub₂) (hgood : sim.GoodItems sub₂) (depth : ℕ) (t : TableId)
    (d : Decoding) :
    sim.Triple Eq (.fresh .plain) (decodeField S₁ cfg n₁ sub₁ depth t d)
      (decodeField S₂ cfg n₂ sub₂ depth t d) (Simulation.roundLevel .base endLevel) := by
  refine (sim.mark (by decide)).bind fun _ _ _ => ?_
  refine (sim.readLong (l := { Level.fresh .plain with phase := .marked }) _ (by decide) (by decide)
    (by decide)).bind fun tag _ htag => ?_
  subst htag
  dsimp only
  split
  · exact .pure rfl (Level.base_le (by decide))
  · refine (decodeFieldData_triple sim hn hsub hgood depth t d _ _ rfl (by decide)).bind
      fun d₁ _ h => ?_
    subst h
    exact .pure rfl le_rfl

/-- A round of the field loop, for equal messages. -/
theorem fieldRound_triple (hn : n₁ = n₂ ∨ (n₂ ≤ n₁ ∧ sim.free .outOfFuel))
    (hsub : sim.SubSim sub₁ sub₂) (hgood : sim.GoodItems sub₂) (depth : ℕ) (t : TableId)
    (d₁ d₂ : Decoding) (hd : d₁ = d₂) :
    sim.Triple (Simulation.SumRel Eq Eq) (.fresh .plain) (decodeField S₁ cfg n₁ sub₁ depth t d₁)
      (decodeField S₂ cfg n₂ sub₂ depth t d₂) (Simulation.roundLevel .base endLevel) := by
  subst hd
  exact (decodeField_triple sim hn hsub hgood depth t d₁).conseq le_rfl
    (fun _ _ => Simulation.SumRel.of_eq) fun _ => le_rfl

/-- The loop of `_upb_Decoder_DecodeMessage`, with at most `rounds` rounds. -/
def messageLoop {σ : Type} (S : Stream σ) (cfg : DecodeConfig) (fuel : ℕ) (sub : SubDecoder σ)
    (depth : ℕ) (t : TableId) (rounds : ℕ) (d : Decoding) : Reading σ (Decoding × Option ℕ) :=
  Prog.loop S.isDone .outOfFuel (decodeField S cfg fuel sub depth t) (fun d => pure (d, none)) rounds d

/-- The result of a call whose loop ends with a message. -/
def messageEnd (cfg : DecodeConfig) (t : TableId) (r : Decoding × Option ℕ) : Decoding × Option ℕ :=
  (⟨r.1.msg, checkRequired cfg t r.1.msg r.1.missingRequired⟩, r.2)

theorem decodeMessage_succ {σ : Type} (S : Stream σ) (cfg : DecodeConfig) (fuel calls depth : ℕ)
    (t : TableId) (d : Decoding) :
    decodeMessage S cfg fuel (calls + 1) depth t d =
      messageLoop S cfg fuel (decodeMessage S cfg fuel calls) depth t fuel d >>= fun r =>
        pure (messageEnd cfg t r) := rfl

theorem messageLoop_triple (hn : n₁ = n₂ ∨ (n₂ ≤ n₁ ∧ sim.free .outOfFuel))
    (hsub : sim.SubSim sub₁ sub₂) (hgood : sim.GoodItems sub₂) (depth : ℕ) (t : TableId)
    {k₁ k₂ : ℕ} (hk : k₁ = k₂ ∨ (k₂ ≤ k₁ ∧ sim.free .outOfFuel)) (d : Decoding) :
    sim.Triple Eq .base (messageLoop S₁ cfg n₁ sub₁ depth t k₁ d)
      (messageLoop S₂ cfg n₂ sub₂ depth t k₂ d) endLevel :=
  Simulation.Triple.loop Eq (sim.isDone (by decide) (by decide))
    (fun _ _ h => absurd h (sim.ahead_checked rfl))
    (fun _ _ h => .pure (congrArg (fun d => (d, none)) h) le_rfl)
    (fieldRound_triple sim hn hsub hgood depth t) hk rfl

/-- One call of the decoder simulates itself if its nested calls do. -/
theorem decodeMessageWith_subSim (hn : n₁ = n₂ ∨ (n₂ ≤ n₁ ∧ sim.free .outOfFuel))
    (hsub : sim.SubSim sub₁ sub₂) (hgood : sim.GoodItems sub₂) :
    sim.SubSim (decodeMessageWith S₁ cfg n₁ sub₁) (decodeMessageWith S₂ cfg n₂ sub₂) := by
  intro depth t d
  refine (messageLoop_triple sim hn hsub hgood depth t hn d).bind fun r _ h => ?_
  subst h
  exact .pure rfl (by rw [endLevel, endLevel])

/-- The decoder simulates itself over related streams. -/
theorem decodeMessage_subSim (hn : n₁ = n₂ ∨ (n₂ ≤ n₁ ∧ sim.free .outOfFuel))
    (hgood : ∀ calls, sim.GoodItems (decodeMessage S₂ cfg n₂ calls)) (calls : ℕ) :
    sim.SubSim (decodeMessage S₁ cfg n₁ calls) (decodeMessage S₂ cfg n₂ calls) := by
  induction calls with
  | zero => exact fun _ _ _ => sim.status (by decide) (by decide)
  | succ calls ih => exact decodeMessageWith_subSim sim hn ih (hgood calls)

/-- So does a whole call of `upb_Decode`. -/
theorem decode_triple (hn : n₁ = n₂ ∨ (n₂ ≤ n₁ ∧ sim.free .outOfFuel))
    (hgood : ∀ calls, sim.GoodItems (decodeMessage S₂ cfg n₂ calls)) (maxDepth : ℕ) (t : TableId)
    (m : Message) :
    sim.Triple Eq .base (decode S₁ cfg n₁ maxDepth t m) (decode S₂ cfg n₂ maxDepth t m)
      fun _ => .atLimit :=
  decodeTop_triple sim (decodeMessage_subSim sim hn hgood _) _ t m

end Upb.Wire
