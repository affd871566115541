import Upb.MiniDescriptor.Layout

/-!
# Runs of the parser

`Scan s input s' rest` is a run of the loop of `upb_MtDecoder_Parse` on an arbitrary input: from `s` it
arrives at `s'`, at the end of the input or in front of the oneofs in `rest`. What one step of the loop
keeps is kept by a run, by induction on it.
-/

namespace Upb

namespace MiniDescriptor

/-- A step that ends well and what follows it. -/
theorem bind_eq_ok {ε α β : Type} {x : Except ε α} {f : α → Except ε β} {b : β} :
    x >>= f = .ok b ↔ ∃ a, x = .ok a ∧ f a = .ok b := by
  cases x with
  | error e => simp [bind, Except.bind]
  | ok a => simp [bind, Except.bind]

/-- A step that ends well and what is made of its result. -/
theorem map_eq_ok {ε α β : Type} {x : Except ε α} {f : α → β} {b : β} :
    x.map f = .ok b ↔ ∃ a, x = .ok a ∧ f a = b := by
  cases x with
  | error e => simp [Except.map]
  | ok a => simp [Except.map]

/-- A varint takes characters off the input. -/
theorem length_decodeVarint {ch min max val : ℕ} {rest rest' : List ℕ}
    (h : decodeVarint ch min max rest = some (val, rest')) : rest'.length ≤ rest.length := by
  have hloop : ∀ (rest : List ℕ) (bits acc shift ch : ℕ),
      decodeVarintLoop min max bits acc shift ch rest = some (val, rest') →
        rest'.length ≤ rest.length := by
    intro rest
    induction rest with
    | nil =>
      intro bits acc shift ch h
      rw [decodeVarintLoop] at h
      cases h
      rfl
    | cons c rest ih =>
      intro bits acc shift ch h
      rw [decodeVarintLoop] at h
      split at h
      · cases h
        rfl
      · split at h
        · cases h
        · exact (ih _ _ _ _ h).trans (Nat.le_succ _)
  exact hloop rest _ _ _ _ h

/-- The state after the modifier `mod`. -/
def applyModifier (s : ParseState) (mod : ℕ) : Except MdError ParseState := do
  let s ← match s.d.table.fields.getLast? with
    | some last => do
      let f ← modifyField mod last
      .ok { s with
        d := { s.d with table := { s.d.table with fields := s.d.table.fields.dropLast ++ [f] } } }
    | none => .ok { s with msgModifiers := mod }
  if s.msgModifiers.testBit 2 then
    .ok { s with d := { s.d with table := { s.d.table with
      ext := { s.d.table.ext with extendable := true } } } }
  else .ok s

/-- The number that a skip leads to. -/
@[irreducible] def skipNumber (last skip : ℕ) : ℕ := (last + skip + (2 ^ 32 - 1)) % 2 ^ 32

/-- The state after the skip `skip`. -/
def applySkip (s : ParseState) (skip : ℕ) : ParseState :=
  { setDenseBelow s with lastFieldNumber := skipNumber (setDenseBelow s).lastFieldNumber skip }

/-- The dense prefix has nothing to do with the last number. -/
theorem applySkip_last (s : ParseState) (skip : ℕ) :
    (applySkip s skip).lastFieldNumber = skipNumber s.lastFieldNumber skip := by
  rw [applySkip, setDenseBelow]
  cases s.needDenseBelow <;> rfl

/-- A modifier is read and then applied. -/
theorem parseModifier_eq (s : ParseState) (ch : ℕ) (rest : List ℕ) :
    parseModifier s ch rest =
      match decodeVarint ch kMinModifier kMaxModifier rest with
      | none => .error .overlongVarint
      | some (mod, rest) => (applyModifier s mod).map fun s => (s, rest) := by
  rw [parseModifier]
  cases decodeVarint ch kMinModifier kMaxModifier rest with
  | none => rfl
  | some r =>
    obtain ⟨mod, rest⟩ := r
    dsimp only
    rw [applyModifier]
    cases s.d.table.fields.getLast? with
    | none =>
      simp only [bind, Except.bind]
      split <;> rfl
    | some last =>
      simp only [bind, Except.bind]
      cases modifyField mod last with
      | error e => rfl
      | ok f =>
        dsimp only
        split <;> rfl

/-- A skip is read and then applied. -/
theorem parseSkip_eq (s : ParseState) (ch : ℕ) (rest : List ℕ) :
    parseSkip s ch rest =
      match decodeVarint ch kMinSkip kMaxSkip rest with
      | none => .error .overlongVarint
      | some (skip, rest) => .ok (applySkip s skip, rest) := by
  rw [parseSkip]
  unfold applySkip skipNumber
  cases decodeVarint ch kMinSkip kMaxSkip rest <;> rfl

/-- The fields that `setField` makes, where the offset is not that of a member of a oneof. -/
private theorem setTypeAndSub_ok {d : MtDecoder} {number subCount type' offset : ℕ} {type : ℤ} {mode : Mode}
    {validateUtf8 defaultIsPacked isProto3Enum : Bool} {f : MiniTableField} (hoffset : offset < kOneofBase)
    (h : (match encodedToType type' with
      | none => .error (MdError.invalidFieldType type)
      | some t => .ok (setTypeAndSub number offset mode t validateUtf8 defaultIsPacked isProto3Enum
          d.subCount)) = Except.ok (f, subCount)) :
    f.number = number ∧ f.offset < kOneofBase ∧ f.presence = 0 := by
  split at h
  · cases h
  · next t _ =>
    have hf : (setTypeAndSub number offset mode t validateUtf8 defaultIsPacked isProto3Enum
      d.subCount).1 = f := congrArg Prod.fst (Except.ok.inj h)
    rw [← hf]
    exact ⟨rfl, hoffset, rfl⟩

/-- The field that `upb_MtDecoder_SetField` fills in. -/
theorem setField_ok {d : MtDecoder} {ch number msgModifiers subCount : ℕ} {f : MiniTableField}
    (h : setField d ch number msgModifiers = .ok (f, subCount)) :
    f.number = number ∧ f.offset < kOneofBase ∧ f.presence = 0 := by
  have hclass : (if toBase92 kEncodedRepeatedBase ≤ ch then kNoPresence else kHasbitPresence) < kOneofBase := by
    split <;> decide
  rw [setField] at h
  dsimp only at h
  generalize (if toBase92 kEncodedRepeatedBase ≤ ch then fromBase92 ch - ↑kEncodedRepeatedBase
    else fromBase92 ch) = type at h
  generalize (if 0 ≤ type then type.toNat else 255) = type' at h
  simp only [bind, Except.bind] at h
  split at h
  · exact setTypeAndSub_ok hclass h
  · split at h
    · exact setTypeAndSub_ok hclass h
    · cases h

/-- What a modifier leaves of a field: everything but flags, the type and the presence class. -/
structure Modified (f g : MiniTableField) : Prop where
  number_eq : g.number = f.number
  presence_eq : g.presence = f.presence
  rep_eq : g.mode.rep = f.mode.rep
  offset : g.offset = f.offset ∨ g.offset < kOneofBase

/-- The field that `upb_MtDecoder_ModifyField` leaves. -/
theorem modifyField_ok {mod : ℕ} {f g : MiniTableField} (h : modifyField mod f = .ok g) :
    Modified f g := by
  have htail (f₁ : MiniTableField) (h₁ : Modified f f₁) (singular required : Bool)
    (h : (if (singular || required) ∧ f₁.offset ≠ kHasbitPresence then
        .error (MdError.invalidModifiersForRepeated f₁.number)
      else if singular && required then .error (MdError.singularAndRequired f₁.number)
      else if singular && f₁.isSubMessage then .error (MdError.singularSubmessage f₁.number)
      else
        let f := if singular then { f₁ with offset := kNoPresence } else f₁
        .ok (if required then { f with offset := kRequiredPresence } else f)) = Except.ok g) :
      Modified f g := by
    obtain ⟨hn, hp, hr, ho⟩ := h₁
    split at h
    · cases h
    · split at h
      · cases h
      · split at h
        · cases h
        · cases singular <;> cases required <;> cases h
          · exact ⟨hn, hp, hr, ho⟩
          · exact ⟨hn, hp, hr, .inr (show kRequiredPresence < kOneofBase by decide)⟩
          · exact ⟨hn, hp, hr, .inr (show kNoPresence < kOneofBase by decide)⟩
          · exact ⟨hn, hp, hr, .inr (show kRequiredPresence < kOneofBase by decide)⟩
  rw [modifyField] at h
  simp only [bind, Except.bind] at h
  split at h
  · split at h
    · split at h
      · split at h
        · cases h
        · exact htail { f with descriptortype := .string, mode := { f.mode with
            isPacked := !f.mode.isPacked, isAlternate := false } } ⟨rfl, rfl, rfl, .inl rfl⟩ _ _ h
      · exact htail { f with mode := { f.mode with isPacked := !f.mode.isPacked } }
          ⟨rfl, rfl, rfl, .inl rfl⟩ _ _ h
    · cases h
  · split at h
    · split at h
      · cases h
      · exact htail { f with descriptortype := .string, mode := { f.mode with isAlternate := false } }
          ⟨rfl, rfl, rfl, .inl rfl⟩ _ _ h
    · exact htail f ⟨rfl, rfl, rfl, .inl rfl⟩ _ _ h
/-- A new field is put at the end of the table. -/
theorem parseField_eq {s s' : ParseState} {ch : ℕ} (h : parseField s ch = .ok s') :
    ∃ f subCount, f.number = (s.lastFieldNumber + 1) % 2 ^ 32 ∧
      (1 ≤ f.number ∧ f.number ≤ kMaxFieldNumber) ∧ f.offset < kOneofBase ∧ f.presence = 0 ∧
      s' = { s with
        d := { s.d with
          table := { s.d.table with
            fields := s.d.table.fields ++ [f], fieldCount := toUint16 (s.d.table.fieldCount + 1) }
          subCount }
        lastFieldNumber := (s.lastFieldNumber + 1) % 2 ^ 32 } := by
  rw [parseField] at h
  split at h
  · cases h
  · next hrange =>
    rw [not_or, Nat.not_lt] at hrange
    obtain ⟨⟨f, subCount⟩, hset, h⟩ := bind_eq_ok.mp h
    obtain ⟨hnumber, hoffset, hpresence⟩ := setField_ok hset
    rw [← hnumber] at hrange
    exact ⟨f, subCount, hnumber, ⟨Nat.one_le_iff_ne_zero.mpr hrange.1, hrange.2⟩, hoffset, hpresence,
      (Except.ok.inj h).symm⟩

/-- A modifier of a field replaces the last field; a modifier of the message changes no field. -/
theorem applyModifier_eq {s s' : ParseState} {mod : ℕ} (h : applyModifier s mod = .ok s') :
    ∃ fields msgModifiers ext, s' = { s with
      d := { s.d with table := { s.d.table with fields, ext } }, msgModifiers } ∧
      (fields = s.d.table.fields ∨
        ∃ f g, s.d.table.fields = s.d.table.fields.dropLast ++ [f] ∧
          fields = s.d.table.fields.dropLast ++ [g] ∧ Modified f g) := by
  rw [applyModifier] at h
  cases hlast : s.d.table.fields.getLast? with
  | none =>
    simp only [hlast, bind, Except.bind] at h
    split at h <;> cases h
    · exact ⟨_, _, _, rfl, .inl rfl⟩
    · exact ⟨_, _, _, rfl, .inl rfl⟩
  | some f =>
    obtain ⟨init, hinit⟩ := List.getLast?_eq_some_iff.mp hlast
    have hdrop : s.d.table.fields = s.d.table.fields.dropLast ++ [f] := by
      rw [hinit, List.dropLast_concat]
    simp only [hlast, bind, Except.bind] at h
    cases hmod : modifyField mod f with
    | error e =>
      rw [hmod] at h
      cases h
    | ok g =>
      rw [hmod] at h
      dsimp only at h
      split at h <;> cases h
      · exact ⟨_, _, _, rfl, .inr ⟨f, g, hdrop, rfl, modifyField_ok hmod⟩⟩
      · exact ⟨_, _, _, rfl, .inr ⟨f, g, hdrop, rfl, modifyField_ok hmod⟩⟩

/-- A run of the parse loop. -/
inductive Scan : ParseState → List ℕ → ParseState → Option (List ℕ) → Prop
  | done (s) : Scan s [] s none
  | field {s s₁ s' ch rest oneofs} (hch : ch ≤ kMaxField) (h : parseField s ch = .ok s₁)
    (hrest : Scan s₁ rest s' oneofs) : Scan s (ch :: rest) s' oneofs
  | modifier {s s₁ s' ch rest rest₁ mod oneofs} (hch : ¬ ch ≤ kMaxField)
    (hmod : kMinModifier ≤ ch ∧ ch ≤ kMaxModifier)
    (hdec : decodeVarint ch kMinModifier kMaxModifier rest = some (mod, rest₁))
    (h : applyModifier s mod = .ok s₁) (hrest : Scan s₁ rest₁ s' oneofs) :
    Scan s (ch :: rest) s' oneofs
  | oneofs (s rest) : Scan s (kEnd :: rest) s (some rest)
  | skip {s s' ch rest rest₁ skip oneofs} (hch : ¬ ch ≤ kMaxField)
    (hmod : ¬ (kMinModifier ≤ ch ∧ ch ≤ kMaxModifier)) (hend : ch ≠ kEnd)
    (hskip : kMinSkip ≤ ch ∧ ch ≤ kMaxSkip)
    (hdec : decodeVarint ch kMinSkip kMaxSkip rest = some (skip, rest₁))
    (hrest : Scan (applySkip s skip) rest₁ s' oneofs) : Scan s (ch :: rest) s' oneofs

/-- The state after the oneofs, if there are any. -/
def afterOneofs (s : ParseState) : Option (List ℕ) → Except MdError ParseState
  | none => .ok s
  | some rest => (decodeOneofs s.d rest).map fun d => { s with d }

/-- The parse loop makes a run and then reads the oneofs. -/
theorem scan_of_parseLoop {fuel : ℕ} {s s' : ParseState} {input : List ℕ} (hfuel : input.length ≤ fuel)
    (h : parseLoop fuel s input = .ok s') :
    ∃ s₁ oneofs, Scan s input s₁ oneofs ∧ afterOneofs s₁ oneofs = .ok s' := by
  induction fuel generalizing s input with
  | zero =>
    obtain rfl := List.eq_nil_of_length_eq_zero (Nat.le_zero.mp hfuel)
    exact ⟨s, none, .done s, h⟩
  | succ fuel ih =>
    cases input with
    | nil => exact ⟨s, none, .done s, h⟩
    | cons ch rest =>
      rw [List.length_cons, Nat.add_le_add_iff_right] at hfuel
      rw [parseLoop] at h
      split at h
      · next hch =>
        obtain ⟨s₁, hstep, h⟩ := bind_eq_ok.mp h
        obtain ⟨s₂, oneofs, hscan, hafter⟩ := ih hfuel h
        exact ⟨s₂, oneofs, .field hch hstep hscan, hafter⟩
      · next hch =>
        split at h
        · next hmod =>
          obtain ⟨⟨s₁, rest₁⟩, hstep, h⟩ := bind_eq_ok.mp h
          rw [parseModifier_eq] at hstep
          split at hstep
          · cases hstep
          · next mod rest' hdec =>
            obtain ⟨s₁', happly, heq⟩ := map_eq_ok.mp hstep
            cases heq
            obtain ⟨s₂, oneofs, hscan, hafter⟩ := ih ((length_decodeVarint hdec).trans hfuel) h
            exact ⟨s₂, oneofs, .modifier hch hmod hdec happly hscan, hafter⟩
        · next hmod =>
          split at h
          · next hend =>
            subst hend
            obtain ⟨d, hdec, h⟩ := bind_eq_ok.mp h
            exact ⟨s, some rest, .oneofs s rest, by rw [afterOneofs, hdec]; exact h⟩
          · next hend =>
            split at h
            · next hskip =>
              obtain ⟨⟨s₁, rest₁⟩, hstep, h⟩ := bind_eq_ok.mp h
              rw [parseSkip_eq] at hstep
              split at hstep
              · cases hstep
              · next skip rest' hdec =>
                cases hstep
                obtain ⟨s₂, oneofs, hscan, hafter⟩ := ih ((length_decodeVarint hdec).trans hfuel) h
                exact ⟨s₂, oneofs, .skip hch hmod hend hskip hdec hscan, hafter⟩
            · cases h

/-- A parse is a run, the oneofs, and the dense prefix. -/
theorem scan_of_parse {d d' : MtDecoder} {data : List ℕ} (h : parse d data = .ok d') :
    ∃ s₁ oneofs s₂, Scan ⟨d, 0, 0, true⟩ data s₁ oneofs ∧ afterOneofs s₁ oneofs = .ok s₂ ∧
      (setDenseBelow s₂).d = d' := by
  rw [parse] at h
  obtain ⟨s₂, hloop, h⟩ := bind_eq_ok.mp h
  obtain ⟨s₁, oneofs, hscan, hafter⟩ := scan_of_parseLoop (Nat.le_refl _) hloop
  exact ⟨s₁, oneofs, s₂, hscan, hafter, Except.ok.inj h⟩

end MiniDescriptor

end Upb
