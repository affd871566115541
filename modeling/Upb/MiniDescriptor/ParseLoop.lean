import Upb.MiniDescriptor.ParsedField

/-!
# The parse loop over the fields

`Parses s input r` says that the parse loop, with enough fuel for its input, arrives at `r`. The
parser state after the fields `done` is `fieldState`; one emitted field leads from one such state to
the next, and so the whole list of fields is read back in order.
-/

namespace Upb

namespace MiniDescriptor

/-- The parse loop on `input` from `s` arrives at `r`. -/
def Parses (s : ParseState) (input : List ℕ) (r : Except MdError ParseState) : Prop :=
  ∀ fuel, input.length ≤ fuel → parseLoop fuel s input = r

section Steps

variable {s s' : ParseState} {ch : ℕ} {rest rest' : List ℕ} {r : Except MdError ParseState}

theorem Parses.nil : Parses s [] (.ok s) := fun fuel _ => by cases fuel <;> rfl

theorem Parses.field (hch : ch ≤ kMaxField) (hstep : parseField s ch = .ok s')
    (h : Parses s' rest r) : Parses s (ch :: rest) r := by
  intro fuel hfuel
  obtain ⟨fuel, rfl⟩ : ∃ n, fuel = n + 1 := ⟨fuel - 1, by simp at hfuel; omega⟩
  rw [parseLoop, if_pos hch, hstep]
  exact h fuel (by simpa using hfuel)

theorem Parses.modifier (hch : kMinModifier ≤ ch ∧ ch ≤ kMaxModifier)
    (hstep : parseModifier s ch rest = .ok (s', rest')) (hlen : rest'.length ≤ rest.length)
    (h : Parses s' rest' r) : Parses s (ch :: rest) r := by
  intro fuel hfuel
  obtain ⟨fuel, rfl⟩ : ∃ n, fuel = n + 1 := ⟨fuel - 1, by simp at hfuel; omega⟩
  have hnot : ¬ ch ≤ kMaxField := by
    have := hch.1
    simp only [kMaxField, kMinModifier] at this ⊢
    omega
  rw [parseLoop, if_neg hnot, if_pos hch, hstep]
  simp only [List.length_cons] at hfuel
  exact h fuel (by omega)

theorem Parses.skip (hch : kMinSkip ≤ ch ∧ ch ≤ kMaxSkip)
    (hstep : parseSkip s ch rest = .ok (s', rest')) (hlen : rest'.length ≤ rest.length)
    (h : Parses s' rest' r) : Parses s (ch :: rest) r := by
  intro fuel hfuel
  obtain ⟨fuel, rfl⟩ : ∃ n, fuel = n + 1 := ⟨fuel - 1, by simp at hfuel; omega⟩
  have hge : 95 ≤ ch := hch.1
  have hnot : ¬ ch ≤ kMaxField ∧ ¬ (kMinModifier ≤ ch ∧ ch ≤ kMaxModifier) ∧ ¬ ch = kEnd := by
    simp only [kMaxField, kMinModifier, kMaxModifier, kEnd]
    omega
  rw [parseLoop, if_neg hnot.1, if_neg hnot.2.1, if_neg hnot.2.2, if_pos hch, hstep]
  simp only [List.length_cons] at hfuel
  exact h fuel (by omega)

theorem Parses.oneofs {d : MtDecoder} (hstep : decodeOneofs s.d rest = .ok d) :
    Parses s (kEnd :: rest) (.ok { s with d }) := by
  intro fuel hfuel
  obtain ⟨fuel, rfl⟩ : ∃ n, fuel = n + 1 := ⟨fuel - 1, by simp at hfuel; omega⟩
  rw [parseLoop, if_neg (by decide), if_neg (by decide), if_pos rfl, hstep]
  rfl

end Steps

/-- The number of sub tables of a list of fields. -/
def subs (fs : List FieldSpec) : ℕ := fs.countP (·.hasSub)

/-- The fields as they are parsed. -/
def parsedFields (platform : Platform) : ℕ → List FieldSpec → List MiniTableField
  | _, [] => []
  | sub, f :: fs => f.parsedField platform sub :: parsedFields platform (sub + f.hasSub.toNat) fs

section ParsedFields

variable {platform : Platform}

theorem parsedFields_append (sub : ℕ) (fs gs : List FieldSpec) :
    parsedFields platform sub (fs ++ gs) =
      parsedFields platform sub fs ++ parsedFields platform (sub + subs fs) gs := by
  induction fs generalizing sub with
  | nil => simp [parsedFields, subs]
  | cons f fs ih =>
    rw [List.cons_append, parsedFields, ih, parsedFields, List.cons_append]
    congr 3
    simp only [subs, List.countP_cons]
    cases f.hasSub <;> (simp; try omega)

@[simp] theorem length_parsedFields (sub : ℕ) (fs : List FieldSpec) :
    (parsedFields platform sub fs).length = fs.length := by
  induction fs generalizing sub with
  | nil => rfl
  | cons f fs ih => simp [parsedFields, ih]

/-- The field at an index is the parsed field there, up to the index of its sub table. -/
theorem parsedFields_getElem? {sub i : ℕ} {fs : List FieldSpec} {f : FieldSpec}
    (h : fs[i]? = some f) :
    (parsedFields platform sub fs)[i]? = some (f.parsedField platform (sub + subs (fs.take i))) := by
  obtain ⟨hi, rfl⟩ := List.getElem?_eq_some_iff.mp h
  have hsplit : fs = fs.take i ++ fs[i] :: fs.drop (i + 1) := by
    rw [← List.drop_eq_getElem_cons hi, List.take_append_drop]
  conv_lhs => rw [hsplit, parsedFields_append, parsedFields]
  rw [List.getElem?_append_right (by simp)]
  simp [Nat.min_eq_left hi.le]

theorem parsedFields_numbers (sub : ℕ) (fs : List FieldSpec) :
    (parsedFields platform sub fs).map (·.number) = fs.map (·.number) := by
  induction fs generalizing sub with
  | nil => rfl
  | cons f fs ih => simp [parsedFields, ih, FieldSpec.parsedField]

end ParsedFields

/-- The decoder after the fields `done`, with the given dense prefix. -/
def fieldDecoder (d : MtDecoder) (done : List FieldSpec) (dense : ℕ) : MtDecoder :=
  { d with
    table := { d.table with
      fields := parsedFields d.platform d.subCount done
      fieldCount := done.length
      denseBelow := dense }
    subCount := d.subCount + subs done }

/-- The parser state after the fields `done`. -/
def fieldState (d : MtDecoder) (msgMod : MessageModifiers) (done : List FieldSpec)
    (last dense : ℕ) (need : Bool) : ParseState where
  d := fieldDecoder d done dense
  msgModifiers := msgMod.toBits
  lastFieldNumber := last
  needDenseBelow := need

section OneField

variable {d : MtDecoder} {msgMod : MessageModifiers} {done : List FieldSpec} {f : FieldSpec}
  {last dense : ℕ} {need : Bool} {rest : List ℕ} {r : Except MdError ParseState}

/-- The type and the modifiers of one field. -/
private theorem parses_type (hf : f.Consistent msgMod)
    (hext : msgMod.isExtendable = true → d.table.ext.extendable = true)
    (hnum : f.number ≤ kMaxFieldNumber) (hpos : 0 < f.number) (hlen : done.length < uint16Max)
    (hend : EndsDigits kMinModifier kMaxModifier rest)
    (h : Parses (fieldState d msgMod (done ++ [f]) f.number dense need) rest r) :
    Parses (fieldState d msgMod done (f.number - 1) dense need)
      (toBase92 (MtDataEncoder.encodedType f.type f.mod) ::
        modifierChars (MtDataEncoder.encodedModifiers msgMod f.type f.mod) ++ rest) r := by
  obtain ⟨hch, -, -⟩ := encodedType_char f.mod hf.closedEnum
  obtain ⟨f₀, hset, hmod, hzero⟩ := setField_modifyField hf (fieldDecoder d done dense)
  have hnumber : (f.number - 1 + 1) % 2 ^ 32 = f.number := by
    simp only [kMaxFieldNumber] at hnum
    rw [Nat.sub_add_cancel hpos, Nat.mod_eq_of_lt]
    omega
  have hparsed : parsedFields d.platform d.subCount (done ++ [f]) =
      parsedFields d.platform d.subCount done ++
        [f.parsedField d.platform (d.subCount + subs done)] := by
    simp [parsedFields_append, parsedFields]
  have hsubs : subs (done ++ [f]) = subs done + f.hasSub.toNat := by
    simp only [subs, List.countP_append, List.countP_singleton]
    cases f.hasSub <;> rfl
  -- the state between the type and the modifiers
  have hfield : parseField (fieldState d msgMod done (f.number - 1) dense need)
      (toBase92 (MtDataEncoder.encodedType f.type f.mod)) =
      .ok { fieldState d msgMod (done ++ [f]) f.number dense need with
        d := { fieldDecoder d (done ++ [f]) dense with
          table := { (fieldDecoder d (done ++ [f]) dense).table with
            fields := parsedFields d.platform d.subCount done ++ [f₀] } } } := by
    rw [parseField]
    simp only [fieldState, hnumber]
    rw [if_neg (by omega), hset]
    simp only [fieldDecoder, hsubs, List.length_append, List.length_singleton, Except.ok.injEq,
      bind, Except.bind]
    have hcount : toUint16 (done.length + 1) = done.length + 1 := by
      simp only [uint16Max] at hlen
      exact Nat.mod_eq_of_lt (by omega)
    rw [hcount, Nat.add_assoc]
  rw [List.cons_append]
  refine Parses.field hch hfield ?_
  rw [modifierChars]
  split
  · next hz =>
    rw [List.nil_append, hzero hz]
    simp only [fieldState, fieldDecoder, ← hparsed]
    exact h
  · next hz =>
    obtain ⟨c, tail, hput, hc1, hc2⟩ := digitRange_modifier.putBase92Varint_eq
      (MtDataEncoder.encodedModifiers msgMod f.type f.mod)
    have hlt : MtDataEncoder.encodedModifiers msgMod f.type f.mod < 2 ^ 4 :=
      (encodedModifiers_testBit _ _ _ _).2.2.2.2.1
    have hdec := decodeVarint_putBase92Varint digitRange_modifier hput (by omega) hend
    rw [hput, List.cons_append]
    refine Parses.modifier ⟨hc1, hc2⟩ ?_ (by simp) h
    rw [parseModifier, hdec]
    simp only [fieldState, fieldDecoder, List.getLast?_concat, hmod, List.dropLast_concat, bind,
      Except.bind, (messageModifiers_testBit msgMod).2.2.1, hparsed]
    cases hx : msgMod.isExtendable with
    | false => rfl
    | true =>
      have hkeep : { d.table.ext with extendable := true } = d.table.ext := by rw [← hext hx]
      simp only [↓reduceIte, hkeep]

/-- The dense prefix after the field, as the first skip fixes it. -/
def denseAfter (done : List FieldSpec) (last dense : ℕ) (need : Bool) (f : FieldSpec) : ℕ × Bool :=
  if last + 1 ≠ f.number ∧ need = true then (done.length % 2 ^ 8, false) else (dense, need)

/-- One emitted field leads from one state to the next. -/
theorem parses_field (hf : f.Consistent msgMod)
    (hext : msgMod.isExtendable = true → d.table.ext.extendable = true)
    (hlast : last < f.number) (hnum : f.number ≤ kMaxFieldNumber) (hlen : done.length < uint16Max)
    (hend : EndsDigits kMinModifier kMaxModifier rest)
    (h : Parses (fieldState d msgMod (done ++ [f]) f.number
      (denseAfter done last dense need f).1 (denseAfter done last dense need f).2) rest r) :
    Parses (fieldState d msgMod done last dense need) (fieldChars msgMod last f ++ rest) r := by
  rw [fieldChars, skipChars, List.append_assoc]
  by_cases hskip : last + 1 ≠ f.number
  · rw [if_pos hskip]
    obtain ⟨c, tail, hput, hc1, hc2⟩ := digitRange_skip.putBase92Varint_eq (f.number - last)
    obtain ⟨hch, -, -⟩ := encodedType_char f.mod hf.closedEnum
    simp only [kMaxFieldNumber] at hnum
    -- a type ends the digits of a skip
    have hend' : EndsDigits kMinSkip kMaxSkip (toBase92 (MtDataEncoder.encodedType f.type f.mod) ::
        modifierChars (MtDataEncoder.encodedModifiers msgMod f.type f.mod) ++ rest) := by
      intro c hc
      obtain rfl : toBase92 (MtDataEncoder.encodedType f.type f.mod) = c := by simpa using hc
      simp only [kMaxField] at hch
      simp only [kMinSkip]
      omega
    have hdec := decodeVarint_putBase92Varint digitRange_skip hput (by omega) hend'
    rw [hput, List.cons_append]
    refine Parses.skip ⟨hc1, hc2⟩ ?_ (by simp) (parses_type hf hext hnum (by omega) hlen hend h)
    have hnumber : (last + (f.number - last) + (2 ^ 32 - 1)) % 2 ^ 32 = f.number - 1 := by omega
    rw [parseSkip, hdec]
    cases need <;> simp [fieldState, fieldDecoder, setDenseBelow, denseAfter, hskip] <;> exact hnumber
  · rw [if_neg hskip, List.nil_append]
    have hdense : denseAfter done last dense need f = (dense, need) := by simp [denseAfter, hskip]
    rw [hdense] at h
    have hl : last = f.number - 1 := by omega
    rw [hl]
    exact parses_type hf hext hnum (by omega) hlen hend h

end OneField

section AllFields

variable {d : MtDecoder} {msgMod : MessageModifiers}

/-- The dense prefix is what the search for a field by number relies on. -/
structure DenseOk (done : List FieldSpec) (last dense : ℕ) (need : Bool) : Prop where
  le : dense ≤ done.length
  number : ∀ i < dense, ∀ f, done[i]? = some f → f.number = i + 1
  pending : need = true → dense = 0 ∧ last = done.length ∧
    ∀ i f, done[i]? = some f → f.number = i + 1

/-- One more field keeps the dense prefix valid. -/
theorem DenseOk.append {done : List FieldSpec} {f : FieldSpec} {last dense : ℕ} {need : Bool}
    (h : DenseOk done last dense need) :
    DenseOk (done ++ [f]) f.number (denseAfter done last dense need f).1
      (denseAfter done last dense need f).2 := by
  have hold : ∀ i g, i < done.length → (done ++ [f])[i]? = some g → done[i]? = some g :=
    fun i g hi hg => by rwa [List.getElem?_append_left hi] at hg
  rw [denseAfter]
  split
  · next hfix =>
    obtain ⟨-, -, hall⟩ := h.pending hfix.2
    have hmod : done.length % 2 ^ 8 ≤ done.length := Nat.mod_le _ _
    refine ⟨?_, fun i hi g hg => hall i g (hold i g (by omega) hg), by simp⟩
    simp only [List.length_append, List.length_singleton]
    omega
  · next hkeep =>
    have hle := h.le
    refine ⟨?_, fun i hi g hg => h.number i hi g (hold i g (by omega) hg), fun hneed => ?_⟩
    · simp only [List.length_append, List.length_singleton]
      omega
    · obtain ⟨hzero, hlen, hall⟩ := h.pending hneed
      have hnum : f.number = last + 1 := by
        by_contra hne
        exact hkeep ⟨fun he => hne he.symm, hneed⟩
      refine ⟨hzero, by simp [hnum, hlen], fun i g hg => ?_⟩
      by_cases hi : i < done.length
      · exact hall i g (hold i g hi hg)
      · rw [List.getElem?_append_right (by omega)] at hg
        obtain ⟨hidx, rfl⟩ : i - done.length = 0 ∧ f = g := by
          rcases hz : i - done.length with _ | n
          · rw [hz] at hg; exact ⟨rfl, by simpa using hg⟩
          · rw [hz] at hg; simp at hg
        omega

/-- The first character after a field does not continue its modifiers. -/
theorem endsDigits_fieldsChars {last : ℕ} {fs : List FieldSpec} {rest : List ℕ}
    (hf : ∀ f ∈ fs, f.Consistent msgMod) (hrest : EndsDigits kMinModifier kMaxModifier rest) :
    EndsDigits kMinModifier kMaxModifier (fieldsChars msgMod last fs ++ rest) := by
  cases fs with
  | nil => simpa [fieldsChars] using hrest
  | cons f fs =>
    intro c hc
    obtain ⟨hch, -, -⟩ := encodedType_char f.mod (hf f List.mem_cons_self).closedEnum
    rw [fieldsChars, fieldChars, skipChars] at hc
    split at hc
    · obtain ⟨c', tail, hput, hc1, hc2⟩ := digitRange_skip.putBase92Varint_eq (f.number - last)
      rw [hput] at hc
      obtain rfl : c' = c := by simpa using hc
      simp only [kMinSkip, kMaxSkip, kMaxModifier] at *
      omega
    · obtain rfl : toBase92 (MtDataEncoder.encodedType f.type f.mod) = c := by simpa using hc
      simp only [kMaxField, kMinModifier] at *
      omega

/-- The fields of a message are read back in order. -/
theorem parses_fields {fs done : List FieldSpec} {last dense : ℕ} {need : Bool} {rest : List ℕ}
    (hext : msgMod.isExtendable = true → d.table.ext.extendable = true)
    (hf : ∀ f ∈ fs, f.Consistent msgMod ∧ f.number ≤ kMaxFieldNumber ∧ last < f.number)
    (hsorted : (fs.map (·.number)).Pairwise (· < ·))
    (hlen : done.length + fs.length ≤ uint16Max) (hdense : DenseOk done last dense need)
    (hend : EndsDigits kMinModifier kMaxModifier rest) :
    ∃ dense' need', DenseOk (done ++ fs) (lastNumber last fs) dense' need' ∧
      ∀ r, Parses (fieldState d msgMod (done ++ fs) (lastNumber last fs) dense' need') rest r →
        Parses (fieldState d msgMod done last dense need) (fieldsChars msgMod last fs ++ rest) r := by
  induction fs generalizing done last dense need with
  | nil => exact ⟨dense, need, by simpa [lastNumber] using hdense, by simp [lastNumber, fieldsChars]⟩
  | cons f fs ih =>
    obtain ⟨hcons, hnum, hlast⟩ := hf f List.mem_cons_self
    rw [List.map_cons, List.pairwise_cons] at hsorted
    rw [List.length_cons] at hlen
    obtain ⟨dense', need', hdense', hparse⟩ := ih
      (fun g hg => ⟨(hf g (List.mem_cons_of_mem _ hg)).1, (hf g (List.mem_cons_of_mem _ hg)).2.1,
        hsorted.1 g.number (List.mem_map_of_mem hg)⟩) hsorted.2
      (by simp only [List.length_append, List.length_singleton]; omega) hdense.append
    rw [List.append_assoc, List.singleton_append] at hdense' hparse
    refine ⟨dense', need', hdense', fun r h => ?_⟩
    rw [fieldsChars, List.append_assoc]
    refine parses_field hcons hext hlast hnum (by omega) ?_ (hparse r h)
    exact endsDigits_fieldsChars (fun g hg => (hf g (List.mem_cons_of_mem _ hg)).1) hend

end AllFields

end MiniDescriptor

end Upb
