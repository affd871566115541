import Upb.MiniDescriptor.ParseOneofs

/-!
# Parsing an encoded message

The calls that encode a whole message, when they are legal, and the decoder after parsing what they
emit: the fields of `parsedFields`, with the members of each oneof linked.
-/

namespace Upb

namespace MiniDescriptor

/-- The characters of `StartMessage`, `PutField` for each field, and then `StartOneof` and
`PutOneofField` for the numbers of each oneof. -/
def encodeMessage (msgMod : MessageModifiers) (fs : List FieldSpec) (oneofs : List (List ℕ)) :
    Option (List ℕ) :=
  (putFields (.startMessage msgMod) fs).map fun e => (oneofs.foldl putOneof e).out

/-- The calls of `encodeMessage` are legal: the numbers increase, the modifiers of each field fit
together, and each oneof is a non-empty list of plain optional fields that are in no other one. -/
structure Legal (msgMod : MessageModifiers) (fs : List FieldSpec) (oneofs : List (List ℕ)) :
    Prop where
  sorted : (fs.map (·.number)).Pairwise (· < ·)
  range : ∀ f ∈ fs, 1 ≤ f.number ∧ f.number ≤ kMaxFieldNumber
  consistent : ∀ f ∈ fs, f.Consistent msgMod
  nonempty : ∀ o ∈ oneofs, o ≠ []
  distinct : oneofs.flatten.Nodup
  member : ∀ n ∈ oneofs.flatten, ∃ f ∈ fs, f.number = n ∧ f.presenceClass = kHasbitPresence

/-- The index of the field with a number. -/
def indexOf (fs : List FieldSpec) (n : ℕ) : ℕ := fs.findIdx (·.number == n)

theorem indexOf_eq {fs : List FieldSpec} (hsorted : (fs.map (·.number)).Pairwise (· < ·)) {i : ℕ}
    {f : FieldSpec} (hi : fs[i]? = some f) : indexOf fs f.number = i := by
  obtain ⟨hlt, rfl⟩ := List.getElem?_eq_some_iff.mp hi
  rw [indexOf, List.findIdx_eq hlt]
  refine ⟨by simp, fun j hj => ?_⟩
  have h := List.pairwise_iff_getElem.mp hsorted j i (by simp; omega) (by simpa using hlt) hj
  simp only [List.getElem_map] at h
  simpa using h.ne

/-- The oneofs as indices of their members. -/
def oneofIndices (fs : List FieldSpec) (oneofs : List (List ℕ)) : List (List ℕ) :=
  oneofs.map (·.map (indexOf fs))

section Indices

variable {msgMod : MessageModifiers} {fs : List FieldSpec} {oneofs : List (List ℕ)}
  (h : Legal msgMod fs oneofs)

include h

/-- A member is found under its index. -/
theorem Legal.member_index {n : ℕ} (hn : n ∈ oneofs.flatten) :
    ∃ f, fs[indexOf fs n]? = some f ∧ f.number = n ∧ f.presenceClass = kHasbitPresence := by
  obtain ⟨f, hf, rfl, hclass⟩ := h.member n hn
  obtain ⟨i, hi⟩ := List.getElem?_of_mem hf
  exact ⟨f, by rw [indexOf_eq h.sorted hi, hi], rfl, hclass⟩

/-- The indices give back the numbers. -/
theorem Legal.numbers_oneofIndices (platform : Platform) (sub : ℕ) :
    (oneofIndices fs oneofs).map (·.map (numberAt (parsedFields platform sub fs))) = oneofs := by
  rw [oneofIndices, List.map_map]
  refine (List.map_congr_left fun o ho => ?_).trans (List.map_id oneofs)
  rw [Function.comp_apply, List.map_map]
  refine (List.map_congr_left fun n hn => ?_).trans (List.map_id o)
  obtain ⟨f, hf, rfl, -⟩ := h.member_index (List.mem_flatten.mpr ⟨o, ho, hn⟩)
  rw [Function.comp_apply, numberAt, parsedFields_getElem? hf]
  rfl

theorem Legal.nodup_oneofIndices : (oneofIndices fs oneofs).flatten.Nodup := by
  rw [oneofIndices, ← List.map_flatten]
  refine List.Nodup.map_on (fun m hm n hn heq => ?_) h.distinct
  obtain ⟨f, hf, rfl, -⟩ := h.member_index hm
  obtain ⟨g, hg, rfl, -⟩ := h.member_index hn
  rw [heq, hg] at hf
  rw [Option.some.inj hf]

theorem Legal.addable_oneofIndices (platform : Platform) (sub : ℕ) :
    Addable (parsedFields platform sub fs) (oneofIndices fs oneofs).flatten := by
  rw [oneofIndices, ← List.map_flatten]
  intro i hi
  obtain ⟨n, hn, rfl⟩ := List.mem_map.mp hi
  obtain ⟨f, hf, rfl, hclass⟩ := h.member_index hn
  refine ⟨_, parsedFields_getElem? hf, hclass, ?_⟩
  have := (h.range f (List.mem_of_getElem? hf)).2
  simp only [kMaxFieldNumber] at this
  simp only [FieldSpec.parsedField]
  omega

end Indices

/-- The decoder after the message modifiers. -/
def messageDecoder (platform : Platform) (msgMod : MessageModifiers) : MtDecoder :=
  { MtDecoder.initial platform with
    table := { (MtDecoder.initial platform).table with
      ext := ⟨msgMod.isExtendable, false, false⟩ } }

/-- The characters of an encoded message after its version. -/
def messageChars (msgMod : MessageModifiers) (fs : List FieldSpec) (oneofs : List (List ℕ)) :
    List ℕ :=
  modifierChars msgMod.toBits ++ (fieldsChars msgMod 0 fs ++ oneofsChars oneofs)

section Message

variable {msgMod : MessageModifiers} {fs : List FieldSpec} {oneofs : List (List ℕ)}

theorem encodeMessage_eq (h : Legal msgMod fs oneofs) :
    encodeMessage msgMod fs oneofs = some (kVersionMessageV1 :: messageChars msgMod fs oneofs) := by
  have hfields := putFields_eq fs (.startMessage msgMod) h.sorted fun f hf => by
    rw [MtDataEncoder.startMessage, putModifier_eq]
    exact (h.range f hf).1
  rw [encodeMessage, hfields, Option.map_some, putOneofs_out _ _ h.nonempty]
  · rw [MtDataEncoder.startMessage, putModifier_eq]
    simp [MtDataEncoder.put, messageChars]
  · rw [MtDataEncoder.startMessage, putModifier_eq]
    rfl

/-- The modifiers of the message are read first. -/
private theorem parses_messageModifiers (platform : Platform) {rest : List ℕ}
    {r : Except MdError ParseState} (hend : EndsDigits kMinModifier kMaxModifier rest)
    (h : Parses (fieldState (messageDecoder platform msgMod) msgMod [] 0 0 true) rest r) :
    Parses ⟨MtDecoder.initial platform, 0, 0, true⟩ (modifierChars msgMod.toBits ++ rest) r := by
  obtain ⟨-, -, hbit, hlt⟩ := messageModifiers_testBit msgMod
  rw [modifierChars]
  split
  · next hzero =>
    have hext : msgMod.isExtendable = false := by rw [← hbit, hzero, Nat.zero_testBit]
    simp only [fieldState, messageDecoder, hzero, hext] at h
    exact h
  · next hzero =>
    obtain ⟨c, tail, hput, hc1, hc2⟩ := digitRange_modifier.putBase92Varint_eq msgMod.toBits
    have hdec := decodeVarint_putBase92Varint digitRange_modifier hput (by omega) hend
    rw [hput, List.cons_append]
    refine Parses.modifier ⟨hc1, hc2⟩ ?_ (by simp) h
    rw [parseModifier, hdec]
    simp only [MtDecoder.initial, List.getLast?_nil, bind, Except.bind, hbit]
    cases hx : msgMod.isExtendable with
    | false =>
      simp [fieldState, fieldDecoder, messageDecoder, hx, MtDecoder.initial, parsedFields, subs]
    | true =>
      simp [fieldState, fieldDecoder, messageDecoder, hx, MtDecoder.initial, parsedFields, subs]

/-- The representations of the oneofs of a message. -/
def messageReps (platform : Platform) (fs : List FieldSpec) (oneofs : List (List ℕ)) :
    List FieldRep :=
  oneofReps platform (repAt (parsedFields platform 0 fs)) .rep1Byte (oneofIndices fs oneofs)

/-- What the decoder holds after it has parsed an encoded message. -/
structure Parsed (platform : Platform) (msgMod : MessageModifiers) (fs : List FieldSpec)
    (oneofs : List (List ℕ)) (d : MtDecoder) : Prop where
  platform_eq : d.platform = platform
  fieldCount : d.table.fieldCount = fs.length
  ext : d.table.ext = ⟨msgMod.isExtendable, false, false⟩
  inv : ∃ rep, OneofInv (parsedFields platform 0 fs) d.table.fields d.oneofs
    (oneofIndices fs oneofs) [] ⟨kIndexSentinel, rep⟩
  reps : d.oneofs.map (·.rep) = messageReps platform fs oneofs
  counts : d.repCounts = pushedCounts (fun _ => 0) (messageReps platform fs oneofs)

/-- The dense prefix is not part of it. -/
private theorem Parsed.setDenseBelow {platform : Platform} {s : ParseState}
    (h : Parsed platform msgMod fs oneofs s.d) :
    Parsed platform msgMod fs oneofs (setDenseBelow s).d := by
  rw [MiniDescriptor.setDenseBelow]
  split
  · exact ⟨h.platform_eq, h.fieldCount, h.ext, h.inv, h.reps, h.counts⟩
  · exact h

/-- The end of the fields. -/
private theorem endsDigits_oneofsChars (lo hi : ℕ) (hend : hi < kEnd) (os : List (List ℕ)) :
    EndsDigits lo hi (oneofsChars os) := by
  intro c hc
  cases os with
  | nil => simp [oneofsChars] at hc
  | cons o os =>
    obtain rfl : kEnd = c := by simpa [oneofsChars] using hc
    omega

/-- The search for the member of a oneof relies on the parsed fields as they are. -/
private theorem parses_oneofsChars (platform : Platform) (h : Legal msgMod fs oneofs)
    (hsize : fs.length + kOneofBase ≤ kIndexSentinel) (last : ℕ) {dense : ℕ} (need : Bool)
    (hdense : DenseOk fs last dense need) :
    ∃ s, Parses (fieldState (messageDecoder platform msgMod) msgMod fs last dense need)
      (oneofsChars oneofs) (.ok s) ∧ Parsed platform msgMod fs oneofs s.d := by
  have hget : ∀ (i : ℕ) (f : MiniTableField), (parsedFields platform 0 fs)[i]? = some f →
      ∃ g : FieldSpec, fs[i]? = some g ∧ f.number = g.number := by
    intro i f hf
    obtain ⟨hlt, -⟩ := List.getElem?_eq_some_iff.mp hf
    rw [length_parsedFields] at hlt
    have hg : fs[i]? = some fs[i] := List.getElem?_eq_getElem hlt
    rw [parsedFields_getElem? hg] at hf
    exact ⟨_, hg, (congrArg (·.number) (Option.some.inj hf)).symm⟩
  have hsorted : MiniTable.Sorted (parsedFields platform 0 fs) := by
    rw [MiniTable.Sorted, parsedFields_numbers]
    exact h.sorted
  have hpos : ∀ f ∈ parsedFields platform 0 fs, f.number ≠ 0 := by
    intro f hf
    obtain ⟨i, hi⟩ := List.getElem?_of_mem hf
    obtain ⟨g, hg, heq⟩ := hget i f hi
    have := (h.range g (List.mem_of_getElem? hg)).1
    omega
  have hprefix : ∀ i < dense, ∀ f, (parsedFields platform 0 fs)[i]? = some f → f.number = i + 1 := by
    intro i hi f hf
    obtain ⟨g, hg, heq⟩ := hget i f hf
    exact heq.trans (hdense.number i hi g hg)
  cases oneofs with
  | nil => exact ⟨_, .nil, rfl, rfl, rfl, ⟨.rep1Byte, OneofInv.init _ _⟩, rfl, rfl⟩
  | cons o os =>
    have hnumbers := h.numbers_oneofIndices platform 0
    have hadd := h.addable_oneofIndices platform 0
    have hnodup := h.nodup_oneofIndices
    have hne : ∀ p ∈ oneofIndices fs (o :: os), p ≠ [] := by
      simpa [oneofIndices] using h.nonempty
    rw [oneofIndices, List.map_cons] at hnumbers hadd hnodup hne
    rw [List.map_cons, List.cons.injEq] at hnumbers
    obtain ⟨fields, items, rep, hinv, hreps, hdecode⟩ := decodes_oneofs
      (d := fieldDecoder (messageDecoder platform msgMod) fs dense) hsorted (by simp [fieldDecoder])
      hpos hprefix (by simpa [fieldDecoder] using hdense.le) (by simpa using hsize) hne
      (OneofInv.init _ .rep1Byte) hadd hnodup (by simp)
    rw [hnumbers.1, hnumbers.2] at hdecode
    refine ⟨_, .oneofs (hdecode _ (Nat.le_refl _)), rfl, rfl, rfl, ⟨rep, hinv⟩, hreps, rfl⟩

/-- The fields and the oneofs are read back. -/
theorem parse_messageChars (platform : Platform) (h : Legal msgMod fs oneofs)
    (hsize : fs.length + kOneofBase ≤ kIndexSentinel) :
    ∃ d, parse (MtDecoder.initial platform) (messageChars msgMod fs oneofs) = .ok d ∧
      Parsed platform msgMod fs oneofs d := by
  have hlen : ([] : List FieldSpec).length + fs.length ≤ uint16Max := by
    simp only [kOneofBase, kIndexSentinel, uint16Max, List.length_nil] at *
    omega
  have hdense₀ : DenseOk [] 0 0 true := ⟨Nat.le_refl _, by simp, by simp⟩
  have hend := endsDigits_oneofsChars kMinModifier kMaxModifier (by decide) oneofs
  have hext : msgMod.isExtendable = true →
      (messageDecoder platform msgMod).table.ext.extendable = true := fun hx => hx
  obtain ⟨dense, need, hdense, hparse⟩ := parses_fields hext
    (fun f hf => ⟨h.consistent f hf, (h.range f hf).2, (h.range f hf).1⟩) h.sorted hlen hdense₀ hend
  rw [List.nil_append] at hdense hparse
  obtain ⟨d, hloop, hparsed⟩ := parses_oneofsChars platform h hsize (lastNumber 0 fs) need hdense
  have hall := parses_messageModifiers platform (endsDigits_fieldsChars h.consistent hend)
    (hparse _ hloop)
  refine ⟨_, ?_, hparsed.setDenseBelow⟩
  rw [parse, messageChars, hall _ (Nat.le_refl _)]
  rfl

end Message

end MiniDescriptor

end Upb
