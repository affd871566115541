import Upb.MiniDescriptor.Describes

/-!
# Parsed fields and the fields of the encoder

The parser leaves a list of fields that corresponds one by one to the fields of the encoder; the
counts and slots that the layout computes from it are those of the encoded message.
-/

namespace Upb

namespace MiniDescriptor

/-- Two lists that end at the same index have the same length. -/
theorem length_eq_of_getElem?_none {α β : Type} {l : List α} {l' : List β}
    (h : ∀ i : ℕ, l[i]? = none ↔ l'[i]? = none) : l.length = l'.length :=
  Nat.le_antisymm (List.getElem?_eq_none_iff.mp ((h _).mpr (List.getElem?_eq_none (Nat.le_refl _))))
    (List.getElem?_eq_none_iff.mp ((h _).mp (List.getElem?_eq_none (Nat.le_refl _))))

section Linked

/-- A field of the table before the layout comes from a field of the encoder. -/
structure Linked (platform : Platform) (oneofs : List (List ℕ)) (f : FieldSpec)
    (g : MiniTableField) : Prop where
  number : g.number = f.number
  descriptortype : g.descriptortype = f.storedType
  mode : g.mode = (f.parsedField platform 0).mode
  link : min g.offset kOneofBase = linkClass oneofs f

/-- The fields of the table before the layout come from the fields of the encoder, one by one. -/
structure AllLinked (platform : Platform) (fs : List FieldSpec) (oneofs : List (List ℕ))
    (fields : List MiniTableField) : Prop where
  length : fields.length = fs.length
  linked : ∀ (i : ℕ) (f : FieldSpec) (g : MiniTableField), fs[i]? = some f → fields[i]? = some g →
    Linked platform oneofs f g

variable {platform : Platform} {fs : List FieldSpec} {oneofs : List (List ℕ)}
  {fields : List MiniTableField} (h : AllLinked platform fs oneofs fields)

include h

/-- What can be read off linked fields is the same on both sides. -/
theorem AllLinked.map_eq {β : Type} (φ : FieldSpec → β) (ψ : MiniTableField → β)
    (heq : ∀ f g, Linked platform oneofs f g → ψ g = φ f) : fields.map ψ = fs.map φ := by
  refine List.ext_getElem? fun i => ?_
  rw [List.getElem?_map, List.getElem?_map]
  rcases Nat.lt_or_ge i fs.length with hi | hi
  · have hf : fs[i]? = some fs[i] := List.getElem?_eq_getElem hi
    have hi' : i < fields.length := h.length ▸ hi
    have hg : fields[i]? = some fields[i] := List.getElem?_eq_getElem hi'
    rw [hf, hg, Option.map_some, Option.map_some, heq _ _ (h.linked i _ _ hf hg)]
  · rw [List.getElem?_eq_none hi, List.getElem?_eq_none (h.length ▸ hi)]
    rfl

theorem AllLinked.classCount_eq {c : ℕ} (hc : c < kOneofBase) :
    classCount fields c = specCount fs oneofs c := by
  have hmap := h.map_eq (linkClass oneofs) (fun g => min g.offset kOneofBase)
    fun f g hl => hl.link
  have hleft : classCount fields c = (fields.map fun g => min g.offset kOneofBase).countP (· == c) := by
    rw [classCount, List.countP_map]
    congr 1
    funext g
    by_cases hg : g.offset = c
    · simp [hg, hc.le]
    · have hne : min g.offset kOneofBase ≠ c := by omega
      simp [hg, hne]
  rw [hleft, hmap, List.countP_map]
  rfl

theorem AllLinked.fieldSlots_eq :
    fieldSlots fields = (fs.filter (linkClass oneofs · < kOneofBase)).map (·.rep platform) := by
  have hmap := h.map_eq (fun f => (linkClass oneofs f, f.rep platform))
    (fun g => (min g.offset kOneofBase, g.mode.rep)) fun f g hl => by
      rw [hl.link, hl.mode]
      rfl
  have hslots := congrArg (fun l => (l.filter (·.1 < kOneofBase)).map Prod.snd) hmap
  simpa [fieldSlots, List.filter_map, Function.comp_def] using hslots

/-- Hasbits keep the fields linked. -/
theorem AllLinked.of_presence {fields' : List MiniTableField} {p : ℕ → MiniTableField → ℤ}
    (hget : ∀ i : ℕ, fields'[i]? = fields[i]?.map fun f => { f with presence := p i f }) :
    AllLinked platform fs oneofs fields' := by
  constructor
  · rw [← h.length]
    exact length_eq_of_getElem?_none fun i => by rw [hget, Option.map_eq_none_iff]
  · intro i f g hf hg
    rw [hget] at hg
    obtain ⟨g', hg', rfl⟩ := Option.map_eq_some_iff.mp hg
    obtain ⟨hnum, htype, hmode, hlink⟩ := h.linked i f g' hf hg'
    exact ⟨hnum, htype, hmode, hlink⟩

end Linked

section Parsed

variable {platform : Platform} {msgMod : MessageModifiers} {fs : List FieldSpec}
  {oneofs : List (List ℕ)} (h : Legal msgMod fs oneofs)

include h

/-- The index of a field is in a oneof exactly if its number is. -/
theorem Legal.mem_indices {i : ℕ} {f : FieldSpec} (hf : fs[i]? = some f) {o : List ℕ}
    (ho : ∀ n ∈ o, n ∈ oneofs.flatten) : i ∈ o.map (indexOf fs) ↔ f.number ∈ o := by
  constructor
  · intro hi
    obtain ⟨n, hn, rfl⟩ := List.mem_map.mp hi
    obtain ⟨g, hg, rfl, -⟩ := h.member_index (ho n hn)
    rw [hf] at hg
    rwa [Option.some.inj hg]
  · intro hn
    exact List.mem_map.mpr ⟨_, hn, indexOf_eq h.sorted hf⟩

theorem Legal.mem_oneofIndices {i : ℕ} {f : FieldSpec} (hf : fs[i]? = some f) :
    i ∈ (oneofIndices fs oneofs).flatten ↔ f.number ∈ oneofs.flatten := by
  rw [oneofIndices, ← List.map_flatten]
  exact h.mem_indices hf fun n hn => hn

omit h in
theorem FieldSpec.presenceClass_lt (f : FieldSpec) : f.presenceClass < kOneofBase := by
  rw [FieldSpec.presenceClass]
  split
  · decide
  · split <;> decide

/-- The parsed fields come from the fields of the encoder. -/
theorem allLinked_of_parsed {d : MtDecoder} (hd : Parsed platform msgMod fs oneofs d) :
    AllLinked platform fs oneofs d.table.fields := by
  obtain ⟨rep, hinv⟩ := hd.inv
  have hlen : d.table.fields.length = fs.length := by
    simpa using congrArg List.length hinv.same
  refine ⟨hlen, fun i f g hf hg => ?_⟩
  have hparsed : (parsedFields platform 0 fs)[i]? =
    some (f.parsedField platform (0 + subs (fs.take i))) := parsedFields_getElem? hf
  have herase := congrArg (fun l => l[i]?) hinv.same
  simp only [List.getElem?_map, hg, hparsed, Option.map_some, Option.some.injEq] at herase
  refine ⟨?_, ?_, ?_, ?_⟩
  · exact congrArg (·.number) herase
  · exact congrArg (·.descriptortype) herase
  · exact congrArg (·.mode) herase
  · rw [linkClass]
    split
    · next hmem =>
      exact Nat.min_eq_right (hinv.member i (.inl ((h.mem_oneofIndices hf).mpr hmem)) g hg)
    · next hmem =>
      have hsame := hinv.frame i (mt (h.mem_oneofIndices hf).mp hmem) (by simp)
      rw [hg, hparsed] at hsame
      rw [Option.some.inj hsame]
      exact Nat.min_eq_left (FieldSpec.presenceClass_lt f).le

omit h in
/-- Changing sub offsets keeps the fields linked. -/
theorem AllLinked.of_eraseSub {fields fields' : List MiniTableField}
    (hl : AllLinked platform fs oneofs fields) (hsame : fields'.map eraseSub = fields.map eraseSub) :
    AllLinked platform fs oneofs fields' := by
  have hlen : fields'.length = fields.length := by simpa using congrArg List.length hsame
  refine ⟨hlen.trans hl.length, fun i f g hf hg => ?_⟩
  have herase := congrArg (fun l => l[i]?) hsame
  simp only [List.getElem?_map, hg, Option.map_some] at herase
  obtain ⟨g', hg', heq⟩ := Option.map_eq_some_iff.mp herase.symm
  obtain ⟨hnum, htype, hmode, hlink⟩ := hl.linked i f g' hf hg'
  refine ⟨?_, ?_, ?_, ?_⟩
  · exact (congrArg (·.number) heq).symm.trans hnum
  · exact (congrArg (·.descriptortype) heq).symm.trans htype
  · exact (congrArg (·.mode) heq).symm.trans hmode
  · have hoff : g'.offset = g.offset := congrArg (·.offset) heq
    rwa [← hoff]

omit h in
private theorem map_parsedSub_parsedFields {sub : ℕ} (hsub : sub + fs.length ≤ noSub) :
    (parsedFields platform sub fs).map parsedSub = fs.map (·.hasSub) := by
  induction fs generalizing sub with
  | nil => rfl
  | cons f fs ih =>
    rw [List.length_cons] at hsub
    have hone : f.hasSub.toNat ≤ 1 := Bool.toNat_le _
    rw [parsedFields, List.map_cons, List.map_cons, ih (by omega)]
    congr 1
    simp only [parsedSub, FieldSpec.parsedField]
    have hlt : toUint16 sub = sub := by
      simp only [noSub] at hsub
      exact Nat.mod_eq_of_lt (by omega)
    by_cases hf : f.hasSub = true
    · simp only [hf, ↓reduceIte, hlt, ne_eq, decide_eq_true_eq]
      omega
    · simp [hf]

omit h in
/-- The sub tables of a message that fits are allocated. -/
theorem allocateSubs_of_parsed {d : MtDecoder} (hd : Parsed platform msgMod fs oneofs d)
    (hfit : Fits platform fs oneofs) :
    ∃ fields, allocateSubs d = .ok { d with table := { d.table with fields := fields } } ∧
      fields.map eraseSub = d.table.fields.map eraseSub := by
  obtain ⟨rep, hinv⟩ := hd.inv
  have hlen : d.table.fields.length = fs.length := by
    simpa using congrArg List.length hinv.same
  have hsubs : d.table.fields.map parsedSub = fs.map (·.hasSub) := by
    have hsmall : 0 + fs.length ≤ noSub := by
      have := hfit.fields
      simp only [kOneofBase, kIndexSentinel, noSub] at *
      omega
    have hsame := congrArg (List.map parsedSub) hinv.same
    rw [List.map_map, List.map_map] at hsame
    exact hsame.trans (map_parsedSub_parsedFields hsmall)
  have hcount : ∀ i, (d.table.fields.take i).countP parsedSub = subs (fs.take i) := by
    intro i
    have h1 : (d.table.fields.take i).countP parsedSub =
        ((d.table.fields.map parsedSub).take i).countP id := by
      rw [← List.map_take, List.countP_map]
      rfl
    have h2 : subs (fs.take i) = ((fs.map (·.hasSub)).take i).countP id := by
      rw [← List.map_take, List.countP_map]
      rfl
    rw [h1, h2, hsubs]
  have hsubsFit : SubsFit (ptrSize d.platform)
      (alignUp (d.table.fieldCount * kSizeofField) (ptrSize d.platform)) d.table.fields := by
    intro i g hg hsub
    have hi : i < fs.length := hlen ▸ (List.getElem?_eq_some_iff.mp hg).1
    have hget := congrArg (fun l => l[i]?) hsubs
    simp only [List.getElem?_map, hg, List.getElem?_eq_getElem hi, Option.map_some,
      Option.some.injEq] at hget
    have hle := hfit.subs ⟨i, hi⟩ (hget.symm.trans hsub)
    rw [hd.platform_eq, hd.fieldCount, hcount]
    exact hle
  have hptr : 0 < ptrSize d.platform := by
    cases d.platform <;> decide
  have hofs : kSizeofField * d.table.fields.length ≤
      alignUp (d.table.fieldCount * kSizeofField) (ptrSize d.platform) := by
    rw [hlen, ← hd.fieldCount, Nat.mul_comm]
    exact le_alignUp _ hptr
  obtain ⟨fields, heq, hsame⟩ := allocateSubsLoop_eq hsubsFit hofs
  refine ⟨fields, ?_, hsame⟩
  rw [allocateSubs, heq]
  rfl

end Parsed

end MiniDescriptor

end Upb
