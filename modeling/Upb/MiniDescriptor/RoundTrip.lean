import Upb.MiniDescriptor.LinkedFields

/-!
# The mini descriptor round trip

A table built from an encoded message describes the fields that were encoded, when the calls were
legal and the layout fits the 16-bit members of the table.
-/

namespace Upb

namespace MiniDescriptor

open Upb.Common (Seg)

/-- The steps of `upb_MiniTable_Build` after the parser. -/
private def layout (d : MtDecoder) : Except MdError MiniTable := do
  let d ← assignHasbits d
  let d ← calculateAlignments d
  .ok (assignOffsets d).table

private theorem build_message (platform : Platform) (data : List ℕ) {d d' : MtDecoder}
    (hparse : parse (MtDecoder.initial platform) data = .ok d)
    (hcount : d.table.fields.length = d.table.fieldCount) (hsubs : allocateSubs d = .ok d') :
    build platform (kVersionMessageV1 :: data) = layout d' := by
  have hmessage : parseMessage (MtDecoder.initial platform) data = .ok d' := by
    rw [parseMessage]
    change (parse (MtDecoder.initial platform) data).bind _ = _
    rw [hparse]
    change allocateSubs { d with table := { d.table with
      fields := d.table.fields.take d.table.fieldCount } } = _
    rw [← hcount, List.take_length]
    exact hsubs
  rw [build, if_neg (by decide), if_pos rfl, hmessage]
  rfl

/-- The layout of a linked message that fits: every field keeps everything but its offset and its
presence. -/
private theorem layout_eq {platform : Platform} {fs : List FieldSpec} {oneofs os : List (List ℕ)}
    {d : MtDecoder} (hplat : d.platform = platform) (hfit : Fits platform fs oneofs)
    (hlinked : AllLinked platform fs oneofs d.table.fields)
    (hreps : d.oneofs.map (·.rep) = messageReps platform fs oneofs)
    (hcounts : d.repCounts = pushedCounts (fun _ => 0) (messageReps platform fs oneofs))
    (hlen : os.length = d.oneofs.length)
    (hchains : ∀ (k : ℕ) (o : List ℕ) (it : OneOfLayoutItem), os[k]? = some o →
      d.oneofs[k]? = some it → Seg (nextMember d.table.fields) (some it.fieldIndex) o.reverse none)
    (hnodup : os.flatten.Nodup)
    (hmember : ∀ j ∈ os.flatten, ∃ f, d.table.fields[j]? = some f ∧ kOneofBase ≤ f.offset) :
    ∃ t, layout d = .ok t ∧ t.fieldCount = d.table.fieldCount ∧ t.ext = d.table.ext ∧
      t.requiredCount = specCount fs oneofs kRequiredPresence ∧
      (∀ j : ℕ, j ∉ os.flatten → ∃ ofs : MiniTableField → ℕ, t.fields[j]? =
        d.table.fields[j]?.map fun f =>
          { f with offset := ofs f, presence := hasbitPresence d.table.fields j f }) ∧
      ∀ (k : ℕ) (o : List ℕ) (c : ℕ), os[k]? = some o →
        (messageCases platform fs oneofs)[k]? = some c →
        ∃ data, ∀ j ∈ o, t.fields[j]? = d.table.fields[j]?.map fun f =>
          { f with offset := data, presence := -(c : ℤ) - 1 } := by
  subst hplat
  have hreq := hlinked.classCount_eq (c := kRequiredPresence) (by decide)
  have hbit := hlinked.classCount_eq (c := kHasbitPresence) (by decide)
  obtain ⟨fields, hassign, hget⟩ := assignHasbits_eq d (hreq ▸ hfit.required)
    (hreq ▸ hbit ▸ hfit.hasbits)
  -- hasbits change neither links nor representations
  have hlinked₁ : AllLinked d.platform fs oneofs fields := hlinked.of_presence hget
  have hnext : nextMember fields = nextMember d.table.fields := by
    funext i
    rw [nextMember, nextMember, hget]
    cases d.table.fields[i]? <;> rfl
  have hbytes : hasbitBytes d.table.fields = headerBytes fs oneofs := by
    rw [hasbitBytes, headerBytes, hreq, hbit]
  have hslots : oneofSlots (messageReps d.platform fs oneofs) ++ fieldSlots fields =
      messageSlots d.platform fs oneofs := by
    rw [messageSlots, hlinked₁.fieldSlots_eq]
  set d₁ : MtDecoder := { d with table := { d.table with
    fields := fields
    requiredCount := classCount d.table.fields kRequiredPresence
    size := hasbitBytes d.table.fields } } with hd₁
  set d₂ : MtDecoder := { d₁ with
    repCounts := (messageLayout d.platform fs oneofs).2
    table := { d₁.table with size := (messageLayout d.platform fs oneofs).1 } } with hd₂
  have halign : calculateAlignments d₁ = .ok d₂ := by
    have hideal : idealLayout d₁.platform d₁.table.size
        (oneofSlots (messageReps d.platform fs oneofs) ++ fieldSlots d₁.table.fields) =
        messageLayout d.platform fs oneofs := by
      change idealLayout d.platform (hasbitBytes d.table.fields)
        (oneofSlots (messageReps d.platform fs oneofs) ++ fieldSlots fields) = _
      rw [hslots, hbytes, messageLayout]
    have heq := calculateAlignments_eq d₁ hcounts (hideal ▸ hfit.size)
    simp only [hideal] at heq
    exact heq
  have hmember₂ : ∀ j ∈ os.flatten, ∃ f, d₂.table.fields[j]? = some f ∧ kOneofBase ≤ f.offset := by
    intro j hj
    obtain ⟨f, hf, hge⟩ := hmember j hj
    refine ⟨{ f with presence := hasbitPresence d.table.fields j f }, ?_, hge⟩
    change fields[j]? = _
    rw [hget, hf]
    rfl
  have hchains₂ : ∀ (k : ℕ) (o : List ℕ) (it : OneOfLayoutItem), os[k]? = some o →
      d₂.oneofs[k]? = some it → Seg (nextMember d₂.table.fields) (some it.fieldIndex) o.reverse none := by
    change ∀ (k : ℕ) (o : List ℕ) (it : OneOfLayoutItem), os[k]? = some o →
      d.oneofs[k]? = some it → Seg (nextMember fields) (some it.fieldIndex) o.reverse none
    rw [hnext]
    exact hchains
  obtain ⟨hframe, hcase⟩ := assignOffsets_eq d₂ (fun r => idealLayout_le hfit.size r) hlen hchains₂
    hnodup hmember₂
  refine ⟨(assignOffsets d₂).table, ?_, rfl, rfl, hreq, ?_, ?_⟩
  · rw [layout, hassign]
    change (calculateAlignments d₁).bind _ = _
    rw [halign]
    rfl
  · intro j hj
    obtain ⟨ofs, hofs⟩ := hframe j hj
    refine ⟨fun f => ofs { f with presence := hasbitPresence d.table.fields j f }, ?_⟩
    rw [hofs]
    change fields[j]?.map _ = _
    rw [hget, Option.map_map]
    rfl
  · intro k o c ho hc
    have hcases : caseOffsets d₂.platform ((fieldSlots d₂.table.fields).foldl (advance d₂.platform)
        d₂.repCounts) (d₂.oneofs.map (·.rep)) = messageCases d.platform fs oneofs := by
      change caseOffsets d.platform ((fieldSlots fields).foldl (advance d.platform)
        (messageLayout d.platform fs oneofs).2) (d.oneofs.map (·.rep)) = _
      rw [hreps, hlinked₁.fieldSlots_eq, messageCases]
    obtain ⟨data, hdata⟩ := hcase k o c ho (hcases ▸ hc)
    refine ⟨data, fun j hj => ?_⟩
    have hsmall := hfit.cases c (List.mem_of_getElem? hc)
    have hpresence : toInt16 (-((toUint16 c : ℕ) : ℤ) - 1) = -(c : ℤ) - 1 := by
      rw [toUint16, Nat.mod_eq_of_lt (by omega), toInt16]
      omega
    rw [hdata j hj]
    change fields[j]?.map _ = _
    rw [hget, Option.map_map]
    simp only [Function.comp_def, asMember, hpresence]

section Field

/-- The rewriting of the stored type is undone when the type is read. -/
private theorem type_parsedField (platform : Platform) (sub : ℕ) (f : FieldSpec) :
    (f.parsedField platform sub).type = f.type := by
  obtain ⟨type, number, rep, packed, closed, singular, req, utf8⟩ := f
  cases type <;> cases closed <;> cases utf8 <;> rfl

private theorem storedType_eq_enum {msgMod : MessageModifiers} {f : FieldSpec}
    (hf : f.Consistent msgMod) : (f.storedType == .enum) = f.mod.isClosedEnum := by
  have hclosed := hf.closedEnum
  obtain ⟨type, number, rep, packed, closed, singular, req, utf8⟩ := f
  cases closed with
  | false => cases type <;> cases utf8 <;> rfl
  | true =>
    obtain rfl : type = .enum := hclosed rfl
    rfl

private theorem storedType_eq_string {msgMod : MessageModifiers} {f : FieldSpec}
    (hf : f.Consistent msgMod) : (f.storedType == .string) = f.mod.validateUtf8 := by
  have hutf8 := hf.validateUtf8
  obtain ⟨type, number, rep, packed, closed, singular, req, utf8⟩ := f
  cases utf8 with
  | false => cases type <;> cases closed <;> rfl
  | true =>
    obtain rfl : type = .string := hutf8 rfl
    rfl

/-- A linked field of the table describes its field once its presence does. -/
private theorem describesField {msgMod : MessageModifiers} {platform : Platform}
    {oneofs : List (List ℕ)} {t : MiniTable} {f : FieldSpec} {g : MiniTableField}
    (hf : f.Consistent msgMod) (htype : g.descriptortype = f.storedType)
    (hmode : g.mode = (f.parsedField platform 0).mode)
    (hrequired : isRequired t g = f.mod.isRequired)
    (hzero : g.presence = 0 ↔ f.presenceClass = kNoPresence)
    (honeof : g.isInOneof = decide (f.number ∈ oneofs.flatten)) : DescribesField t oneofs f g := by
  have harray : g.isArray = f.mod.isRepeated := by
    rw [MiniTableField.isArray, hmode, FieldSpec.parsedField]
    cases f.mod.isRepeated <;> rfl
  have hscalar : g.isScalar = !f.mod.isRepeated := by
    rw [MiniTableField.isScalar, hmode, FieldSpec.parsedField]
    cases f.mod.isRepeated <;> rfl
  refine ⟨?_, harray, hscalar, ?_, hrequired, ?_, ?_, ?_, honeof⟩
  · rw [← type_parsedField platform 0 f, MiniTableField.type, MiniTableField.type, htype, hmode]
    rfl
  · rw [MiniTableField.isPacked, hmode]
    rfl
  · have hsingular := hf.singular
    rw [hscalar, Bool.eq_iff_iff, Bool.and_eq_true, beq_iff_eq, hzero, FieldSpec.presenceClass]
    cases hr : f.mod.isRepeated <;> cases hs : f.mod.isProto3Singular <;>
      cases f.mod.isRequired <;> simp_all [kNoPresence, kRequiredPresence, kHasbitPresence]
  · rw [MiniTableField.isClosedEnum, htype, storedType_eq_enum hf]
  · rw [htype, storedType_eq_string hf]

/-- The presence of a field outside of oneofs tells its presence class. -/
private theorem hasbitPresence_spec {msgMod : MessageModifiers} {platform : Platform}
    {fs : List FieldSpec} {oneofs : List (List ℕ)} {fields : List MiniTableField}
    (hlinked : AllLinked platform fs oneofs fields) {i : ℕ} {f : FieldSpec} {g : MiniTableField}
    (hf : fs[i]? = some f) (hg : fields[i]? = some g) (hcons : f.Consistent msgMod)
    (hnot : f.number ∉ oneofs.flatten) :
    let p := hasbitPresence fields i g
    (decide (kReservedHasbits ≤ p ∧ p < kReservedHasbits + specCount fs oneofs kRequiredPresence) =
      f.mod.isRequired) ∧ (p = 0 ↔ f.presenceClass = kNoPresence) ∧ 0 ≤ p := by
  intro p
  have hcount := hlinked.classCount_eq (c := kRequiredPresence) (by decide)
  have hlt := FieldSpec.presenceClass_lt f
  have hoff : g.offset = f.presenceClass := by
    have hlink := (hlinked.linked i f g hf hg).link
    rw [linkClass, if_neg hnot] at hlink
    omega
  have hp : p = if f.presenceClass = kRequiredPresence then
        ((kReservedHasbits + classBefore fields kRequiredPresence i : ℕ) : ℤ)
      else if f.presenceClass = kHasbitPresence then
        ((kReservedHasbits + specCount fs oneofs kRequiredPresence +
          classBefore fields kHasbitPresence i : ℕ) : ℤ)
      else if f.presenceClass = kNoPresence then 0 else g.presence := by
    rw [← hoff, ← hcount]
    rfl
  have hbefore := fun hc => classBefore_lt (c := kRequiredPresence) hg hc
  rw [hcount, hoff] at hbefore
  rw [hp, FieldSpec.presenceClass] at *
  simp only [kReservedHasbits] at *
  by_cases hnone : (f.mod.isRepeated || f.mod.isProto3Singular) = true
  · have hreq : f.mod.isRequired = false := by
      have h₁ := hcons.required
      have h₂ := hcons.singular
      cases hr : f.mod.isRepeated <;> cases hs : f.mod.isProto3Singular <;> simp_all
    simp [hnone, hreq, kNoPresence, kRequiredPresence, kHasbitPresence]
  · by_cases hreq : f.mod.isRequired = true
    · simp only [hnone, hreq, Bool.false_eq_true, ↓reduceIte] at hbefore ⊢
      have hlt := hbefore trivial
      refine ⟨by simp; omega, ?_, by omega⟩
      simp only [kRequiredPresence, kNoPresence]
      omega
    · simp only [hnone, hreq, Bool.false_eq_true, ↓reduceIte, kHasbitPresence, kRequiredPresence,
        kNoPresence]
      exact ⟨by simp, by omega, by omega⟩

/-- Two oneofs with a common member are the same one. -/
private theorem index_unique {os : List (List ℕ)} (hnodup : os.flatten.Nodup) {k m n : ℕ}
    {o p : List ℕ} (ho : os[k]? = some o) (hp : os[m]? = some p) (hno : n ∈ o) (hnp : n ∈ p) :
    k = m := by
  obtain ⟨hk, rfl⟩ := List.getElem?_eq_some_iff.mp ho
  obtain ⟨hm, rfl⟩ := List.getElem?_eq_some_iff.mp hp
  have hdisj := List.pairwise_iff_getElem.mp (List.nodup_flatten.mp hnodup).2
  rcases Nat.lt_trichotomy k m with hlt | heq | hgt
  · exact absurd hnp (hdisj k m hk hm hlt hno)
  · exact heq
  · exact absurd hno (hdisj m k hm hk hgt hnp)

private theorem length_messageCases (platform : Platform) (fs : List FieldSpec)
    (oneofs : List (List ℕ)) : (messageCases platform fs oneofs).length = oneofs.length := by
  have hcases : ∀ (reps : List FieldRep) (offsets : FieldRep → ℕ),
      (caseOffsets platform offsets reps).length = reps.length := by
    intro reps
    induction reps with
    | nil => exact fun _ => rfl
    | cons r reps ih => exact fun _ => congrArg (· + 1) (ih _)
  have hreps : ∀ (os : List (List ℕ)) (rep : FieldRep) (repOf : ℕ → FieldRep),
      (oneofReps platform repOf rep os).length = os.length := by
    intro os
    induction os with
    | nil => exact fun _ _ => rfl
    | cons o os ih => exact fun _ _ => congrArg (· + 1) (ih _ _)
  rw [messageCases, hcases, messageReps, hreps, oneofIndices, List.length_map]

end Field

section Table

variable {platform : Platform} {msgMod : MessageModifiers} {fs : List FieldSpec}
  {oneofs : List (List ℕ)} {fields : List MiniTableField} {t : MiniTable}

/-- A table after the layout: each field is the linked one with an offset and a presence, which is a
hasbit or zero outside of oneofs and the complement of the case offset inside. -/
private structure LaidOut (platform : Platform) (fs : List FieldSpec) (oneofs : List (List ℕ))
    (fields : List MiniTableField) (t : MiniTable) : Prop where
  plain : ∀ (i : ℕ) (f : FieldSpec) (g : MiniTableField), fs[i]? = some f → fields[i]? = some g →
    f.number ∉ oneofs.flatten →
    ∃ ofs, t.fields[i]? = some { g with offset := ofs, presence := hasbitPresence fields i g }
  member : ∀ (i : ℕ) (f : FieldSpec) (g : MiniTableField), fs[i]? = some f → fields[i]? = some g →
    ∀ (k : ℕ) (o : List ℕ) (c : ℕ), oneofs[k]? = some o →
      (messageCases platform fs oneofs)[k]? = some c → f.number ∈ o →
      ∃ ofs, t.fields[i]? = some { g with offset := ofs, presence := -(c : ℤ) - 1 }
  length : t.fields.length = fs.length

/-- The case word of a member. -/
private theorem exists_case (platform : Platform) (fs : List FieldSpec) {n : ℕ}
    (hn : n ∈ oneofs.flatten) : ∃ (k : ℕ) (o : List ℕ) (c : ℕ), oneofs[k]? = some o ∧
      (messageCases platform fs oneofs)[k]? = some c ∧ n ∈ o := by
  obtain ⟨o, ho, hno⟩ := List.mem_flatten.mp hn
  obtain ⟨k, hk⟩ := List.getElem?_of_mem ho
  have hlt : k < (messageCases platform fs oneofs).length := by
    rw [length_messageCases]
    exact (List.getElem?_eq_some_iff.mp hk).1
  exact ⟨k, o, _, hk, List.getElem?_eq_getElem hlt, hno⟩

/-- Different oneofs have different case words. -/
private theorem case_unique {k m c : ℕ} (hk : (messageCases platform fs oneofs)[k]? = some c)
    (hm : (messageCases platform fs oneofs)[m]? = some c) : k = m := by
  obtain ⟨hkl, hkc⟩ := List.getElem?_eq_some_iff.mp hk
  obtain ⟨hml, hmc⟩ := List.getElem?_eq_some_iff.mp hm
  have hinc := List.pairwise_iff_getElem.mp (caseOffsets_increasing platform
    (((fs.filter (linkClass oneofs · < kOneofBase)).map (·.rep platform)).foldl (advance platform)
      (messageLayout platform fs oneofs).2) (messageReps platform fs oneofs))
  rcases Nat.lt_trichotomy k m with hlt | heq | hgt
  · have := hinc k m hkl hml hlt
    exact absurd (hkc.trans hmc.symm) this.ne
  · exact heq
  · have := hinc m k hml hkl hgt
    exact absurd (hmc.trans hkc.symm) this.ne

/-- A member is a plain optional field. -/
private theorem Legal.member_class (h : Legal msgMod fs oneofs) {i : ℕ} {f : FieldSpec}
    (hf : fs[i]? = some f) (hmem : f.number ∈ oneofs.flatten) :
    f.presenceClass = kHasbitPresence ∧ f.mod.isRequired = false := by
  obtain ⟨f', hf', -, hclass⟩ := h.member_index hmem
  rw [indexOf_eq h.sorted hf, hf] at hf'
  obtain rfl := Option.some.inj hf'
  refine ⟨hclass, ?_⟩
  rw [FieldSpec.presenceClass] at hclass
  cases hreq : f.mod.isRequired with
  | false => rfl
  | true =>
    rw [hreq] at hclass
    split at hclass <;> simp [kNoPresence, kHasbitPresence, kRequiredPresence] at hclass

private theorem LaidOut.describes (hlaid : LaidOut platform fs oneofs fields t)
    (h : Legal msgMod fs oneofs) (hlinked : AllLinked platform fs oneofs fields)
    (hcount : t.fieldCount = fs.length) (hext : t.ext = ⟨msgMod.isExtendable, false, false⟩)
    (hrequired : t.requiredCount = specCount fs oneofs kRequiredPresence) :
    Describes msgMod fs oneofs t := by
  have hget : ∀ (i : ℕ) (f : FieldSpec), fs[i]? = some f → ∃ g, fields[i]? = some g ∧
      Linked platform oneofs f g := by
    intro i f hf
    have hi : i < fields.length := hlinked.length ▸ (List.getElem?_eq_some_iff.mp hf).1
    have hg : fields[i]? = some fields[i] := List.getElem?_eq_getElem hi
    exact ⟨_, hg, hlinked.linked i f _ hf hg⟩
  refine ⟨?_, hcount, hext, ?_, ?_⟩
  · refine List.ext_getElem? fun i => ?_
    rw [List.getElem?_map, List.getElem?_map]
    cases hf : fs[i]? with
    | none =>
      rw [List.getElem?_eq_none_iff, ← hlaid.length] at hf
      rw [List.getElem?_eq_none hf]
      rfl
    | some f =>
      obtain ⟨g, hg, hl⟩ := hget i f hf
      by_cases hmem : f.number ∈ oneofs.flatten
      · obtain ⟨k, o, c, ho, hc, hno⟩ := exists_case platform fs hmem
        obtain ⟨ofs, hofs⟩ := hlaid.member i f g hf hg k o c ho hc hno
        rw [hofs, Option.map_some, Option.map_some, ← hl.number]
      · obtain ⟨ofs, hofs⟩ := hlaid.plain i f g hf hg hmem
        rw [hofs, Option.map_some, Option.map_some, ← hl.number]
  · intro i f g' hf hg'
    have hcons := h.consistent f (List.mem_of_getElem? hf)
    obtain ⟨g, hg, hl⟩ := hget i f hf
    by_cases hmem : f.number ∈ oneofs.flatten
    · obtain ⟨k, o, c, ho, hc, hno⟩ := exists_case platform fs hmem
      obtain ⟨ofs, hofs⟩ := hlaid.member i f g hf hg k o c ho hc hno
      rw [hofs] at hg'
      cases hg'
      obtain ⟨hclass, hreq⟩ := h.member_class hf hmem
      refine describesField hcons hl.descriptortype hl.mode ?_ ?_ ?_
      · rw [hreq, isRequired, decide_eq_false_iff_not]
        simp only [kReservedHasbits]
        omega
      · rw [hclass]
        simp only [kHasbitPresence, kNoPresence]
        omega
      · simp only [MiniTableField.isInOneof, hmem, decide_true, decide_eq_true_eq]
        omega
    · obtain ⟨ofs, hofs⟩ := hlaid.plain i f g hf hg hmem
      rw [hofs] at hg'
      cases hg'
      obtain ⟨hreq, hzero, hnonneg⟩ := hasbitPresence_spec hlinked hf hg hcons hmem
      refine describesField hcons hl.descriptortype hl.mode ?_ hzero ?_
      · rw [isRequired, hrequired]
        exact hreq
      · simpa [MiniTableField.isInOneof, hmem] using hnonneg
  · intro i j f f' g g' hf hf' hg hg' hmem hmem'
    obtain ⟨l, hl, -⟩ := hget i f hf
    obtain ⟨l', hl', -⟩ := hget j f' hf'
    obtain ⟨k, o, c, ho, hc, hno⟩ := exists_case platform fs hmem
    obtain ⟨m, p, c', hp, hc', hnp⟩ := exists_case platform fs hmem'
    obtain ⟨ofs, hofs⟩ := hlaid.member i f l hf hl k o c ho hc hno
    obtain ⟨ofs', hofs'⟩ := hlaid.member j f' l' hf' hl' m p c' hp hc' hnp
    rw [hofs] at hg
    rw [hofs'] at hg'
    cases hg
    cases hg'
    constructor
    · intro heq
      have hcc : c = c' := by
        simp only at heq
        omega
      subst hcc
      obtain rfl := case_unique hc hc'
      rw [ho] at hp
      cases hp
      exact ⟨o, List.mem_of_getElem? ho, hno, hnp⟩
    · rintro ⟨q, hq, hfq, hfq'⟩
      obtain ⟨r, hr⟩ := List.getElem?_of_mem hq
      obtain rfl := index_unique h.distinct ho hr hno hfq
      obtain rfl := index_unique h.distinct hp hr hnp hfq'
      rw [hc] at hc'
      rw [Option.some.inj hc']

end Table

/-- A message that was encoded by legal calls and that fits the table is read back: the same field
numbers in order, and for each field the same type, label, flags and oneof. -/
theorem build_encodeMessage (platform : Platform) {msgMod : MessageModifiers} {fs : List FieldSpec}
    {oneofs : List (List ℕ)} (h : Legal msgMod fs oneofs) (hfit : Fits platform fs oneofs) :
    ∃ out t, encodeMessage msgMod fs oneofs = some out ∧ build platform out = .ok t ∧
      Describes msgMod fs oneofs t := by
  obtain ⟨d, hparse, hparsed⟩ := parse_messageChars platform h hfit.fields
  obtain ⟨fields, hsubs, hsame⟩ := allocateSubs_of_parsed hparsed hfit
  have hcounted : d.table.fields.length = d.table.fieldCount :=
    (allLinked_of_parsed h hparsed).length.trans hparsed.fieldCount.symm
  have hlinked := (allLinked_of_parsed h hparsed).of_eraseSub hsame
  obtain ⟨rep, hinv⟩ := hparsed.inv
  set os := oneofIndices fs oneofs with hos
  set d' : MtDecoder := { d with table := { d.table with fields := fields } } with hd'
  have hoffset : ∀ i : ℕ, fields[i]?.map (·.offset) = d.table.fields[i]?.map (·.offset) := by
    intro i
    have hi := congrArg (fun l => (l.map (·.offset))[i]?) hsame
    simpa [Function.comp_def, eraseSub] using hi
  have hnext : nextMember fields = nextMember d.table.fields := by
    funext i
    have hi := hoffset i
    rw [nextMember, nextMember]
    cases hf : fields[i]? <;> cases hg : d.table.fields[i]? <;> simp_all
  have hmember : ∀ j ∈ os.flatten, ∃ f, fields[j]? = some f ∧ kOneofBase ≤ f.offset := by
    intro j hj
    obtain ⟨f, hf, -⟩ := h.addable_oneofIndices platform 0 j hj
    have hlen : d.table.fields.length = (parsedFields platform 0 fs).length := by
      simpa using congrArg List.length hinv.same
    have hlt : j < d.table.fields.length := hlen ▸ (List.getElem?_eq_some_iff.mp hf).1
    have hg : d.table.fields[j]? = some d.table.fields[j] := List.getElem?_eq_getElem hlt
    have hj' := hoffset j
    rw [hg, Option.map_some] at hj'
    obtain ⟨g', hg', heq⟩ := Option.map_eq_some_iff.mp hj'
    exact ⟨g', hg', heq ▸ hinv.member j (.inl hj) _ hg⟩
  obtain ⟨t, hlayout, hcount, hext, hrequired, hplain, hcase⟩ := layout_eq (d := d')
    hparsed.platform_eq hfit hlinked hparsed.reps hparsed.counts hinv.length
    (by simpa [hd', hnext] using hinv.chains) h.nodup_oneofIndices hmember
  refine ⟨_, t, encodeMessage_eq h, (build_message platform _ hparse hcounted hsubs).trans hlayout, ?_⟩
  have hlaid : LaidOut platform fs oneofs fields t := by
    refine ⟨fun i f g hf hg hnot => ?_, fun i f g hf hg k o c ho hc hno => ?_, ?_⟩
    · obtain ⟨ofs, hofs⟩ := hplain i (mt (h.mem_oneofIndices hf).mp hnot)
      change t.fields[i]? = fields[i]?.map _ at hofs
      rw [hg] at hofs
      exact ⟨ofs g, hofs⟩
    · have ho' : os[k]? = some (o.map (indexOf fs)) := by
        rw [hos, oneofIndices, List.getElem?_map, ho]
        rfl
      obtain ⟨data, hdata⟩ := hcase k _ c ho' hc
      have hi := (h.mem_indices hf fun n hn =>
        List.mem_flatten.mpr ⟨o, List.mem_of_getElem? ho, hn⟩).mpr hno
      have hdata' := hdata i hi
      change t.fields[i]? = fields[i]?.map _ at hdata'
      rw [hg] at hdata'
      exact ⟨data, hdata'⟩
    · rw [← hlinked.length]
      refine length_eq_of_getElem?_none fun i => ?_
      by_cases hi : i ∈ os.flatten
      · obtain ⟨o, ho, hio⟩ := List.mem_flatten.mp hi
        obtain ⟨k, hk⟩ := List.getElem?_of_mem ho
        have hlt : k < (messageCases platform fs oneofs).length := by
          have := (List.getElem?_eq_some_iff.mp hk).1
          rwa [hos, oneofIndices, List.length_map, ← length_messageCases platform fs] at this
        obtain ⟨data, hdata⟩ := hcase k o _ hk (List.getElem?_eq_getElem hlt)
        rw [hdata i hio, Option.map_eq_none_iff]
      · obtain ⟨ofs, hofs⟩ := hplain i hi
        rw [hofs, Option.map_eq_none_iff]
  exact hlaid.describes h hlinked (hcount.trans hparsed.fieldCount) (hext.trans hparsed.ext) hrequired

/-- An extendable message with packed repeated fields by default: a oneof of a number and a string,
an unpacked repeated field, a required closed enum and a field with implicit presence. -/
theorem build_encodeMessage_example :
    ∃ out t, encodeMessage ⟨false, true, true⟩
        [⟨.int32, 1, ⟨false, false, false, false, false, false⟩⟩,
          ⟨.string, 2, ⟨false, false, false, false, false, true⟩⟩,
          ⟨.sint64, 40, ⟨true, false, false, false, false, false⟩⟩,
          ⟨.enum, 41, ⟨false, false, true, false, true, false⟩⟩,
          ⟨.bool, 5000, ⟨false, false, false, true, false, false⟩⟩] [[2, 1]] = some out ∧
      build .bits64 out = .ok t ∧
      Describes ⟨false, true, true⟩
        [⟨.int32, 1, ⟨false, false, false, false, false, false⟩⟩,
          ⟨.string, 2, ⟨false, false, false, false, false, true⟩⟩,
          ⟨.sint64, 40, ⟨true, false, false, false, false, false⟩⟩,
          ⟨.enum, 41, ⟨false, false, true, false, true, false⟩⟩,
          ⟨.bool, 5000, ⟨false, false, false, true, false, false⟩⟩] [[2, 1]] t :=
  build_encodeMessage .bits64
    ⟨by decide, by decide, by decide, by decide, by decide, by decide⟩
    ⟨by decide, by decide, by decide, by decide, by decide, by decide⟩

/-- A repeated field is encoded as the member of a oneof without complaint, and the parser rejects
it. -/
theorem build_encodeMessage_repeated_member :
    ∃ out, encodeMessage ⟨false, false, false⟩
        [⟨.bool, 1, ⟨true, false, false, false, false, false⟩⟩] [[1]] = some out ∧
      build .bits64 out = .error (.cannotAddToOneof 1) :=
  ⟨_, rfl, by decide⟩

end MiniDescriptor

end Upb
