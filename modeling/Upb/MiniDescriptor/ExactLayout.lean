import Upb.MiniDescriptor.IdealTable

/-!
# The layout of an accepted descriptor

The steps of `upb_MiniTable_Build` after the parser on the fields of a declaration. If the members of the
oneofs could be linked and the layout ends below 2^16, the representations are counted and placed as in
unbounded numbers, and so is every field; only presences and the aligned size may be reduced.
-/

namespace Upb

namespace MiniDescriptor

open Upb.Common (Seg)

section Subs

/-- Allocating sub tables changes only their offsets. -/
theorem eraseSub_allocateSubsLoop {ptr ofs : ℕ} {fields fields' : List MiniTableField}
    (h : allocateSubsLoop ptr ofs fields = .ok fields') : fields'.map eraseSub = fields.map eraseSub := by
  induction fields generalizing ofs fields' with
  | nil =>
    cases h
    rfl
  | cons f fields ih =>
    rw [allocateSubsLoop] at h
    split at h
    · obtain ⟨rest, hrest, h⟩ := bind_eq_ok.mp h
      cases h
      rw [List.map_cons, List.map_cons, ih hrest]
    · split at h
      · cases h
      · obtain ⟨rest, hrest, h⟩ := bind_eq_ok.mp h
        cases h
        rw [List.map_cons, List.map_cons, ih hrest]
        rfl

theorem allocateSubs_eq {d d' : MtDecoder} (h : allocateSubs d = .ok d') :
    ∃ fields : List MiniTableField, fields.map eraseSub = d.table.fields.map eraseSub ∧
      d' = { d with table := { d.table with fields := fields } } := by
  obtain ⟨fields, hloop, h⟩ := bind_eq_ok.mp h
  cases h
  exact ⟨fields, eraseSub_allocateSubsLoop hloop, rfl⟩

/-- The offset of a sub table is no part of a link. -/
theorem nextMember_of_eraseSub {fields fields' : List MiniTableField}
    (h : fields'.map eraseSub = fields.map eraseSub) : nextMember fields' = nextMember fields := by
  have hoffset : ∀ i : ℕ, (fields'[i]?).map (·.offset) = (fields[i]?).map (·.offset) := by
    intro i
    have h := congrArg (fun l => (l.map (·.offset))[i]?) h
    simpa [List.map_map, Function.comp_def, eraseSub] using h
  funext i
  have h := hoffset i
  rw [nextMember, nextMember]
  cases hf : fields[i]? <;> cases hf' : fields'[i]? <;> simp_all

end Subs

section Ready

/-- The decoder in front of the layout of a declaration. -/
structure Ready (platform : Platform) (decl : Declaration) (d : MtDecoder) : Prop where
  platform_eq : d.platform = platform
  fieldCount_eq : d.table.fieldCount = decl.fields.length
  alike : Alike decl.linked d.table.fields
  presence : ∀ f ∈ d.table.fields, f.presence = 0
  reps : d.oneofs.map (·.rep) = decl.reps platform
  counts : d.repCounts = pushedCounts (fun _ => 0) (decl.reps platform)
  length_eq : decl.oneofs.length = d.oneofs.length
  chains : ∀ (k : ℕ) (o : List ℕ) (it : OneOfLayoutItem), decl.oneofs[k]? = some o →
    d.oneofs[k]? = some it → Seg (nextMember d.table.fields) (some it.fieldIndex) o.reverse none
  plain : ∀ f ∈ decl.fields, f.offset < kOneofBase ∧ f.presence = 0
  members : Members decl.fields decl.oneofs.flatten
  nonempty : ∀ o ∈ decl.oneofs, o ≠ []

variable {platform : Platform} {decl : Declaration} {d : MtDecoder}

/-- The fields of the decoder look like those of the declaration with the members set apart. -/
private theorem alike_of_inv {items : List OneOfLayoutItem} {fields : List MiniTableField}
    {item : OneOfLayoutItem} (hinv : OneofInv decl.fields fields items decl.oneofs [] item) :
    Alike decl.linked fields := by
  refine List.ext_getElem? fun i => ?_
  have hsame := congrArg (fun l => l[i]?) hinv.same
  simp only [List.getElem?_map] at hsame
  rw [List.getElem?_map, List.getElem?_map, Declaration.linked_getElem?]
  by_cases hi : i ∈ decl.oneofs.flatten
  · cases hf : decl.fields[i]? with
    | none =>
      rw [hf, Option.map_none, Option.map_eq_none_iff] at hsame
      rw [hsame]
      rfl
    | some f =>
      rw [hf, Option.map_some] at hsame
      obtain ⟨g, hg, heq⟩ := Option.map_eq_some_iff.mp hsame
      have hge := hinv.member i (.inl hi) g hg
      have hrep : g.mode.rep = f.mode.rep := congrArg (·.mode.rep) heq
      simp [hg, shape, hi, hrep, hge]
  · rw [hinv.frame i hi List.not_mem_nil]
    simp [hi]

private theorem presence_of_inv {items : List OneOfLayoutItem} {fields : List MiniTableField}
    {item : OneOfLayoutItem} (hinv : OneofInv decl.fields fields items decl.oneofs [] item)
    (hplain : ∀ f ∈ decl.fields, f.presence = 0) : ∀ f ∈ fields, f.presence = 0 := by
  intro f hf
  have hmem : eraseOffset f ∈ decl.fields.map eraseOffset := hinv.same ▸ List.mem_map_of_mem hf
  obtain ⟨g, hg, heq⟩ := List.mem_map.mp hmem
  exact (congrArg (·.presence) heq).symm.trans (hplain g hg)

/-- What `upb_MtDecoder_ParseMessage` leaves of an accepted descriptor. -/
theorem ready_of_parseMessage {data : List ℕ} (h : parseMessage (MtDecoder.initial platform) data = .ok d) :
    ∃ decl, declare platform data = some decl ∧ d.platform = platform ∧
      d.table.fieldCount = toUint16 decl.fields.length ∧
      (∀ i ∈ decl.oneofs.flatten, i < decl.fields.length) ∧
      (decl.fields.length ≤ uint16Max → LinksFit decl.oneofs → Ready platform decl d) := by
  obtain ⟨d₀, hparse, h⟩ := bind_eq_ok.mp h
  obtain ⟨decl, hdecl, hparsed, hlinked⟩ := parsedAs_of_parse hparse
  obtain ⟨fields, hfields, rfl⟩ := allocateSubs_eq h
  refine ⟨decl, hdecl, hparsed.platform_eq, hparsed.fieldCount_eq, hparsed.members_lt,
    fun hlength hlinks => ?_⟩
  have hcount : d₀.table.fieldCount = decl.fields.length :=
    hparsed.fieldCount_eq.trans (toUint16_eq hlength)
  have hfields : fields.map eraseSub = d₀.table.fields.map eraseSub := by
    rw [hfields]
    change (d₀.table.fields.take d₀.table.fieldCount).map eraseSub = _
    rw [hcount, ← hparsed.length_eq, List.take_length]
  have hl := hlinked hlinks
  obtain ⟨rep, hinv⟩ := hl.inv
  refine ⟨hparsed.platform_eq, hcount, (alike_of_inv hinv).trans (alike_of_eraseSub hfields), ?_, hl.reps,
    hl.counts, hinv.length, ?_, hparsed.plain, hl.members, hl.nonempty⟩
  · intro f hf
    have hmem : eraseSub f ∈ d₀.table.fields.map eraseSub := hfields ▸ List.mem_map_of_mem hf
    obtain ⟨g, hg, heq⟩ := List.mem_map.mp hmem
    exact (congrArg (·.presence) heq).symm.trans
      (presence_of_inv hinv (fun f hf => (hparsed.plain f hf).2) g hg)
  · rw [nextMember_of_eraseSub hfields]
    exact hinv.chains

end Ready

section Placed

/-- What the steps of the layout leave, with the reductions to 16 bits that are left. -/
structure Placed (platform : Platform) (decl : Declaration) (d₂ d₃ : MtDecoder) (t : MiniTable) : Prop where
  counts : ∀ r, countedReps d₂ r = (decl.slots platform).count r
  bases : d₃.repCounts = (decl.layout platform).2
  end_eq : d₃.table.size = (decl.layout platform).1
  fieldCount_eq : t.fieldCount = decl.fields.length
  length_eq : t.fields.length = decl.fields.length
  requiredCount_eq : t.requiredCount = classCount decl.linked kRequiredPresence
  size_eq : t.size = toUint16 (alignUp (decl.layout platform).1 8)
  field : ∀ (i : ℕ) (f : MiniTableField), t.fields[i]? = some f →
    f.presence = toInt16 (decl.presence platform i) ∧ f.offset = decl.offset platform i ∧
      f.mode.rep = repAt decl.fields i

variable {platform : Platform} {decl : Declaration} {d : MtDecoder}

theorem idealLayout_append_comm (platform : Platform) (size : ℕ) (a b : List FieldRep) :
    idealLayout platform size (a ++ b) = idealLayout platform size (b ++ a) := by
  have hcount : (fun r => (a ++ b).count r) = fun r => (b ++ a).count r := by
    funext r
    rw [List.count_append, List.count_append, Nat.add_comm]
  rw [idealLayout, idealLayout, hcount]

theorem slotAt_le {k : ℕ} {r : FieldRep} (hend : (decl.layout platform).1 ≤ uint16Max)
    (hk : (decl.slots platform)[k]? = some r) : decl.slotAt platform k ≤ uint16Max := by
  have h : slotOffset platform (decl.layout platform).2 (decl.slots platform) k + sizeOfRep platform r ≤
    (decl.layout platform).1 := (slot_inside hk).2.2
  exact (Nat.le_add_right _ _).trans (h.trans hend)

/-- A field as the layout finds it. -/
private theorem Ready.linked_eq (h : Ready platform decl d) {i : ℕ} {f : MiniTableField}
    (hf : d.table.fields[i]? = some f) : ∃ g, decl.linked[i]? = some g ∧ shape g = shape f ∧
      g.mode.rep = repAt decl.fields i := by
  have halike := congrArg (fun l => l[i]?) h.alike
  simp only [List.getElem?_map, hf, Option.map_some] at halike
  obtain ⟨g, hg, hshape⟩ := Option.map_eq_some_iff.mp halike.symm
  refine ⟨g, hg, hshape, ?_⟩
  rw [Declaration.linked_getElem?] at hg
  obtain ⟨g', hg', rfl⟩ := Option.map_eq_some_iff.mp hg
  rw [repAt, hg']
  split <;> rfl

/-- A member of a oneof as the layout finds it. -/
private theorem Ready.member_eq (h : Ready platform decl d) {i : ℕ} (hi : i ∈ decl.oneofs.flatten) :
    ∃ f, d.table.fields[i]? = some f ∧ kOneofBase ≤ f.offset := by
  obtain ⟨g, hg, -⟩ := h.members.hasbit i hi
  have halike := congrArg (fun l => l[i]?) h.alike
  simp only [List.getElem?_map, Declaration.linked_getElem?, hg, Option.map_some, if_pos hi] at halike
  obtain ⟨f, hf, hshape⟩ := Option.map_eq_some_iff.mp halike
  refine ⟨f, hf, ?_⟩
  have hmin : min f.offset kOneofBase = min kOneofBase kOneofBase := congrArg Prod.fst hshape
  omega

/-- A field outside of oneofs as the layout finds it. -/
theorem Ready.plain_eq (h : Ready platform decl d) {i : ℕ} (hi : i ∉ decl.oneofs.flatten)
    {f : MiniTableField} (hf : d.table.fields[i]? = some f) :
    ∃ g, decl.linked[i]? = some g ∧ f.offset = g.offset ∧ f.mode.rep = g.mode.rep ∧ f.presence = 0 ∧
      g.presence = 0 ∧ g.offset < kOneofBase := by
  obtain ⟨g, hg, hshape, -⟩ := h.linked_eq hf
  have hplain : g.offset < kOneofBase ∧ g.presence = 0 := by
    rw [Declaration.linked_getElem?] at hg
    obtain ⟨g', hg', rfl⟩ := Option.map_eq_some_iff.mp hg
    rw [if_neg hi]
    exact h.plain g' (List.mem_of_getElem? hg')
  obtain ⟨hoffset, hrep⟩ := Prod.mk.inj hshape
  refine ⟨g, hg, ?_, hrep.symm, h.presence f (List.mem_of_getElem? hf), hplain.2, hplain.1⟩
  have := hplain.1
  omega

/-- The presence of a field outside of oneofs is at most cut to 16 bits. -/
private theorem storedPresence_plain {fields : List MiniTableField} {i : ℕ} {f : MiniTableField}
    (hpresence : f.presence = 0) :
    storedPresence fields i f = toInt16 (hasbitPresence fields i f) := by
  rw [storedPresence]
  split
  · rfl
  · next hclass =>
    have hzero : hasbitPresence fields i f = 0 := by
      rw [hasbitPresence, if_neg fun hr => hclass (.inl hr), if_neg fun hh => hclass (.inr hh), hpresence,
        ite_self]
    rw [hzero]
    rfl

/-- The layout of a declaration that ends below 2^16. -/
theorem Ready.placed (h : Ready platform decl d)
    (hreq : classCount decl.linked kRequiredPresence ≤ 63)
    (hend : (decl.layout platform).1 ≤ uint16Max) :
    ∃ d₂ d₃, assignHasbits d = .ok d₂ ∧ calculateAlignments d₂ = .ok d₃ ∧
      Placed platform decl d₂ d₃ (assignOffsets d₃).table := by
  obtain rfl := h.platform_eq
  have hreq' : classCount d.table.fields kRequiredPresence ≤ 63 := by
    rwa [h.alike.classCount_eq (by decide)]
  obtain ⟨fields, hassign, hget⟩ := assignHasbits_spec d hreq'
  have halike : Alike decl.linked fields := h.alike.trans (alike_of_presence hget)
  have hsize : toUint16 (hasbitBytes d.table.fields) = hasbitBytes decl.linked := by
    rw [h.alike.hasbitBytes_eq]
    exact toUint16_eq ((le_foldl_idealAlign d.platform allReps _).trans hend)
  rw [hsize, h.alike.classCount_eq (by decide)] at hassign
  obtain ⟨d₂, hd₂⟩ : ∃ d₂ : MtDecoder, d₂ = { d with table := { d.table with
    fields := fields
    requiredCount := classCount decl.linked kRequiredPresence
    size := hasbitBytes decl.linked } } := ⟨_, rfl⟩
  have hplatform : d₂.platform = d.platform := by rw [hd₂]
  have hfields : d₂.table.fields = fields := by rw [hd₂]
  have honeofs : d₂.oneofs = d.oneofs := by rw [hd₂]
  have hcounts : d₂.repCounts = pushedCounts (fun _ => 0) (decl.reps d.platform) := by rw [hd₂, ← h.counts]
  have hlayout : idealLayout d₂.platform d₂.table.size
      (oneofSlots (decl.reps d.platform) ++ fieldSlots d₂.table.fields) = decl.layout d.platform := by
    rw [hplatform, hfields, halike.fieldSlots_eq, idealLayout_append_comm, hd₂]
    rfl
  have halign := calculateAlignments_eq d₂ hcounts (hlayout ▸ hend)
  simp only [hlayout] at halign
  obtain ⟨d₃, hd₃⟩ : ∃ d₃ : MtDecoder, d₃ = { d₂ with
    repCounts := (decl.layout d.platform).2
    table := { d₂.table with size := (decl.layout d.platform).1 } } := ⟨_, rfl⟩
  have hfields₃ : d₃.table.fields = fields := by rw [hd₃, ← hfields]
  have hbases : d₃.repCounts = (decl.layout d.platform).2 := by rw [hd₃]
  have hend₃ : d₃.table.size = (decl.layout d.platform).1 := by rw [hd₃]
  have hplatform₃ : d₃.platform = d.platform := by rw [hd₃, ← hplatform]
  have honeofs₃ : d₃.oneofs = d.oneofs := by rw [hd₃, ← honeofs]
  have hnext : nextMember fields = nextMember d.table.fields := by
    funext i
    rw [nextMember, nextMember, hget]
    cases d.table.fields[i]? <;> rfl
  have hlink : ∀ i ∈ decl.oneofs.flatten, ∃ f, d₃.table.fields[i]? = some f ∧ kOneofBase ≤ f.offset := by
    intro i hi
    obtain ⟨f, hf, hge⟩ := h.member_eq hi
    refine ⟨{ f with presence := storedPresence d.table.fields i f }, ?_, hge⟩
    rw [hfields₃, hget, hf, Option.map_some]
  obtain ⟨hplain, hcase⟩ := assignOffsets_exact d₃ (fun r => hbases ▸ idealLayout_le hend r)
    (honeofs₃ ▸ h.length_eq) (by rw [hfields₃, hnext, honeofs₃]; exact h.chains) h.members.nodup hlink
  rw [hplatform₃, hfields₃, hbases] at hplain hcase
  rw [honeofs₃, h.reps, halike.fieldSlots_eq] at hcase
  have hlength : (assignOffsets d₃).table.fields.length = decl.fields.length := by
    have hnumbers := congrArg List.length (sameNumbers_assignOffsets d₃).numbers_eq
    have hshapes := congrArg List.length halike
    simp only [numbers, List.length_map, Declaration.linked, List.length_mapIdx] at hnumbers hshapes
    rw [hnumbers, hfields₃, hshapes]
  refine ⟨d₂, d₃, ?_, ?_, fun r => ?_, hbases, hend₃, ?_, hlength, ?_, ?_, ?_⟩
  · rw [hassign, hd₂]
  · rw [halign, hd₃]
  · -- no more slots than bytes
    have hle : (decl.slots d.platform).count r ≤ uint16Max := (count_le_foldl_idealAlign d.platform
      (mem_allReps r) (by decide) (hasbitBytes decl.linked, fun r => (decl.slots d.platform).count r)).trans hend
    rw [countedReps_eq d₂ hcounts, hfields, halike.fieldSlots_eq, ← toUint16_eq hle, Declaration.slots,
      List.count_append, List.count_append, Nat.add_comm]
  · rw [← h.fieldCount_eq, assignOffsets, hd₃, hd₂]
  · rw [assignOffsets, hd₃, hd₂]
  · rw [← hend₃, assignOffsets]
  · intro i f hf
    by_cases hi : i ∈ decl.oneofs.flatten
    · obtain ⟨o, ho, hio⟩ := List.mem_flatten.mp hi
      obtain ⟨k, hk⟩ := List.getElem?_of_mem ho
      have hlt : k < (decl.reps d.platform).length := by
        rw [← h.reps, List.length_map, ← h.length_eq]
        exact (List.getElem?_eq_some_iff.mp hk).1
      have hr := List.getElem?_eq_getElem hlt
      obtain ⟨hc, hdata⟩ := oneofOffsets_eq d.platform (decl.layout d.platform).2 (fieldSlots decl.linked)
        (decl.reps d.platform) k hlt
      have hmember := hcase k o (decl.slotAt d.platform (decl.caseSlot k))
        (decl.slotAt d.platform (decl.dataSlot k)) hk hc hdata i hio
      rw [toUint16_eq (slotAt_le hend (slots_caseSlot hr)), toUint16_eq (slotAt_le hend (slots_dataSlot hr)),
        hget, Option.map_map, hf] at hmember
      obtain ⟨f₀, hf₀, rfl⟩ := Option.map_eq_some_iff.mp hmember.symm
      obtain ⟨g, -, hshape, hrep⟩ := h.linked_eq hf₀
      have honeof := Declaration.oneofOf_eq_some h.members.nodup hk hio
      refine ⟨?_, ?_, (congrArg Prod.snd hshape).symm.trans hrep⟩
      · rw [Declaration.presence, honeof]
        rfl
      · rw [Declaration.offset, honeof]
        rfl
    · have honeof := Declaration.oneofOf_eq_none hi
      have hfield := hplain i hi
      rw [hget, Option.map_map, hf] at hfield
      obtain ⟨f₀, hf₀, rfl⟩ := Option.map_eq_some_iff.mp hfield.symm
      obtain ⟨g, hg, hoffset, hrep, hzero, hzero', hlt⟩ := h.plain_eq hi hf₀
      obtain ⟨g', hg', -, hrep'⟩ := h.linked_eq hf₀
      obtain rfl : g' = g := Option.some.inj (hg'.symm.trans hg)
      have hslot : (decl.slots d.platform)[decl.fieldSlot i]? = some g'.mode.rep := slots_fieldSlot hg hlt
      have hadvance : (fieldSlots (fields.take i)).foldl (advance d.platform) (decl.layout d.platform).2
          g'.mode.rep = decl.slotAt d.platform (decl.fieldSlot i) := by
        rw [(halike.take i).fieldSlots_eq, Declaration.slotAt, Declaration.slots, fieldSlots_split hg hlt,
          List.append_assoc, List.cons_append, Declaration.fieldSlot, slotOffset_append]
      rw [Function.comp_apply, if_neg (by simpa only [hoffset, not_le] using hlt)]
      dsimp only
      refine ⟨?_, ?_, hrep.trans hrep'⟩
      · rw [storedPresence_plain hzero, Declaration.presence, honeof, hg]
        exact congrArg toInt16 (h.alike.hasbitPresence_eq i hoffset (hzero.trans hzero'.symm))
      · rw [hrep, hadvance, toUint16_eq (slotAt_le hend hslot), Declaration.offset, honeof]

end Placed

end MiniDescriptor

end Upb
