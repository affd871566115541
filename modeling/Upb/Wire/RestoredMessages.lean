import Upb.Wire.RestoredMaps

/-!
# What the records of a message restore

The encoder writes the fields that are set, then the extensions and the unknown fields. The decoder
restores one after the other in a new message: what is not written stays unset, and no field disturbs
another, since only the members of a oneof share storage and one of them at most is set.
-/

namespace Upb.Wire

open Upb.Common BoundedReader
open Upb.Compare (Place hasBaseField isSetBaseField dataIsZero IsBaseField setExtension)

section Presence

variable {f g : MiniTableField} {m : Message} {s : Slot}

/-- A field with presence is set afterwards. -/
theorem hasBaseField_putContents (h : f.presence ≠ 0) (m : Message) (s : Slot) :
    hasBaseField (putContents f none m s) f = true := by
  rcases lt_or_gt_of_ne h with hneg | hpos
  · have hin : f.isInOneof = true := decide_eq_true hneg
    have hno : f.hasHasbit = false := decide_eq_false (by omega)
    have hcase : ∀ m : Message, ((m.setOneofCase f).setData f s).oneofCase f = f.number :=
      fun m => Function.update_self _ _ _
    rw [hasBaseField, if_pos hin, putContents, setPresence, hno, hin]
    exact beq_iff_eq.mpr (hcase _)
  · have hin : f.isInOneof = false := decide_eq_false (by omega)
    have hbit : f.hasHasbit = true := decide_eq_true hpos
    have hset : ((m.setHasbit f).setData f s).getHasbit f = true := Function.update_self _ _ _
    rw [hasBaseField, hin, if_neg Bool.false_ne_true, putContents, setPresence, hbit]
    exact hset

/-- Fields that do not share their presence do not disturb each other. -/
theorem hasBaseField_putContents_of_ne (h : f.presence ≠ g.presence) (m : Message) (s : Slot) :
    hasBaseField (putContents f none m s) g = hasBaseField m g := by
  have hbit : 0 < f.presence → hasBaseField ((m.setHasbit f).setData f s) g = hasBaseField m g := by
    intro hpos
    rw [hasBaseField, hasBaseField]
    split
    · rfl
    · next hin =>
      have hg : ¬ g.presence < 0 := by simpa [MiniTableField.isInOneof] using hin
      exact Function.update_of_ne (by omega) _ _
  have hcase : ∀ m' : Message, m'.hasbits = m.hasbits → m'.cases = m.cases → f.presence < 0 →
      hasBaseField ((m'.setOneofCase f).setData f s) g = hasBaseField m g := by
    intro m' hbits hcases hneg
    rw [hasBaseField, hasBaseField, Message.getHasbit, Message.getHasbit]
    split
    · next hin =>
      have hg : g.presence < 0 := by simpa [MiniTableField.isInOneof] using hin
      have hne : g.oneofOffset.toNat ≠ f.oneofOffset.toNat := by
        rw [MiniTableField.oneofOffset, MiniTableField.oneofOffset]
        omega
      have hupdate : ((m'.setOneofCase f).setData f s).oneofCase g = m'.oneofCase g :=
        Function.update_of_ne hne _ _
      rw [hupdate, Message.oneofCase, Message.oneofCase, hcases]
    · exact congrFun hbits _
  rw [putContents, setPresence]
  split
  · next hpos => exact hbit (by simpa [MiniTableField.hasHasbit] using hpos)
  · split
    · next hin =>
      have hneg : f.presence < 0 := by simpa [MiniTableField.isInOneof] using hin
      split
      · exact hcase _ rfl rfl hneg
      · exact hcase m rfl rfl hneg
    · rw [hasBaseField, hasBaseField]
      rfl

/-- Another member of the oneof that is set is unset. -/
theorem hasBaseField_putContents_mate (hf : f.presence < 0) (h : f.presence = g.presence)
    (hn : f.number ≠ g.number) (m : Message) (s : Slot) :
    hasBaseField (putContents f none m s) g = false := by
  have hin : f.isInOneof = true := decide_eq_true hf
  have hgin : g.isInOneof = true := decide_eq_true (h ▸ hf)
  have hno : f.hasHasbit = false := decide_eq_false (by omega)
  have hoff : g.oneofOffset = f.oneofOffset := by
    rw [MiniTableField.oneofOffset, MiniTableField.oneofOffset, h]
  have hcase : ∀ m : Message, ((m.setOneofCase f).setData f s).oneofCase g = f.number := by
    intro m
    rw [Message.oneofCase, hoff]
    exact Function.update_self _ _ _
  have hval : (putContents f none m s).oneofCase g = f.number := by
    rw [putContents, setPresence, hno, hin]
    exact hcase _
  rw [hasBaseField, if_pos hgin, hval]
  exact beq_false_of_ne hn

/-- The encoder writes a field with presence when the field is set. -/
theorem encodeShouldencode_of_presence (h : f.presence ≠ 0) (m : Message) :
    encodeShouldencode m f = hasBaseField m f := by
  rw [encodeShouldencode, if_neg h, hasBaseField]
  rcases lt_or_gt_of_ne h with hneg | hpos
  · have hin : f.isInOneof = true := decide_eq_true hneg
    have hno : f.hasHasbit = false := decide_eq_false (by omega)
    rw [hno, if_neg Bool.false_ne_true, if_pos hin]
  · have hin : f.isInOneof = false := decide_eq_false (by omega)
    have hbit : f.hasHasbit = true := decide_eq_true hpos
    rw [hbit, if_pos rfl, hin, if_neg Bool.false_ne_true]

/-- The encoder writes a field without presence when its memory is not zero. -/
theorem encodeShouldencode_of_zero (h : f.presence = 0) (m : Message) :
    encodeShouldencode m f = !dataIsZero f (m.data f) := by
  rw [encodeShouldencode, if_pos h, dataIsZero]
  cases f.mode.rep <;> simp

/-- What a reader sees of a field of a table. -/
theorem isSetBaseField_eq (hbase : f.mode.isExtension = false) (m : Message) :
    isSetBaseField m f = if f.presence ≠ 0 then hasBaseField m f else hasContents f (m.data f) := by
  have hpresence : f.hasPresence = (f.presence != 0) := by
    rw [MiniTableField.hasPresence, hbase]
    rfl
  rw [isSetBaseField, hpresence, hasContents]
  by_cases h : f.presence = 0
  · rw [h]
    rfl
  · rw [if_pos (bne_iff_ne.mpr h), if_pos h]

end Presence

variable {cfg : DecodeConfig} {opts : EncodeOptions} {depth fuel level : ℕ} {t : TableId}
  {f g : LinkedField} {m m₁ m₂ : Message} {bytes : List UInt8}

section Fields

/-- Two fields of a table have different numbers, and share no storage but that of a oneof. -/
theorem IsLayout.apart (hl : IsLayout (cfg.schema.table t)) {i j : ℕ}
    (hf : cfg.schema.field t i = some f) (hg : cfg.schema.field t j = some g) (h : f ≠ g) :
    f.field.number ≠ g.field.number ∧
      (f.field.offset = g.field.offset → f.field.presence < 0 ∧ f.field.presence = g.field.presence) ∧
      (0 < f.field.presence → f.field.presence ≠ g.field.presence) := by
  have hij : i ≠ j := by
    rintro rfl
    exact h (Option.some.inj (hf.symm.trans hg))
  obtain ⟨f', hf', rfl⟩ := Option.map_eq_some_iff.mp hf
  obtain ⟨g', hg', rfl⟩ := Option.map_eq_some_iff.mp hg
  exact ⟨fun hn => hij (hl.searchable.sorted.index_unique hf' hg' hn), hl.offset i j f' g' hf' hg' hij,
    hl.hasbit i j f' g' hf' hg' hij⟩

/-- A field of the table that the encoder writes. -/
def IsWritten (cfg : DecodeConfig) (t : TableId) (m : Message) (f : LinkedField) : Prop :=
  (∃ i, IsBaseField cfg.schema t i f) ∧ encodeShouldencode m f.field = true

/-- Two fields that the encoder writes share neither storage nor presence. -/
theorem IsWritten.apart (hl : IsLayout (cfg.schema.table t)) (hf : IsWritten cfg t m f)
    (hg : IsWritten cfg t m g) (h : f ≠ g) :
    f.field.offset ≠ g.field.offset ∧ (f.field.presence ≠ 0 → f.field.presence ≠ g.field.presence) := by
  obtain ⟨⟨i, -, hfi⟩, hfset⟩ := hf
  obtain ⟨⟨j, -, hgj⟩, hgset⟩ := hg
  obtain ⟨hnumber, hoffset, hhasbit⟩ := hl.apart hfi hgj h
  -- the case of a oneof is the number of one member only
  have hmates : f.field.presence < 0 → f.field.presence ≠ g.field.presence := by
    intro hneg heq
    have hin : f.field.isInOneof = true := decide_eq_true hneg
    have hgin : g.field.isInOneof = true := decide_eq_true (heq ▸ hneg)
    rw [encodeShouldencode_of_presence (by omega), hasBaseField, if_pos hin, beq_iff_eq] at hfset
    rw [encodeShouldencode_of_presence (by omega), hasBaseField, if_pos hgin, beq_iff_eq] at hgset
    apply hnumber
    rw [← hfset, ← hgset, Message.oneofCase, Message.oneofCase, MiniTableField.oneofOffset,
      MiniTableField.oneofOffset, heq]
  refine ⟨fun heq => ?_, fun hne => ?_⟩
  · obtain ⟨hneg, hsame⟩ := hoffset heq
    exact hmates hneg hsame
  · rcases lt_or_gt_of_ne hne with hneg | hpos
    · exact hmates hneg
    · exact hhasbit hpos

/-- Fields of a message have been restored in another one, and no other field has been set. -/
structure FieldsRestored (cfg : DecodeConfig) (t : TableId) (m : Message) (done : List LinkedField)
    (m' : Message) : Prop where
  restored : ∀ f ∈ done, Agrees cfg.schema cfg.hash (.field f) (m.data f.field) (m'.data f.field) ∧
    (RepFits f.field → hasContents f.field (m'.data f.field) = hasContents f.field (m.data f.field))
  present : ∀ f ∈ done, f.field.presence ≠ 0 → hasBaseField m' f.field = true
  absent : ∀ i g, IsBaseField cfg.schema t i g → g ∉ done → g.field.presence ≠ 0 →
    hasBaseField m' g.field = false
  blank : ∀ g : MiniTableField, (∀ f ∈ done, g.offset ≠ f.field.offset) → m'.data g = .zero
  exts : m'.exts = []
  unknown : m'.unknown = []

/-- Nothing has been restored in a new message. -/
theorem fieldsRestored_new (hl : IsLayout (cfg.schema.table t)) : FieldsRestored cfg t m [] .new := by
  refine ⟨fun f hf => absurd hf List.not_mem_nil, fun f hf => absurd hf List.not_mem_nil,
    fun i g hg _ _ => ?_, fun _ _ => rfl, rfl, rfl⟩
  obtain ⟨g', hg', rfl⟩ := Option.map_eq_some_iff.mp hg.2
  have hnumber := (hl.number g' (List.mem_of_getElem? hg')).1
  rw [hasBaseField]
  split
  · exact beq_false_of_ne hnumber.symm
  · rfl

/-- The records of one more field restore it and leave the other fields. -/
theorem FieldsRestored.concat (hl : IsLayout (cfg.schema.table t)) {done : List LinkedField}
    (h : FieldsRestored cfg t m done m₁) (hdone : ∀ g ∈ done, IsWritten cfg t m g)
    (hf : IsWritten cfg t m f) (hnew : f ∉ done) {s' : Slot}
    (hs' : FieldRestored cfg depth f (m.data f.field) bytes s') :
    ∃ m₂, FieldsRestored cfg t m (done ++ [f]) m₂ ∧
      Decodes cfg depth t bytes ⟨m₁, false⟩ ⟨m₂, false⟩ := by
  have hapart : ∀ g ∈ done, f.field.offset ≠ g.field.offset ∧
      (f.field.presence ≠ 0 → f.field.presence ≠ g.field.presence) :=
    fun g hg => hf.apart hl (hdone g hg) fun heq => hnew (heq ▸ hg)
  have hblank := h.blank f.field fun g hg => (hapart g hg).1
  obtain ⟨⟨i, -, hfi⟩, -⟩ := hf
  rcases hs'.updates with ⟨hmode, rfl, rfl⟩ | hupdates
  · obtain ⟨f', hf', rfl⟩ := Option.map_eq_some_iff.mp hfi
    have hzero := hl.repeated f' (List.mem_of_getElem? hf') hmode
    refine ⟨m₁, ⟨fun g hg => ?_, fun g hg hp => ?_, fun j g hg hn hp => ?_, fun g hg => ?_, h.exts,
      h.unknown⟩, .nil _⟩
    · rcases List.mem_append.mp hg with hg | hg
      · exact h.restored g hg
      · cases List.mem_singleton.mp hg
        rw [hblank]
        exact ⟨hs'.agrees, hs'.seen⟩
    · rcases List.mem_append.mp hg with hg | hg
      · exact h.present g hg hp
      · cases List.mem_singleton.mp hg
        exact absurd hzero hp
    · exact h.absent j g hg (fun hmem => hn (List.mem_append_left _ hmem)) hp
    · exact h.blank g fun f hf => hg f (List.mem_append_left _ hf)
  · refine ⟨putContents f.field none m₁ s', ⟨fun g hg => ?_, fun g hg hp => ?_, fun j g hg hn hp => ?_,
      fun g hg => ?_, ?_, ?_⟩, hupdates t none (finds_of_isLayout hl hfi) m₁ hblank⟩
    · rcases List.mem_append.mp hg with hg | hg
      · rw [data_putContents_of_ne (hapart g hg).1.symm]
        exact h.restored g hg
      · cases List.mem_singleton.mp hg
        have hdata : (putContents f.field none m₁ s').data f.field = s' :=
          contents_putContents f.field none m₁ s'
        rw [hdata]
        exact ⟨hs'.agrees, hs'.seen⟩
    · rcases List.mem_append.mp hg with hg | hg
      · have hne : f.field.presence ≠ g.field.presence := by
          by_cases hzero : f.field.presence = 0
          · rw [hzero]
            exact hp.symm
          · exact (hapart g hg).2 hzero
        rw [hasBaseField_putContents_of_ne hne]
        exact h.present g hg hp
      · cases List.mem_singleton.mp hg
        exact hasBaseField_putContents hp m₁ s'
    · have hne : f ≠ g := fun heq => hn (List.mem_append_right _ (List.mem_singleton.mpr heq.symm))
      obtain ⟨hnumber, -, hhasbit⟩ := hl.apart hfi hg.2 hne
      by_cases heq : f.field.presence = g.field.presence
      · have hneg : f.field.presence < 0 := by
          rcases lt_trichotomy f.field.presence 0 with hlt | hzero | hpos
          · exact hlt
          · exact absurd (heq ▸ hzero) hp
          · exact absurd heq (hhasbit hpos)
        exact hasBaseField_putContents_mate hneg heq hnumber m₁ s'
      · rw [hasBaseField_putContents_of_ne heq]
        exact h.absent j g hg (fun hmem => hn (List.mem_append_left _ hmem)) hp
    · rw [data_putContents_of_ne (hg f (List.mem_append_right _ List.mem_cons_self))]
      exact h.blank g fun f hf => hg f (List.mem_append_left _ hf)
    · rw [← h.exts, putContents, setPresence]
      split
      · rfl
      · split
        · split <;> rfl
        · rfl
    · rw [unknown_putContents]
      exact h.unknown

/-- The records of fields restore them, one after the other. -/
theorem fieldsRestored_of_encode (hl : IsLayout (cfg.schema.table t)) {l done : List LinkedField}
    (hrestores : ∀ f, IsWritten cfg t m f → FieldRestores cfg opts depth f (m.data f.field))
    (hwritten : ∀ f ∈ done ++ l, IsWritten cfg t m f) (hnodup : (done ++ l).Nodup)
    (henc : encodeBackwards (fun f => encodeField cfg.schema cfg.hash opts
      (encodeMessage cfg.schema cfg.hash opts fuel) level f (m.data f.field)) l.reverse = .ok bytes)
    (hlen : bytes.length ≤ int32Max) (h : FieldsRestored cfg t m done m₁) :
    ∃ m₂, FieldsRestored cfg t m (done ++ l) m₂ ∧
      Decodes cfg depth t bytes ⟨m₁, false⟩ ⟨m₂, false⟩ := by
  induction l generalizing bytes done m₁ with
  | nil =>
    cases henc
    rw [List.append_nil]
    exact ⟨m₁, h, .nil _⟩
  | cons f l ih =>
    obtain ⟨front, rest, hfront, hrest, rfl⟩ := (encodeBackwards_reverse_cons f l).mp henc
    rw [List.length_append] at hlen
    have hf : IsWritten cfg t m f := hwritten f (List.mem_append_right _ List.mem_cons_self)
    have hnew : f ∉ done := fun hmem => (List.disjoint_of_nodup_append hnodup) hmem List.mem_cons_self
    have hlt : f.field.number < 2 ^ 29 := by
      obtain ⟨⟨i, -, hfi⟩, -⟩ := hf
      exact (finds_of_isLayout hl hfi).number_lt
    obtain ⟨s', hs'⟩ := hrestores f hf hlt fuel level front hfront (by omega)
    obtain ⟨m₂, hm₂, hfirst⟩ := h.concat hl (fun g hg => hwritten g (List.mem_append_left _ hg)) hf hnew hs'
    have hsplit : done ++ f :: l = (done ++ [f]) ++ l := by simp
    rw [hsplit] at hwritten hnodup ⊢
    obtain ⟨m₃, hm₃, hlast⟩ := ih hwritten hnodup hrest (by omega) hm₂
    exact ⟨m₃, hm₃, hfirst.append hlast⟩

/-- The fields of a table, each once. -/
theorem linkedFields_spec (hl : IsLayout (cfg.schema.table t)) :
    (linkedFields cfg.schema t).Nodup ∧
      ∀ f, f ∈ linkedFields cfg.schema t ↔ ∃ i, IsBaseField cfg.schema t i f := by
  constructor
  · apply List.Nodup.filterMap _ List.nodup_range
    intro i j f hi hj
    obtain ⟨f', hf', hf⟩ := Option.map_eq_some_iff.mp hi
    obtain ⟨g', hg', hg⟩ := Option.map_eq_some_iff.mp hj
    have heq : f' = g' := congrArg LinkedField.field (hf.trans hg.symm)
    exact hl.searchable.sorted.index_unique hf' hg' (by rw [heq])
  · intro f
    rw [linkedFields, List.mem_filterMap]
    exact exists_congr fun i => and_congr List.mem_range Iff.rfl

/-- The fields of a message are restored. -/
theorem fieldsRestored_linkedFields (hl : IsLayout (cfg.schema.table t))
    (hrestores : ∀ f, IsWritten cfg t m f → FieldRestores cfg opts depth f (m.data f.field))
    (henc : encodeBackwards (fun f => encodeField cfg.schema cfg.hash opts
      (encodeMessage cfg.schema cfg.hash opts fuel) level f (m.data f.field))
      ((linkedFields cfg.schema t).filter fun f => encodeShouldencode m f.field).reverse = .ok bytes)
    (hlen : bytes.length ≤ int32Max) :
    ∃ m₂, FieldsRestored cfg t m
        ((linkedFields cfg.schema t).filter fun f => encodeShouldencode m f.field) m₂ ∧
      Decodes cfg depth t bytes ⟨.new, false⟩ ⟨m₂, false⟩ := by
  obtain ⟨hnodup, hmem⟩ := linkedFields_spec hl
  have hwritten : ∀ f ∈ [] ++ (linkedFields cfg.schema t).filter fun f => encodeShouldencode m f.field,
      IsWritten cfg t m f := by
    intro f hf
    obtain ⟨hf, hset⟩ := List.mem_filter.mp hf
    exact ⟨(hmem f).mp hf, hset⟩
  exact fieldsRestored_of_encode hl hrestores hwritten (hnodup.filter _) henc hlen (fieldsRestored_new hl)

/-- A message with restored fields has the same fields set, and they agree. -/
theorem FieldsRestored.agrees (hl : IsLayout (cfg.schema.table t))
    (h : FieldsRestored cfg t m
      ((linkedFields cfg.schema t).filter fun f => encodeShouldencode m f.field) m₁) {i : ℕ}
    (hf : IsBaseField cfg.schema t i f) :
    isSetBaseField m₁ f.field = isSetBaseField m f.field ∧ (isSetBaseField m f.field = true →
      Agrees cfg.schema cfg.hash (.field f) (m.data f.field) (m₁.data f.field)) := by
  obtain ⟨-, hmem⟩ := linkedFields_spec hl
  obtain ⟨f', hf', hfeq⟩ := Option.map_eq_some_iff.mp hf.2
  have hin := List.mem_of_getElem? hf'
  have hbase : f.field.mode.isExtension = false := by
    rw [← hfeq]
    exact hl.base f' hin
  have hrep : RepFits f.field := by
    rw [← hfeq]
    exact hl.rep f' hin
  rw [isSetBaseField_eq hbase, isSetBaseField_eq hbase]
  cases hset : encodeShouldencode m f.field with
  | true =>
    have hdone : f ∈ (linkedFields cfg.schema t).filter fun f => encodeShouldencode m f.field :=
      List.mem_filter.mpr ⟨(hmem f).mpr ⟨i, hf⟩, hset⟩
    obtain ⟨hagrees, hseen⟩ := h.restored f hdone
    refine ⟨?_, fun _ => hagrees⟩
    split
    · next hp =>
      rw [h.present f hdone hp]
      rw [encodeShouldencode_of_presence hp] at hset
      exact hset.symm
    · exact hseen hrep
  | false =>
    have hnot : f ∉ (linkedFields cfg.schema t).filter fun f => encodeShouldencode m f.field := by
      intro hmem
      have hset' := (List.mem_filter.mp hmem).2
      rw [hset] at hset'
      cases hset'
    split
    · next hp =>
      rw [h.absent i f hf hnot hp]
      rw [encodeShouldencode_of_presence hp] at hset
      exact ⟨hset.symm, fun htrue => absurd (hset.symm.trans htrue) Bool.false_ne_true⟩
    · next hp =>
      have hp : f.field.presence = 0 := not_not.mp hp
      rw [encodeShouldencode_of_zero hp, Bool.not_eq_false'] at hset
      have hunseen : hasContents f.field (m.data f.field) = false := by
        rw [hasContents, if_pos hset]
      have hblank : m₁.data f.field = .zero := by
        refine h.blank f.field fun g hg heq => ?_
        obtain ⟨hg, -⟩ := List.mem_filter.mp hg
        obtain ⟨j, hg⟩ := (hmem g).mp hg
        by_cases hfg : f = g
        · exact hnot (hfg ▸ by assumption)
        · obtain ⟨-, hoffset, -⟩ := hl.apart hf.2 hg.2 hfg
          have := (hoffset heq).1
          omega
      rw [hblank, hunseen, hasContents_zero]
      exact ⟨rfl, fun htrue => absurd htrue Bool.false_ne_true⟩

end Fields

end Upb.Wire
