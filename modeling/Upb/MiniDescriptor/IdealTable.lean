import Upb.MiniDescriptor.Declaration
import Upb.MiniDescriptor.SlotLayout

/-!
# The layout of a declaration

The presence and the offset that every field of a declaration has in unbounded numbers: hasbits in the
order of the fields, and slots for the fields outside of oneofs and then for the case word and the data of
each oneof.
-/

namespace Upb

namespace MiniDescriptor

namespace Declaration

variable (platform : Platform) (decl : Declaration)

/-- The fields with the members of oneofs set apart. -/
def linked : List MiniTableField :=
  decl.fields.mapIdx fun i f => if i ∈ decl.oneofs.flatten then { f with offset := kOneofBase } else f

/-- The slots in the order of their placement. -/
def slots : List FieldRep := fieldSlots decl.linked ++ oneofSlots (decl.reps platform)

/-- The end of the message and the bases of the representations. -/
def layout : ℕ × (FieldRep → ℕ) := idealLayout platform (hasbitBytes decl.linked) (decl.slots platform)

/-- The offset of a slot. -/
def slotAt (k : ℕ) : ℕ := slotOffset platform (decl.layout platform).2 (decl.slots platform) k

/-- The slot of a field outside of oneofs. -/
def fieldSlot (i : ℕ) : ℕ := (fieldSlots (decl.linked.take i)).length

/-- The slot of the case word of a oneof. -/
def caseSlot (k : ℕ) : ℕ := (fieldSlots decl.linked).length + 2 * k

/-- The slot of the data of a oneof. -/
def dataSlot (k : ℕ) : ℕ := (fieldSlots decl.linked).length + 2 * k + 1

/-- The oneof of a field. -/
def oneofOf (i : ℕ) : Option ℕ := decl.oneofs.findIdx? (i ∈ ·)

/-- The presence of a field. -/
def presence (i : ℕ) : ℤ :=
  match decl.oneofOf i with
  | some k => -(decl.slotAt platform (decl.caseSlot k) : ℤ) - 1
  | none => (decl.linked[i]?).elim 0 (hasbitPresence decl.linked i)

/-- The offset of a field. -/
def offset (i : ℕ) : ℕ :=
  match decl.oneofOf i with
  | some k => decl.slotAt platform (decl.dataSlot k)
  | none => decl.slotAt platform (decl.fieldSlot i)

variable {platform} {decl}

/-- The oneof of a member. -/
theorem oneofOf_eq_some (hnodup : decl.oneofs.flatten.Nodup) {i k : ℕ} {o : List ℕ}
    (ho : decl.oneofs[k]? = some o) (hi : i ∈ o) : decl.oneofOf i = some k := by
  rw [oneofOf, List.findIdx?_eq_some_iff_getElem]
  obtain ⟨hk, rfl⟩ := List.getElem?_eq_some_iff.mp ho
  refine ⟨hk, by simpa using hi, fun j hj => ?_⟩
  have hdisj := (List.nodup_flatten.mp hnodup).2
  have := List.pairwise_iff_getElem.mp hdisj j k (by omega) hk hj
  simpa using fun h => this h hi

theorem oneofOf_eq_none {i : ℕ} (hi : i ∉ decl.oneofs.flatten) : decl.oneofOf i = none := by
  rw [oneofOf, List.findIdx?_eq_none_iff]
  intro o ho
  simpa using fun h => hi (List.mem_flatten.mpr ⟨o, ho, h⟩)

theorem linked_getElem? (i : ℕ) : decl.linked[i]? = decl.fields[i]?.map fun f =>
    if i ∈ decl.oneofs.flatten then { f with offset := kOneofBase } else f := by
  rw [linked, List.getElem?_mapIdx]

end Declaration

section Alike

/-- What the layout reads of a field: its presence class, and its representation. -/
def shape (f : MiniTableField) : ℕ × FieldRep := (min f.offset kOneofBase, f.mode.rep)

/-- The layout does not tell the fields apart. -/
def Alike (fields fields' : List MiniTableField) : Prop := fields'.map shape = fields.map shape

variable {fields fields' : List MiniTableField}

theorem Alike.take (h : Alike fields fields') (i : ℕ) : Alike (fields.take i) (fields'.take i) := by
  rw [Alike, List.map_take, List.map_take, h]

theorem Alike.trans {fields'' : List MiniTableField} (h : Alike fields fields') (h' : Alike fields' fields'') :
    Alike fields fields'' := Eq.trans h' h

theorem Alike.classCount_eq (h : Alike fields fields') {c : ℕ} (hc : c < kOneofBase) :
    classCount fields' c = classCount fields c := by
  have hshape : ∀ l : List MiniTableField, classCount l c = (l.map shape).countP (·.1 == c) := by
    intro l
    rw [classCount, List.countP_map]
    congr 1
    funext f
    by_cases hf : f.offset = c
    · simp [shape, hf, hc.le]
    · have hne : min f.offset kOneofBase ≠ c := by omega
      simp [shape, hf, hne]
  rw [hshape, hshape, h]

theorem Alike.classBefore_eq (h : Alike fields fields') {c : ℕ} (hc : c < kOneofBase) (i : ℕ) :
    classBefore fields' c i = classBefore fields c i := (h.take i).classCount_eq hc

theorem Alike.fieldSlots_eq (h : Alike fields fields') : fieldSlots fields' = fieldSlots fields := by
  have hshape : ∀ l : List MiniTableField,
      fieldSlots l = ((l.map shape).filter (·.1 < kOneofBase)).map Prod.snd := by
    intro l
    simp [fieldSlots, List.filter_map, Function.comp_def, shape]
  rw [hshape, hshape, h]

theorem Alike.hasbitBytes_eq (h : Alike fields fields') : hasbitBytes fields' = hasbitBytes fields := by
  rw [hasbitBytes, hasbitBytes, h.classCount_eq (by decide), h.classCount_eq (by decide)]

/-- Fields outside of oneofs that are alike get the same presence. -/
theorem Alike.hasbitPresence_eq (h : Alike fields fields') {f f' : MiniTableField} (i : ℕ)
    (hoffset : f'.offset = f.offset) (hpresence : f'.presence = f.presence) :
    hasbitPresence fields' i f' = hasbitPresence fields i f := by
  rw [hasbitPresence, hasbitPresence, hoffset, hpresence, h.classBefore_eq (by decide),
    h.classBefore_eq (by decide), h.classCount_eq (by decide)]

/-- A presence does not matter for the layout. -/
theorem alike_of_presence {p : ℕ → MiniTableField → ℤ}
    (h : ∀ i : ℕ, fields'[i]? = fields[i]?.map fun f => { f with presence := p i f }) :
    Alike fields fields' := by
  refine List.ext_getElem? fun i => ?_
  rw [List.getElem?_map, List.getElem?_map, h, Option.map_map]
  rfl

/-- Neither do the offsets of sub tables. -/
theorem alike_of_eraseSub (h : fields'.map eraseSub = fields.map eraseSub) : Alike fields fields' := by
  have h := congrArg (List.map shape) h
  rwa [List.map_map, List.map_map] at h

end Alike

section SlotKinds

variable {platform : Platform} {decl : Declaration}

/-- The slots of a oneof. -/
theorem oneofSlots_getElem? (reps : List FieldRep) (k : ℕ) :
    (oneofSlots reps)[2 * k]? = (reps[k]?).map (fun _ => .rep4Byte) ∧
      (oneofSlots reps)[2 * k + 1]? = reps[k]? := by
  induction reps generalizing k with
  | nil => simp [oneofSlots]
  | cons r reps ih =>
    have hslots : oneofSlots (r :: reps) = .rep4Byte :: r :: oneofSlots reps := rfl
    rw [hslots]
    cases k with
    | zero => exact ⟨rfl, rfl⟩
    | succ k =>
      rw [Nat.mul_succ]
      exact ih k

theorem slots_caseSlot {k : ℕ} {r : FieldRep} (hk : (decl.reps platform)[k]? = some r) :
    (decl.slots platform)[decl.caseSlot k]? = some .rep4Byte := by
  rw [Declaration.slots, Declaration.caseSlot, List.getElem?_append_right (Nat.le_add_right _ _),
    Nat.add_sub_cancel_left, (oneofSlots_getElem? _ k).1, hk]
  rfl

theorem slots_dataSlot {k : ℕ} {r : FieldRep} (hk : (decl.reps platform)[k]? = some r) :
    (decl.slots platform)[decl.dataSlot k]? = some r := by
  rw [Declaration.slots, Declaration.dataSlot, Nat.add_assoc,
    List.getElem?_append_right (Nat.le_add_right _ _), Nat.add_sub_cancel_left, (oneofSlots_getElem? _ k).2, hk]

/-- The slots of the fields up to a field outside of oneofs, the one of this field, and the others. -/
theorem fieldSlots_split {fields : List MiniTableField} {i : ℕ} {f : MiniTableField}
    (hf : fields[i]? = some f) (hplain : f.offset < kOneofBase) :
    fieldSlots fields = fieldSlots (fields.take i) ++ f.mode.rep :: fieldSlots (fields.drop (i + 1)) := by
  obtain ⟨hi, rfl⟩ := List.getElem?_eq_some_iff.mp hf
  have hsplit : fields.take i ++ fields[i] :: fields.drop (i + 1) = fields := by
    rw [← List.drop_eq_getElem_cons hi, List.take_append_drop]
  conv_lhs => rw [← hsplit]
  rw [fieldSlots, List.filter_append, List.filter_cons_of_pos (by simpa using hplain), List.map_append,
    List.map_cons, fieldSlots, fieldSlots]

theorem slots_fieldSlot {i : ℕ} {f : MiniTableField} (hf : decl.linked[i]? = some f)
    (hplain : f.offset < kOneofBase) : (decl.slots platform)[decl.fieldSlot i]? = some f.mode.rep := by
  rw [Declaration.slots, Declaration.fieldSlot, fieldSlots_split hf hplain, List.append_assoc,
    List.getElem?_append_right (Nat.le_refl _), Nat.sub_self]
  rfl

end SlotKinds

section Cases

/-- The case words and the data are slots behind those of the fields. -/
theorem oneofOffsets_eq (platform : Platform) (bases : FieldRep → ℕ) (before reps : List FieldRep) (k : ℕ)
    (hk : k < reps.length) :
    (caseOffsets platform (before.foldl (advance platform) bases) reps)[k]? =
        some (slotOffset platform bases (before ++ oneofSlots reps) (before.length + 2 * k)) ∧
      (dataOffsets platform (before.foldl (advance platform) bases) reps)[k]? =
        some (slotOffset platform bases (before ++ oneofSlots reps) (before.length + 2 * k + 1)) := by
  induction reps generalizing before k with
  | nil => simp at hk
  | cons r reps ih =>
    have hslots : oneofSlots (r :: reps) = .rep4Byte :: r :: oneofSlots reps := rfl
    rw [hslots]
    cases k with
    | zero =>
      refine ⟨?_, ?_⟩
      · rw [caseOffsets, List.getElem?_cons_zero, Nat.mul_zero, Nat.add_zero, slotOffset_append]
      · have h := slotOffset_append platform bases (before ++ [.rep4Byte]) (oneofSlots reps) r
        simp only [List.append_assoc, List.singleton_append, List.length_append, List.length_singleton,
          List.foldl_append, List.foldl_cons, List.foldl_nil] at h
        rw [dataOffsets, List.getElem?_cons_zero, Nat.mul_zero, Nat.add_zero, h]
    | succ k =>
      have h := ih (before ++ [.rep4Byte, r]) k (Nat.lt_of_succ_lt_succ hk)
      simp only [List.append_assoc, List.cons_append, List.nil_append, List.length_append, List.length_cons,
        List.length_nil, List.foldl_append, List.foldl_cons, List.foldl_nil] at h
      rw [caseOffsets, dataOffsets, List.getElem?_cons_succ, List.getElem?_cons_succ,
        show before.length + 2 * (k + 1) = before.length + (0 + 1 + 1) + 2 * k by omega]
      exact h

end Cases

end MiniDescriptor

end Upb
