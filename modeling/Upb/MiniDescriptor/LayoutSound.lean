import Upb.MiniDescriptor.LayoutFits

/-!
# Which layouts are sound

In a sound layout the storage of every field is aligned and lies between the hasbits and the end of the
message, different storages do not overlap, and the members of a oneof share their data and their case
word. The layout in unbounded numbers is sound; an accepted table of moderate size is sound unless its
aligned size is 2^16.
-/

namespace Upb

namespace MiniDescriptor

/-- The fields are members of one oneof. -/
def SameOneof (decl : Declaration) (i j : ℕ) : Prop := ∃ k, decl.oneofOf i = some k ∧ decl.oneofOf j = some k

/-- The offset of the case word that the presence of a oneof member stands for. -/
def caseOffsetOf (presence : ℤ) : ℕ := (-presence - 1).toNat

/-- The bytes of the internal header and the hasbits of a table. -/
def hasbitHeader (t : MiniTable) : ℕ := (kReservedHasbits + t.fields.countP (0 < ·.presence) + 7) / 8

/-- The layout of a table is sound. -/
structure SoundLayout (platform : Platform) (decl : Declaration) (t : MiniTable) : Prop where
  storage : ∀ (i : ℕ) (f : MiniTableField), t.fields[i]? = some f →
    alignOfRep platform f.mode.rep ∣ f.offset ∧ hasbitHeader t ≤ f.offset ∧
      f.offset + sizeOfRep platform f.mode.rep ≤ t.size
  disjoint : ∀ (i j : ℕ) (f g : MiniTableField), t.fields[i]? = some f → t.fields[j]? = some g → i ≠ j →
    ¬ SameOneof decl i j →
    Apart f.offset (sizeOfRep platform f.mode.rep) g.offset (sizeOfRep platform g.mode.rep)
  shared : ∀ (i j : ℕ) (f g : MiniTableField), t.fields[i]? = some f → t.fields[j]? = some g →
    SameOneof decl i j → f.offset = g.offset ∧ f.presence = g.presence
  cases : ∀ (i k : ℕ) (f : MiniTableField), t.fields[i]? = some f → decl.oneofOf i = some k →
    f.presence < 0 ∧ 4 ∣ caseOffsetOf f.presence ∧ hasbitHeader t ≤ caseOffsetOf f.presence ∧
      caseOffsetOf f.presence + 4 ≤ t.size ∧
      (∀ (j : ℕ) (g : MiniTableField), t.fields[j]? = some g →
        Apart (caseOffsetOf f.presence) 4 g.offset (sizeOfRep platform g.mode.rep)) ∧
      ∀ (j l : ℕ) (g : MiniTableField), t.fields[j]? = some g → decl.oneofOf j = some l → l ≠ k →
        Apart (caseOffsetOf f.presence) 4 (caseOffsetOf g.presence) 4
  plain : ∀ (i : ℕ) (f : MiniTableField), t.fields[i]? = some f → decl.oneofOf i = none →
    f.presence = 0 ∨ (kReservedHasbits ≤ f.presence ∧ f.presence < 8 * hasbitHeader t)
  distinct : ∀ (i j : ℕ) (f g : MiniTableField), t.fields[i]? = some f → t.fields[j]? = some g → i ≠ j →
    0 < f.presence → f.presence ≠ g.presence
  base : ∀ (i : ℕ) (f : MiniTableField), t.fields[i]? = some f → 0 < f.presence →
    ∃ (j : ℕ) (g : MiniTableField), t.fields[j]? = some g ∧ g.presence = kReservedHasbits
  requiredFirst : ∀ (i j : ℕ) (f g : MiniTableField), t.fields[i]? = some f → t.fields[j]? = some g →
    (decl.fields[i]?).map (·.offset) = some kRequiredPresence →
    (decl.fields[j]?).map (·.offset) ≠ some kRequiredPresence → 0 < g.presence →
    0 < f.presence ∧ f.presence < g.presence

theorem Apart.mono {o s s₁ o' s' s₁' : ℕ} (h : Apart o s o' s') (hs : s₁ ≤ s) (hs' : s₁' ≤ s') :
    Apart o s₁ o' s₁' := by
  simp only [Apart] at *
  omega

section Reps

/-- The slot of one representation can hold another one. -/
def Holds (platform : Platform) (r q : FieldRep) : Prop :=
  sizeOfRep platform q ≤ sizeOfRep platform r ∧ alignOfRep platform q ∣ alignOfRep platform r

theorem Holds.refl (platform : Platform) (r : FieldRep) : Holds platform r r := ⟨Nat.le_refl _, dvd_rfl⟩

theorem Holds.trans {platform : Platform} {r q p : FieldRep} (h : Holds platform r q) (h' : Holds platform q p) :
    Holds platform r p := ⟨h'.1.trans h.1, h'.2.trans h.2⟩

/-- The larger representation holds both. -/
theorem holds_largerRep (platform : Platform) (r q : FieldRep) :
    Holds platform (largerRep platform r q) r ∧ Holds platform (largerRep platform r q) q := by
  cases platform <;> cases r <;> cases q <;> simp [Holds, largerRep, sizeOfRep, alignOfRep]

theorem holds_foldl_largerRep (platform : Platform) (repOf : ℕ → FieldRep) (o : List ℕ) (r : FieldRep) :
    let rep := o.foldl (fun r m => largerRep platform r (repOf m)) r
    Holds platform rep r ∧ ∀ i ∈ o, Holds platform rep (repOf i) := by
  induction o generalizing r with
  | nil => exact ⟨Holds.refl _ _, by simp⟩
  | cons m o ih =>
    obtain ⟨hlast, hall⟩ := ih (largerRep platform r (repOf m))
    obtain ⟨hr, hm⟩ := holds_largerRep platform r (repOf m)
    refine ⟨hlast.trans hr, fun i hi => ?_⟩
    rcases List.mem_cons.mp hi with rfl | hi
    · exact hlast.trans hm
    · exact hall i hi

/-- The data slot of a oneof holds each of its members. -/
theorem holds_oneofReps (platform : Platform) (repOf : ℕ → FieldRep) (rep : FieldRep) (os : List (List ℕ))
    {k : ℕ} {o : List ℕ} (ho : os[k]? = some o) : ∃ r, (oneofReps platform repOf rep os)[k]? = some r ∧
      ∀ i ∈ o, Holds platform r (repOf i) := by
  induction os generalizing rep k with
  | nil => simp at ho
  | cons p os ih =>
    cases k with
    | zero =>
      obtain rfl : p = o := by simpa using ho
      exact ⟨_, rfl, (holds_foldl_largerRep platform repOf p rep).2⟩
    | succ k => exact ih _ ho

end Reps

section Storage

variable {platform : Platform} {decl : Declaration}

/-- The slot that holds the storage of a field. -/
def Declaration.storageSlot (decl : Declaration) (i : ℕ) : ℕ :=
  match decl.oneofOf i with
  | some k => decl.dataSlot k
  | none => decl.fieldSlot i

theorem offset_eq (i : ℕ) : decl.offset platform i = decl.slotAt platform (decl.storageSlot i) := by
  rw [Declaration.offset, Declaration.storageSlot]
  cases decl.oneofOf i <;> rfl

theorem oneofOf_mem {i k : ℕ} (h : decl.oneofOf i = some k) : ∃ o, decl.oneofs[k]? = some o ∧ i ∈ o := by
  obtain ⟨hk, hi, -⟩ := List.findIdx?_eq_some_iff_getElem.mp h
  exact ⟨_, List.getElem?_eq_getElem hk, by simpa using hi⟩

theorem mem_flatten_of_oneofOf {i k : ℕ} (h : decl.oneofOf i = some k) : i ∈ decl.oneofs.flatten := by
  obtain ⟨o, ho, hi⟩ := oneofOf_mem h
  exact List.mem_flatten.mpr ⟨o, List.mem_of_getElem? ho, hi⟩

theorem not_mem_flatten_of_oneofOf {i : ℕ} (h : decl.oneofOf i = none) : i ∉ decl.oneofs.flatten := by
  intro hi
  obtain ⟨o, ho, hio⟩ := List.mem_flatten.mp hi
  have := List.findIdx?_eq_none_iff.mp h o ho
  simp [hio] at this

/-- The case slot and the data slot of a oneof that has a member. -/
theorem slots_of_oneofOf (platform : Platform) {i k : ℕ} (h : decl.oneofOf i = some k) :
    ∃ r, (decl.slots platform)[decl.caseSlot k]? = some .rep4Byte ∧
      (decl.slots platform)[decl.dataSlot k]? = some r ∧ Holds platform r (repAt decl.fields i) := by
  obtain ⟨o, ho, hi⟩ := oneofOf_mem h
  obtain ⟨r, hr, hholds⟩ := holds_oneofReps platform (repAt decl.fields) .rep1Byte decl.oneofs ho
  exact ⟨r, slots_caseSlot hr, slots_dataSlot hr, hholds i hi⟩

/-- A field outside of oneofs among the linked ones. -/
theorem linked_of_none (hplain : ∀ f ∈ decl.fields, f.offset < kOneofBase ∧ f.presence = 0) {i : ℕ}
    (hi : i < decl.fields.length) (h : decl.oneofOf i = none) :
    ∃ f, decl.linked[i]? = some f ∧ decl.fields[i]? = some f ∧ f.offset < kOneofBase ∧ f.presence = 0 := by
  have hf := List.getElem?_eq_getElem hi
  obtain ⟨hoffset, hpresence⟩ := hplain _ (List.getElem_mem hi)
  refine ⟨_, ?_, hf, hoffset, hpresence⟩
  rw [Declaration.linked_getElem?, hf, Option.map_some, if_neg (not_mem_flatten_of_oneofOf h)]

/-- The slot of the storage of a field. -/
theorem slots_storageSlot (platform : Platform)
    (hplain : ∀ f ∈ decl.fields, f.offset < kOneofBase ∧ f.presence = 0) {i : ℕ}
    (hi : i < decl.fields.length) : ∃ r, (decl.slots platform)[decl.storageSlot i]? = some r ∧
      Holds platform r (repAt decl.fields i) := by
  rw [Declaration.storageSlot]
  cases h : decl.oneofOf i with
  | some k =>
    obtain ⟨r, -, hr, hholds⟩ := slots_of_oneofOf platform h
    exact ⟨r, hr, hholds⟩
  | none =>
    obtain ⟨f, hf, hf', hlt, -⟩ := linked_of_none hplain hi h
    refine ⟨f.mode.rep, slots_fieldSlot hf hlt, ?_⟩
    rw [repAt, hf']
    exact Holds.refl _ _

/-- The slot of a field outside of oneofs is one of those of the fields. -/
theorem fieldSlot_lt {i : ℕ} {f : MiniTableField} (hf : decl.linked[i]? = some f)
    (hlt : f.offset < kOneofBase) : decl.fieldSlot i < (fieldSlots decl.linked).length := by
  rw [fieldSlots_split hf hlt, Declaration.fieldSlot]
  simp

/-- Fields outside of oneofs have slots of their own. -/
theorem fieldSlot_lt_fieldSlot {i j : ℕ} {f : MiniTableField} (hf : decl.linked[i]? = some f)
    (hlt : f.offset < kOneofBase) (hij : i < j) : decl.fieldSlot i < decl.fieldSlot j := by
  have hf' : (decl.linked.take j)[i]? = some f := by rw [List.getElem?_take, if_pos hij, hf]
  rw [Declaration.fieldSlot, Declaration.fieldSlot, fieldSlots_split hf' hlt, List.take_take,
    Nat.min_eq_left hij.le]
  simp

/-- Only members of one oneof share their slot. -/
theorem storageSlot_inj (hplain : ∀ f ∈ decl.fields, f.offset < kOneofBase ∧ f.presence = 0) {i j : ℕ}
    (hi : i < decl.fields.length) (hj : j < decl.fields.length) (hne : i ≠ j) (hnot : ¬ SameOneof decl i j) :
    decl.storageSlot i ≠ decl.storageSlot j := by
  rw [Declaration.storageSlot, Declaration.storageSlot]
  cases hoi : decl.oneofOf i with
  | some k =>
    cases hoj : decl.oneofOf j with
    | some l =>
      have hkl : k ≠ l := by
        rintro rfl
        exact hnot ⟨k, hoi, hoj⟩
      simp only [Declaration.dataSlot]
      omega
    | none =>
      obtain ⟨f, hf, -, hlt, -⟩ := linked_of_none hplain hj hoj
      have := fieldSlot_lt hf hlt
      simp only [Declaration.dataSlot]
      omega
  | none =>
    obtain ⟨f, hf, -, hlt, -⟩ := linked_of_none hplain hi hoi
    cases hoj : decl.oneofOf j with
    | some l =>
      have := fieldSlot_lt hf hlt
      simp only [Declaration.dataSlot]
      omega
    | none =>
      obtain ⟨g, hg, -, hlt', -⟩ := linked_of_none hplain hj hoj
      rcases Nat.lt_or_gt_of_ne hne with hij | hij
      · exact (fieldSlot_lt_fieldSlot hf hlt hij).ne
      · exact (fieldSlot_lt_fieldSlot hg hlt' hij).ne'

/-- A case word has a slot of its own. -/
theorem caseSlot_ne_storageSlot (hplain : ∀ f ∈ decl.fields, f.offset < kOneofBase ∧ f.presence = 0) {j : ℕ}
    (hj : j < decl.fields.length) (k : ℕ) : decl.caseSlot k ≠ decl.storageSlot j := by
  rw [Declaration.storageSlot]
  cases hoj : decl.oneofOf j with
  | some l =>
    simp only [Declaration.dataSlot, Declaration.caseSlot]
    omega
  | none =>
    obtain ⟨f, hf, -, hlt, -⟩ := linked_of_none hplain hj hoj
    have := fieldSlot_lt hf hlt
    simp only [Declaration.caseSlot]
    omega

end Storage

section Bits

variable {platform : Platform} {decl : Declaration}

/-- The presence of a field by its kind. -/
inductive PresenceOf (platform : Platform) (decl : Declaration) (i : ℕ) : ℤ → Prop
  | member {k : ℕ} (h : decl.oneofOf i = some k) :
      PresenceOf platform decl i (-(decl.slotAt platform (decl.caseSlot k) : ℤ) - 1)
  | required {f : MiniTableField} (h : decl.oneofOf i = none) (hf : decl.linked[i]? = some f)
      (hfield : decl.fields[i]? = some f) (hclass : f.offset = kRequiredPresence) :
      PresenceOf platform decl i (kReservedHasbits + classBefore decl.linked kRequiredPresence i : ℕ)
  | optional {f : MiniTableField} (h : decl.oneofOf i = none) (hf : decl.linked[i]? = some f)
      (hfield : decl.fields[i]? = some f) (hclass : f.offset = kHasbitPresence) :
      PresenceOf platform decl i (kReservedHasbits + classCount decl.linked kRequiredPresence +
        classBefore decl.linked kHasbitPresence i : ℕ)
  | none {f : MiniTableField} (h : decl.oneofOf i = none) (hf : decl.linked[i]? = some f)
      (hfield : decl.fields[i]? = some f) (hclass : f.offset = kNoPresence) : PresenceOf platform decl i 0

theorem presenceOf (platform : Platform)
    (hplain : ∀ f ∈ decl.fields, f.offset < kOneofBase ∧ f.presence = 0) {i : ℕ}
    (hi : i < decl.fields.length) : PresenceOf platform decl i (decl.presence platform i) := by
  rw [Declaration.presence]
  cases h : decl.oneofOf i with
  | some k => exact .member h
  | none =>
    obtain ⟨f, hf, hfield, hlt, hzero⟩ := linked_of_none hplain hi h
    dsimp only
    rw [hf, Option.elim_some, hasbitPresence]
    by_cases hr : f.offset = kRequiredPresence
    · rw [if_pos hr]
      exact .required h hf hfield hr
    · rw [if_neg hr]
      by_cases hh : f.offset = kHasbitPresence
      · rw [if_pos hh]
        exact .optional h hf hfield hh
      · rw [if_neg hh, hzero, ite_self]
        refine .none h hf hfield ?_
        simp only [kRequiredPresence, kHasbitPresence, kNoPresence, kOneofBase] at *
        omega

/-- Fields of a class have different numbers of fields of the class in front of them. -/
theorem classBefore_lt_classBefore {fields : List MiniTableField} {c i j : ℕ} {f : MiniTableField}
    (hf : fields[i]? = some f) (hc : f.offset = c) (hij : i < j) :
    classBefore fields c i < classBefore fields c j := by
  have hf' : (fields.take j)[i]? = some f := by rw [List.getElem?_take, if_pos hij, hf]
  have h := classBefore_lt hf' hc
  rwa [classBefore, List.take_take, Nat.min_eq_left hij.le] at h

/-- The first field of a class that has fields. -/
theorem exists_first_of_class {fields : List MiniTableField} {c : ℕ} (h : 0 < classCount fields c) :
    ∃ (i : ℕ) (f : MiniTableField), fields[i]? = some f ∧ f.offset = c ∧ classBefore fields c i = 0 := by
  induction fields with
  | nil => simp [classCount] at h
  | cons f fields ih =>
    by_cases hf : f.offset = c
    · exact ⟨0, f, rfl, hf, rfl⟩
    · rw [classCount, List.countP_cons_of_neg (by simpa using hf)] at h
      obtain ⟨i, g, hg, hc, hfirst⟩ := ih h
      refine ⟨i + 1, g, hg, hc, ?_⟩
      rw [classBefore, List.take_succ_cons, List.countP_cons_of_neg (by simpa using hf)]
      exact hfirst

theorem classCount_add (fields : List MiniTableField) {c c' : ℕ} (hne : c ≠ c') :
    fields.countP (fun f => f.offset == c || f.offset == c') = classCount fields c + classCount fields c' := by
  induction fields with
  | nil => rfl
  | cons f fields ih =>
    simp only [classCount, List.countP_cons] at *
    rw [ih]
    by_cases hc : f.offset = c
    · have hc' : f.offset ≠ c' := fun h => hne (hc.symm.trans h)
      simp [hc, hne]
      omega
    · by_cases hc' : f.offset = c' <;> simp [hc, hc', Ne.symm hne]
      omega

end Bits

section Sound

variable {platform : Platform} {decl : Declaration} {t : MiniTable}

/-- A table with the presences of its declaration in unbounded numbers. -/
structure PresentAs (platform : Platform) (decl : Declaration) (t : MiniTable) : Prop where
  plain : ∀ f ∈ decl.fields, f.offset < kOneofBase ∧ f.presence = 0
  members : Members decl.fields decl.oneofs.flatten
  length_eq : t.fields.length = decl.fields.length
  presence : ∀ (i : ℕ) (f : MiniTableField), t.fields[i]? = some f → f.presence = decl.presence platform i

/-- Besides, with its offsets. -/
structure LaidOutAs (platform : Platform) (decl : Declaration) (t : MiniTable) : Prop
    extends PresentAs platform decl t where
  offset : ∀ (i : ℕ) (f : MiniTableField), t.fields[i]? = some f →
    f.offset = decl.offset platform i ∧ f.mode.rep = repAt decl.fields i
  size : (decl.layout platform).1 ≤ t.size

section Present

variable (h : PresentAs platform decl t)

include h

theorem PresentAs.lt {i : ℕ} {f : MiniTableField} (hf : t.fields[i]? = some f) : i < decl.fields.length :=
  h.length_eq ▸ (List.getElem?_eq_some_iff.mp hf).1

/-- The field at an index. -/
theorem PresentAs.exists_field {i : ℕ} (hi : i < decl.fields.length) :
    ∃ f, t.fields[i]? = some f ∧ f.presence = decl.presence platform i := by
  have hf := List.getElem?_eq_getElem (h.length_eq ▸ hi)
  exact ⟨_, hf, h.presence i _ hf⟩

theorem PresentAs.presenceOf {i : ℕ} {f : MiniTableField} (hf : t.fields[i]? = some f) :
    PresenceOf platform decl i f.presence := by
  rw [h.presence i f hf]
  exact MiniDescriptor.presenceOf platform h.plain (h.lt hf)

/-- The fields with a hasbit are those of two classes. -/
theorem PresentAs.hasbitHeader_eq : hasbitHeader t = hasbitBytes decl.linked := by
  have hlength : decl.linked.length = decl.fields.length := by simp [Declaration.linked]
  have hclasses : t.fields.map (fun f => decide (0 < f.presence)) =
      decl.linked.map (fun f => f.offset == kRequiredPresence || f.offset == kHasbitPresence) := by
    refine List.ext_getElem? fun i => ?_
    rw [List.getElem?_map, List.getElem?_map]
    rcases Nat.lt_or_ge i decl.fields.length with hi | hi
    · obtain ⟨f, hf, hpresence⟩ := h.exists_field hi
      have hp := h.presenceOf hf
      rw [hf, Option.map_some]
      generalize f.presence = p at hp ⊢
      cases hp with
      | member hoi =>
        obtain ⟨g, hg⟩ : ∃ g, decl.fields[i]? = some g := ⟨_, List.getElem?_eq_getElem hi⟩
        rw [Declaration.linked_getElem?, hg, Option.map_some, if_pos (mem_flatten_of_oneofOf hoi),
          Option.map_some, decide_eq_false (by omega)]
        rfl
      | required _ hg _ hclass =>
        rw [hg, Option.map_some, hclass, decide_eq_true (by simp only [kReservedHasbits]; omega)]
        rfl
      | optional _ hg _ hclass =>
        rw [hg, Option.map_some, hclass, decide_eq_true (by simp only [kReservedHasbits]; omega)]
        rfl
      | none _ hg _ hclass =>
        rw [hg, Option.map_some, hclass]
        rfl
    · rw [List.getElem?_eq_none (h.length_eq ▸ hi), List.getElem?_eq_none (hlength ▸ hi)]
      rfl
  have hcount : t.fields.countP (fun f => decide (0 < f.presence)) =
      decl.linked.countP (fun f => f.offset == kRequiredPresence || f.offset == kHasbitPresence) := by
    have := congrArg (List.countP id) hclasses
    rwa [List.countP_map, List.countP_map] at this
  rw [hasbitHeader, hasbitBytes, hcount, classCount_add _ (by decide), ← Nat.add_assoc]

/-- Two hasbits of different fields. -/
private theorem PresentAs.distinct {i j : ℕ} {f g : MiniTableField} (hf : t.fields[i]? = some f)
    (hg : t.fields[j]? = some g) (hne : i ≠ j) (hpos : 0 < f.presence) : f.presence ≠ g.presence := by
  have hpf := h.presenceOf hf
  have hpg := h.presenceOf hg
  have horder : ∀ {c i j : ℕ} {f g : MiniTableField}, decl.linked[i]? = some f → decl.linked[j]? = some g →
      f.offset = c → g.offset = c → i ≠ j → classBefore decl.linked c i ≠ classBefore decl.linked c j := by
    intro c i j f g hf hg hcf hcg hne
    rcases Nat.lt_or_gt_of_ne hne with hij | hij
    · exact (classBefore_lt_classBefore hf hcf hij).ne
    · exact (classBefore_lt_classBefore hg hcg hij).ne'
  generalize f.presence = p at hpf hpos ⊢
  generalize g.presence = q at hpg ⊢
  cases hpf with
  | member => omega
  | none => omega
  | required _ hlf _ hcf =>
    have hlt := classBefore_lt hlf hcf
    cases hpg with
    | member => omega
    | none => omega
    | required _ hlg _ hcg =>
      have := horder hlf hlg hcf hcg hne
      simp only [kReservedHasbits]
      omega
    | optional _ hlg _ hcg =>
      simp only [kReservedHasbits]
      omega
  | optional _ hlf _ hcf =>
    cases hpg with
    | member => omega
    | none => omega
    | required _ hlg _ hcg =>
      have hlt := classBefore_lt hlg hcg
      simp only [kReservedHasbits]
      omega
    | optional _ hlg _ hcg =>
      have := horder hlf hlg hcf hcg hne
      simp only [kReservedHasbits]
      omega

/-- The lowest hasbit is the reserved base. -/
private theorem PresentAs.base {i : ℕ} {f : MiniTableField} (hf : t.fields[i]? = some f)
    (hpos : 0 < f.presence) :
    ∃ (j : ℕ) (g : MiniTableField), t.fields[j]? = some g ∧ g.presence = kReservedHasbits := by
  have hfield : ∀ {j : ℕ} {g : MiniTableField}, decl.linked[j]? = some g → g.offset ≠ kOneofBase →
      ∃ g', t.fields[j]? = some g' ∧ g'.presence = hasbitPresence decl.linked j g := by
    intro j g hg hclass
    have hj : j < decl.fields.length := by
      have := (List.getElem?_eq_some_iff.mp hg).1
      simpa [Declaration.linked] using this
    have hmem : j ∉ decl.oneofs.flatten := by
      intro hmem
      rw [Declaration.linked_getElem?] at hg
      obtain ⟨g', -, rfl⟩ := Option.map_eq_some_iff.mp hg
      rw [if_pos hmem] at hclass
      exact hclass rfl
    obtain ⟨g', hg', hpresence⟩ := h.exists_field hj
    refine ⟨g', hg', ?_⟩
    rw [hpresence, Declaration.presence, Declaration.oneofOf_eq_none hmem]
    dsimp only
    rw [hg, Option.elim_some]
  rcases Nat.eq_zero_or_pos (classCount decl.linked kRequiredPresence) with hzero | hreq
  · -- without required fields the first optional one has it
    have hopt : 0 < classCount decl.linked kHasbitPresence := by
      have hp := h.presenceOf hf
      generalize f.presence = p at hp hpos
      cases hp with
      | member => omega
      | none => omega
      | required _ hl _ hc =>
        have := classBefore_lt hl hc
        omega
      | optional _ hl _ hc => exact Nat.zero_lt_of_lt (classBefore_lt hl hc)
    obtain ⟨j, g, hg, hc, hfirst⟩ := exists_first_of_class hopt
    obtain ⟨g', hg', hpresence⟩ := hfield hg (by rw [hc]; decide)
    refine ⟨j, g', hg', ?_⟩
    rw [hpresence, hasbitPresence, if_neg (by rw [hc]; decide), if_pos hc, hzero, hfirst, Nat.add_zero]
  · obtain ⟨j, g, hg, hc, hfirst⟩ := exists_first_of_class hreq
    obtain ⟨g', hg', hpresence⟩ := hfield hg (by rw [hc]; decide)
    refine ⟨j, g', hg', ?_⟩
    rw [hpresence, hasbitPresence, if_pos hc, hfirst, Nat.add_zero]

/-- The range of hasbits. -/
private theorem PresentAs.range {i : ℕ} {f : MiniTableField} (hf : t.fields[i]? = some f)
    (hnone : decl.oneofOf i = none) :
    f.presence = 0 ∨ (kReservedHasbits ≤ f.presence ∧ f.presence < 8 * hasbitHeader t) := by
  have hp := h.presenceOf hf
  rw [h.hasbitHeader_eq, hasbitBytes]
  generalize f.presence = p at hp ⊢
  simp only [kReservedHasbits]
  cases hp with
  | member hk => simp [hnone] at hk
  | none => exact .inl rfl
  | required _ hl _ hc =>
    have := classBefore_lt hl hc
    right
    simp only [kReservedHasbits]
    omega
  | optional _ hl _ hc =>
    have := classBefore_lt hl hc
    right
    simp only [kReservedHasbits]
    omega

/-- Required fields have the lowest hasbits. -/
private theorem PresentAs.requiredFirst {i j : ℕ} {f g : MiniTableField} (hf : t.fields[i]? = some f)
    (hg : t.fields[j]? = some g) (hi : (decl.fields[i]?).map (·.offset) = some kRequiredPresence)
    (hj : (decl.fields[j]?).map (·.offset) ≠ some kRequiredPresence) (hpos : 0 < g.presence) :
    0 < f.presence ∧ f.presence < g.presence := by
  have hp := h.presenceOf hf
  have hq := h.presenceOf hg
  generalize f.presence = p at hp ⊢
  generalize g.presence = q at hq hpos ⊢
  cases hq with
  | member => omega
  | none => omega
  | required _ _ hfield hc =>
    rw [hfield, Option.map_some, hc] at hj
    exact absurd rfl hj
  | optional _ _ _ _ =>
    cases hp with
    | member hk =>
      obtain ⟨f', hf', hc⟩ := h.members.hasbit i (mem_flatten_of_oneofOf hk)
      rw [hf', Option.map_some, hc] at hi
      exact absurd hi (by decide)
    | none _ _ hfield hc =>
      rw [hfield, Option.map_some, hc] at hi
      exact absurd hi (by decide)
    | optional _ _ hfield hc =>
      rw [hfield, Option.map_some, hc] at hi
      exact absurd hi (by decide)
    | required _ hl _ hc =>
      have := classBefore_lt hl hc
      simp only [kReservedHasbits]
      omega

end Present

variable (h : LaidOutAs platform decl t)

include h

/-- The slot of the storage of a field. -/
private theorem LaidOutAs.storage {i : ℕ} {f : MiniTableField} (hf : t.fields[i]? = some f) :
    ∃ r, (decl.slots platform)[decl.storageSlot i]? = some r ∧ Holds platform r f.mode.rep ∧
      f.offset = decl.slotAt platform (decl.storageSlot i) := by
  obtain ⟨r, hr, hholds⟩ := slots_storageSlot platform h.plain (h.lt hf)
  obtain ⟨hoffset, hrep⟩ := h.offset i f hf
  exact ⟨r, hr, hrep ▸ hholds, hoffset.trans (offset_eq i)⟩

/-- The case word of a member. -/
private theorem LaidOutAs.caseOffset {i k : ℕ} {f : MiniTableField} (hf : t.fields[i]? = some f)
    (hk : decl.oneofOf i = some k) : f.presence < 0 ∧
      caseOffsetOf f.presence = decl.slotAt platform (decl.caseSlot k) := by
  have hp := h.presence i f hf
  rw [Declaration.presence, hk] at hp
  rw [caseOffsetOf, hp]
  dsimp only
  omega

/-- A layout in unbounded numbers is sound. -/
theorem LaidOutAs.sound : SoundLayout platform decl t := by
  have hheader := h.hasbitHeader_eq
  have hstart : ∀ {k : ℕ} {r : FieldRep}, (decl.slots platform)[k]? = some r →
      alignOfRep platform r ∣ decl.slotAt platform k ∧ hasbitHeader t ≤ decl.slotAt platform k ∧
        decl.slotAt platform k + sizeOfRep platform r ≤ t.size := by
    intro k r hk
    have hinside : alignOfRep platform r ∣ decl.slotAt platform k ∧
        hasbitBytes decl.linked ≤ decl.slotAt platform k ∧
        decl.slotAt platform k + sizeOfRep platform r ≤ (decl.layout platform).1 := slot_inside hk
    exact ⟨hinside.1, hheader.trans_le hinside.2.1, hinside.2.2.trans h.size⟩
  have hapart : ∀ {k l : ℕ} {r q : FieldRep}, (decl.slots platform)[k]? = some r →
      (decl.slots platform)[l]? = some q → k ≠ l →
      Apart (decl.slotAt platform k) (sizeOfRep platform r) (decl.slotAt platform l) (sizeOfRep platform q) :=
    fun hk hl hne => slots_apart hk hl hne
  refine ⟨?_, ?_, ?_, ?_, fun i f hf hnone => h.range hf hnone,
    fun i j f g hf hg hne hpos => h.distinct hf hg hne hpos, fun i f hf hpos => h.base hf hpos,
    fun i j f g hf hg hi hj hpos => h.requiredFirst hf hg hi hj hpos⟩
  · intro i f hf
    obtain ⟨r, hr, hholds, hoffset⟩ := h.storage hf
    obtain ⟨haligned, hbegin, hend⟩ := hstart hr
    rw [hoffset]
    exact ⟨hholds.2.trans haligned, hbegin, (Nat.add_le_add_left hholds.1 _).trans hend⟩
  · intro i j f g hf hg hne hnot
    obtain ⟨r, hr, hholds, hoffset⟩ := h.storage hf
    obtain ⟨q, hq, hholds', hoffset'⟩ := h.storage hg
    rw [hoffset, hoffset']
    exact (hapart hr hq (storageSlot_inj h.plain (h.lt hf) (h.lt hg) hne hnot)).mono hholds.1 hholds'.1
  · rintro i j f g hf hg ⟨k, hi, hj⟩
    rw [h.presence i f hf, h.presence j g hg, (h.offset i f hf).1, (h.offset j g hg).1,
      Declaration.presence, Declaration.presence, Declaration.offset, Declaration.offset,
      hi, hj]
    exact ⟨rfl, rfl⟩
  · intro i k f hf hk
    obtain ⟨hneg, hcase⟩ := h.caseOffset hf hk
    obtain ⟨-, hslot, -, -⟩ := slots_of_oneofOf platform hk
    obtain ⟨haligned, hbegin, hend⟩ := hstart hslot
    rw [hcase]
    refine ⟨hneg, ?_, hbegin, ?_, fun j g hg => ?_, fun j l g hg hl hne => ?_⟩
    · cases platform <;> exact haligned
    · cases platform <;> exact hend
    · obtain ⟨q, hq, hholds', hoffset'⟩ := h.storage hg
      rw [hoffset']
      refine (hapart hslot hq (caseSlot_ne_storageSlot h.plain (h.lt hg) k)).mono ?_ hholds'.1
      cases platform <;> exact Nat.le_refl _
    · obtain ⟨-, hcase'⟩ := h.caseOffset hg hl
      obtain ⟨-, hslot', -, -⟩ := slots_of_oneofOf platform hl
      rw [hcase']
      have hne' : decl.caseSlot k ≠ decl.caseSlot l := by
        simp only [Declaration.caseSlot]
        omega
      refine (hapart hslot hslot' hne').mono ?_ ?_ <;> cases platform <;> exact Nat.le_refl _

end Sound

section FewSlots

variable {platform : Platform} {decl : Declaration}

theorem length_oneofReps (platform : Platform) (repOf : ℕ → FieldRep) (rep : FieldRep) (os : List (List ℕ)) :
    (oneofReps platform repOf rep os).length = os.length := by
  induction os generalizing rep with
  | nil => rfl
  | cons o os ih => exact congrArg (· + 1) (ih _)

theorem length_oneofSlots (reps : List FieldRep) : (oneofSlots reps).length = 2 * reps.length := by
  induction reps with
  | nil => rfl
  | cons r reps ih =>
    have hslots : oneofSlots (r :: reps) = .rep4Byte :: r :: oneofSlots reps := rfl
    rw [hslots, List.length_cons, List.length_cons, List.length_cons, ih]
    omega

/-- The members of oneofs have no slots of their own. -/
private theorem length_fieldSlots_add (hplain : ∀ f ∈ decl.fields, f.offset < kOneofBase ∧ f.presence = 0)
    (hmembers : Members decl.fields decl.oneofs.flatten) :
    (fieldSlots decl.linked).length + decl.oneofs.flatten.length ≤ decl.fields.length := by
  set n := decl.fields.length with hn
  have hlinked : decl.linked.map (fun f => decide (f.offset < kOneofBase)) =
      (List.range n).map (fun i => decide (i ∉ decl.oneofs.flatten)) := by
    refine List.ext_getElem? fun i => ?_
    rw [List.getElem?_map, List.getElem?_map, Declaration.linked_getElem?]
    rcases Nat.lt_or_ge i n with hi | hi
    · have hf := List.getElem?_eq_getElem hi
      have hlt := (hplain _ (List.getElem_mem hi)).1
      rw [hf, List.getElem?_range hi, Option.map_some, Option.map_some, Option.map_some]
      by_cases hmem : i ∈ decl.oneofs.flatten
      · simp [hmem]
      · simp [hmem, hlt]
    · rw [List.getElem?_eq_none hi, List.getElem?_eq_none (by simpa using hi)]
      rfl
  have hslots : (fieldSlots decl.linked).length =
      (List.range n).countP (fun i => decide (i ∉ decl.oneofs.flatten)) := by
    have hcount := congrArg (List.countP id) hlinked
    rw [List.countP_map, List.countP_map] at hcount
    rw [fieldSlots, List.length_map, ← List.countP_eq_length_filter]
    exact hcount
  have hmem : decl.oneofs.flatten.length ≤ (List.range n).countP (fun i => decide (i ∈ decl.oneofs.flatten)) := by
    rw [List.countP_eq_length_filter]
    refine (List.subperm_of_subset hmembers.nodup fun i hi => ?_).length_le
    obtain ⟨f, hf, -⟩ := hmembers.hasbit i hi
    exact List.mem_filter.mpr ⟨List.mem_range.mpr (List.getElem?_eq_some_iff.mp hf).1, by simpa using hi⟩
  have htotal : (List.range n).length = _ :=
    List.length_eq_countP_add_countP fun i => decide (i ∈ decl.oneofs.flatten)
  simp only [decide_eq_true_eq] at htotal
  rw [List.length_range] at htotal
  omega

/-- There are at most two slots for each field. -/
theorem length_slots_le (platform : Platform)
    (hplain : ∀ f ∈ decl.fields, f.offset < kOneofBase ∧ f.presence = 0)
    (hmembers : Members decl.fields decl.oneofs.flatten) (hnonempty : ∀ o ∈ decl.oneofs, o ≠ []) :
    (decl.slots platform).length ≤ 2 * decl.fields.length := by
  have hadd := length_fieldSlots_add hplain hmembers
  have honeofs : ∀ os : List (List ℕ), (∀ o ∈ os, o ≠ []) → os.length ≤ os.flatten.length := by
    intro os hos
    induction os with
    | nil => exact Nat.le_refl _
    | cons o os ih =>
      have hlen := List.length_pos_of_ne_nil (hos o List.mem_cons_self)
      have hrest := ih fun p hp => hos p (List.mem_cons_of_mem _ hp)
      rw [List.length_cons, List.flatten_cons, List.length_append]
      omega
  have hle := honeofs _ hnonempty
  rw [Declaration.slots, List.length_append, length_oneofSlots, Declaration.reps, length_oneofReps]
  omega

/-- The base of the representations is not reduced while they are placed. -/
private theorem foldl_alignRep_fst (platform : Platform) {reps : List FieldRep} (hnodup : reps.Nodup)
    (s s' : ℕ × (FieldRep → ℕ)) (hbase : s.1 = s'.1) (hcounts : ∀ r ∈ reps, s.2 r = s'.2 r) :
    (reps.foldl (alignRep platform) s).1 = (reps.foldl (idealAlign platform) s').1 := by
  induction reps generalizing s s' with
  | nil => exact hbase
  | cons r reps ih =>
    obtain ⟨hr, hnodup⟩ := List.nodup_cons.mp hnodup
    have hne : ∀ q ∈ reps, q ≠ r := fun q hq he => hr (he ▸ hq)
    have hcount := hcounts r List.mem_cons_self
    rw [List.foldl_cons, List.foldl_cons]
    refine ih hnodup _ _ ?_ fun q hq => ?_
    · rw [alignRep, idealAlign, ← hbase, ← hcount]
      split <;> simp_all
    · have hq' := hcounts q (List.mem_cons_of_mem _ hq)
      rw [alignRep, idealAlign, ← hbase, ← hcount]
      dsimp only
      split
      · exact hq'
      · dsimp only
        rw [Function.update_of_ne (hne q hq), Function.update_of_ne (hne q hq), hq']

/-- The end of the layout of a declaration with few fields is the one that the code compares. -/
theorem Ready.end_eq {d d₂ d₃ : MtDecoder} (h : Ready platform decl d) (hfew : decl.fields.length ≤ 30000)
    (hhasbits : assignHasbits d = .ok d₂) (halign : calculateAlignments d₂ = .ok d₃) :
    (decl.layout platform).1 ≤ uint16Max := by
  obtain rfl := h.platform_eq
  obtain ⟨fields, hassign, hget⟩ := assignHasbits_spec d (required_le_of_assignHasbits hhasbits)
  obtain rfl := Except.ok.inj (hhasbits.symm.trans hassign)
  have halike : Alike decl.linked fields := h.alike.trans (alike_of_presence hget)
  have hlength : decl.linked.length ≤ 30000 := by simpa [Declaration.linked] using hfew
  have hcount : ∀ r, (decl.slots d.platform).count r ≤ uint16Max := by
    intro r
    have hslots := length_slots_le d.platform h.plain h.members h.nonempty
    have hr := List.count_le_length (a := r) (l := decl.slots d.platform)
    simp only [uint16Max]
    omega
  have hbytes : toUint16 (hasbitBytes d.table.fields) = hasbitBytes decl.linked := by
    have hr := List.countP_le_length (p := fun f : MiniTableField => f.offset == kRequiredPresence)
      (l := decl.linked)
    have hh := List.countP_le_length (p := fun f : MiniTableField => f.offset == kHasbitPresence)
      (l := decl.linked)
    rw [h.alike.hasbitBytes_eq]
    apply toUint16_eq
    simp only [hasbitBytes, classCount, kReservedHasbits, uint16Max]
    omega
  have hbase := (base_le_of_calculateAlignments halign).1
  rw [foldl_alignRep_fst _ (by decide) _ (hasbitBytes decl.linked, fun r => (decl.slots d.platform).count r)] at hbase
  · exact hbase
  · exact hbytes
  · intro r _
    refine (countedReps_eq _ (by exact h.counts) r).trans ?_
    dsimp only
    rw [halike.fieldSlots_eq, ← toUint16_eq (hcount r), Declaration.slots, List.count_append,
      List.count_append, Nat.add_comm]

end FewSlots

section Build

variable {platform : Platform}

/-- What a descriptor declares, with its version. -/
def declaredBy (platform : Platform) : List ℕ → Option Declaration
  | [] => some ⟨[], []⟩
  | vers :: rest =>
    if vers = kVersionMapV1 ∨ vers = kVersionMessageV1 then declare platform rest else some ⟨[], []⟩

/-- A table without fields is sound. -/
theorem soundLayout_nil {decl : Declaration} {t : MiniTable} (h : t.fields = []) :
    SoundLayout platform decl t := by
  constructor <;> simp [h]

/-- A field needs room. -/
theorem SoundLayout.size_pos {decl : Declaration} {t : MiniTable} (h : SoundLayout platform decl t)
    (hne : 0 < t.fields.length) : 0 < t.size := by
  obtain ⟨f, hf⟩ : ∃ f, t.fields[0]? = some f := ⟨_, List.getElem?_eq_getElem hne⟩
  have hroom := (h.storage 0 f hf).2.2
  have hpos := sizeOfRep_pos platform f.mode.rep
  omega

theorem sizeOfRep_le (platform : Platform) (r : FieldRep) : sizeOfRep platform r ≤ 16 := by
  cases platform <;> cases r <;> decide

theorem alignOfRep_dvd (platform : Platform) (r : FieldRep) : alignOfRep platform r ∣ 8 := by
  cases platform <;> cases r <;> decide

/-- A table with the two storages of a map entry. -/
private theorem soundLayout_entry {decl : Declaration} {t : MiniTable} (hnone : decl.oneofs = [])
    (hfew : decl.fields.length ≤ 2) (h : PresentAs platform decl t) (hsize : t.size = kSizeofMapEntry)
    (hoffset : ∀ (i : ℕ) (f : MiniTableField), t.fields[i]? = some f →
      i = 0 ∧ f.offset = 16 ∨ i = 1 ∧ f.offset = 32) : SoundLayout platform decl t := by
  have honeof : ∀ i, decl.oneofOf i = none := fun i => Declaration.oneofOf_eq_none (by simp [hnone])
  have hlength : decl.linked.length ≤ 2 := by simpa [Declaration.linked] using hfew
  have hheader : hasbitHeader t ≤ 16 := by
    have hr := List.countP_le_length (p := fun f : MiniTableField => f.offset == kRequiredPresence)
      (l := decl.linked)
    have hh := List.countP_le_length (p := fun f : MiniTableField => f.offset == kHasbitPresence)
      (l := decl.linked)
    rw [h.hasbitHeader_eq]
    simp only [hasbitBytes, classCount, kReservedHasbits]
    omega
  refine ⟨?_, ?_, ?_, ?_, fun i f hf hnone => h.range hf hnone,
    fun i j f g hf hg hne hpos => h.distinct hf hg hne hpos, fun i f hf hpos => h.base hf hpos,
    fun i j f g hf hg hi hj hpos => h.requiredFirst hf hg hi hj hpos⟩
  · intro i f hf
    have hle := sizeOfRep_le platform f.mode.rep
    have hdvd := alignOfRep_dvd platform f.mode.rep
    rw [hsize, kSizeofMapEntry]
    rcases hoffset i f hf with ⟨-, ho⟩ | ⟨-, ho⟩
    · rw [ho]
      exact ⟨hdvd.trans (by decide), hheader, by omega⟩
    · rw [ho]
      exact ⟨hdvd.trans (by decide), by omega, by omega⟩
  · intro i j f g hf hg hne _
    have hle := sizeOfRep_le platform f.mode.rep
    have hle' := sizeOfRep_le platform g.mode.rep
    simp only [Apart]
    rcases hoffset i f hf with ⟨hi, ho⟩ | ⟨hi, ho⟩ <;> rcases hoffset j g hg with ⟨hj, ho'⟩ | ⟨hj, ho'⟩ <;> omega
  · rintro i j f g hf hg ⟨k, hk, -⟩
    simp [honeof] at hk
  · intro i k f hf hk
    simp [honeof] at hk

/-- The fixed layout of a map entry is sound. -/
private theorem soundLayout_map {rest : List ℕ} {d : MtDecoder}
    (h : parseMap (MtDecoder.initial platform) rest = .ok d) : ∃ decl, declare platform rest = some decl ∧
      (decl.fields.length ≤ 30000 → SoundLayout platform decl d.table) := by
  obtain ⟨d₁, hparse, h⟩ := bind_eq_ok.mp h
  obtain ⟨d₂, hhasbits, h⟩ := bind_eq_ok.mp h
  obtain ⟨decl, hdecl, -, hcount, hmembers, hready⟩ := ready_of_parseMessage hparse
  refine ⟨decl, hdecl, fun hfew => ?_⟩
  have hle : decl.fields.length ≤ uint16Max := by
    simp only [uint16Max]
    omega
  have hr := hready hle fun i hi => by
    have := hmembers i hi
    simp only [kOneofBase, kIndexSentinel]
    omega
  have hcount₂ : d₂.table.fieldCount = decl.fields.length := by
    rw [(sameNumbers_assignHasbits hhasbits).fieldCount_eq, hr.fieldCount_eq]
  split at h
  · cases h
  · next htwo =>
    rw [not_not, hcount₂] at htwo
    split at h
    · cases h
    · next honeofs =>
      rw [not_not] at honeofs
      split at h
      · next k v hfields =>
        obtain ⟨-, -, h⟩ := bind_eq_ok.mp h
        obtain ⟨-, -, h⟩ := bind_eq_ok.mp h
        cases h
        have hnone := hr.oneofs_eq_nil hhasbits honeofs
        have hentry : ∀ (i : ℕ) (f : MiniTableField),
            [{ k with offset := kMapEntryKeyOffset }, { v with offset := kMapEntryValueOffset }][i]? = some f →
            (∃ g, d₂.table.fields[i]? = some g ∧ f.presence = g.presence) ∧
              (i = 0 ∧ f.offset = 16 ∨ i = 1 ∧ f.offset = 32) := by
          intro i f hf
          rw [hfields]
          rcases i with _ | _ | i
          · cases hf
            exact ⟨⟨k, rfl, rfl⟩, .inl ⟨rfl, rfl⟩⟩
          · cases hf
            exact ⟨⟨v, rfl, rfl⟩, .inr ⟨rfl, rfl⟩⟩
          · simp at hf
        refine soundLayout_entry hnone htwo.le ⟨hr.plain, hr.members, htwo.symm, fun i f hf => ?_⟩ rfl
          fun i f hf => (hentry i f hf).2
        obtain ⟨g, hg, hpresence⟩ := (hentry i f hf).1
        exact hpresence.trans (presence_of_assignHasbits hr hhasbits (by omega) honeofs hg)
      · cases h

/-- The layout of a message without fields. -/
private theorem layout_of_empty {decl : Declaration} {d : MtDecoder} (h : Ready platform decl d)
    (hempty : decl.fields.length = 0) : (decl.layout platform).1 = 8 := by
  have hslots := length_slots_le platform h.plain h.members h.nonempty
  have hnil : decl.slots platform = [] := List.eq_nil_of_length_eq_zero (by omega)
  have hlinked : decl.linked = [] := List.eq_nil_of_length_eq_zero (by simpa [Declaration.linked] using hempty)
  rw [Declaration.layout, hnil, hlinked]
  cases platform <;> decide

/-- Few fields of a message of moderate size fit into 16 bits. -/
private theorem fits_of_few {decl : Declaration} {d : MtDecoder} (h : Ready platform decl d)
    (hfew : decl.fields.length ≤ 30000) (hsize : (decl.layout platform).1 ≤ 32767)
    (hend : (decl.layout platform).1 + 7 ≤ uint16Max) : FitsUint16 platform decl := by
  refine ⟨?_, fun i hi => ?_, ?_, fun k hk => ?_, hend⟩
  · simp only [uint16Max]
    omega
  · obtain ⟨f, hf, -⟩ := h.members.hasbit i hi
    have := (List.getElem?_eq_some_iff.mp hf).1
    simp only [kOneofBase, kIndexSentinel]
    omega
  · have hadd := classCount_add decl.linked (show kRequiredPresence ≠ kHasbitPresence by decide)
    have hle : decl.linked.countP (fun f => f.offset == kRequiredPresence || f.offset == kHasbitPresence) ≤
        decl.linked.length := List.countP_le_length
    have hlength : decl.linked.length = decl.fields.length := by simp [Declaration.linked]
    simp only [kReservedHasbits]
    omega
  · obtain ⟨r, hr, -⟩ := holds_oneofReps platform (repAt decl.fields) .rep1Byte decl.oneofs
      (List.getElem?_eq_getElem hk)
    have hinside : decl.slotAt platform (decl.caseSlot k) + sizeOfRep platform .rep4Byte ≤
        (decl.layout platform).1 := (slot_inside (slots_caseSlot hr)).2.2
    omega

/-- A message of moderate size is sound just if its aligned size is below 2^16. -/
private theorem soundLayout_message {rest : List ℕ} {d₁ d₂ d₃ : MtDecoder}
    (hparse : parseMessage (MtDecoder.initial platform) rest = .ok d₁)
    (hhasbits : assignHasbits d₁ = .ok d₂) (halign : calculateAlignments d₂ = .ok d₃) :
    ∃ decl, declare platform rest = some decl ∧ (decl.fields.length ≤ 30000 →
      (assignOffsets d₃).table.size ≤ 32767 →
      (SoundLayout platform decl (assignOffsets d₃).table ↔ (decl.layout platform).1 ≤ 65528)) := by
  obtain ⟨decl, hdecl, -, -, hmembers, hready⟩ := ready_of_parseMessage hparse
  refine ⟨decl, hdecl, fun hfew hsize => ?_⟩
  have hle : decl.fields.length ≤ uint16Max := by
    simp only [uint16Max]
    omega
  have hr := hready hle fun i hi => by
    have := hmembers i hi
    simp only [kOneofBase, kIndexSentinel]
    omega
  have hreq : classCount decl.linked kRequiredPresence ≤ 63 := by
    rw [← hr.alike.classCount_eq (by decide)]
    exact required_le_of_assignHasbits hhasbits
  obtain ⟨d₂', d₃', hhasbits', halign', hplaced⟩ := hr.placed hreq (hr.end_eq hfew hhasbits halign)
  obtain rfl : d₂ = d₂' := Except.ok.inj (hhasbits.symm.trans hhasbits')
  obtain rfl : d₃ = d₃' := Except.ok.inj (halign.symm.trans halign')
  have hend := hr.end_eq hfew hhasbits halign
  have hsize_eq := hplaced.size_eq
  constructor
  · -- a size of zero has no room for any field
    intro hsound
    by_contra hlarge
    have hzero : (assignOffsets d₃).table.size = 0 := by
      rw [hsize_eq]
      simp only [toUint16, alignUp, uint16Max] at *
      omega
    have hempty : decl.fields.length = 0 := by
      by_contra hne
      have hpos := hsound.size_pos (by rw [hplaced.length_eq]; omega)
      omega
    exact hlarge (by rw [layout_of_empty hr hempty]; decide)
  · intro hsmall
    have hsize' : (assignOffsets d₃).table.size = alignUp (decl.layout platform).1 8 := by
      rw [hsize_eq, toUint16_eq_iff, alignUp_le_iff]
      simp only [uint16Max]
      omega
    have hle_size : (decl.layout platform).1 ≤ (assignOffsets d₃).table.size :=
      hsize' ▸ le_alignUp _ (by decide)
    have hfit := fits_of_few hr hfew (hle_size.trans hsize) (by simp only [uint16Max]; omega)
    refine LaidOutAs.sound ⟨⟨hr.plain, hr.members, hplaced.length_eq, fun i f hf => ?_⟩,
      fun i f hf => (hplaced.field i f hf).2, hle_size⟩
    rw [(hplaced.field i f hf).1, presence_range hfit hr.plain]

/-- An accepted table of at most 30000 fields and 32767 bytes is sound unless its size wrapped to zero. -/
theorem build_sound_iff {data : List ℕ} {t : MiniTable} (h : build platform data = .ok t) :
    ∃ decl, declaredBy platform data = some decl ∧
      (decl.fields.length ≤ 30000 → t.size ≤ 32767 →
        (SoundLayout platform decl t ↔
          (data.head? = some kVersionMessageV1 → (decl.layout platform).1 ≤ 65528))) := by
  cases data with
  | nil =>
    cases h
    exact ⟨_, rfl, fun _ _ => iff_of_true (soundLayout_nil rfl) nofun⟩
  | cons vers rest =>
    rw [build] at h
    split at h
    · next hmap =>
      subst hmap
      obtain ⟨d, hparse, h⟩ := bind_eq_ok.mp h
      cases h
      obtain ⟨decl, hdecl, hsound⟩ := soundLayout_map hparse
      refine ⟨decl, by rw [declaredBy, if_pos (Or.inl rfl), hdecl], fun hfew _ => ?_⟩
      exact iff_of_true (hsound hfew) fun h => absurd (Option.some.inj h) (by decide)
    · next hmap =>
      split at h
      · next hmessage =>
        subst hmessage
        obtain ⟨d₁, hparse, h⟩ := bind_eq_ok.mp h
        obtain ⟨d₂, hhasbits, h⟩ := bind_eq_ok.mp h
        obtain ⟨d₃, halign, h⟩ := bind_eq_ok.mp h
        cases h
        obtain ⟨decl, hdecl, hiff⟩ := soundLayout_message hparse hhasbits halign
        refine ⟨decl, by rw [declaredBy, if_pos (Or.inr rfl), hdecl], fun hfew hsize => ?_⟩
        rw [hiff hfew hsize]
        exact ⟨fun h _ => h, fun h => h rfl⟩
      · next hmessage =>
        have hfields : t.fields = [] := by
          split at h
          · split at h
            · cases h
            · cases h
              rfl
          · cases h
        refine ⟨_, by rw [declaredBy, if_neg (not_or.mpr ⟨hmap, hmessage⟩)], fun _ _ => ?_⟩
        exact iff_of_true (soundLayout_nil hfields) fun h => absurd (Option.some.inj h) hmessage

theorem build_sound_iff_repeated :
    ∃ t decl, build .bits32 (kVersionMessageV1 :: List.replicate 1 kRepeatedInt32) = .ok t ∧
      declaredBy .bits32 (kVersionMessageV1 :: List.replicate 1 kRepeatedInt32) = some decl ∧
      (decl.fields.length ≤ 30000 → t.size ≤ 32767 → (SoundLayout .bits32 decl t ↔
        ((kVersionMessageV1 :: List.replicate 1 kRepeatedInt32).head? = some kVersionMessageV1 →
          (decl.layout .bits32).1 ≤ 65528))) := by
  obtain ⟨-, d₁, d₂, d₃, -, -, -, -, hbuild, -⟩ := build_repeated (n := 1) (by decide) (by decide)
  obtain ⟨decl, hdecl, hiff⟩ := build_sound_iff hbuild
  exact ⟨_, decl, hbuild, hdecl, hiff⟩

/-- The table of 16381 repeated fields of four bytes has the size zero. -/
theorem build_repeated_not_sound :
    ∃ t decl, build .bits32 (kVersionMessageV1 :: List.replicate 16381 kRepeatedInt32) = .ok t ∧
      declaredBy .bits32 (kVersionMessageV1 :: List.replicate 16381 kRepeatedInt32) = some decl ∧
      decl.fields.length ≤ 30000 ∧ t.size ≤ 32767 ∧ ¬ SoundLayout .bits32 decl t := by
  obtain ⟨decl, d₁, d₂, d₃, hdecl, hparse, hhasbits, halign, hbuild, hend, hlength, -, hplaced⟩ :=
    build_repeated (n := 16381) (by decide) (by decide)
  have hsize : (assignOffsets d₃).table.size = 0 := by
    rw [hplaced.size_eq, hend]
    decide
  refine ⟨_, decl, hbuild, by rw [declaredBy, if_pos (Or.inr rfl), hdecl], by omega, by omega,
    fun hsound => ?_⟩
  have hpos := hsound.size_pos (by rw [hplaced.length_eq]; omega)
  omega

end Build

end MiniDescriptor

end Upb
