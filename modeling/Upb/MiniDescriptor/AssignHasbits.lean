import Mathlib.Algebra.Order.Ring.Int
import Upb.MiniDescriptor.ParseMessage

/-!
# Sub tables and hasbits

The first two steps of the layout. `upb_MtDecoder_AllocateSubs` changes only the sub offsets. The
required fields get the hasbits from 64 on and the other fields with a hasbit the ones after them, in
the order of the fields; members of oneofs and fields without presence are left at zero.
-/

namespace Upb

namespace MiniDescriptor

/-- A field without what the layout changes before offsets are assigned. -/
def eraseSub (f : MiniTableField) : MiniTableField := { f with submsgOfs := 0 }

section Subs

/-- The field has a sub table, as the parser marks it. -/
def parsedSub (f : MiniTableField) : Bool := f.submsgOfs ≠ noSub

/-- The offsets of the sub tables from the given start fit. -/
def SubsFit (ptr ofs : ℕ) (fields : List MiniTableField) : Prop :=
  ∀ (i : ℕ) (f : MiniTableField), fields[i]? = some f → parsedSub f = true →
    (ofs + ptr * (fields.take i).countP parsedSub - kSizeofField * i) / 4 ≤ uint16Max

private theorem SubsFit.tail {ptr ofs : ℕ} {f : MiniTableField} {fields : List MiniTableField}
    (h : SubsFit ptr ofs (f :: fields)) (hofs : kSizeofField ≤ ofs) :
    SubsFit ptr (ofs + ptr * (parsedSub f).toNat - kSizeofField) fields := by
  intro i g hg hsub
  have hstep := h (i + 1) g hg hsub
  rw [List.take_succ_cons, List.countP_cons] at hstep
  have hmul : kSizeofField * (i + 1) = kSizeofField * i + kSizeofField := Nat.mul_succ _ _
  refine le_trans (Nat.div_le_div_right ?_) hstep
  cases parsedSub f <;> simp [Nat.mul_add, hmul] <;> omega

/-- Sub tables that fit are allocated, and nothing else changes. -/
theorem allocateSubsLoop_eq {ptr ofs : ℕ} {fields : List MiniTableField}
    (hfit : SubsFit ptr ofs fields) (hofs : kSizeofField * fields.length ≤ ofs) :
    ∃ fields', allocateSubsLoop ptr ofs fields = .ok fields' ∧
      fields'.map eraseSub = fields.map eraseSub := by
  induction fields generalizing ofs with
  | nil => exact ⟨[], rfl, rfl⟩
  | cons f fields ih =>
    rw [List.length_cons, Nat.mul_succ] at hofs
    have htail := hfit.tail (by omega)
    cases hsub : parsedSub f with
    | false =>
      have hno : f.submsgOfs = noSub := by simpa [parsedSub] using hsub
      rw [hsub, Bool.toNat_false, Nat.mul_zero, Nat.add_zero] at htail
      obtain ⟨fields', heq, hsame⟩ := ih htail (by omega)
      refine ⟨f :: fields', ?_, by simp [hsame]⟩
      rw [allocateSubsLoop, if_pos hno, heq]
      rfl
    | true =>
      have hsome : f.submsgOfs ≠ noSub := by simpa [parsedSub] using hsub
      have hfirst := hfit 0 f rfl hsub
      rw [hsub, Bool.toNat_true, Nat.mul_one] at htail
      obtain ⟨fields', heq, hsame⟩ := ih htail (by omega)
      refine ⟨{ f with submsgOfs := ofs / 4 } :: fields', ?_, by simp [hsame, eraseSub]⟩
      rw [allocateSubsLoop, if_neg hsome, if_neg (by simpa using hfirst), heq]
      rfl

end Subs

section Hasbits

/-- The number of fields of a presence class among the first `i`. -/
def classBefore (fields : List MiniTableField) (c i : ℕ) : ℕ :=
  (fields.take i).countP (·.offset == c)

/-- The number of fields of a presence class. -/
def classCount (fields : List MiniTableField) (c : ℕ) : ℕ := fields.countP (·.offset == c)

theorem classBefore_lt {fields : List MiniTableField} {c i : ℕ} {f : MiniTableField}
    (hf : fields[i]? = some f) (hc : f.offset = c) :
    classBefore fields c i < classCount fields c := by
  obtain ⟨hi, rfl⟩ := List.getElem?_eq_some_iff.mp hf
  have hsplit : fields.take i ++ fields[i] :: fields.drop (i + 1) = fields := by
    rw [← List.drop_eq_getElem_cons hi, List.take_append_drop]
  rw [classCount, classBefore]
  conv_rhs => rw [← hsplit]
  rw [List.countP_append, List.countP_cons]
  simp [hc]

/-- One of the loops of `upb_MtDecoder_AssignHasbits`: the fields of the class `c` get hasbits. -/
private def assignClass (c : ℕ) (other : MiniTableField → MiniTableField) :
    ℕ → List MiniTableField → List MiniTableField × ℕ
  | last, [] => ([], last)
  | last, f :: rest =>
    if f.offset = c then
      ({ f with presence := toInt16 (last + 1) } :: (assignClass c other (last + 1) rest).1,
        (assignClass c other (last + 1) rest).2)
    else (other f :: (assignClass c other last rest).1, (assignClass c other last rest).2)

private theorem assignRequired_eq (last : ℕ) (fields : List MiniTableField) :
    assignRequired last fields = assignClass kRequiredPresence
      (fun f => if f.offset = kNoPresence then { f with presence := 0 } else f) last fields := by
  induction fields generalizing last with
  | nil => rfl
  | cons f fields ih => simp only [assignRequired, assignClass, ih]

private theorem assignOptional_eq (last : ℕ) (fields : List MiniTableField) :
    assignOptional last fields = assignClass kHasbitPresence id last fields := by
  induction fields generalizing last with
  | nil => rfl
  | cons f fields ih => simp only [assignOptional, assignClass, ih, id_eq]

/-- The hasbits are given out in the order of the fields. -/
private theorem assignClass_spec (c : ℕ) (other : MiniTableField → MiniTableField) (last : ℕ)
    (fields : List MiniTableField) :
    (assignClass c other last fields).2 = last + classCount fields c ∧
    ∀ i : ℕ, (assignClass c other last fields).1[i]? = fields[i]?.map fun f =>
      if f.offset = c then { f with presence := toInt16 (last + 1 + classBefore fields c i : ℕ) }
      else other f := by
  induction fields generalizing last with
  | nil => simp [assignClass, classCount]
  | cons f fields ih =>
    rw [assignClass]
    split
    · next hc =>
      obtain ⟨hlast, hget⟩ := ih (last + 1)
      refine ⟨?_, fun i => ?_⟩
      · simp only [hlast, classCount, List.countP_cons, hc, beq_self_eq_true, ↓reduceIte]
        omega
      · cases i with
        | zero => simp [hc, classBefore]
        | succ i =>
          have hbefore : classBefore (f :: fields) c (i + 1) = classBefore fields c i + 1 := by
            simp [classBefore, hc]
          rw [List.getElem?_cons_succ, List.getElem?_cons_succ, hget, hbefore]
          simp only [Nat.add_assoc, Nat.add_comm 1]
    · next hc =>
      obtain ⟨hlast, hget⟩ := ih last
      refine ⟨?_, fun i => ?_⟩
      · simp [hlast, classCount, hc]
      · cases i with
        | zero => simp [hc]
        | succ i =>
          have hbefore : classBefore (f :: fields) c (i + 1) = classBefore fields c i := by
            simp [classBefore, hc]
          rw [List.getElem?_cons_succ, List.getElem?_cons_succ, hget, hbefore]

/-- The presence of a field at an index after `upb_MtDecoder_AssignHasbits`. -/
def hasbitPresence (fields : List MiniTableField) (i : ℕ) (f : MiniTableField) : ℤ :=
  if f.offset = kRequiredPresence then
    (kReservedHasbits + classBefore fields kRequiredPresence i : ℕ)
  else if f.offset = kHasbitPresence then
    (kReservedHasbits + classCount fields kRequiredPresence + classBefore fields kHasbitPresence i : ℕ)
  else if f.offset = kNoPresence then 0
  else f.presence

/-- The number of bytes of the internal area and the hasbits. -/
def hasbitBytes (fields : List MiniTableField) : ℕ :=
  (kReservedHasbits + classCount fields kRequiredPresence + classCount fields kHasbitPresence + 7) / 8

private theorem toInt16_eq {n : ℕ} (h : n < 2 ^ 15) : toInt16 n = n := by
  rw [toInt16]
  omega

private theorem classCount_map {fields fields' : List MiniTableField} (g : ℕ → MiniTableField → ℤ)
    (hget : ∀ i : ℕ, fields'[i]? = fields[i]?.map fun f => { f with presence := g i f }) (c i : ℕ) :
    classBefore fields' c i = classBefore fields c i ∧ classCount fields' c = classCount fields c := by
  have hoff : fields'.map (·.offset) = fields.map (·.offset) := by
    refine List.ext_getElem? fun j => ?_
    rw [List.getElem?_map, List.getElem?_map, hget, Option.map_map]
    rfl
  have hcount : ∀ l : List MiniTableField,
      l.countP (·.offset == c) = (l.map (·.offset)).countP (· == c) := fun l => by
    rw [List.countP_map]
    rfl
  constructor
  · rw [classBefore, classBefore, hcount, hcount, List.map_take, List.map_take, hoff]
  · rw [classCount, classCount, hcount, hcount, hoff]

private theorem assignHasbits_def (d : MtDecoder) :
    assignHasbits d =
      let required := assignRequired (kReservedHasbits - 1) d.table.fields
      let optional := assignOptional required.2 required.1
      if kReservedHasbits + 63 ≤ required.2 then .error .tooManyRequiredFields
      else .ok { d with table := { d.table with
        fields := optional.1
        requiredCount := required.2 - (kReservedHasbits - 1)
        size := if optional.2 = 0 then 0 else toUint16 ((optional.2 + 1 + 8 - 1) / 8) } } :=
  rfl

/-- What `upb_MtDecoder_AssignHasbits` stores in the presence of a field. -/
def storedPresence (fields : List MiniTableField) (i : ℕ) (f : MiniTableField) : ℤ :=
  if f.offset = kRequiredPresence ∨ f.offset = kHasbitPresence then toInt16 (hasbitPresence fields i f)
  else hasbitPresence fields i f

/-- Hasbits are assigned, and nothing else changes. -/
theorem assignHasbits_spec (d : MtDecoder) (hreq : classCount d.table.fields kRequiredPresence ≤ 63) :
    ∃ fields, assignHasbits d = .ok { d with table := { d.table with
        fields := fields
        requiredCount := classCount d.table.fields kRequiredPresence
        size := toUint16 (hasbitBytes d.table.fields) } } ∧
      ∀ i : ℕ, fields[i]? = d.table.fields[i]?.map fun f =>
        { f with presence := storedPresence d.table.fields i f } := by
  set l := d.table.fields with hl
  obtain ⟨hlast₁, hget₁⟩ := assignClass_spec kRequiredPresence
    (fun f => if f.offset = kNoPresence then { f with presence := 0 } else f) (kReservedHasbits - 1) l
  rw [← assignRequired_eq] at hlast₁ hget₁
  set fields₁ := (assignRequired (kReservedHasbits - 1) l).1 with hfields₁
  set last₁ := (assignRequired (kReservedHasbits - 1) l).2
  obtain ⟨hlast₂, hget₂⟩ := assignClass_spec kHasbitPresence id last₁ fields₁
  rw [← assignOptional_eq] at hlast₂ hget₂
  -- the first loop leaves the presence classes alone
  have hkeep : ∀ i : ℕ, fields₁[i]? = l[i]?.map fun f => { f with
      presence := if f.offset = kRequiredPresence then
          toInt16 (kReservedHasbits - 1 + 1 + classBefore l kRequiredPresence i : ℕ)
        else if f.offset = kNoPresence then 0 else f.presence } := by
    intro i
    rw [hget₁]
    congr 1
    funext f
    split
    · rfl
    · split <;> rfl
  have hcount := classCount_map _ hkeep kHasbitPresence
  rw [(hcount 0).2] at hlast₂
  refine ⟨(assignOptional last₁ fields₁).1, ?_, fun i => ?_⟩
  · have hsize : (last₁ + classCount l kHasbitPresence + 1 + 8 - 1) / 8 = hasbitBytes l := by
      simp only [hasbitBytes, kReservedHasbits] at *
      omega
    have hrequired : last₁ - (kReservedHasbits - 1) = classCount l kRequiredPresence := by omega
    rw [assignHasbits_def]
    change (if kReservedHasbits + 63 ≤ last₁ then _ else _) = _
    simp only [kReservedHasbits] at hlast₁
    rw [if_neg (by simp only [kReservedHasbits]; omega)]
    change Except.ok { d with table := { d.table with
      fields := (assignOptional last₁ fields₁).1
      requiredCount := last₁ - (kReservedHasbits - 1)
      size := if (assignOptional last₁ fields₁).2 = 0 then 0
        else toUint16 (((assignOptional last₁ fields₁).2 + 1 + 8 - 1) / 8) } } = _
    rw [hlast₂, if_neg (by omega), hsize, hrequired]
  · rw [hget₂, hkeep, Option.map_map, (hcount i).1]
    cases l[i]? with
    | none => rfl
    | some f =>
      simp only [Option.map_some, Function.comp_apply, Option.some.injEq, storedPresence, hasbitPresence,
        kReservedHasbits, hlast₁]
      by_cases hr : f.offset = kRequiredPresence
      · have hno : ¬ f.offset = kHasbitPresence := by
          rw [hr]
          decide
        rw [if_neg hno, if_pos hr, if_pos hr, if_pos (Or.inl hr)]
        rfl
      · rw [if_neg hr, if_neg hr]
        by_cases hh : f.offset = kHasbitPresence
        · rw [if_pos hh, if_pos hh, if_pos (Or.inr hh)]
          have heq : 64 - 1 + classCount l kRequiredPresence + 1 + classBefore l kHasbitPresence i =
            64 + classCount l kRequiredPresence + classBefore l kHasbitPresence i := by omega
          rw [heq]
        · rw [if_neg hh, if_neg hh, if_neg (not_or.mpr ⟨hr, hh⟩)]
          rfl

/-- Hasbits that fit are stored as they are. -/
theorem storedPresence_eq {fields : List MiniTableField} {i : ℕ} {f : MiniTableField}
    (hf : fields[i]? = some f)
    (hfit : kReservedHasbits + classCount fields kRequiredPresence + classCount fields kHasbitPresence ≤
      2 ^ 15) : storedPresence fields i f = hasbitPresence fields i f := by
  have hlt := fun c hc => classBefore_lt (c := c) hf hc
  simp only [kReservedHasbits] at hfit
  simp only [storedPresence, hasbitPresence, kReservedHasbits]
  by_cases hr : f.offset = kRequiredPresence
  · have := hlt _ hr
    rw [if_pos (.inl hr), if_pos hr, toInt16_eq (by omega)]
  · by_cases hh : f.offset = kHasbitPresence
    · have := hlt _ hh
      rw [if_pos (.inr hh), if_neg hr, if_pos hh, toInt16_eq (by omega)]
    · rw [if_neg (not_or.mpr ⟨hr, hh⟩)]

/-- Hasbits that fit are assigned, and nothing else changes. -/
theorem assignHasbits_eq (d : MtDecoder)
    (hreq : classCount d.table.fields kRequiredPresence ≤ 63)
    (hfit : kReservedHasbits + classCount d.table.fields kRequiredPresence +
      classCount d.table.fields kHasbitPresence ≤ 2 ^ 15) :
    ∃ fields, assignHasbits d = .ok { d with table := { d.table with
        fields := fields
        requiredCount := classCount d.table.fields kRequiredPresence
        size := hasbitBytes d.table.fields } } ∧
      ∀ i : ℕ, fields[i]? = d.table.fields[i]?.map fun f =>
        { f with presence := hasbitPresence d.table.fields i f } := by
  obtain ⟨fields, hassign, hget⟩ := assignHasbits_spec d hreq
  have hsize : toUint16 (hasbitBytes d.table.fields) = hasbitBytes d.table.fields := by
    simp only [toUint16, hasbitBytes]
    omega
  rw [hsize] at hassign
  refine ⟨fields, hassign, fun i => ?_⟩
  rw [hget]
  cases hf : d.table.fields[i]? with
  | none => rfl
  | some f => rw [Option.map_some, Option.map_some, storedPresence_eq hf hfit]

/-- Hasbits are assigned only if there are not too many required fields. -/
theorem required_le_of_assignHasbits {d d' : MtDecoder} (h : assignHasbits d = .ok d') :
    classCount d.table.fields kRequiredPresence ≤ 63 := by
  obtain ⟨hlast, -⟩ := assignClass_spec kRequiredPresence
    (fun f => if f.offset = kNoPresence then { f with presence := 0 } else f) (kReservedHasbits - 1)
    d.table.fields
  rw [← assignRequired_eq] at hlast
  rw [assignHasbits_def] at h
  dsimp only at h
  split at h
  · cases h
  · next hle =>
    rw [hlast] at hle
    simp only [kReservedHasbits] at hle
    omega

end Hasbits

end MiniDescriptor

end Upb
