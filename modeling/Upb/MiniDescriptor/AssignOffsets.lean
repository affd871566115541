import Upb.MiniDescriptor.AssignHasbits

/-!
# Offsets

The placement of the fields. The offsets that the C code keeps in 16 bits are those of a layout in
unbounded numbers, `idealLayout`, whenever that one fits. Each oneof gets a case word and a data slot,
and the walk along the links of its members stores the complement of the offset of the case word in
all of them.
-/

namespace Upb

namespace MiniDescriptor

open Upb.Common (Seg)

section Counts

private theorem toUint16_add (a b : ℕ) : toUint16 (toUint16 a + b) = toUint16 (a + b) :=
  Nat.mod_add_mod _ _ _

theorem toUint16_eq {n : ℕ} (h : n ≤ uint16Max) : toUint16 n = n :=
  Nat.mod_eq_of_lt (Nat.lt_of_le_of_lt h (by decide))

/-- The slots that oneofs of the given representations need. -/
def oneofSlots (reps : List FieldRep) : List FieldRep := reps.flatMap fun r => [.rep4Byte, r]

private theorem pushedCounts_eq (counts : FieldRep → ℕ) (reps : List FieldRep) :
    pushedCounts counts reps = (oneofSlots reps).foldl bumpRep counts := by
  induction reps generalizing counts with
  | nil => rfl
  | cons r reps ih => exact ih _

private theorem foldl_bumpRep {counts ideal : FieldRep → ℕ} (h : ∀ r, counts r = toUint16 (ideal r))
    (slots : List FieldRep) (r : FieldRep) :
    slots.foldl bumpRep counts r = toUint16 (ideal r + slots.count r) := by
  induction slots generalizing counts ideal with
  | nil => simpa using h r
  | cons s slots ih =>
    have hstep : ∀ q, bumpRep counts s q = toUint16 (if q = s then ideal q + 1 else ideal q) := by
      intro q
      rw [bumpRep]
      split
      · rw [h, toUint16_add]
      · exact h q
    rw [List.foldl_cons, ih hstep, List.count_cons]
    by_cases hr : s = r
    · subst hr
      simp only [↓reduceIte, beq_self_eq_true]
      congr 1
      omega
    · have hb : (s == r) = false := by simpa using hr
      rw [if_neg (Ne.symm hr), hb]
      simp

end Counts

section Align

/-- `alignRep` in unbounded numbers. -/
def idealAlign (platform : Platform) (s : ℕ × (FieldRep → ℕ)) (rep : FieldRep) :
    ℕ × (FieldRep → ℕ) :=
  if s.2 rep = 0 then s
  else
    let start := alignUp s.1 (alignOfRep platform rep)
    (start + sizeOfRep platform rep * s.2 rep, Function.update s.2 rep start)

theorem alignOfRep_pos (platform : Platform) (rep : FieldRep) : 0 < alignOfRep platform rep := by
  cases platform <;> cases rep <;> decide

theorem sizeOfRep_pos (platform : Platform) (rep : FieldRep) : 0 < sizeOfRep platform rep := by
  cases platform <;> cases rep <;> decide

theorem le_alignUp (size : ℕ) {align : ℕ} (h : 0 < align) : size ≤ alignUp size align := by
  have hdiv := Nat.div_add_mod (size + align - 1) align
  have hmod := Nat.mod_lt (size + align - 1) h
  rw [alignUp, Nat.mul_comm]
  omega

private theorem le_idealAlign (platform : Platform) (s : ℕ × (FieldRep → ℕ)) (rep : FieldRep) :
    s.1 ≤ (idealAlign platform s rep).1 := by
  rw [idealAlign]
  split
  · exact Nat.le_refl _
  · have := le_alignUp s.1 (alignOfRep_pos platform rep)
    simp only
    omega

theorem le_foldl_idealAlign (platform : Platform) (reps : List FieldRep)
    (s : ℕ × (FieldRep → ℕ)) : s.1 ≤ (reps.foldl (idealAlign platform) s).1 := by
  induction reps generalizing s with
  | nil => exact Nat.le_refl _
  | cons r reps ih => exact (le_idealAlign platform s r).trans (ih _)

/-- A layout that fits has no more slots than bytes. -/
theorem count_le_foldl_idealAlign (platform : Platform) {reps : List FieldRep} {r : FieldRep}
    (hr : r ∈ reps) (hnodup : reps.Nodup) (s : ℕ × (FieldRep → ℕ)) :
    s.2 r ≤ (reps.foldl (idealAlign platform) s).1 := by
  induction reps generalizing s with
  | nil => simp at hr
  | cons q reps ih =>
    rw [List.nodup_cons] at hnodup
    by_cases hq : r = q
    · subst hq
      refine le_trans ?_ (le_foldl_idealAlign platform reps _)
      rw [idealAlign]
      split
      · next h => simp [h]
      · exact le_trans (Nat.le_mul_of_pos_left _ (sizeOfRep_pos platform r)) (Nat.le_add_left _ _)
    · have hmem : r ∈ reps := (List.mem_cons.mp hr).resolve_left hq
      have hsame : (idealAlign platform s q).2 r = s.2 r := by
        rw [idealAlign]
        split
        · rfl
        · exact Function.update_of_ne hq _ _
      rw [← hsame]
      exact ih hmem hnodup.2 _

/-- A layout that fits is computed without wrapping. -/
private theorem foldl_alignRep_eq (platform : Platform) (reps : List FieldRep)
    (s : ℕ × (FieldRep → ℕ)) (hfit : (reps.foldl (idealAlign platform) s).1 ≤ uint16Max) :
    reps.foldl (alignRep platform) s = reps.foldl (idealAlign platform) s := by
  induction reps generalizing s with
  | nil => rfl
  | cons r reps ih =>
    have hle := (le_foldl_idealAlign platform reps (idealAlign platform s r)).trans hfit
    have hstep : alignRep platform s r = idealAlign platform s r := by
      rw [idealAlign] at hle ⊢
      rw [alignRep]
      split
      · rfl
      · next h =>
        rw [if_neg h] at hle
        simp only at hle
        simp only [toUint16_eq (show alignUp s.1 (alignOfRep platform r) ≤ uint16Max by omega)]
    rw [List.foldl_cons, List.foldl_cons, hstep]
    exact ih _ hfit

/-- The slots of the fields outside of oneofs. -/
def fieldSlots (fields : List MiniTableField) : List FieldRep :=
  (fields.filter fun f => f.offset < kOneofBase).map (·.mode.rep)

/-- The layout in unbounded numbers: the end of the message, and the base of each representation. -/
def idealLayout (platform : Platform) (size : ℕ) (slots : List FieldRep) : ℕ × (FieldRep → ℕ) :=
  allReps.foldl (idealAlign platform) (size, fun r => slots.count r)

/-- The bases of a layout that fits are inside of it. -/
theorem idealLayout_le {platform : Platform} {size : ℕ} {slots : List FieldRep}
    (hfit : (idealLayout platform size slots).1 ≤ uint16Max) (r : FieldRep) :
    (idealLayout platform size slots).2 r ≤ uint16Max := by
  have hstep : ∀ (reps : List FieldRep) (s : ℕ × (FieldRep → ℕ)), s.2 r ≤ uint16Max →
      (reps.foldl (idealAlign platform) s).1 ≤ uint16Max →
      (reps.foldl (idealAlign platform) s).2 r ≤ uint16Max := by
    intro reps
    induction reps with
    | nil => exact fun s hs _ => hs
    | cons q reps ih =>
      intro s hs hend
      refine ih _ ?_ hend
      have hle := (le_foldl_idealAlign platform reps (idealAlign platform s q)).trans hend
      rw [idealAlign] at hle ⊢
      split
      · exact hs
      · next h =>
        rw [if_neg h] at hle
        simp only at hle ⊢
        by_cases hq : r = q
        · subst hq
          rw [Function.update_self]
          omega
        · rwa [Function.update_of_ne hq]
  refine hstep allReps _ ?_ hfit
  exact (count_le_foldl_idealAlign platform (r := r) (by cases r <;> decide) (by decide)
    (size, fun r => slots.count r)).trans hfit

/-- The counts of `upb_MtDecoder_CalculateAlignments`. -/
def countedReps (d : MtDecoder) : FieldRep → ℕ :=
  (d.table.fields.filter fun f => f.offset < kOneofBase).foldl (fun counts f => bumpRep counts f.mode.rep)
    d.repCounts

/-- The counts are those of the slots, in 16 bits. -/
theorem countedReps_eq (d : MtDecoder) {reps : List FieldRep}
    (hcounts : d.repCounts = pushedCounts (fun _ => 0) reps) (r : FieldRep) :
    countedReps d r = toUint16 ((oneofSlots reps ++ fieldSlots d.table.fields).count r) := by
  have hfold : (oneofSlots reps ++ fieldSlots d.table.fields).foldl bumpRep (fun _ => 0) r =
      toUint16 (0 + (oneofSlots reps ++ fieldSlots d.table.fields).count r) :=
    foldl_bumpRep (fun _ => (toUint16_eq (Nat.zero_le _)).symm) _ r
  rw [Nat.zero_add] at hfold
  rw [← hfold, List.foldl_append, ← pushedCounts_eq, ← hcounts, fieldSlots, List.foldl_map, countedReps]

/-- A layout that fits is the ideal one. -/
theorem calculateAlignments_eq (d : MtDecoder) {reps : List FieldRep}
    (hcounts : d.repCounts = pushedCounts (fun _ => 0) reps)
    (hfit : (idealLayout d.platform d.table.size
      (oneofSlots reps ++ fieldSlots d.table.fields)).1 ≤ uint16Max) :
    calculateAlignments d = .ok
      (let layout := idealLayout d.platform d.table.size (oneofSlots reps ++ fieldSlots d.table.fields)
      { d with repCounts := layout.2, table := { d.table with size := layout.1 } }) := by
  set slots := oneofSlots reps ++ fieldSlots d.table.fields with hslots
  have hcount : (d.table.fields.filter fun f => f.offset < kOneofBase).foldl
      (fun counts f => bumpRep counts f.mode.rep) d.repCounts = fun r => slots.count r := by
    funext r
    have hle : slots.count r ≤ uint16Max :=
      (count_le_foldl_idealAlign d.platform (r := r) (by cases r <;> decide) (by decide)
        (d.table.size, fun r => slots.count r)).trans hfit
    exact (countedReps_eq d hcounts r).trans (toUint16_eq hle)
  have hlayout : allReps.foldl (alignRep d.platform) (d.table.size, fun r => slots.count r) =
      idealLayout d.platform d.table.size slots := foldl_alignRep_eq _ _ _ hfit
  rw [calculateAlignments, hcount, hlayout]
  simp only
  rw [if_neg (Nat.not_lt.mpr hfit)]

end Align

section Place

/-- `upb_MtDecoder_Place` in unbounded numbers: the next slot of a representation. -/
def advance (platform : Platform) (offsets : FieldRep → ℕ) (rep : FieldRep) : FieldRep → ℕ :=
  Function.update offsets rep (offsets rep + sizeOfRep platform rep)

private theorem place_snd {platform : Platform} {offsets ideal : FieldRep → ℕ}
    (h : ∀ r, offsets r = toUint16 (ideal r)) (rep r : FieldRep) :
    (place platform offsets rep).2 r = toUint16 (advance platform ideal rep r) := by
  simp only [place, advance]
  by_cases hr : r = rep
  · subst hr
    rw [Function.update_self, Function.update_self, h, toUint16_add]
  · rw [Function.update_of_ne hr, Function.update_of_ne hr, h]

/-- Fields outside of oneofs get the next slot of their representation; the others are left alone. -/
private theorem assignFieldOffsets_eq (platform : Platform) {offsets ideal : FieldRep → ℕ}
    (h : ∀ r, offsets r = toUint16 (ideal r)) (fields : List MiniTableField) :
    (∀ r, (assignFieldOffsets platform offsets fields).2 r =
      toUint16 ((fieldSlots fields).foldl (advance platform) ideal r)) ∧
    ∀ i : ℕ, (assignFieldOffsets platform offsets fields).1[i]? = fields[i]?.map fun f =>
      if kOneofBase ≤ f.offset then f else { f with
        offset := toUint16 ((fieldSlots (fields.take i)).foldl (advance platform) ideal f.mode.rep) } := by
  induction fields generalizing offsets ideal with
  | nil => exact ⟨h, by simp [assignFieldOffsets]⟩
  | cons f fields ih =>
    rw [assignFieldOffsets]
    split
    · next hmem =>
      obtain ⟨hoff, hget⟩ := ih h
      refine ⟨?_, fun i => ?_⟩
      · simpa [fieldSlots, Nat.not_lt.mpr hmem] using hoff
      · cases i with
        | zero => simp [hmem]
        | succ i => simpa [fieldSlots, Nat.not_lt.mpr hmem] using hget i
    · next hmem =>
      obtain ⟨hoff, hget⟩ := ih (place_snd h f.mode.rep)
      refine ⟨?_, fun i => ?_⟩
      · simpa [fieldSlots, Nat.not_le.mp hmem] using hoff
      · cases i with
        | zero => simp [hmem, fieldSlots, place, h]
        | succ i => simpa [fieldSlots, Nat.not_le.mp hmem] using hget i

/-- The offsets of the case words of oneofs with the given representations. -/
def caseOffsets (platform : Platform) : (FieldRep → ℕ) → List FieldRep → List ℕ
  | _, [] => []
  | offsets, r :: reps =>
    offsets .rep4Byte ::
      caseOffsets platform (advance platform (advance platform offsets .rep4Byte) r) reps

/-- The offsets of the data of oneofs with the given representations. -/
def dataOffsets (platform : Platform) : (FieldRep → ℕ) → List FieldRep → List ℕ
  | _, [] => []
  | offsets, r :: reps =>
    advance platform offsets .rep4Byte r ::
      dataOffsets platform (advance platform (advance platform offsets .rep4Byte) r) reps

theorem length_caseOffsets (platform : Platform) (offsets : FieldRep → ℕ) (reps : List FieldRep) :
    (caseOffsets platform offsets reps).length = reps.length := by
  induction reps generalizing offsets with
  | nil => rfl
  | cons r reps ih => simp [caseOffsets, ih]

theorem length_dataOffsets (platform : Platform) (offsets : FieldRep → ℕ) (reps : List FieldRep) :
    (dataOffsets platform offsets reps).length = reps.length := by
  induction reps generalizing offsets with
  | nil => rfl
  | cons r reps ih => simp [dataOffsets, ih]

/-- The case words of two oneofs are different. -/
theorem caseOffsets_increasing (platform : Platform) (offsets : FieldRep → ℕ)
    (reps : List FieldRep) : (caseOffsets platform offsets reps).Pairwise (· < ·) := by
  have hlower : ∀ (reps : List FieldRep) (offsets : FieldRep → ℕ),
      ∀ c ∈ caseOffsets platform offsets reps, offsets .rep4Byte ≤ c := by
    intro reps
    induction reps with
    | nil => simp [caseOffsets]
    | cons r reps ih =>
      intro offsets c hc
      rcases List.mem_cons.mp hc with rfl | hc
      · exact Nat.le_refl _
      · have := ih _ c hc
        by_cases hr : FieldRep.rep4Byte = r
        · subst hr
          simp only [advance, Function.update_self] at this
          omega
        · rw [advance, Function.update_of_ne hr, advance, Function.update_self] at this
          omega
  induction reps generalizing offsets with
  | nil => exact List.Pairwise.nil
  | cons r reps ih =>
    refine List.Pairwise.cons (fun c hc => ?_) (ih _)
    have hle := hlower reps _ c hc
    have hpos := sizeOfRep_pos platform .rep4Byte
    by_cases hr : FieldRep.rep4Byte = r
    · subst hr
      simp only [advance, Function.update_self] at hle
      omega
    · rw [advance, Function.update_of_ne hr, advance, Function.update_self] at hle
      omega

/-- A field as a member of the oneof with the given case word and data. -/
def asMember (c data : ℕ) (f : MiniTableField) : MiniTableField :=
  { f with presence := toInt16 (-(c : ℤ) - 1), offset := data }

/-- The walk along the members of a oneof. -/
private theorem assignOneofMembers_eq (c data : ℕ) {fuel i : ℕ} {is : List ℕ}
    {fields : List MiniTableField} (hseg : Seg (nextMember fields) (some i) is none)
    (hnodup : is.Nodup) (hlt : ∀ j ∈ is, j < fields.length) (hfuel : is.length ≤ fuel) (j : ℕ) :
    (assignOneofMembers c data fuel i fields)[j]? =
      fields[j]?.map fun f => if j ∈ is then asMember c data f else f := by
  induction fuel generalizing i is fields with
  | zero =>
    obtain ⟨is, rfl, -⟩ := hseg.exists_cons
    simp at hfuel
  | succ fuel ih =>
    obtain ⟨is, rfl, hrest⟩ := hseg.exists_cons
    rw [List.nodup_cons] at hnodup
    have hi := hlt i List.mem_cons_self
    have hget : fields[i]? = some fields[i] := List.getElem?_eq_getElem hi
    have hset : ∀ k : ℕ, (fields.set i (asMember c data fields[i]))[k]? =
        fields[k]?.map fun f => if k = i then asMember c data f else f := by
      intro k
      by_cases hk : k = i
      · subst hk
        rw [List.getElem?_set_self hi, hget, Option.map_some, if_pos rfl]
      · rw [List.getElem?_set_ne (Ne.symm hk)]
        simp [hk]
    have hwalk : assignOneofMembers c data (fuel + 1) i fields =
        if fields[i].offset = kIndexSentinel then fields.set i (asMember c data fields[i])
        else assignOneofMembers c data fuel (fields[i].offset - kOneofBase)
          (fields.set i (asMember c data fields[i])) := by
      rw [assignOneofMembers, hget]
      rfl
    rw [nextMember, hget] at hrest
    simp only at hrest
    rw [hwalk]
    split
    · next hend =>
      -- the link of the last member is the sentinel
      rw [if_pos hend] at hrest
      cases is with
      | cons k is => simp [Seg] at hrest
      | nil => simpa using hset j
    · next hmore =>
      rw [if_neg hmore] at hrest
      have hother : ∀ k ∈ is, k ≠ i := fun k hk he => hnodup.1 (he ▸ hk)
      rw [ih (hrest.congr fun k hk => ?_) hnodup.2 (fun k hk => ?_) (by simpa using hfuel), hset,
        Option.map_map]
      · congr 1
        funext f
        by_cases hj : j = i
        · subst hj
          simp [hnodup.1]
        · simp [hj]
      · rw [nextMember, nextMember, List.getElem?_set_ne (Ne.symm (hother k hk))]
      · simpa using hlt k (List.mem_cons_of_mem _ hk)

/-- The oneofs are laid out one after the other, each with a case word of its own. -/
private theorem assignOneofOffsets_eq (platform : Platform) {offsets ideal : FieldRep → ℕ}
    (h : ∀ r, offsets r = toUint16 (ideal r)) {items : List OneOfLayoutItem} {os : List (List ℕ)}
    {fields : List MiniTableField} (hlen : os.length = items.length)
    (hchains : ∀ (k : ℕ) (o : List ℕ) (it : OneOfLayoutItem), os[k]? = some o → items[k]? = some it →
      Seg (nextMember fields) (some it.fieldIndex) o.reverse none)
    (hnodup : os.flatten.Nodup) (hlt : ∀ j ∈ os.flatten, j < fields.length) :
    (∀ j : ℕ, j ∉ os.flatten → (assignOneofOffsets platform offsets items fields)[j]? = fields[j]?) ∧
    ∀ (k : ℕ) (o : List ℕ) (c data : ℕ), os[k]? = some o →
      (caseOffsets platform ideal (items.map (·.rep)))[k]? = some c →
      (dataOffsets platform ideal (items.map (·.rep)))[k]? = some data →
      ∀ j ∈ o, (assignOneofOffsets platform offsets items fields)[j]? =
        fields[j]?.map (asMember (toUint16 c) (toUint16 data)) := by
  induction items generalizing offsets ideal os fields with
  | nil =>
    obtain rfl : os = [] := List.eq_nil_of_length_eq_zero hlen
    exact ⟨fun _ _ => rfl, by simp⟩
  | cons item items ih =>
    cases os with
    | nil => simp at hlen
    | cons o os =>
    rw [List.flatten_cons, List.nodup_append] at hnodup
    obtain ⟨ho, hos, hdisj⟩ := hnodup
    rw [List.flatten_cons] at hlt
    set c := (place platform offsets .rep4Byte).1 with hc
    set offsets₁ := (place platform offsets .rep4Byte).2 with hoffsets₁
    set data := (place platform offsets₁ item.rep).1
    set offsets₂ := (place platform offsets₁ item.rep).2 with hoffsets₂
    have hfuel : o.reverse.length ≤ fields.length := by
      have hsub : o ⊆ List.range fields.length := fun j hj =>
        List.mem_range.mpr (hlt j (List.mem_append_left _ hj))
      simpa using (List.subperm_of_subset ho hsub).length_le
    have hfirst : ∀ j : ℕ, (assignOneofMembers c data fields.length item.fieldIndex fields)[j]? =
        fields[j]?.map fun f => if j ∈ o then asMember c data f else f := by
      intro j
      have hwalk := assignOneofMembers_eq c data (hchains 0 o item rfl rfl) (List.nodup_reverse.mpr ho)
        (fun k hk => hlt k (List.mem_append_left _ (List.mem_reverse.mp hk))) hfuel j
      simpa using hwalk
    set fields₁ := assignOneofMembers c data fields.length item.fieldIndex fields with hfields₁
    have hother : ∀ j : ℕ, j ∉ o → fields₁[j]? = fields[j]? := fun j hj => by simp [hfirst, hj]
    have hrest : ∀ j ∈ os.flatten, j ∉ o := fun j hj hjo => hdisj j hjo j hj rfl
    have hchains₁ : ∀ (k : ℕ) (p : List ℕ) (it : OneOfLayoutItem), os[k]? = some p →
        items[k]? = some it → Seg (nextMember fields₁) (some it.fieldIndex) p.reverse none := by
      intro k p it hp hit
      refine (hchains (k + 1) p it hp hit).congr fun j hj => ?_
      have hj' : j ∈ os.flatten :=
        List.mem_flatten.mpr ⟨p, List.mem_of_getElem? hp, List.mem_reverse.mp hj⟩
      rw [nextMember, nextMember, hother j (hrest j hj')]
    have hlt₁ : ∀ j ∈ os.flatten, j < fields₁.length := by
      intro j hj
      have hjl := hlt j (List.mem_append_right _ hj)
      have hget := hother j (hrest j hj)
      rw [List.getElem?_eq_getElem hjl] at hget
      exact (List.getElem?_eq_some_iff.mp hget).1
    obtain ⟨hframe, hcase⟩ := ih (place_snd (place_snd h .rep4Byte) item.rep) (by simpa using hlen)
      hchains₁ hos hlt₁
    have heq : assignOneofOffsets platform offsets (item :: items) fields =
      assignOneofOffsets platform offsets₂ items fields₁ := rfl
    rw [heq]
    constructor
    · intro j hj
      rw [List.flatten_cons, List.mem_append, not_or] at hj
      rw [hframe j hj.2, hother j hj.1]
    · intro k p c' data' hp hc' hdata' j hj
      cases k with
      | zero =>
        obtain rfl : o = p := by simpa using hp
        obtain rfl : ideal .rep4Byte = c' := by simpa [caseOffsets] using hc'
        obtain rfl : advance platform ideal .rep4Byte item.rep = data' := by
          simpa [dataOffsets] using hdata'
        have hno : j ∉ os.flatten := fun hjo => hrest j hjo hj
        rw [hframe j hno, hfirst, ← h, ← place_snd h]
        simp only [hj, ↓reduceIte]
        rfl
      | succ k =>
        have hj' : j ∈ os.flatten := List.mem_flatten.mpr ⟨p, List.mem_of_getElem? hp, hj⟩
        rw [hcase k p c' data' hp hc' hdata' j hj, hother j (hrest j hj')]

/-- Fields outside of oneofs get the next slot of their representation, and the members of a oneof its
data slot and the complement of the offset of its case word. -/
theorem assignOffsets_exact (d : MtDecoder) {os : List (List ℕ)}
    (hoffsets : ∀ r, d.repCounts r ≤ uint16Max) (hlen : os.length = d.oneofs.length)
    (hchains : ∀ (k : ℕ) (o : List ℕ) (it : OneOfLayoutItem), os[k]? = some o →
      d.oneofs[k]? = some it → Seg (nextMember d.table.fields) (some it.fieldIndex) o.reverse none)
    (hnodup : os.flatten.Nodup)
    (hmember : ∀ j ∈ os.flatten, ∃ f, d.table.fields[j]? = some f ∧ kOneofBase ≤ f.offset) :
    (∀ j : ℕ, j ∉ os.flatten → (assignOffsets d).table.fields[j]? = d.table.fields[j]?.map fun f =>
      if kOneofBase ≤ f.offset then f
      else
        { f with
          offset := toUint16
            ((fieldSlots (d.table.fields.take j)).foldl (advance d.platform) d.repCounts f.mode.rep) }) ∧
    ∀ (k : ℕ) (o : List ℕ) (c data : ℕ), os[k]? = some o →
      (caseOffsets d.platform ((fieldSlots d.table.fields).foldl (advance d.platform) d.repCounts)
        (d.oneofs.map (·.rep)))[k]? = some c →
      (dataOffsets d.platform ((fieldSlots d.table.fields).foldl (advance d.platform) d.repCounts)
        (d.oneofs.map (·.rep)))[k]? = some data →
      ∀ j ∈ o, (assignOffsets d).table.fields[j]? =
        d.table.fields[j]?.map (asMember (toUint16 c) (toUint16 data)) := by
  obtain ⟨hoff, hget⟩ := assignFieldOffsets_eq d.platform
    (fun r => (toUint16_eq (hoffsets r)).symm) d.table.fields
  set fields₁ := (assignFieldOffsets d.platform d.repCounts d.table.fields).1 with hfields₁
  have hsame : ∀ j ∈ os.flatten, fields₁[j]? = d.table.fields[j]? := by
    intro j hj
    obtain ⟨f, hf, hge⟩ := hmember j hj
    rw [hget, hf, Option.map_some, if_pos hge]
  have hchains₁ : ∀ (k : ℕ) (o : List ℕ) (it : OneOfLayoutItem), os[k]? = some o →
      d.oneofs[k]? = some it → Seg (nextMember fields₁) (some it.fieldIndex) o.reverse none := by
    intro k o it ho hit
    refine (hchains k o it ho hit).congr fun j hj => ?_
    rw [nextMember, nextMember, hsame j
      (List.mem_flatten.mpr ⟨o, List.mem_of_getElem? ho, List.mem_reverse.mp hj⟩)]
  have hlt₁ : ∀ j ∈ os.flatten, j < fields₁.length := by
    intro j hj
    obtain ⟨f, hf, -⟩ := hmember j hj
    rw [← hsame j hj] at hf
    exact (List.getElem?_eq_some_iff.mp hf).1
  obtain ⟨hframe, hcase⟩ := assignOneofOffsets_eq d.platform hoff hlen hchains₁ hnodup hlt₁
  have hfields : (assignOffsets d).table.fields = assignOneofOffsets d.platform
    (assignFieldOffsets d.platform d.repCounts d.table.fields).2 d.oneofs fields₁ := rfl
  constructor
  · intro j hj
    rw [hfields, hframe j hj, hget]
  · intro k o c data ho hc hdata j hj
    rw [hfields, hcase k o c data ho hc hdata j hj,
      hsame j (List.mem_flatten.mpr ⟨o, List.mem_of_getElem? ho, hj⟩)]

/-- Every field keeps its presence, except for the members of oneofs, which get the complement of
the offset of their case word. -/
theorem assignOffsets_eq (d : MtDecoder) {os : List (List ℕ)}
    (hoffsets : ∀ r, d.repCounts r ≤ uint16Max) (hlen : os.length = d.oneofs.length)
    (hchains : ∀ (k : ℕ) (o : List ℕ) (it : OneOfLayoutItem), os[k]? = some o →
      d.oneofs[k]? = some it → Seg (nextMember d.table.fields) (some it.fieldIndex) o.reverse none)
    (hnodup : os.flatten.Nodup)
    (hmember : ∀ j ∈ os.flatten, ∃ f, d.table.fields[j]? = some f ∧ kOneofBase ≤ f.offset) :
    (∀ j : ℕ, j ∉ os.flatten → ∃ ofs : MiniTableField → ℕ, (assignOffsets d).table.fields[j]? =
      d.table.fields[j]?.map fun f => { f with offset := ofs f }) ∧
    ∀ (k : ℕ) (o : List ℕ) (c : ℕ), os[k]? = some o →
      (caseOffsets d.platform ((fieldSlots d.table.fields).foldl (advance d.platform) d.repCounts)
        (d.oneofs.map (·.rep)))[k]? = some c →
      ∃ data, ∀ j ∈ o, (assignOffsets d).table.fields[j]? =
        d.table.fields[j]?.map (asMember (toUint16 c) data) := by
  obtain ⟨hplain, hcase⟩ := assignOffsets_exact d hoffsets hlen hchains hnodup hmember
  constructor
  · intro j hj
    refine ⟨fun f => if kOneofBase ≤ f.offset then f.offset else toUint16
      ((fieldSlots (d.table.fields.take j)).foldl (advance d.platform) d.repCounts f.mode.rep), ?_⟩
    rw [hplain j hj]
    congr 1
    funext f
    by_cases hge : kOneofBase ≤ f.offset <;> simp [hge]
  · intro k o c ho hc
    obtain ⟨data, hdata⟩ : ∃ data, (dataOffsets d.platform
        ((fieldSlots d.table.fields).foldl (advance d.platform) d.repCounts)
        (d.oneofs.map (·.rep)))[k]? = some data := by
      have hlt := (List.getElem?_eq_some_iff.mp hc).1
      rw [length_caseOffsets, ← length_dataOffsets d.platform
        ((fieldSlots d.table.fields).foldl (advance d.platform) d.repCounts)] at hlt
      exact ⟨_, List.getElem?_eq_getElem hlt⟩
    exact ⟨toUint16 data, hcase k o c data ho hc hdata⟩

end Place

end MiniDescriptor

end Upb
