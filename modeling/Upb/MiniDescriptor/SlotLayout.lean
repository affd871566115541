import Upb.MiniDescriptor.AssignOffsets

/-!
# Slots

The storage of a message is a list of slots, each of a representation. `idealLayout` reserves a region for
every representation that occurs, and the slots of one representation follow each other in its region.
Different slots do not overlap, and every slot is aligned and lies between the header and the end.
-/

namespace Upb

namespace MiniDescriptor

variable {platform : Platform}

/-- The offset of the slot at an index, from the bases of the representations. -/
def slotOffset (platform : Platform) (bases : FieldRep → ℕ) (slots : List FieldRep) (k : ℕ) : ℕ :=
  let rep := slots.getD k .rep1Byte
  bases rep + sizeOfRep platform rep * (slots.take k).count rep

/-- Two ranges of bytes do not overlap. -/
def Apart (offset size offset' size' : ℕ) : Prop := offset + size ≤ offset' ∨ offset' + size' ≤ offset

theorem Apart.symm {o s o' s' : ℕ} (h : Apart o s o' s') : Apart o' s' o s := Or.symm h

section Regions

theorem dvd_alignUp (size align : ℕ) : align ∣ alignUp size align := Dvd.intro_left _ rfl

/-- What is reserved for a list of representations from the state `s` on. -/
structure Reserved (platform : Platform) (reps : List FieldRep) (s s' : ℕ × (FieldRep → ℕ)) : Prop where
  other : ∀ r, r ∉ reps ∨ s.2 r = 0 → s'.2 r = s.2 r
  aligned : ∀ r ∈ reps, s.2 r ≠ 0 → alignOfRep platform r ∣ s'.2 r
  start_le : ∀ r ∈ reps, s.2 r ≠ 0 → s.1 ≤ s'.2 r
  le_end : ∀ r ∈ reps, s.2 r ≠ 0 → s'.2 r + sizeOfRep platform r * s.2 r ≤ s'.1
  apart : ∀ r ∈ reps, ∀ q ∈ reps, r ≠ q → s.2 r ≠ 0 → s.2 q ≠ 0 →
    Apart (s'.2 r) (sizeOfRep platform r * s.2 r) (s'.2 q) (sizeOfRep platform q * s.2 q)

/-- Regions are reserved one after the other. -/
theorem reserved_foldl {reps : List FieldRep} (hnodup : reps.Nodup) (s : ℕ × (FieldRep → ℕ)) :
    Reserved platform reps s (reps.foldl (idealAlign platform) s) := by
  induction reps generalizing s with
  | nil => exact ⟨fun _ _ => rfl, by simp, by simp, by simp, by simp⟩
  | cons r reps ih =>
    obtain ⟨hr, hnodup⟩ := List.nodup_cons.mp hnodup
    have hrest := ih hnodup (idealAlign platform s r)
    rw [List.foldl_cons]
    set s₁ := idealAlign platform s r with hs₁
    set s' := reps.foldl (idealAlign platform) s₁
    have hend : s₁.1 ≤ s'.1 := le_foldl_idealAlign platform reps s₁
    have hkeep : ∀ q, q ≠ r → s₁.2 q = s.2 q := by
      intro q hq
      rw [hs₁, idealAlign]
      split
      · rfl
      · exact Function.update_of_ne hq _ _
    have hne : ∀ q ∈ reps, q ≠ r := fun q hq he => hr (he ▸ hq)
    by_cases hzero : s.2 r = 0
    · -- nothing is reserved for a representation that does not occur
      have hsame : s₁ = s := if_pos hzero
      rw [hsame] at hrest
      have hmem : ∀ q ∈ r :: reps, s.2 q ≠ 0 → q ∈ reps := fun q hq hq' =>
        (List.mem_cons.mp hq).resolve_left fun he => hq' (he ▸ hzero)
      refine ⟨fun q hq => hrest.other q ?_, fun q hq hq' => hrest.aligned q (hmem q hq hq') hq',
        fun q hq hq' => hrest.start_le q (hmem q hq hq') hq',
        fun q hq hq' => hrest.le_end q (hmem q hq hq') hq',
        fun q hq p hp hqp hq' hp' => hrest.apart q (hmem q hq hq') p (hmem p hp hp') hqp hq' hp'⟩
      exact hq.imp_left fun h hq => h (List.mem_cons_of_mem _ hq)
    · set start := alignUp s.1 (alignOfRep platform r) with hstart
      have hstep : s₁ = (start + sizeOfRep platform r * s.2 r, Function.update s.2 r start) :=
        if_neg hzero
      have hbase : s'.2 r = start := by
        rw [hrest.other r (.inl hr), hstep]
        exact Function.update_self _ _ _
      have hle : s.1 ≤ start := le_alignUp _ (alignOfRep_pos platform r)
      have hlast : s₁.1 = start + sizeOfRep platform r * s.2 r := by rw [hstep]
      have hafter : ∀ q ∈ reps, s.2 q ≠ 0 → s₁.1 ≤ s'.2 q := fun q hq hq' =>
        hrest.start_le q hq (by rwa [hkeep q (hne q hq)])
      refine ⟨?_, ?_, ?_, ?_, ?_⟩
      · rintro q (hq | hq)
        · rw [List.mem_cons, not_or] at hq
          rw [hrest.other q (.inl hq.2), hkeep q hq.1]
        · have hqr : q ≠ r := fun he => hzero (he ▸ hq)
          rw [hrest.other q (.inr (by rw [hkeep q hqr]; exact hq)), hkeep q hqr]
      · intro q hq hq'
        rcases List.mem_cons.mp hq with rfl | hq
        · rw [hbase]
          exact dvd_alignUp _ _
        · exact hrest.aligned q hq (by rwa [hkeep q (hne q hq)])
      · intro q hq hq'
        rcases List.mem_cons.mp hq with rfl | hq
        · rw [hbase]
          exact hle
        · have := hafter q hq hq'
          omega
      · intro q hq hq'
        rcases List.mem_cons.mp hq with rfl | hq
        · rw [hbase, ← hlast]
          exact hend
        · have := hrest.le_end q hq (by rwa [hkeep q (hne q hq)])
          rwa [hkeep q (hne q hq)] at this
      · have hfirst : ∀ q ∈ reps, s.2 q ≠ 0 →
            Apart (s'.2 r) (sizeOfRep platform r * s.2 r) (s'.2 q) (sizeOfRep platform q * s.2 q) := by
          intro q hq hq'
          refine .inl ?_
          rw [hbase, ← hlast]
          exact hafter q hq hq'
        intro q hq p hp hqp hq' hp'
        rcases List.mem_cons.mp hq with hq₁ | hq₁ <;> rcases List.mem_cons.mp hp with hp₁ | hp₁
        · exact absurd (hq₁.trans hp₁.symm) hqp
        · rw [hq₁]
          exact hfirst p hp₁ hp'
        · rw [hp₁]
          exact (hfirst q hq₁ hq').symm
        · have h := hrest.apart q hq₁ p hp₁ hqp (by rwa [hkeep q (hne q hq₁)])
            (by rwa [hkeep p (hne p hp₁)])
          rwa [hkeep q (hne q hq₁), hkeep p (hne p hp₁)] at h

/-- The regions of a message. -/
theorem reserved_idealLayout (platform : Platform) (size : ℕ) (slots : List FieldRep) :
    Reserved platform allReps (size, fun r => slots.count r) (idealLayout platform size slots) :=
  reserved_foldl (by decide) _

theorem mem_allReps (r : FieldRep) : r ∈ allReps := by cases r <;> decide

end Regions

section Slots

variable {size : ℕ} {slots : List FieldRep}

/-- A slot and the number of slots of its representation in front of it. -/
theorem count_take_lt {k : ℕ} {r : FieldRep} (hk : slots[k]? = some r) :
    (slots.take k).count r < slots.count r := by
  obtain ⟨hlt, hr⟩ := List.getElem?_eq_some_iff.mp hk
  have hsplit : slots.take k ++ r :: slots.drop (k + 1) = slots := by
    rw [← hr, ← List.drop_eq_getElem_cons hlt, List.take_append_drop]
  conv_rhs => rw [← hsplit]
  rw [List.count_append, List.count_cons_self]
  omega

/-- The offset of a slot in its region. -/
theorem slotOffset_eq {bases : FieldRep → ℕ} {k : ℕ} {r : FieldRep} (hk : slots[k]? = some r) :
    slotOffset platform bases slots k = bases r + sizeOfRep platform r * (slots.take k).count r := by
  rw [slotOffset, List.getD_eq_getElem?_getD, hk]
  rfl

/-- A slot is a part of the region of its representation. -/
private theorem slot_le_region (platform : Platform) {k : ℕ} {r : FieldRep} (hk : slots[k]? = some r) :
    sizeOfRep platform r * (slots.take k).count r + sizeOfRep platform r ≤
      sizeOfRep platform r * slots.count r := by
  rw [← Nat.mul_succ]
  exact Nat.mul_le_mul_left _ (count_take_lt hk)

theorem alignOfRep_dvd_sizeOfRep (platform : Platform) (r : FieldRep) :
    alignOfRep platform r ∣ sizeOfRep platform r := by
  cases platform <;> cases r <;> decide

/-- Every slot of a layout is aligned and lies behind the header. -/
theorem slot_inside {k : ℕ} {r : FieldRep} (hk : slots[k]? = some r) :
    alignOfRep platform r ∣ slotOffset platform (idealLayout platform size slots).2 slots k ∧
      size ≤ slotOffset platform (idealLayout platform size slots).2 slots k ∧
      slotOffset platform (idealLayout platform size slots).2 slots k + sizeOfRep platform r ≤
        (idealLayout platform size slots).1 := by
  have hres := reserved_idealLayout platform size slots
  have hpos : slots.count r ≠ 0 := by
    have := count_take_lt hk
    omega
  have hstart := hres.start_le r (mem_allReps r) hpos
  have hend := hres.le_end r (mem_allReps r) hpos
  have hregion := slot_le_region platform hk
  rw [slotOffset_eq hk]
  simp only at hstart hend
  refine ⟨?_, by omega, by omega⟩
  exact (Nat.dvd_add_right (hres.aligned r (mem_allReps r) hpos)).mpr
    (Dvd.dvd.mul_right (alignOfRep_dvd_sizeOfRep platform r) _)

/-- Two slots of a layout do not overlap. -/
theorem slots_apart {k l : ℕ} {r q : FieldRep} (hk : slots[k]? = some r) (hl : slots[l]? = some q)
    (hne : k ≠ l) :
    Apart (slotOffset platform (idealLayout platform size slots).2 slots k) (sizeOfRep platform r)
      (slotOffset platform (idealLayout platform size slots).2 slots l) (sizeOfRep platform q) := by
  have hres := reserved_idealLayout platform size slots
  rw [slotOffset_eq hk, slotOffset_eq hl]
  by_cases hrq : r = q
  · -- the later one of two slots of a representation has more of them in front of it
    subst hrq
    have horder : ∀ (a b : ℕ), slots[a]? = some r → a < b →
        sizeOfRep platform r * (slots.take a).count r + sizeOfRep platform r ≤
          sizeOfRep platform r * (slots.take b).count r := by
      intro a b ha hab
      have ha' : (slots.take b)[a]? = some r := by rw [List.getElem?_take, if_pos hab, ha]
      have hcount := count_take_lt ha'
      rw [List.take_take, Nat.min_eq_left hab.le] at hcount
      rw [← Nat.mul_succ]
      exact Nat.mul_le_mul_left _ hcount
    rcases Nat.lt_or_gt_of_ne hne with hlt | hgt
    · have := horder k l hk hlt
      left
      omega
    · have := horder l k hl hgt
      right
      omega
  · have hr : slots.count r ≠ 0 := by
      have := count_take_lt hk
      omega
    have hq : slots.count q ≠ 0 := by
      have := count_take_lt hl
      omega
    have hregion := slot_le_region platform hk
    have hregion' := slot_le_region platform hl
    rcases hres.apart r (mem_allReps r) q (mem_allReps q) hrq hr hq with h | h
    · left
      simp only at h
      omega
    · right
      simp only at h
      omega

/-- The bases after a number of slots have been handed out. -/
theorem foldl_advance (bases : FieldRep → ℕ) (slots : List FieldRep) (r : FieldRep) :
    slots.foldl (advance platform) bases r = bases r + sizeOfRep platform r * slots.count r := by
  induction slots generalizing bases with
  | nil => rfl
  | cons q slots ih =>
    rw [List.foldl_cons, ih, advance]
    by_cases hq : r = q
    · subst hq
      rw [Function.update_self, List.count_cons_self, Nat.mul_succ]
      omega
    · rw [Function.update_of_ne hq, List.count_cons_of_ne (Ne.symm hq)]

/-- The slot that is handed out after others. -/
theorem slotOffset_append (platform : Platform) (bases : FieldRep → ℕ) (before after : List FieldRep) (r : FieldRep) :
    slotOffset platform bases (before ++ r :: after) before.length =
      before.foldl (advance platform) bases r := by
  have hk : (before ++ r :: after)[before.length]? = some r := by simp
  rw [slotOffset_eq hk, foldl_advance, List.take_left]

end Slots

end MiniDescriptor

end Upb
