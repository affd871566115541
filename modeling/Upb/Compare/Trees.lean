import Upb.Compare.Sort

/-!
# Trees of records

Sorting the records of every level of a tree, stably or the way the code does it.
-/

namespace Upb.Compare

open Upb.Common UnknownField

mutual

/-- Sorts the records inside of a group, at every level. -/
def sortInside (sort : List UnknownField → List UnknownField) : UnknownField → UnknownField
  | .group n fs => .group n (sort (sortInsideEach sort fs))
  | .varint n v => .varint n v
  | .bit64 n v => .bit64 n v
  | .delimited n s => .delimited n s
  | .bit32 n v => .bit32 n v

/-- The same for each of some records. -/
def sortInsideEach (sort : List UnknownField → List UnknownField) :
    List UnknownField → List UnknownField
  | [] => []
  | f :: fs => sortInside sort f :: sortInsideEach sort fs

end

/-- Sorts the records of every level. -/
def sortLevels (sort : List UnknownField → List UnknownField) (fs : List UnknownField) :
    List UnknownField := sort (sortInsideEach sort fs)

/-- The records, stably sorted by their tags, recursively inside of groups. -/
def canonical (fs : List UnknownField) : List UnknownField := sortLevels (stableSort tag) fs

/-- A property of the records of every level. -/
inductive EveryLevel (P : List UnknownField → Prop) : List UnknownField → Prop
  | intro {fs : List UnknownField} (here : P fs)
      (inside : ∀ n gs, UnknownField.group n gs ∈ fs → EveryLevel P gs) : EveryLevel P fs

/-- Induction over the levels. -/
theorem levels_induction {P : List UnknownField → Prop}
    (h : ∀ fs, (∀ n gs, UnknownField.group n gs ∈ fs → P gs) → P fs) (fs : List UnknownField) :
    P fs := by
  apply h
  intro n gs hgs
  have hlt := List.sizeOf_lt_of_mem hgs
  exact levels_induction h gs
termination_by sizeOf fs
decreasing_by
  simp only [UnknownField.group.sizeOf_spec] at hlt
  omega

section

variable {sort sort' : List UnknownField → List UnknownField} {fs : List UnknownField}

theorem sortInsideEach_eq_map (fs : List UnknownField) :
    sortInsideEach sort fs = fs.map (sortInside sort) := by
  induction fs with
  | nil => rfl
  | cons f fs ih => rw [sortInsideEach, ih, List.map_cons]

@[simp] theorem sortInside_group (n : ℕ) (fs : List UnknownField) :
    sortInside sort (.group n fs) = .group n (sortLevels sort fs) := by
  rw [sortInside, sortLevels]

@[simp] theorem tag_sortInside (f : UnknownField) : (sortInside sort f).tag = f.tag := by
  cases f with
  | group n fs => rw [sortInside_group]; rfl
  | varint n v => rw [sortInside]
  | bit64 n v => rw [sortInside]
  | delimited n s => rw [sortInside]
  | bit32 n v => rw [sortInside]

/-- The groups among sorted records. -/
theorem group_of_sortInside {n : ℕ} {gs : List UnknownField} {f : UnknownField}
    (h : sortInside sort f = .group n gs) : ∃ hs, f = .group n hs ∧ gs = sortLevels sort hs := by
  cases f with
  | group m hs =>
    rw [sortInside_group] at h
    cases h
    exact ⟨hs, rfl, rfl⟩
  | varint n v => rw [sortInside] at h; cases h
  | bit64 n v => rw [sortInside] at h; cases h
  | delimited n s => rw [sortInside] at h; cases h
  | bit32 n v => rw [sortInside] at h; cases h

/-- Two ways to change the inside of records agree if they agree on the groups among them. -/
theorem sortInside_congr (f : UnknownField)
    (h : ∀ n gs, f = .group n gs → sortLevels sort gs = sortLevels sort' gs) :
    sortInside sort f = sortInside sort' f := by
  cases f with
  | group n gs => rw [sortInside_group, sortInside_group, h n gs rfl]
  | varint n v => rw [sortInside, sortInside]
  | bit64 n v => rw [sortInside, sortInside]
  | delimited n s => rw [sortInside, sortInside]
  | bit32 n v => rw [sortInside, sortInside]

/-- The code sorts the records of every level if no merge ends inside its second run. -/
theorem sortLevels_buildSort (h : EveryLevel SortsWhole fs) :
    sortLevels buildSort fs = canonical fs := by
  induction h with
  | @intro fs here inside ih =>
    have heach : sortInsideEach buildSort fs = sortInsideEach (stableSort tag) fs := by
      rw [sortInsideEach_eq_map, sortInsideEach_eq_map]
      apply List.map_congr_left
      intro f hf
      apply sortInside_congr
      rintro n gs rfl
      exact ih n gs hf
    rw [sortLevels, heach, canonical, sortLevels]
    apply buildSort_eq
    rw [sortInsideEach_eq_map, sortsWhole_map _ tag_sortInside]
    exact here

/-- If the code leaves the records of every level sorted, no merge ended inside its second run. -/
theorem sortsWhole_of_sortLevels (h : EveryLevel (SortedBy tag) (sortLevels buildSort fs)) :
    EveryLevel SortsWhole fs := by
  induction fs using levels_induction with
  | h fs ih =>
    cases h with
    | intro here inside =>
      have hwhole := sortsWhole_of_buildSort here
      rw [sortLevels, buildSort_eq hwhole] at inside
      refine ⟨?_, fun n gs hgs => ih n gs hgs (inside n _ ?_)⟩
      · rwa [sortInsideEach_eq_map, sortsWhole_map _ tag_sortInside] at hwhole
      · rw [(stableSort_perm _).mem_iff, sortInsideEach_eq_map, ← sortInside_group]
        exact List.mem_map_of_mem hgs

/-- The records of the sorted tree. -/
theorem mem_canonical {f : UnknownField} :
    f ∈ canonical fs ↔ ∃ g ∈ fs, sortInside (stableSort tag) g = f := by
  rw [canonical, sortLevels, (stableSort_perm _).mem_iff, sortInsideEach_eq_map, List.mem_map]

/-- The records of every level are sorted. -/
theorem everyLevel_canonical (fs : List UnknownField) : EveryLevel (SortedBy tag) (canonical fs) := by
  induction fs using levels_induction with
  | h fs ih =>
    refine ⟨sortedBy_stableSort _, fun n gs hgs => ?_⟩
    obtain ⟨f, hf, heq⟩ := mem_canonical.mp hgs
    obtain ⟨hs, rfl, rfl⟩ := group_of_sortInside heq
    exact ih n hs hf

/-- Sorted records stay as they are. -/
theorem canonical_of_sorted (h : EveryLevel (SortedBy tag) fs) : canonical fs = fs := by
  induction h with
  | @intro fs here inside ih =>
    have heach : sortInsideEach (stableSort tag) fs = fs := by
      rw [sortInsideEach_eq_map]
      conv_rhs => rw [← List.map_id fs]
      apply List.map_congr_left
      intro f hf
      cases f with
      | group n gs =>
        rw [sortInside_group]
        exact congrArg _ (ih n gs hf)
      | varint n v => rw [sortInside, id]
      | bit64 n v => rw [sortInside, id]
      | delimited n s => rw [sortInside, id]
      | bit32 n v => rw [sortInside, id]
    rw [canonical, sortLevels, heach]
    exact (eq_stableSort here fun _ => rfl).symm

/-- Sorted records are sorted by the code. -/
theorem EveryLevel.sortsWhole (h : EveryLevel (SortedBy tag) fs) : EveryLevel SortsWhole fs := by
  induction h with
  | intro here inside ih => exact ⟨sortsWhole_of_sorted here, ih⟩

end

mutual

theorem fieldIsEqual_iff (f g : UnknownField) : fieldIsEqual f g = true ↔ f = g := by
  cases f <;> cases g <;> simp [fieldIsEqual, isEqual_iff]

/-- `upb_UnknownFields_IsEqual` compares the trees. -/
theorem isEqual_iff (fs gs : List UnknownField) : isEqual fs gs = true ↔ fs = gs := by
  cases fs <;> cases gs <;> simp [isEqual, fieldIsEqual_iff, isEqual_iff]

end

end Upb.Compare
