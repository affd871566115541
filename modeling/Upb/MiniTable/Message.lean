import Mathlib.Data.List.Sort
import Upb.MiniTable.Field

/-!
# Mini tables

`upb_MiniTable` and the search for a field by its number, which indexes into the dense prefix of the
fields and searches the rest by bisection. The search is exact for fields with strictly increasing
numbers whose dense prefix has the numbers 1, 2, 3 and so on.
-/

namespace Upb

/-- `upb_ExtMode`, with the flag that marks a map entry while tables are built. -/
structure ExtMode where
  extendable : Bool
  isMessageSet : Bool
  isMapEntry : Bool
  deriving DecidableEq

/-- `upb_MiniTable`. -/
structure MiniTable where
  fields : List MiniTableField
  fieldCount : ℕ
  size : ℕ
  ext : ExtMode
  denseBelow : ℕ
  requiredCount : ℕ
  deriving DecidableEq

namespace MiniTable

/-- The bisection of `upb_MiniTable_FindFieldByNumber` between `lo` and `hi`. -/
def bisect (fields : List MiniTableField) (number : ℕ) : ℕ → ℕ → ℤ → Option ℕ
  | 0, _, _ => none
  | fuel + 1, lo, hi =>
    if hi < lo then none
    else
      let mid := ((hi + lo) / 2).toNat
      match fields[mid]? with
      | none => none
      | some f =>
        if f.number = number then some mid
        else if f.number < number then bisect fields number fuel (mid + 1) hi
        else bisect fields number fuel lo ((mid : ℤ) - 1)

/-- `upb_MiniTable_FindFieldByNumber`, returning the index of the field; the number 0 wraps around
and misses the dense prefix. -/
def findFieldByNumber (m : MiniTable) (number : ℕ) : Option ℕ :=
  if number ≠ 0 ∧ number - 1 < m.denseBelow then some (number - 1)
  else
    let hi : ℤ := (m.fieldCount : ℤ) - 1
    match m.fields[m.fieldCount - 1]? with
    | none => none
    | some last =>
      if hi < 0 ∨ last.number < number then none
      else bisect m.fields number (m.fieldCount + 1) m.denseBelow hi

/-- The numbers of the fields increase strictly, as the mini descriptor parser leaves them. -/
def Sorted (fields : List MiniTableField) : Prop := (fields.map (·.number)).Pairwise (· < ·)

/-- The number at a larger index is larger. -/
theorem Sorted.number_lt {fields : List MiniTableField} (hs : Sorted fields) {i j : ℕ}
    {f g : MiniTableField} (hi : fields[i]? = some f) (hj : fields[j]? = some g) (hij : i < j) :
    f.number < g.number := by
  obtain ⟨hil, rfl⟩ := List.getElem?_eq_some_iff.mp hi
  obtain ⟨hjl, rfl⟩ := List.getElem?_eq_some_iff.mp hj
  have h := List.pairwise_iff_getElem.mp hs i j (by simpa using hil) (by simpa using hjl) hij
  simpa using h

/-- Field numbers determine indices. -/
theorem Sorted.index_unique {fields : List MiniTableField} (hs : Sorted fields) {i j : ℕ}
    {f g : MiniTableField} (hi : fields[i]? = some f) (hj : fields[j]? = some g)
    (h : f.number = g.number) : i = j := by
  rcases Nat.lt_trichotomy i j with hlt | heq | hgt
  · have := hs.number_lt hi hj hlt
    omega
  · exact heq
  · have := hs.number_lt hj hi hgt
    omega

/-- The bisection finds a field whose index lies between its bounds. -/
theorem bisect_eq {fields : List MiniTableField} (hs : Sorted fields) {f : MiniTableField} {i : ℕ}
    (hi : fields[i]? = some f) {fuel lo : ℕ} {hi' : ℤ} (hlo : lo ≤ i) (hhi : (i : ℤ) ≤ hi')
    (hlen : hi' < fields.length) (hfuel : hi' - lo < fuel) :
    bisect fields f.number fuel lo hi' = some i := by
  induction fuel generalizing lo hi' with
  | zero => omega
  | succ fuel ih =>
    rw [bisect, if_neg (by omega)]
    set mid := ((hi' + lo) / 2).toNat with hmid
    have hmlt : mid < fields.length := by omega
    have hget : fields[mid]? = some fields[mid] := List.getElem?_eq_getElem hmlt
    simp only [hget]
    split
    · next heq => rw [hs.index_unique hget hi heq]
    · next hne =>
      split
      · next hlt =>
        have hmi : mid < i := by
          by_contra hge
          rcases Nat.lt_or_eq_of_le (Nat.le_of_not_lt hge) with h | h
          · have := hs.number_lt hi hget h
            omega
          · subst h
            exact hne (by rw [hi] at hget; exact (congrArg (·.number) (Option.some.inj hget)).symm)
        exact ih (by omega) hhi hlen (by omega)
      · next hge =>
        have him : i < mid := by
          by_contra hle
          rcases Nat.lt_or_eq_of_le (Nat.le_of_not_lt hle) with h | h
          · have := hs.number_lt hget hi h
            omega
          · subst h
            exact hne (by rw [hi] at hget; exact (congrArg (·.number) (Option.some.inj hget)).symm)
        exact ih hlo (by omega) (by omega) (by omega)

/-- The search finds every field of a table with sorted fields and a dense prefix. -/
theorem findFieldByNumber_eq {m : MiniTable} (hs : Sorted m.fields)
    (hcount : m.fieldCount = m.fields.length) (hpos : ∀ f ∈ m.fields, f.number ≠ 0)
    (hdense : ∀ i < m.denseBelow, ∀ f, m.fields[i]? = some f → f.number = i + 1)
    (hdl : m.denseBelow ≤ m.fields.length) {f : MiniTableField} {i : ℕ}
    (hi : m.fields[i]? = some f) : m.findFieldByNumber f.number = some i := by
  have hil : i < m.fields.length := (List.getElem?_eq_some_iff.mp hi).1
  rw [findFieldByNumber]
  split
  · next hlt =>
    have hget : m.fields[f.number - 1]? = some m.fields[f.number - 1] :=
      List.getElem?_eq_getElem (by omega)
    have hnum := hdense _ hlt.2 _ hget
    rw [hs.index_unique hget hi (by omega)]
  · next hge =>
    have hpos := hpos f (List.mem_of_getElem? hi)
    have hdi : m.denseBelow ≤ i := by
      by_contra hlt
      have := hdense i (by omega) f hi
      omega
    have hlast : m.fields[m.fieldCount - 1]? = some m.fields[m.fieldCount - 1] :=
      List.getElem?_eq_getElem (by omega)
    simp only [hlast]
    rw [if_neg]
    · exact bisect_eq hs hi hdi (by omega) (by omega) (by omega)
    · rintro (h | h)
      · omega
      · rcases Nat.lt_or_eq_of_le (show i ≤ m.fieldCount - 1 by omega) with hlt | heq
        · have := hs.number_lt hi hlast hlt
          omega
        · subst heq
          rw [hi] at hlast
          rw [← Option.some.inj hlast] at h
          omega

/-- The bisection finds only what it looks for. -/
theorem number_of_bisect {fields : List MiniTableField} {number fuel lo i : ℕ} {hi : ℤ}
    (h : bisect fields number fuel lo hi = some i) : ∃ f, fields[i]? = some f ∧ f.number = number := by
  induction fuel generalizing lo hi with
  | zero => cases h
  | succ fuel ih =>
    rw [bisect] at h
    split at h
    · cases h
    · dsimp only at h
      split at h
      · cases h
      · next f hf =>
        split at h
        · next heq =>
          cases h
          exact ⟨f, hf, heq⟩
        · split at h
          · exact ih h
          · exact ih h

/-- The numbers increase strictly, and the search for a number finds the field with this number, if
there is one. -/
structure Searchable (m : MiniTable) : Prop where
  sorted : Sorted m.fields
  lookup : ∀ number < 2 ^ 32, ∀ i,
    m.findFieldByNumber number = some i ↔ ∃ f, m.fields[i]? = some f ∧ f.number = number

/-- A table with a dense prefix is searchable if its fields are sorted and include the prefix. -/
theorem searchable_iff {m : MiniTable} (hcount : m.fieldCount = m.fields.length)
    (hpos : ∀ f ∈ m.fields, f.number ≠ 0) (hlarge : m.denseBelow < 2 ^ 8)
    (hdense : ∀ i < m.denseBelow, ∀ f, m.fields[i]? = some f → f.number = i + 1) :
    Searchable m ↔ Sorted m.fields ∧ m.denseBelow ≤ m.fields.length := by
  constructor
  · intro h
    refine ⟨h.sorted, ?_⟩
    by_contra hlt
    -- the number behind the last field is taken for one of the dense prefix
    have hfound : m.findFieldByNumber (m.fields.length + 1) = some m.fields.length := by
      rw [findFieldByNumber, if_pos ⟨by omega, by omega⟩, Nat.add_sub_cancel]
    obtain ⟨f, hf, -⟩ := (h.lookup _ (by omega) _).mp hfound
    rw [List.getElem?_eq_none (Nat.le_refl _)] at hf
    cases hf
  · rintro ⟨hsorted, hle⟩
    refine ⟨hsorted, fun number _ i => ⟨fun h => ?_, ?_⟩⟩
    · rw [findFieldByNumber] at h
      split at h
      · next hlt =>
        cases h
        have hget : m.fields[number - 1]? = some m.fields[number - 1] :=
          List.getElem?_eq_getElem (by omega)
        have hnumber := hdense _ hlt.2 _ hget
        exact ⟨_, hget, by omega⟩
      · dsimp only at h
        split at h
        · cases h
        · split at h
          · cases h
          · exact number_of_bisect h
    · rintro ⟨f, hf, rfl⟩
      exact findFieldByNumber_eq hsorted hcount hpos hdense hle hf

end MiniTable

end Upb
