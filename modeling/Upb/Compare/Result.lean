import Upb.Compare.Build

/-!
# What the comparison of unknown fields decides

Two messages whose records the code sorts, at every level, compare equal if and only if their records
are the same after a stable sort. Unknown data that the code does not sort compares as different from
its own sorted records.
-/

namespace Upb.Compare

open Upb.Common Upb.Wire UnknownField

section Spells

variable {depth : ℕ} {s s' : List UInt8} {f : UnknownField} {fs gs : List UnknownField}

theorem Spells.append (h : Spells depth s fs) (h' : Spells depth s' gs) :
    Spells depth (s ++ s') (fs ++ gs) := by
  induction h with
  | nil => exact h'
  | field htag hv _ ih =>
    rw [List.append_assoc, List.cons_append]
    exact .field htag hv (ih h')
  | group htag hbody hend _ _ ih =>
    rw [List.append_assoc, List.cons_append]
    exact .group htag hbody hend (ih h')

/-- The bytes of the first record, and those behind it. -/
theorem Spells.uncons (h : Spells depth s (f :: fs)) :
    ∃ a rest, s = a ++ rest ∧ a ≠ [] ∧ Spells depth a [f] ∧ Spells depth rest fs := by
  cases h with
  | @field _ _ _ tag v rest htag hv hrest =>
    refine ⟨tag ++ v, rest, rfl, by simp [htag.varint.ne_nil], ?_, hrest⟩
    have := Spells.field htag hv (.nil : Spells depth [] [])
    rwa [List.append_nil] at this
  | @group _ _ _ _ tag body endTag rest htag hbody hend hrest =>
    refine ⟨tag ++ (body ++ endTag), rest, rfl, by simp [htag.varint.ne_nil], ?_, hrest⟩
    have := Spells.group htag hbody hend .nil
    rwa [List.append_nil] at this

theorem Spells.ne_nil (h : Spells depth s fs) (hs : s ≠ []) : fs ≠ [] := by
  cases h with
  | nil => exact absurd rfl hs
  | field _ _ _ => exact List.cons_ne_nil _ _
  | group _ _ _ _ => exact List.cons_ne_nil _ _

/-- Every record has bytes of its own. -/
theorem Spells.of_mem (h : Spells depth s fs) (hf : f ∈ fs) :
    ∃ a, a ≠ [] ∧ a.length ≤ s.length ∧ Spells depth a [f] := by
  induction fs generalizing s with
  | nil => cases hf
  | cons g fs ih =>
    obtain ⟨a, rest, rfl, hne, ha, hrest⟩ := h.uncons
    rw [List.length_append]
    rcases List.mem_cons.mp hf with rfl | hf
    · exact ⟨a, hne, Nat.le_add_right _ _, ha⟩
    · obtain ⟨a', hne', hle, ha'⟩ := ih hrest hf
      exact ⟨a', hne', by omega, ha'⟩

/-- Records can be spelled in any order. -/
theorem Spells.perm (h : Spells depth s fs) (hperm : fs.Perm gs) :
    ∃ s', s'.length = s.length ∧ Spells depth s' gs := by
  induction hperm generalizing s with
  | nil => exact ⟨s, rfl, h⟩
  | cons f _ ih =>
    obtain ⟨a, rest, rfl, -, ha, hrest⟩ := h.uncons
    obtain ⟨rest', hlen, hrest'⟩ := ih hrest
    refine ⟨a ++ rest', ?_, ha.append hrest'⟩
    rw [List.length_append, List.length_append, hlen]
  | swap f g l =>
    obtain ⟨a, rest, rfl, -, ha, hrest⟩ := h.uncons
    obtain ⟨b, rest, rfl, -, hb, hrest⟩ := hrest.uncons
    refine ⟨b ++ (a ++ rest), ?_, hb.append (ha.append hrest)⟩
    simp only [List.length_append]
    omega
  | trans _ _ ih ih' =>
    obtain ⟨s₁, hlen, h₁⟩ := ih h
    obtain ⟨s₂, hlen', h₂⟩ := ih' h₁
    exact ⟨s₂, hlen'.trans hlen, h₂⟩

/-- The records with sorted groups can be spelled. -/
theorem Spells.sortInsideEach (h : Spells depth s fs) :
    ∃ s', s'.length = s.length ∧ Spells depth s' (sortInsideEach (stableSort tag) fs) := by
  induction h with
  | nil => exact ⟨[], rfl, .nil⟩
  | @field depth f fs tag v rest htag hv _ ih =>
    obtain ⟨rest', hlen, hrest'⟩ := ih
    refine ⟨tag ++ v ++ rest', by simp only [List.length_append, hlen], ?_⟩
    have hinside : sortInside (stableSort UnknownField.tag) f = f := by
      cases f with
      | group n gs => exact hv.elim
      | varint n v => rw [sortInside]
      | bit64 n v => rw [sortInside]
      | delimited n s => rw [sortInside]
      | bit32 n v => rw [sortInside]
    rw [Compare.sortInsideEach, hinside]
    exact .field htag hv hrest'
  | @group depth n gs fs tag body endTag rest htag _ hend _ ihbody ihrest =>
    obtain ⟨body', hlen, hbody'⟩ := ihbody
    obtain ⟨body'', hlen', hbody''⟩ := hbody'.perm (stableSort_perm _).symm
    obtain ⟨rest', hlen'', hrest'⟩ := ihrest
    refine ⟨tag ++ (body'' ++ endTag) ++ rest', ?_, ?_⟩
    · simp only [List.length_append]
      omega
    · rw [Compare.sortInsideEach, sortInside_group]
      exact .group htag hbody'' hend hrest'

end Spells

variable {maxDepth : ℕ} {msg₁ msg₂ : List (List UInt8)} {fs₁ fs₂ : List UnknownField}

/-- Every record of a message has bytes of its own. -/
theorem IsUnknownData.of_mem {f : UnknownField} (h : IsUnknownData maxDepth msg₁ fs₁) (hf : f ∈ fs₁) :
    ∃ a, a ≠ [] ∧ a.length ≤ int32Max ∧ Spells maxDepth a [f] := by
  induction h with
  | nil => cases hf
  | cons _ hlen hspells _ ih =>
    rcases List.mem_append.mp hf with hf | hf
    · obtain ⟨a, hne, hle, ha⟩ := hspells.of_mem hf
      exact ⟨a, hne, hle.trans hlen, ha⟩
    · exact ih hf

/-- There is a message with the sorted records: it has a chunk for each of them. -/
theorem IsUnknownData.exists_canonical (h : IsUnknownData maxDepth msg₁ fs₁) :
    ∃ msg₂, IsUnknownData maxDepth msg₂ (canonical fs₁) := by
  have hall : ∀ f ∈ canonical fs₁, ∃ a, a ≠ [] ∧ a.length ≤ int32Max ∧ Spells maxDepth a [f] := by
    intro f hf
    obtain ⟨g, hg, rfl⟩ := mem_canonical.mp hf
    obtain ⟨a, hne, hle, ha⟩ := h.of_mem hg
    obtain ⟨a', hlen, ha'⟩ := ha.sortInsideEach
    refine ⟨a', ?_, by omega, ha'⟩
    rw [← List.length_pos_iff, hlen]
    exact List.length_pos_iff.mpr hne
  generalize canonical fs₁ = fs at hall
  induction fs with
  | nil => exact ⟨[], .nil⟩
  | cons f fs ih =>
    obtain ⟨a, hne, hle, ha⟩ := hall f List.mem_cons_self
    obtain ⟨msg, hmsg⟩ := ih fun g hg => hall g (List.mem_cons_of_mem f hg)
    exact ⟨a :: msg, .cons hne hle ha hmsg⟩

/-- A message has unknown data if and only if it has unknown records. -/
theorem IsUnknownData.nil_iff (h : IsUnknownData maxDepth msg₁ fs₁) : msg₁ = [] ↔ fs₁ = [] := by
  cases h with
  | nil => exact ⟨fun _ => rfl, fun _ => rfl⟩
  | cons hne _ hspells _ => simp [hspells.ne_nil hne]

/-- The code builds as many records as there are. -/
theorem length_sortLevels_buildSort (fs : List UnknownField) :
    (sortLevels buildSort fs).length = fs.length := by
  have hlen : (sortInsideEach buildSort fs).length = fs.length := by
    rw [sortInsideEach_eq_map, List.length_map]
  rw [sortLevels]
  rcases buildSort_eq_or (sortInsideEach buildSort fs) with ⟨heq, -⟩ | heq
  · rw [heq, hlen]
  · rw [heq, length_sortRecursive, hlen]

/-- The comparison decides whether the trees that the code builds are the same. -/
theorem unknownFieldsAreEqual_eq_equal (h₁ : IsUnknownData maxDepth msg₁ fs₁)
    (h₂ : IsUnknownData maxDepth msg₂ fs₂) :
    unknownFieldsAreEqual EpsCopyInputStream.stream maxDepth msg₁ msg₂ = .ok .equal ↔
      sortLevels buildSort fs₁ = sortLevels buildSort fs₂ := by
  have hlen : sortLevels buildSort fs₁ = sortLevels buildSort fs₂ → fs₁.length = fs₂.length := by
    intro heq
    rw [← length_sortLevels_buildSort, heq, length_sortLevels_buildSort]
  rw [unknownFieldsAreEqual]
  by_cases hnil₁ : msg₁ = [] <;> by_cases hnil₂ : msg₂ = []
  · rw [h₁.nil_iff.mp hnil₁, h₂.nil_iff.mp hnil₂]
    simp [hnil₁, hnil₂]
  · have hne := mt h₂.nil_iff.mpr hnil₂
    rw [h₁.nil_iff.mp hnil₁] at hlen ⊢
    simp only [hnil₁, hnil₂, List.isEmpty_nil, List.isEmpty_iff, Bool.true_and, Bool.true_or]
    refine ⟨fun h => by simp at h, fun heq => absurd (hlen heq).symm ?_⟩
    simpa using hne
  · have hne := mt h₁.nil_iff.mpr hnil₁
    rw [h₂.nil_iff.mp hnil₂] at hlen ⊢
    refine ⟨fun h => by simp [hnil₁, hnil₂] at h, fun heq => absurd (hlen heq) ?_⟩
    simpa using hne
  · rw [if_neg (by simp [hnil₁]), if_neg (by simp [hnil₁, hnil₂]), unknownFieldCompare,
      build_of_isUnknownData h₁, build_of_isUnknownData h₂]
    change Except.ok (if isEqual _ _ = true then UnknownCompareResult.equal else .notEqual) = _ ↔ _
    rw [← isEqual_iff]
    split <;> simp [*]

/-- A varint record of two bytes. -/
theorem Spells.varint {depth n : ℕ} {t v : UInt8} {rest : List UInt8} {fs : List UnknownField}
    (htag : IsTag n .varint [t]) (hv : IsVarint 10 [v]) (hrest : Spells depth rest fs) :
    Spells depth (t :: v :: rest) (.varint n (leb [v] % 2 ^ 64) :: fs) :=
  .field (f := .varint n (leb [v] % 2 ^ 64)) htag ⟨hv, rfl⟩ hrest

end Upb.Compare
