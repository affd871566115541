import Mathlib
import Upb.Php.ClassNames

/-!
# Dotted names and their segments

The three programs take dotted names apart in three ways: a loop over indices, `explode` and a loop
over characters. On names made of identifiers all three come to the same segments.
-/

namespace Upb.Php

/-- The text with its first letter in upper case. -/
def capitalize : Text → Text
  | [] => []
  | c :: cs => c.toUpper :: cs

theorem toLower_toUpper (c : Char) : c.toUpper.toLower = c.toLower := by
  by_cases h : 97 ≤ c.toNat ∧ c.toNat ≤ 122
  · obtain ⟨h₁, h₂⟩ := h
    rw [← Char.ofNat_toNat c]
    generalize c.toNat = n at h₁ h₂
    interval_cases n <;> rfl
  · have hupper : c.toUpper = c := by
      rw [Char.toUpper, dif_neg]
      intro hc
      exact h ⟨hc.1, hc.2⟩
    rw [hupper]

theorem toLower_capitalize (s : Text) : toLower (capitalize s) = toLower s := by
  cases s with
  | nil => rfl
  | cons c cs => simp [capitalize, toLower, toLower_toUpper]

/-- A character that is no letter stays. -/
theorem toUpper_of_not_lower {c : Char} (h : ¬ ('a' ≤ c ∧ c ≤ 'z')) : c.toUpper = c := by
  rw [Char.toUpper, dif_neg]
  exact h

/-- Only letters become letters. -/
theorem eq_of_toUpper_eq {c x : Char} (h : c.toUpper = x) (hx : ¬ ('A' ≤ x ∧ x ≤ 'Z')) : c = x := by
  by_cases hlower : 'a' ≤ c ∧ c ≤ 'z'
  · have h₁ : 97 ≤ c.toNat := hlower.1
    have h₂ : c.toNat ≤ 122 := hlower.2
    exfalso
    refine hx ?_
    rw [← h, ← Char.ofNat_toNat c]
    generalize c.toNat = n at h₁ h₂
    interval_cases n <;> decide
  · rwa [toUpper_of_not_lower hlower] at h

/-- The characters of an identifier. -/
def isIdentifierChar (c : Char) : Bool := c.isAlphanum || c == '_'

theorem all_isIdentifierChar {s : Text} (h : isIdentifier s = true) :
    ∀ c ∈ s, isIdentifierChar c = true := by
  cases s with
  | nil => simp
  | cons c cs =>
    simp only [isIdentifier, Bool.and_eq_true, Bool.or_eq_true, List.all_eq_true] at h
    intro d hd
    rcases List.mem_cons.mp hd with rfl | hd
    · rcases h.1 with h | h
      · simp [isIdentifierChar, Char.isAlphanum, h]
      · simp only [isIdentifierChar, h, Bool.or_true]
    · have := h.2 d hd
      simpa [isIdentifierChar] using this

/-- A text of no identifier has no place in one. -/
theorem not_mem_of_isIdentifier {s : Text} (h : isIdentifier s = true) {c : Char}
    (hc : isIdentifierChar c = false) : c ∉ s := by
  intro hmem
  rw [all_isIdentifierChar h c hmem] at hc
  cases hc

theorem ne_nil_of_isIdentifier {s : Text} (h : isIdentifier s = true) : s ≠ [] := by
  rintro rfl
  cases h

/-- Segments without separators and not empty. -/
def IsSegments (segs : List Text) : Prop := ∀ s ∈ segs, isIdentifier s = true

theorem isSegments_map (l : List Identifier) : IsSegments (l.map Subtype.val) := by
  intro s hs
  obtain ⟨i, -, rfl⟩ := List.mem_map.mp hs
  exact i.property

theorem IsSegments.tail {s : Text} {segs : List Text} (h : IsSegments (s :: segs)) :
    IsSegments segs := fun t ht => h t (List.mem_cons_of_mem s ht)

theorem implode_cons {glue s : Text} {segs : List Text} (h : segs ≠ []) :
    implode glue (s :: segs) = s ++ glue ++ implode glue segs := by
  cases segs with
  | nil => exact absurd rfl h
  | cons t ts => rfl

theorem implode_append {glue : Text} {a b : List Text} (ha : a ≠ []) (hb : b ≠ []) :
    implode glue (a ++ b) = implode glue a ++ glue ++ implode glue b := by
  induction a with
  | nil => exact absurd rfl ha
  | cons s segs ih =>
    cases segs with
    | nil => rw [List.singleton_append, implode_cons hb, implode]
    | cons t ts =>
      rw [List.cons_append, implode_cons (by simp), implode_cons (by simp), ih (by simp)]
      simp only [List.append_assoc]

/-- A character of neither the parts nor the glue. -/
theorem not_mem_implode {c : Char} {glue : Text} {parts : List Text} (hglue : c ∉ glue)
    (h : ∀ s ∈ parts, c ∉ s) : c ∉ implode glue parts := by
  induction parts with
  | nil => simp [implode]
  | cons s parts ih =>
    have hs := h s List.mem_cons_self
    have hrest := ih fun t ht => h t (List.mem_cons_of_mem s ht)
    cases parts with
    | nil => exact hs
    | cons t ts =>
      rw [implode_cons (by simp)]
      simp only [List.mem_append, not_or]
      exact ⟨⟨hs, hglue⟩, hrest⟩

/-- The loop of the extension over a segment and what follows it. -/
theorem segmentsFrom_append {s : Text} (hs : '.' ∉ s) (segment rest : Text) :
    Extension.segmentsFrom segment (s ++ rest) = Extension.segmentsFrom (segment ++ s) rest := by
  induction s generalizing segment with
  | nil => simp
  | cons c cs ih =>
    have hc : c ≠ '.' := fun h => hs (h ▸ List.mem_cons_self)
    rw [List.cons_append, Extension.segmentsFrom, if_neg hc,
      ih (fun h => hs (List.mem_cons_of_mem c h))]
    simp

/-- The loop of the extension comes to the segments. -/
theorem segmentsFrom_implode {segs : List Text} (h : IsSegments segs) :
    Extension.segmentsFrom [] (implode ['.'] segs) = segs := by
  induction segs with
  | nil => rfl
  | cons s segs ih =>
    have hs : isIdentifier s = true := h s List.mem_cons_self
    have hdot : '.' ∉ s := not_mem_of_isIdentifier hs (by decide)
    have hne : s.isEmpty = false := List.isEmpty_eq_false_iff.mpr (ne_nil_of_isIdentifier hs)
    cases segs with
    | nil =>
      have := segmentsFrom_append hdot [] []
      rw [List.append_nil] at this
      rw [implode, this, List.nil_append, Extension.segmentsFrom, hne]
      rfl
    | cons t ts =>
      rw [implode_cons (by simp), List.append_assoc, segmentsFrom_append hdot, List.nil_append,
        List.singleton_append, Extension.segmentsFrom, if_pos rfl, ih h.tail]

section Explode

variable {separator : Char}

/-- `explode` of a segment and what follows it. -/
theorem explode_append {s : Text} (hs : separator ∉ s) (rest : Text) :
    explode separator (s ++ separator :: rest) = s :: explode separator rest := by
  induction s with
  | nil => simp [explode]
  | cons c cs ih =>
    have hc : c ≠ separator := fun h => hs (h ▸ List.mem_cons_self)
    rw [List.cons_append, explode, if_neg hc, ih (fun h => hs (List.mem_cons_of_mem c h))]

theorem explode_segment {s : Text} (hs : separator ∉ s) : explode separator s = [s] := by
  induction s with
  | nil => rfl
  | cons c cs ih =>
    have hc : c ≠ separator := fun h => hs (h ▸ List.mem_cons_self)
    rw [explode, if_neg hc, ih (fun h => hs (List.mem_cons_of_mem c h))]

/-- `explode` takes apart what `implode` joined, when no part has the separator. -/
theorem explode_implode_of_not_mem {parts : List Text} (h : ∀ s ∈ parts, separator ∉ s)
    (hne : parts ≠ []) : explode separator (implode [separator] parts) = parts := by
  induction parts with
  | nil => exact absurd rfl hne
  | cons s parts ih =>
    have hs : separator ∉ s := h s List.mem_cons_self
    cases parts with
    | nil => exact explode_segment hs
    | cons t ts =>
      rw [implode_cons (by simp), List.append_assoc, List.singleton_append, explode_append hs,
        ih (fun u hu => h u (List.mem_cons_of_mem s hu)) (by simp)]

end Explode

/-- `explode` comes to the segments. -/
theorem explode_implode {segs : List Text} (h : IsSegments segs) (hne : segs ≠ []) :
    explode '.' (implode ['.'] segs) = segs :=
  explode_implode_of_not_mem (fun s hs => not_mem_of_isIdentifier (h s hs) (by decide)) hne

/-- The loop of the generator over the rest of a segment. -/
theorem phpNameLoop_rest {s : Text} (hs : '.' ∉ s) (result segment rest : Text) :
    Generator.phpNameLoop result segment false (s ++ rest) =
      Generator.phpNameLoop result (segment ++ s) false rest := by
  induction s generalizing segment with
  | nil => simp
  | cons c cs ih =>
    have hc : c ≠ '.' := fun h => hs (h ▸ List.mem_cons_self)
    rw [List.cons_append, Generator.phpNameLoop, if_neg (by simp), if_neg hc,
      ih (fun h => hs (List.mem_cons_of_mem c h))]
    simp

/-- The loop of the generator over a segment. -/
theorem phpNameLoop_segment {s : Text} (hs : isIdentifier s = true) (result rest : Text) :
    Generator.phpNameLoop result [] true (s ++ rest) =
      Generator.phpNameLoop result (capitalize s) false rest := by
  have hdot : '.' ∉ s := not_mem_of_isIdentifier hs (by decide)
  cases s with
  | nil => cases hs
  | cons c cs =>
    have hc : c ≠ '.' := fun h => hdot (h ▸ List.mem_cons_self)
    have hcs : '.' ∉ cs := fun h => hdot (List.mem_cons_of_mem c h)
    rw [List.cons_append, Generator.phpNameLoop]
    by_cases hlower : 'a' ≤ c ∧ c ≤ 'z'
    · rw [if_pos ⟨hlower.1, hlower.2, rfl⟩, phpNameLoop_rest hcs]
      rfl
    · rw [if_neg (fun h => hlower ⟨h.1, h.2.1⟩), if_neg hc, phpNameLoop_rest hcs, capitalize,
        toUpper_of_not_lower hlower]
      rfl

/-- The loop of the generator comes to the segments. -/
theorem phpNameLoop_implode {segs : List Text} (h : IsSegments segs) (hne : segs ≠ [])
    (result : Text) :
    Generator.phpNameLoop result [] true (implode ['.'] segs) =
      result ++ implode ['\\'] (segs.map fun s =>
        Generator.phpNamePrefix (capitalize s) ++ capitalize s) := by
  induction segs generalizing result with
  | nil => exact absurd rfl hne
  | cons s segs ih =>
    have hs : isIdentifier s = true := h s List.mem_cons_self
    cases segs with
    | nil =>
      have := phpNameLoop_segment hs result []
      rw [List.append_nil] at this
      rw [implode, this, Generator.phpNameLoop]
      simp [implode]
    | cons t ts =>
      have hright : implode ['\\'] ((s :: t :: ts).map fun s =>
          Generator.phpNamePrefix (capitalize s) ++ capitalize s) =
            Generator.phpNamePrefix (capitalize s) ++ capitalize s ++ ['\\'] ++
              implode ['\\'] ((t :: ts).map fun s =>
                Generator.phpNamePrefix (capitalize s) ++ capitalize s) := rfl
      rw [implode_cons (by simp), List.append_assoc, phpNameLoop_segment hs, List.singleton_append,
        Generator.phpNameLoop, if_neg (by simp), if_pos rfl, ih h.tail (by simp), hright]
      simp only [List.append_assoc]

/-- `ucwords` of an identifier changes its first letter only. -/
theorem ucwords_eq {s : Text} (hs : isIdentifier s = true) : Runtime.ucwords s = capitalize s := by
  have hspace : ∀ c ∈ s, decide (c ∈ [' ', '\t', '\r', '\n', '\x0c', '\x0b']) = false := by
    intro c hc
    rw [decide_eq_false_iff_not]
    intro hmem
    have hident := all_isIdentifierChar hs c hc
    simp only [List.mem_cons, List.not_mem_nil, or_false] at hmem
    rcases hmem with rfl | rfl | rfl | rfl | rfl | rfl <;> revert hident <;> decide
  have hrest : ∀ {t : Text}, (∀ c ∈ t, decide (c ∈ [' ', '\t', '\r', '\n', '\x0c', '\x0b']) = false) →
      Runtime.ucwordsFrom false t = t := by
    intro t ht
    induction t with
    | nil => rfl
    | cons c cs ih =>
      rw [Runtime.ucwordsFrom, ht c List.mem_cons_self, ih fun d hd => ht d (List.mem_cons_of_mem c hd)]
      rfl
  cases s with
  | nil => cases hs
  | cons c cs =>
    rw [Runtime.ucwords, Runtime.ucwordsFrom, hspace c List.mem_cons_self,
      hrest fun d hd => hspace d (List.mem_cons_of_mem c hd)]
    rfl

/-- The extension capitalises a segment too. -/
theorem fillSegment_true (s : Text) : Extension.fillSegment s true = capitalize s := by
  cases s with
  | nil => rfl
  | cons c cs =>
    rw [Extension.fillSegment, capitalize]
    split
    · rfl
    · next h =>
      have hupper : ¬ ('a' ≤ c ∧ c ≤ 'z') := by
        rintro ⟨h₁, -⟩
        refine h ?_
        simp only [Bool.true_and, Bool.or_eq_true, decide_eq_true_eq]
        exact .inr (lt_of_lt_of_le (show 'Z' < 'a' by decide) h₁)
      rw [toUpper_of_not_lower hupper]

theorem fillSegment_false (s : Text) : Extension.fillSegment s false = s := by
  cases s <;> rfl

end Upb.Php
