import Mathlib
import Upb.Php.FieldMask

/-!
# The words of a camel case name

What `preg_match_all` finds in the segments of a name after `ucfirst`: one word for a segment with
a letter behind its first one, and one word for a whole run of segments without.
-/

namespace Upb.Php

/-- A lower case letter followed by lower case letters and digits. -/
def isSegment : Text → Bool
  | [] => false
  | c :: cs => c.isLower && cs.all isLowerOrDigit

/-- A letter followed by digits only. -/
def isShort (s : Text) : Bool := s.tail.all Char.isDigit

theorem isLower_iff {c : Char} : c.isLower = true ↔ 97 ≤ c.toNat ∧ c.toNat ≤ 122 := by
  simp only [Char.isLower, Bool.and_eq_true, decide_eq_true_eq, ge_iff_le, UInt32.le_iff_toNat_le]
  exact Iff.rfl

theorem isUpper_iff {c : Char} : c.isUpper = true ↔ 65 ≤ c.toNat ∧ c.toNat ≤ 90 := by
  simp only [Char.isUpper, decide_eq_true_eq, ge_iff_le, UInt32.le_iff_toNat_le]
  exact Iff.rfl

theorem isDigit_iff {c : Char} : c.isDigit = true ↔ 48 ≤ c.toNat ∧ c.toNat ≤ 57 := by
  simp only [Char.isDigit, Bool.and_eq_true, decide_eq_true_eq, ge_iff_le, UInt32.le_iff_toNat_le]
  exact Iff.rfl

theorem isUpper_toUpper {c : Char} (h : c.isLower = true) : c.toUpper.isUpper = true := by
  obtain ⟨h₁, h₂⟩ := isLower_iff.mp h
  rw [← Char.ofNat_toNat c]
  generalize c.toNat = n at h₁ h₂
  interval_cases n <;> rfl

theorem isUpper_of_isLowerOrDigit {c : Char} (h : isLowerOrDigit c = true) : c.isUpper = false := by
  rw [isLowerOrDigit, Bool.or_eq_true, isLower_iff, isDigit_iff] at h
  rw [Bool.eq_false_iff, ne_eq, isUpper_iff]
  omega

theorem isLowerOrDigit_of_isUpper {c : Char} (h : c.isUpper = true) : isLowerOrDigit c = false := by
  rw [Bool.eq_false_iff]
  intro hlower
  rw [isUpper_of_isLowerOrDigit hlower] at h
  cases h

/-- A letter or a digit in lower case is no newline. -/
theorem ne_newline {c : Char} (h : isLowerOrDigit c = true) : (c == '\n') = false := by
  rw [beq_eq_false_iff_ne]
  rintro rfl
  revert h
  decide

/-- No word begins at a letter or a digit in lower case. -/
theorem wordFollows_of_isLowerOrDigit {c : Char} (h : isLowerOrDigit c = true) (cs : Text) :
    wordFollows (c :: cs) = false := by
  cases cs with
  | nil => exact ne_newline h
  | cons d ds => simp [wordFollows, isUpper_of_isLowerOrDigit h]

theorem isLowerOrDigit_of_isDigit {c : Char} (h : c.isDigit = true) : isLowerOrDigit c = true := by
  simp [isLowerOrDigit, h]

/-- The run goes through digits, wherever it ends behind them. -/
theorem upperRun_digits {digits : Text} (h : digits.all Char.isDigit = true) (rest : Text) :
    upperRun (digits ++ rest) = (upperRun rest).map (digits ++ ·) := by
  induction digits with
  | nil => simp
  | cons c cs ih =>
    rw [List.all_cons, Bool.and_eq_true] at h
    have hc : isUpperOrDigit c = true := by simp [isUpperOrDigit, h.1]
    rw [List.cons_append, upperRun, if_pos hc, ih h.2,
      wordFollows_of_isLowerOrDigit (isLowerOrDigit_of_isDigit h.1)]
    cases upperRun rest <;> simp

/-- The run cannot end when a lower case letter comes before the next word. -/
theorem upperRun_of_not_digits {cs : Text} (h : cs.all isLowerOrDigit = true)
    (hdigits : cs.all Char.isDigit = false) (rest : Text) : upperRun (cs ++ rest) = none := by
  induction cs with
  | nil => cases hdigits
  | cons c cs ih =>
    rw [List.all_cons, Bool.and_eq_true] at h
    have hfollows : wordFollows (c :: (cs ++ rest)) = false := wordFollows_of_isLowerOrDigit h.1 _
    rw [List.cons_append, upperRun, hfollows]
    by_cases hc : c.isDigit = true
    · have hcs : cs.all Char.isDigit = false := by simpa [hc] using hdigits
      rw [ih h.2 hcs]
      simp
    · have hupper : isUpperOrDigit c = false := by
        simp [isUpperOrDigit, isUpper_of_isLowerOrDigit h.1, hc]
      rw [hupper]
      simp

/-- The segments with `ucfirst`, joined. -/
abbrev joined (segments : List Text) : Text := convertSegments false segments

/-- Joined segments begin with a capital letter, if there are any. -/
theorem takeWhile_joined {segments : List Text} (h : ∀ s ∈ segments, isSegment s = true) :
    (joined segments).takeWhile isLowerOrDigit = [] := by
  cases segments with
  | nil => rfl
  | cons s segments =>
    have hs : isSegment s = true := h s List.mem_cons_self
    cases s with
    | nil => cases hs
    | cons c cs =>
      have hc : c.isLower = true := (Bool.and_eq_true _ _ ▸ hs).1
      rw [joined, convertSegments]
      simp [ucfirst, capitalize, isLowerOrDigit_of_isUpper (isUpper_toUpper hc)]

/-- The run of capital letters and digits takes the short segments in front. -/
theorem upperRun_joined {segments : List Text} (h : ∀ s ∈ segments, isSegment s = true) :
    upperRun (joined segments) = some (joined (segments.takeWhile isShort)) := by
  induction segments with
  | nil => rfl
  | cons s segments ih =>
    have hs : isSegment s = true := h s List.mem_cons_self
    have ih := ih fun t ht => h t (List.mem_cons_of_mem s ht)
    cases s with
    | nil => cases hs
    | cons c cs =>
      rw [isSegment, Bool.and_eq_true] at hs
      have hupper : c.toUpper.isUpper = true := isUpper_toUpper hs.1
      have hrun : isUpperOrDigit c.toUpper = true := by simp [isUpperOrDigit, hupper]
      have hjoined : joined ((c :: cs) :: segments) = c.toUpper :: (cs ++ joined segments) := rfl
      rw [hjoined, upperRun, if_pos hrun]
      cases hshort : isShort (c :: cs) with
      | true =>
        have hdigits : cs.all Char.isDigit = true := hshort
        rw [upperRun_digits hdigits, ih, List.takeWhile_cons_of_pos hshort]
        rfl
      | false =>
        have hfollows : wordFollows (c.toUpper :: (cs ++ joined segments)) = true := by
          cases cs with
          | nil => cases hshort
          | cons d ds =>
            rw [List.all_cons, Bool.and_eq_true] at hs
            simp [wordFollows, hupper, hs.2.1]
        rw [upperRun_of_not_digits hs.2 hshort, List.takeWhile_cons_of_neg (by simp [hshort])]
        simp [hfollows, joined, convertSegments]

/-- The word at a short segment has the short segments behind it too. -/
theorem matchWord_short {s : Text} {segments : List Text}
    (h : ∀ t ∈ s :: segments, isSegment t = true) (hshort : isShort s = true) :
    matchWord (joined (s :: segments)) = some (ucfirst s ++ joined (segments.takeWhile isShort)) := by
  have hs : isSegment s = true := h s List.mem_cons_self
  cases s with
  | nil => cases hs
  | cons c cs =>
    rw [isSegment, Bool.and_eq_true] at hs
    have hjoined : joined ((c :: cs) :: segments) = c.toUpper :: (cs ++ joined segments) := rfl
    have hdigits : cs.all Char.isDigit = true := hshort
    rw [hjoined, matchWord, if_pos (isUpper_toUpper hs.1), upperRun_digits hdigits,
      upperRun_joined fun t ht => h t (List.mem_cons_of_mem _ ht)]
    rfl

/-- The word at any other segment is the segment. -/
theorem matchWord_long {s : Text} {segments : List Text}
    (h : ∀ t ∈ s :: segments, isSegment t = true) (hlong : isShort s = false) :
    matchWord (joined (s :: segments)) = some (ucfirst s) := by
  have hs : isSegment s = true := h s List.mem_cons_self
  cases s with
  | nil => cases hs
  | cons c cs =>
    rw [isSegment, Bool.and_eq_true] at hs
    have hupper : c.toUpper.isUpper = true := isUpper_toUpper hs.1
    have halpha : c.toUpper.isAlpha = true := by simp [Char.isAlpha, hupper]
    have hjoined : joined ((c :: cs) :: segments) = c.toUpper :: (cs ++ joined segments) := rfl
    have hhead : (cs ++ joined segments).head?.any isLowerOrDigit = true := by
      cases cs with
      | nil => cases hlong
      | cons d ds =>
        rw [List.all_cons, Bool.and_eq_true] at hs
        simp [hs.2.1]
    have htake : (cs ++ joined segments).takeWhile isLowerOrDigit = cs := by
      rw [List.takeWhile_append_of_pos (by simpa using hs.2),
        takeWhile_joined fun t ht => h t (List.mem_cons_of_mem _ ht), List.append_nil]
    rw [hjoined, matchWord, if_pos hupper, upperRun_of_not_digits hs.2 hlong, halpha, hhead, htake]
    rfl

/-- The characters of a match are passed over. -/
theorem pregMatchAll_append (word rest : Text) :
    pregMatchAll word.length (word ++ rest) = pregMatchAll 0 rest := by
  induction word with
  | nil => rfl
  | cons c cs ih => rw [List.cons_append, List.length_cons, pregMatchAll, ih]

/-- A match and the matches behind it. -/
theorem pregMatchAll_of_match {word rest : Text} (hne : word ≠ [])
    (h : matchWord (word ++ rest) = some word) :
    pregMatchAll 0 (word ++ rest) = word :: pregMatchAll 0 rest := by
  cases word with
  | nil => exact absurd rfl hne
  | cons c cs =>
    rw [List.cons_append] at h ⊢
    rw [pregMatchAll, h]
    simp [pregMatchAll_append]

theorem ucfirst_ne_nil {s : Text} (h : isSegment s = true) : ucfirst s ≠ [] := by
  cases s with
  | nil => cases h
  | cons c cs => simp [ucfirst, capitalize]

theorem joined_append (a b : List Text) : joined (a ++ b) = joined a ++ joined b := by
  induction a with
  | nil => rfl
  | cons s a ih =>
    have hcons : ∀ l, joined (s :: l) = ucfirst s ++ joined l := fun _ => rfl
    rw [List.cons_append, hcons, ih, hcons, List.append_assoc]

/-- The matches from a short segment on. -/
theorem pregMatchAll_short {s : Text} {segments : List Text}
    (h : ∀ t ∈ s :: segments, isSegment t = true) (hshort : isShort s = true) :
    pregMatchAll 0 (joined (s :: segments)) =
      (ucfirst s ++ joined (segments.takeWhile isShort)) ::
        pregMatchAll 0 (joined (segments.dropWhile isShort)) := by
  have hword : matchWord (joined (s :: segments)) =
      some (ucfirst s ++ joined (segments.takeWhile isShort)) := matchWord_short h hshort
  have hjoined : joined (s :: segments) = (ucfirst s ++ joined (segments.takeWhile isShort)) ++
      joined (segments.dropWhile isShort) := by
    rw [List.append_assoc, ← joined_append, List.takeWhile_append_dropWhile]
    rfl
  rw [hjoined] at hword ⊢
  refine pregMatchAll_of_match ?_ hword
  exact List.append_ne_nil_of_left_ne_nil (ucfirst_ne_nil (h s List.mem_cons_self)) _

/-- The matches from any other segment on. -/
theorem pregMatchAll_long {s : Text} {segments : List Text}
    (h : ∀ t ∈ s :: segments, isSegment t = true) (hlong : isShort s = false) :
    pregMatchAll 0 (joined (s :: segments)) = ucfirst s :: pregMatchAll 0 (joined segments) :=
  pregMatchAll_of_match (ucfirst_ne_nil (h s List.mem_cons_self)) (matchWord_long h hlong)

/-- No two short segments stand next to each other. -/
def Separated (segments : List Text) : Prop :=
  segments.IsChain fun s t => isShort s = false ∨ isShort t = false

instance (segments : List Text) : Decidable (Separated segments) :=
  inferInstanceAs (Decidable (List.IsChain _ segments))

theorem separated_of_long {s : Text} {segments : List Text} (h : isShort s = false) :
    Separated (s :: segments) ↔ Separated segments := by
  cases segments with
  | nil => simp [Separated]
  | cons t segments => simp [Separated, h]

/-- Segments of which no two short ones are neighbours are the matches. -/
theorem pregMatchAll_of_separated {segments : List Text} (h : ∀ s ∈ segments, isSegment s = true)
    (hsep : Separated segments) : pregMatchAll 0 (joined segments) = segments.map ucfirst := by
  induction segments with
  | nil => rfl
  | cons s segments ih =>
    have htail : ∀ t ∈ segments, isSegment t = true := fun t ht => h t (List.mem_cons_of_mem s ht)
    have ih := ih htail hsep.tail
    cases hshort : isShort s with
    | false => rw [pregMatchAll_long h hshort, ih, List.map_cons]
    | true =>
      have hnext : segments.takeWhile isShort = [] ∧ segments.dropWhile isShort = segments := by
        cases segments with
        | nil => exact ⟨rfl, rfl⟩
        | cons t segments =>
          have ht : isShort t = false := by
            simpa [Separated, hshort] using (List.isChain_cons_cons.mp hsep).1
          simp [ht]
      rw [pregMatchAll_short h hshort, hnext.1, hnext.2, ih]
      simp [joined, convertSegments]

/-- There are never more matches than segments, and as many only if no two short segments are
neighbours. -/
theorem length_pregMatchAll {segments : List Text} (h : ∀ s ∈ segments, isSegment s = true) :
    (pregMatchAll 0 (joined segments)).length ≤ segments.length ∧
      ((pregMatchAll 0 (joined segments)).length = segments.length → Separated segments) := by
  match segments with
  | [] => exact ⟨le_refl _, fun _ => .nil⟩
  | s :: segments =>
    have htail : ∀ t ∈ segments, isSegment t = true := fun t ht => h t (List.mem_cons_of_mem s ht)
    cases hshort : isShort s with
    | false =>
      have ih := length_pregMatchAll htail
      rw [pregMatchAll_long h hshort, List.length_cons, List.length_cons, separated_of_long hshort]
      exact ⟨by omega, fun heq => ih.2 (by omega)⟩
    | true =>
      have hdrop : (segments.dropWhile isShort).length ≤ segments.length :=
        (List.dropWhile_sublist _).length_le
      have hrest : ∀ t ∈ segments.dropWhile isShort, isSegment t = true :=
        fun t ht => htail t ((List.dropWhile_sublist _).subset ht)
      have ih := length_pregMatchAll hrest
      rw [pregMatchAll_short h hshort, List.length_cons, List.length_cons]
      refine ⟨by omega, fun heq => ?_⟩
      cases segments with
      | nil => exact .singleton s
      | cons t segments =>
        cases ht : isShort t with
        | true =>
          exfalso
          have hless : ((t :: segments).dropWhile isShort).length ≤ segments.length := by
            rw [List.dropWhile_cons_of_pos ht]
            exact (List.dropWhile_sublist _).length_le
          rw [List.length_cons] at heq
          omega
        | false =>
          rw [List.dropWhile_cons_of_neg (by simp [ht])] at ih heq
          exact List.isChain_cons_cons.mpr ⟨.inr ht, ih.2 (by omega)⟩
termination_by segments.length
decreasing_by
  · simp
  · simpa using Nat.lt_succ_of_le hdrop

end Upb.Php
