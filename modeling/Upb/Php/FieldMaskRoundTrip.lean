import Upb.Php.FieldMaskWords

/-!
# Which field masks come back

`parseFieldMask` finds the segments of a name again unless the first one is a single letter or two
segments without a letter behind their first one are neighbours. A mask comes back exactly when
this happens in none of its names.
-/

namespace Upb.Php

/-- A segment of a name. -/
abbrev Segment := { s : Text // isSegment s = true }

/-- A name in lower snake case. -/
structure FieldName where
  first : Segment
  rest : List Segment

namespace FieldName

variable (n : FieldName)

/-- The segments behind the first one. -/
def tail : List Text := n.rest.map Subtype.val

/-- All segments. -/
def segments : List Text := n.first.val :: n.tail

/-- The name as it stands in a path. -/
def text : Text := implode ['_'] n.segments

/-- The name in lower camel case. -/
def camel : Text := n.first.val ++ joined n.tail

/-- The first segment has two characters, and no two short segments behind it are neighbours. -/
def Kept : Prop := 2 ≤ n.first.val.length ∧ Separated n.tail

instance : Decidable n.Kept := inferInstanceAs (Decidable (_ ∧ _))

end FieldName

/-- A path of names. -/
structure FieldPath where
  first : FieldName
  rest : List FieldName

namespace FieldPath

variable (p : FieldPath)

/-- The names of the path. -/
def names : List FieldName := p.first :: p.rest

/-- The path as it stands in a mask. -/
def text : Text := implode ['.'] (p.names.map FieldName.text)

end FieldPath

section Characters

theorem isAlphanum_of_isLowerOrDigit {c : Char} (h : isLowerOrDigit c = true) :
    c.isAlphanum = true := by
  rw [isLowerOrDigit, Bool.or_eq_true] at h
  rcases h with h | h <;> simp [Char.isAlphanum, Char.isAlpha, h]

theorem isAlphanum_toUpper {c : Char} (h : c.isAlphanum = true) : c.toUpper.isAlphanum = true := by
  by_cases hlower : c.isLower = true
  · simp [Char.isAlphanum, Char.isAlpha, isUpper_toUpper hlower]
  · rw [toUpper_of_not_lower fun hc => hlower (isLower_iff.mpr hc)]
    exact h

theorem toLower_of_not_upper {c : Char} (h : c.isUpper = false) : c.toLower = c := by
  rw [Char.toLower, dif_neg]
  intro hc
  rw [isUpper_iff.mpr hc] at h
  cases h

theorem isAlphanum_toLower {c : Char} (h : c.isAlphanum = true) : c.toLower.isAlphanum = true := by
  cases hupper : c.isUpper with
  | false => rwa [toLower_of_not_upper hupper]
  | true =>
    obtain ⟨h₁, h₂⟩ := isUpper_iff.mp hupper
    rw [← Char.ofNat_toNat c]
    generalize c.toNat = n at h₁ h₂
    interval_cases n <;> rfl

/-- A text of letters and digits. -/
def IsAlphanum (s : Text) : Prop := ∀ c ∈ s, c.isAlphanum = true

theorem IsAlphanum.append {a b : Text} (ha : IsAlphanum a) (hb : IsAlphanum b) :
    IsAlphanum (a ++ b) := by
  intro c hc
  rcases List.mem_append.mp hc with hc | hc
  · exact ha c hc
  · exact hb c hc

theorem IsAlphanum.not_mem {s : Text} (h : IsAlphanum s) {c : Char} (hc : c.isAlphanum = false) :
    c ∉ s := by
  intro hmem
  rw [h c hmem] at hc
  cases hc

theorem isLowerOrDigit_of_mem {s : Text} (h : isSegment s = true) :
    ∀ c ∈ s, isLowerOrDigit c = true := by
  cases s with
  | nil => cases h
  | cons c cs =>
    rw [isSegment, Bool.and_eq_true, List.all_eq_true] at h
    intro d hd
    rcases List.mem_cons.mp hd with rfl | hd
    · simp [isLowerOrDigit, h.1]
    · exact h.2 d hd

theorem isAlphanum_segment {s : Text} (h : isSegment s = true) : IsAlphanum s :=
  fun c hc => isAlphanum_of_isLowerOrDigit (isLowerOrDigit_of_mem h c hc)

theorem isAlphanum_ucfirst {s : Text} (h : IsAlphanum s) : IsAlphanum (ucfirst s) := by
  cases s with
  | nil => exact h
  | cons c cs =>
    intro d hd
    rcases List.mem_cons.mp hd with rfl | hd
    · exact isAlphanum_toUpper (h c List.mem_cons_self)
    · exact h d (List.mem_cons_of_mem c hd)

theorem isAlphanum_lowerWord {s : Text} (h : IsAlphanum s) : IsAlphanum (lowerWord s) := by
  rw [lowerWord]
  split
  · intro d hd
    obtain ⟨c, hc, rfl⟩ := List.mem_map.mp hd
    exact isAlphanum_toLower (h c hc)
  · cases s with
    | nil => exact h
    | cons c cs =>
      intro d hd
      rcases List.mem_cons.mp hd with rfl | hd
      · exact isAlphanum_toLower (h c List.mem_cons_self)
      · exact h d (List.mem_cons_of_mem c hd)

theorem isAlphanum_joined {segments : List Text} (h : ∀ s ∈ segments, isSegment s = true) :
    IsAlphanum (joined segments) := by
  induction segments with
  | nil => exact fun c hc => absurd hc List.not_mem_nil
  | cons s segments ih =>
    have hs : IsAlphanum (ucfirst s) :=
      isAlphanum_ucfirst (isAlphanum_segment (h s List.mem_cons_self))
    exact hs.append (ih fun t ht => h t (List.mem_cons_of_mem s ht))

theorem implode_ne_nil {glue s : Text} {parts : List Text} (h : s ≠ []) :
    implode glue (s :: parts) ≠ [] := by
  by_cases hparts : parts = []
  · rwa [hparts]
  · rw [implode_cons hparts, List.append_assoc]
    exact List.append_ne_nil_of_left_ne_nil h _

end Characters

section Words

theorem upperRun_isPrefix {text run : Text} (h : upperRun text = some run) : run <+: text := by
  induction text generalizing run with
  | nil =>
    cases h
    exact List.prefix_refl _
  | cons c cs ih =>
    rw [upperRun] at h
    split at h
    · next run' hrun =>
      cases h
      split at hrun
      · exact List.prefix_cons_inj c |>.mpr (ih hrun)
      · cases hrun
    · split at h
      · cases h
        exact List.nil_prefix
      · cases h

/-- A match is the beginning of the text. -/
theorem matchWord_isPrefix {text word : Text} (h : matchWord text = some word) :
    word <+: text := by
  cases text with
  | nil => cases h
  | cons c cs =>
    rw [matchWord] at h
    split at h
    · next run hrun =>
      cases h
      split at hrun
      · exact List.prefix_cons_inj c |>.mpr (upperRun_isPrefix hrun)
      · cases hrun
    · split at h
      · cases h
        exact List.prefix_cons_inj c |>.mpr (List.takeWhile_prefix _)
      · cases h

theorem mem_of_pregMatchAll {taken : Nat} {text word : Text} (h : word ∈ pregMatchAll taken text) :
    ∀ c ∈ word, c ∈ text := by
  induction text generalizing taken with
  | nil => exact absurd h List.not_mem_nil
  | cons d ds ih =>
    cases taken with
    | succ taken => exact fun c hc => List.mem_cons_of_mem d (ih h c hc)
    | zero =>
      rw [pregMatchAll] at h
      split at h
      · next found hfound =>
        rcases List.mem_cons.mp h with rfl | h
        · exact fun c hc => (matchWord_isPrefix hfound).subset hc
        · exact fun c hc => List.mem_cons_of_mem d (ih h c hc)
      · exact fun c hc => List.mem_cons_of_mem d (ih h c hc)

/-- The matches in a text of letters and digits have no underscore. -/
theorem underscore_not_mem {text word : Text} (h : IsAlphanum text)
    (hword : word ∈ (pregMatchAll 0 text).map lowerWord) : IsAlphanum word := by
  obtain ⟨found, hfound, rfl⟩ := List.mem_map.mp hword
  exact isAlphanum_lowerWord fun c hc => h c (mem_of_pregMatchAll hfound c hc)

theorem toLower_segment {s : Text} (h : ∀ c ∈ s, isLowerOrDigit c = true) : toLower s = s := by
  rw [toLower]
  conv_rhs => rw [← List.map_id s]
  refine List.map_congr_left fun c hc => ?_
  exact toLower_of_not_upper (isUpper_of_isLowerOrDigit (h c hc))

/-- A word found for one segment becomes the segment. -/
theorem lowerWord_ucfirst {s : Text} (h : isSegment s = true) : lowerWord (ucfirst s) = s := by
  have hs : toLower s = s := toLower_segment (isLowerOrDigit_of_mem h)
  rw [lowerWord]
  split
  · rw [ucfirst, toLower_capitalize, hs]
  · cases s with
    | nil => cases h
    | cons c cs =>
      have hc : c.toUpper.toLower = c := by
        rw [toLower_toUpper]
        exact (List.cons.inj hs).1
      simp only [ucfirst, capitalize, lcfirst, hc]

theorem lowerWord_segment {s : Text} (h : isSegment s = true) : lowerWord s = s := by
  have hs : toLower s = s := toLower_segment (isLowerOrDigit_of_mem h)
  rw [lowerWord]
  split
  · exact hs
  · cases s with
    | nil => cases h
    | cons c cs => rw [lcfirst, (List.cons.inj hs).1]

/-- The word at a first segment of two or more characters is the segment. -/
theorem pregMatchAll_first {s : Text} {segments : List Text}
    (h : ∀ t ∈ s :: segments, isSegment t = true) (hlength : 2 ≤ s.length) :
    pregMatchAll 0 (s ++ joined segments) = s :: pregMatchAll 0 (joined segments) := by
  have hs : isSegment s = true := h s List.mem_cons_self
  match s with
  | c :: d :: ds =>
    have hall := isLowerOrDigit_of_mem hs
    have hc : c.isUpper = false := isUpper_of_isLowerOrDigit (hall c (by simp))
    have hlower : c.isLower = true := (Bool.and_eq_true _ _ ▸ hs).1
    have hd : isLowerOrDigit d = true := hall d (by simp)
    have htake : (d :: ds ++ joined segments).takeWhile isLowerOrDigit = d :: ds := by
      rw [List.takeWhile_append_of_pos fun a ha => hall a (List.mem_cons_of_mem c ha),
        takeWhile_joined fun t ht => h t (List.mem_cons_of_mem _ ht), List.append_nil]
    refine pregMatchAll_of_match (by simp) ?_
    rw [List.cons_append, matchWord, hc, htake]
    simp [Char.isAlpha, hlower, hd]

/-- A first segment of one letter is passed over. -/
theorem pregMatchAll_letter {s : Text} {segments : List Text}
    (h : ∀ t ∈ s :: segments, isSegment t = true) (hlength : s.length < 2) :
    pregMatchAll 0 (s ++ joined segments) = pregMatchAll 0 (joined segments) := by
  have hs : isSegment s = true := h s List.mem_cons_self
  match s with
  | [c] =>
    have hall := isLowerOrDigit_of_mem hs
    have hc : c.isUpper = false := isUpper_of_isLowerOrDigit (hall c (by simp))
    have hhead : (joined segments).head?.any isLowerOrDigit = false := by
      have htake := takeWhile_joined fun t ht => h t (List.mem_cons_of_mem _ ht)
      cases hjoined : joined segments with
      | nil => rfl
      | cons d ds =>
        rw [hjoined, List.takeWhile_cons] at htake
        split at htake
        · cases htake
        · next hd => simpa using hd
    rw [List.singleton_append, pregMatchAll, matchWord, hc, hhead]
    simp

end Words

namespace FieldName

variable (n : FieldName)

theorem isSegment_of_mem : ∀ s ∈ n.segments, isSegment s = true := by
  intro s hs
  rcases List.mem_cons.mp hs with rfl | hs
  · exact n.first.property
  · obtain ⟨t, -, rfl⟩ := List.mem_map.mp hs
    exact t.property

theorem isSegment_of_mem_tail : ∀ s ∈ n.tail, isSegment s = true :=
  fun s hs => n.isSegment_of_mem s (List.mem_cons_of_mem _ hs)

theorem explode_text : explode '_' n.text = n.segments :=
  explode_implode_of_not_mem
    (fun s hs => (isAlphanum_segment (n.isSegment_of_mem s hs)).not_mem (by decide))
    (List.cons_ne_nil _ _)

theorem isAlphanum_camel : IsAlphanum n.camel :=
  (isAlphanum_segment n.first.property).append (isAlphanum_joined n.isSegment_of_mem_tail)

/-- `formatFieldMask` turns the name into its lower camel case. -/
theorem convertSegments_text : convertSegments true (explode '_' n.text) = n.camel := by
  rw [explode_text]
  rfl

theorem camel_ne_nil : n.camel ≠ [] := by
  refine List.append_ne_nil_of_left_ne_nil ?_ _
  intro h
  have hfirst := n.first.property
  rw [h] at hfirst
  cases hfirst

/-- The words of a name that is kept are its segments. -/
theorem words_of_kept (h : n.Kept) :
    (pregMatchAll 0 n.camel).map lowerWord = n.segments := by
  rw [camel, pregMatchAll_first n.isSegment_of_mem h.1,
    pregMatchAll_of_separated n.isSegment_of_mem_tail h.2, List.map_cons,
    lowerWord_segment n.first.property, List.map_map, segments]
  congr 1
  conv_rhs => rw [← List.map_id n.tail]
  refine List.map_congr_left fun s hs => ?_
  exact lowerWord_ucfirst (n.isSegment_of_mem_tail s hs)

/-- As many words as segments are found only in a name that is kept. -/
theorem kept_of_length (h : (pregMatchAll 0 n.camel).length = n.segments.length) : n.Kept := by
  have htail := length_pregMatchAll n.isSegment_of_mem_tail
  rw [segments, List.length_cons, camel] at h
  by_cases hlength : 2 ≤ n.first.val.length
  · rw [pregMatchAll_first n.isSegment_of_mem hlength, List.length_cons] at h
    exact ⟨hlength, htail.2 (by omega)⟩
  · rw [pregMatchAll_letter n.isSegment_of_mem (by omega)] at h
    omega

/-- A name comes back exactly when it is kept. -/
theorem camel2underscore_eq_text : camel2underscore n.camel = n.text ↔ n.Kept := by
  constructor
  · intro h
    apply n.kept_of_length
    have hexplode := congrArg (explode '_') h
    rw [explode_text, camel2underscore] at hexplode
    by_cases hne : (pregMatchAll 0 n.camel).map lowerWord = []
    · rw [hne] at hexplode
      exact absurd n.first.property (by rw [← (List.cons.inj hexplode).1]; decide)
    · rw [explode_implode_of_not_mem
        (fun s hs => (underscore_not_mem n.isAlphanum_camel hs).not_mem (by decide)) hne] at hexplode
      rw [← hexplode, List.length_map]
  · intro h
    rw [camel2underscore, n.words_of_kept h, text]

theorem not_mem_text {c : Char} (hc : c.isAlphanum = false) (hne : c ≠ '_') : c ∉ n.text :=
  not_mem_implode (by simpa using hne)
    fun s hs => (isAlphanum_segment (n.isSegment_of_mem s hs)).not_mem hc

theorem not_mem_camel2underscore {c : Char} (hc : c.isAlphanum = false) (hne : c ≠ '_') :
    c ∉ camel2underscore n.camel :=
  not_mem_implode (by simpa using hne)
    fun _ hs => (underscore_not_mem n.isAlphanum_camel hs).not_mem hc

end FieldName

namespace FieldPath

variable (p : FieldPath)

/-- `formatFieldMask` turns each name of the path into its lower camel case. -/
theorem convertPath_text : convertPath p.text = implode ['.'] (p.names.map FieldName.camel) := by
  rw [convertPath, text, explode_implode_of_not_mem ?_ (by simp [names]), List.map_map]
  · congr 1
    exact List.map_congr_left fun n _ => n.convertSegments_text
  · intro s hs
    obtain ⟨n, -, rfl⟩ := List.mem_map.mp hs
    exact n.not_mem_text (by decide) (by decide)

/-- `parseFieldMask` takes the names apart again. -/
theorem parsePath_convertPath : parsePath (convertPath p.text) =
    implode ['.'] (p.names.map fun n => camel2underscore n.camel) := by
  rw [convertPath_text, parsePath, explode_implode_of_not_mem ?_ (by simp [names]), List.map_map]
  · rfl
  · intro s hs
    obtain ⟨n, -, rfl⟩ := List.mem_map.mp hs
    exact n.isAlphanum_camel.not_mem (by decide)

/-- A path comes back exactly when all its names are kept. -/
theorem parsePath_eq_text :
    parsePath (convertPath p.text) = p.text ↔ ∀ n ∈ p.names, n.Kept := by
  rw [parsePath_convertPath, text]
  constructor
  · intro h n hn
    have hexplode := congrArg (explode '.') h
    rw [explode_implode_of_not_mem ?_ (by simp [names]),
      explode_implode_of_not_mem ?_ (by simp [names])] at hexplode
    · exact n.camel2underscore_eq_text.mp (List.map_inj_left.mp hexplode n hn)
    all_goals
      intro s hs
      obtain ⟨m, -, rfl⟩ := List.mem_map.mp hs
    · exact m.not_mem_text (by decide) (by decide)
    · exact m.not_mem_camel2underscore (by decide) (by decide)
  · intro h
    congr 1
    exact List.map_congr_left fun n hn => n.camel2underscore_eq_text.mpr (h n hn)

theorem comma_not_mem_convertPath : ',' ∉ convertPath p.text := by
  rw [convertPath_text]
  refine not_mem_implode (by decide) fun s hs => ?_
  obtain ⟨n, -, rfl⟩ := List.mem_map.mp hs
  exact n.isAlphanum_camel.not_mem (by decide)

theorem convertPath_ne_nil : convertPath p.text ≠ [] := by
  rw [convertPath_text]
  exact implode_ne_nil p.first.camel_ne_nil

end FieldPath

/-- `parseFieldMask` takes the paths apart again. -/
theorem parseFieldMask_formatFieldMask (m : List FieldPath) :
    parseFieldMask (formatFieldMask (m.map FieldPath.text)) =
      m.map fun p => parsePath (convertPath p.text) := by
  cases m with
  | nil => rfl
  | cons p m =>
    rw [formatFieldMask, List.map_map, parseFieldMask, if_neg, explode_implode_of_not_mem,
      List.map_map]
    · rfl
    · intro s hs
      obtain ⟨q, -, rfl⟩ := List.mem_map.mp hs
      exact q.comma_not_mem_convertPath
    · simp
    · rw [List.length_eq_zero_iff]
      exact implode_ne_nil p.convertPath_ne_nil

/-- A mask comes back from its text exactly when all the names in it are kept. -/
theorem fieldMask_roundTrip (m : List FieldPath) :
    parseFieldMask (formatFieldMask (m.map FieldPath.text)) = m.map FieldPath.text ↔
      ∀ p ∈ m, ∀ n ∈ p.names, n.Kept := by
  rw [parseFieldMask_formatFieldMask]
  constructor
  · intro h p hp
    exact p.parsePath_eq_text.mp (List.map_inj_left.mp h p hp)
  · intro h
    exact List.map_congr_left fun p hp => p.parsePath_eq_text.mpr (h p hp)

/-- The path `foo_a_b`, written `fooAB`, comes back as `foo_ab`. -/
theorem fieldMask_adjacentLetters :
    (FieldPath.mk ⟨⟨"foo".toList, by decide⟩, [⟨"a".toList, by decide⟩, ⟨"b".toList, by decide⟩]⟩
      []).text = "foo_a_b".toList ∧
    parseFieldMask (formatFieldMask ["foo_a_b".toList]) = ["foo_ab".toList] := by decide

end Upb.Php
