import Mathlib.Data.List.TakeWhile
import Upb.Php.Segments

/-!
# When the three class names agree

All three programs write a namespace and the names of the messages, each name with its prefix. They
differ in two places: the C extension alone reserves the word `object`, and the PHP runtime puts the
class prefix of a file before the segments of its package and once more before the class. A C string
ends at a null character besides.
-/

namespace Upb.Php

/-- The prefix of a reserved word. -/
def reservedPrefix (d : Definition) : Text :=
  if d.packageName = "google.protobuf".toList then "GPB".toList else "PB".toList

/-- The words that all three programs reserve. -/
def reserved (s : Text) : Bool := Generator.isReservedName s

/-- The word that the extension alone reserves. -/
def isObject (s : Text) : Bool := toLower s == "object".toList

section Words

theorem isWord_runtime (s : Text) :
    isWord Runtime.reservedWords s = isWord Generator.kReservedNames s := by
  rw [show Runtime.reservedWords = Generator.kReservedNames from rfl]

theorem isWord_iff {words : List String} {s : Text} :
    isWord words s = true ↔ ∃ w ∈ words, w.toList = s := by
  simp [isWord]

/-- The words of the extension. -/
theorem isReserved_eq (s : Text) : Extension.isReserved s = (isObject s || reserved s) := by
  have hmore : ∀ w ∈ Extension.kReservedNames, w = "object" ∨ w ∈ Generator.kReservedNames := by
    decide +kernel
  have hless : ∀ w ∈ Generator.kReservedNames, w ∈ Extension.kReservedNames := by decide +kernel
  rw [Bool.eq_iff_iff, Bool.or_eq_true, Extension.isReserved, isObject, reserved,
    Generator.isReservedName, isWord_iff, isWord_iff, beq_iff_eq]
  constructor
  · rintro ⟨w, hw, hs⟩
    rcases hmore w hw with rfl | hw
    · exact .inl hs.symm
    · exact .inr ⟨w, hw, hs⟩
  · rintro (hs | ⟨w, hw, hs⟩)
    · exact ⟨"object", by decide +kernel, hs.symm⟩
    · exact ⟨w, hless w hw, hs⟩

theorem reserved_of_isObject {s : Text} (h : isObject s = true) : reserved s = false := by
  rw [isObject, beq_iff_eq] at h
  rw [reserved, Generator.isReservedName, h]
  decide +kernel

theorem reserved_capitalize (s : Text) : reserved (capitalize s) = reserved s := by
  rw [reserved, reserved, Generator.isReservedName, Generator.isReservedName, toLower_capitalize]

end Words

section Forms

variable (d : Definition)

/-- The segments of the package. -/
def packageSegments : List Text := d.package.map Subtype.val

/-- The prefix of a name of a message. -/
def namePrefix (s : Text) : Text :=
  if d.classPrefix ≠ [] then d.classPrefix else if reserved s then reservedPrefix d else []

/-- The names of the messages with their prefixes. -/
def className : Text := implode ['\\'] (d.names.map fun s => namePrefix d s ++ s)

/-- A segment of the package in the namespace. -/
def packageSegment (s : Text) : Text := (if reserved s then "PB".toList else []) ++ capitalize s

theorem isSegments_names : IsSegments d.names := isSegments_map _

theorem names_ne_nil : d.names ≠ [] := by simp [Definition.names]

theorem isSegments_package : IsSegments (packageSegments d) := isSegments_map _

/-- The namespace of the generator, with the separator behind it. -/
def namespaceText : Text :=
  match d.options.phpNamespace with
  | some s => if s ≠ [] then s ++ ['\\'] else []
  | none => (packageSegments d).flatMap fun s => packageSegment s ++ ['\\']

/-- Parts with separators between them and behind them. -/
theorem flatMap_eq_implode {segs : List Text} (h : segs ≠ []) (f : Text → Text) :
    segs.flatMap (fun s => f s ++ ['\\']) = implode ['\\'] (segs.map f) ++ ['\\'] := by
  induction segs with
  | nil => exact absurd rfl h
  | cons s segs ih =>
    cases segs with
    | nil => simp [implode]
    | cons t ts =>
      have hright : implode ['\\'] ((s :: t :: ts).map f) =
          f s ++ ['\\'] ++ implode ['\\'] ((t :: ts).map f) := rfl
      rw [List.flatMap_cons, ih (by simp), hright]
      simp only [List.append_assoc]

/-- Parts added from the last one on. -/
theorem foldr_eq_implode (parts : List Text) (last : Text) :
    parts.foldr (fun s text => s ++ ['\\'] ++ text) last = implode ['\\'] (parts ++ [last]) := by
  induction parts with
  | nil => rfl
  | cons s parts ih => rw [List.foldr_cons, ih, List.cons_append, implode_cons (by simp)]

theorem packageName_eq : d.packageName = implode ['.'] (packageSegments d) := rfl

theorem packageName_eq_nil_iff : d.packageName = [] ↔ packageSegments d = [] := by
  constructor
  · intro h
    have hseg := segmentsFrom_implode (isSegments_package d)
    rw [← packageName_eq, h] at hseg
    exact hseg.symm
  · intro h
    rw [packageName_eq, h]
    rfl

/-- The name that the generator gives. -/
theorem fullClassName_eq : Generator.fullClassName d = namespaceText d ++ className d := by
  have hclass : Generator.generatedClassNameImpl d = className d := by
    have himpl : ∀ s, Generator.classNamePrefixImpl s d = namePrefix d s := fun _ => rfl
    rw [Generator.generatedClassNameImpl, List.foldl_reverse, className, Definition.names,
      List.map_append, List.map_append]
    simp only [List.map_cons, List.map_nil, himpl]
    rw [← foldr_eq_implode, List.foldr_map, List.foldr_map]
  have hroot : Generator.fullClassName d = if Generator.rootPhpNamespace d ≠ [] then
      Generator.rootPhpNamespace d ++ ['\\'] ++ className d else className d := by
    rw [← hclass]
    rfl
  rw [hroot, namespaceText]
  cases hns : d.options.phpNamespace with
  | some s =>
    have hs : Generator.rootPhpNamespace d = s := by
      rw [Generator.rootPhpNamespace, hns]
      by_cases h : s = []
      · simp [h]
      · simp [h]
    rw [hs]
    by_cases h : s = [] <;> simp [h]
  | none =>
    by_cases hpkg : packageSegments d = []
    · have hs : Generator.rootPhpNamespace d = [] := by
        simp [Generator.rootPhpNamespace, hns, (packageName_eq_nil_iff d).mpr hpkg]
      simp [hs, hpkg]
    · have hname : d.packageName ≠ [] := fun h => hpkg ((packageName_eq_nil_iff d).mp h)
      have hseg : ∀ s, Generator.phpNamePrefix (capitalize s) ++ capitalize s = packageSegment s := by
        intro s
        rw [packageSegment, Generator.phpNamePrefix, ← reserved_capitalize s, reserved]
      have hs : Generator.rootPhpNamespace d =
          implode ['\\'] ((packageSegments d).map packageSegment) := by
        simp only [Generator.rootPhpNamespace, hns]
        rw [if_pos hname, Generator.phpName, packageName_eq,
          phpNameLoop_implode (isSegments_package d) hpkg, List.nil_append]
        simp only [hseg]
      have hne : Generator.rootPhpNamespace d ≠ [] := by
        rw [hs]
        intro hnil
        have hflat := flatMap_eq_implode hpkg packageSegment
        rw [hnil] at hflat
        have hlen := congrArg List.length hflat
        obtain ⟨s, ss, hcons⟩ := List.exists_cons_of_ne_nil hpkg
        have hpos : 0 < (capitalize s).length := by
          have hident := isSegments_package d s (by rw [hcons]; exact List.mem_cons_self)
          cases s with
          | nil => cases hident
          | cons c cs => simp [capitalize]
        rw [hcons, List.flatMap_cons] at hlen
        simp only [packageSegment, List.length_append, List.length_cons, List.length_nil] at hlen
        omega
      rw [if_pos hne, hs]
      dsimp only
      rw [flatMap_eq_implode hpkg]

/-- The prefix that the extension gives to the name of a message. -/
def extensionPrefix (s : Text) : Text :=
  if Extension.cString d.classPrefix ≠ [] then Extension.cString d.classPrefix
  else if Extension.isReserved s then reservedPrefix d else []

/-- A segment of the package in the namespace of the extension. -/
def extensionSegment (s : Text) : Text :=
  (if Extension.isReserved s then reservedPrefix d else []) ++ capitalize s

/-- The namespace of the extension, with the separator behind it. -/
def extensionNamespace : Text :=
  match d.options.phpNamespace with
  | some s => if Extension.cString s ≠ [] then Extension.cString s ++ ['\\'] else []
  | none => (packageSegments d).flatMap fun s => extensionSegment d s ++ ['\\']

/-- The names of the messages with the prefixes of the extension. -/
def extensionClass : Text := implode ['\\'] (d.names.map fun s => extensionPrefix d s ++ s)

theorem fillClassnameLoop_eq (segs : List Text) :
    Extension.fillClassnameLoop d.packageName d.options.phpClassPrefix segs =
      implode ['\\'] (segs.map fun s => extensionPrefix d s ++ s) := by
  have hseg : ∀ s, Extension.fillPrefix s d.options.phpClassPrefix d.packageName ++
      Extension.fillSegment s false = extensionPrefix d s ++ s := by
    intro s
    rw [fillSegment_false]
    rfl
  induction segs with
  | nil => rfl
  | cons s segs ih =>
    cases segs with
    | nil => exact hseg s
    | cons t ts =>
      rw [Extension.fillClassnameLoop, hseg, ih]
      · rfl
      · simp

/-- The name that the extension gives. -/
theorem getPhpClassname_eq :
    Extension.getPhpClassname d = extensionNamespace d ++ extensionClass d := by
  have hclass : Extension.fillClassname d.fullName d.packageName d.options.phpClassPrefix =
      extensionClass d := by
    have hdrop : d.fullName.drop (if d.packageName.length = 0 then 0 else d.packageName.length + 1) =
        implode ['.'] d.names := by
      by_cases hpkg : packageSegments d = []
      · have hname := (packageName_eq_nil_iff d).mpr hpkg
        rw [hname, if_pos (show ([] : Text).length = 0 from rfl), List.drop_zero, Definition.fullName]
        change implode _ (packageSegments d ++ _) = _
        rw [hpkg, List.nil_append]
      · have hname : d.packageName ≠ [] := fun h => hpkg ((packageName_eq_nil_iff d).mp h)
        have hlen : d.packageName.length ≠ 0 := by simpa using hname
        have hfull : d.fullName = d.packageName ++ ['.'] ++ implode ['.'] d.names :=
          implode_append hpkg (names_ne_nil d)
        have hsize : d.packageName.length + 1 = (d.packageName ++ ['.']).length := by simp
        rw [if_neg hlen, hfull, hsize, List.drop_left]
    rw [Extension.fillClassname, hdrop, segmentsFrom_implode (isSegments_names d), fillClassnameLoop_eq]
    rfl
  rw [Extension.getPhpClassname, hclass, extensionNamespace]
  cases d.options.phpNamespace with
  | some s => rfl
  | none =>
    rw [Extension.fillNamespace]
    conv_lhs => rw [packageName_eq, segmentsFrom_implode (isSegments_package d), ← packageName_eq]
    simp only [fillSegment_true]
    rfl

/-- The prefix that the runtime gives to a text. -/
theorem getClassNamePrefix_eq (s : Text) : Runtime.getClassNamePrefix s d = namePrefix d s := by
  rw [Runtime.getClassNamePrefix, isWord_runtime]
  rfl

theorem names_append : d.names = d.containing.map Subtype.val ++ [d.name.val] := by
  rw [Definition.names, List.map_append]
  rfl

/-- The names of the messages in the runtime. -/
theorem getClassNameWithoutPackage_eq :
    Runtime.getClassNameWithoutPackage (implode ['.'] d.names) d = className d := by
  rw [Runtime.getClassNameWithoutPackage, explode_implode (isSegments_names d) (names_ne_nil d)]
  simp only [getClassNamePrefix_eq]
  rfl

/-- The name that the runtime gives. -/
theorem getFullClassName_eq :
    Runtime.getFullClassName d =
      match d.options.phpNamespace with
      | some s => if s ≠ [] then s ++ ['\\'] ++ className d else className d
      | none => if d.packageName = [] then className d else
          ((packageSegments d).flatMap fun s => namePrefix d (capitalize s) ++ capitalize s ++ ['\\']) ++
            namePrefix d (className d) ++ className d := by
  have hname : (if implode ['.'] (d.containing.map Subtype.val) ≠ [] then
      implode ['.'] (d.containing.map Subtype.val) ++ ['.'] ++ d.name.val else d.name.val) =
        implode ['.'] d.names := by
    rw [names_append]
    by_cases h : d.containing.map Subtype.val = []
    · rw [h]
      rfl
    · have hne : implode ['.'] (d.containing.map Subtype.val) ≠ [] := by
        intro hnil
        have hseg := segmentsFrom_implode (isSegments_map d.containing)
        rw [hnil] at hseg
        exact h hseg.symm
      rw [if_pos hne, implode_append h (by simp)]
      rfl
  rw [Runtime.getFullClassName]
  simp only [hname, getClassNameWithoutPackage_eq, getClassNamePrefix_eq]
  cases d.options.phpNamespace with
  | some s => rfl
  | none =>
    dsimp only
    by_cases hpkg : d.packageName = []
    · rw [if_pos hpkg, if_pos hpkg]
    · have hne : packageSegments d ≠ [] := fun h => hpkg ((packageName_eq_nil_iff d).mpr h)
      have hucwords : (packageSegments d).map Runtime.ucwords = (packageSegments d).map capitalize :=
        List.map_congr_left fun s hs => ucwords_eq (isSegments_package d s hs)
      have hparts : implode ['\\'] ((packageSegments d).map fun s =>
          namePrefix d (capitalize s) ++ capitalize s) ++ ['\\'] =
            (packageSegments d).flatMap fun s => namePrefix d (capitalize s) ++ capitalize s ++ ['\\'] :=
        (flatMap_eq_implode hne fun s => namePrefix d (capitalize s) ++ capitalize s).symm
      rw [if_neg hpkg, if_neg hpkg, ← hparts]
      conv_lhs => rw [packageName_eq, explode_implode (isSegments_package d) hne, hucwords, List.map_map]
      rfl

end Forms

section Compare

variable (d : Definition)

/-- The segments of the package `google.protobuf` are not reserved. -/
theorem packagePrefix_eq {s : Text} (hs : s ∈ packageSegments d) {b : Text → Bool}
    (hb : b "google".toList = false ∧ b "protobuf".toList = false) :
    (if b s then reservedPrefix d else []) = if b s then "PB".toList else [] := by
  by_cases hpkg : d.packageName = "google.protobuf".toList
  · have hsegs : packageSegments d = ["google".toList, "protobuf".toList] := by
      have hseg := segmentsFrom_implode (isSegments_package d)
      rw [← packageName_eq, hpkg] at hseg
      rw [← hseg]
      decide +kernel
    rw [hsegs] at hs
    have hfalse : b s = false := by
      rcases List.mem_cons.mp hs with rfl | hs
      · exact hb.1
      · rw [List.mem_singleton.mp hs]
        exact hb.2
    rw [hfalse]
    rfl
  · rw [reservedPrefix, if_neg hpkg]

/-- No reserved word starts like a reserved prefix or holds a separator. -/
theorem reserved_words {s : Text} (h : reserved s = true) :
    '\\' ∉ s ∧ ¬ "PB".toList <+: s ∧ ¬ "GPB".toList <+: s := by
  have hall : ∀ w ∈ Generator.kReservedNames, '\\' ∉ w.toList ∧ ¬ "pb".toList <+: w.toList ∧
      ¬ "gpb".toList <+: w.toList := by decide +kernel
  rw [reserved, Generator.isReservedName, isWord_iff] at h
  obtain ⟨w, hw, hs⟩ := h
  obtain ⟨hsep, hpb, hgpb⟩ := hall w hw
  rw [hs] at hsep hpb hgpb
  refine ⟨fun hmem => hsep ?_, fun hpre => hpb ?_, fun hpre => hgpb ?_⟩
  · exact List.mem_map.mpr ⟨'\\', hmem, by decide⟩
  · exact hpre.map Char.toLower
  · exact hpre.map Char.toLower

/-- Without a class prefix the names of the messages are no reserved word. -/
theorem reserved_className (hclassPrefix : d.classPrefix = []) : reserved (className d) = false := by
  rw [Bool.eq_false_iff]
  intro h
  obtain ⟨hsep, hpb, hgpb⟩ := reserved_words h
  rw [className] at h hsep hpb hgpb
  cases hnames : d.names with
  | nil => exact names_ne_nil d hnames
  | cons s ss =>
    cases ss with
    | nil =>
      have hone : implode ['\\'] (d.names.map fun s => namePrefix d s ++ s) = namePrefix d s ++ s := by
        rw [hnames]
        rfl
      rw [hone, namePrefix, if_neg (by simpa using hclassPrefix)] at h hpb hgpb
      by_cases hs : reserved s = true
      · rw [if_pos hs, reservedPrefix] at hpb hgpb
        by_cases hpkg : d.packageName = "google.protobuf".toList
        · rw [if_pos hpkg] at hgpb
          exact hgpb (List.prefix_append _ _)
        · rw [if_neg hpkg] at hpb
          exact hpb (List.prefix_append _ _)
      · rw [if_neg hs, List.nil_append] at h
        exact hs h
    | cons t ts =>
      refine hsep ?_
      rw [hnames]
      simp [implode]

/-- Texts that a prefix makes longer, put together. -/
theorem length_implode_le (glue : Text) {f g : Text → Text} {segs : List Text}
    (h : ∀ s ∈ segs, (f s).length ≤ (g s).length) :
    (implode glue (segs.map f)).length ≤ (implode glue (segs.map g)).length ∧
      ((∃ s ∈ segs, (f s).length < (g s).length) →
        (implode glue (segs.map f)).length < (implode glue (segs.map g)).length) := by
  induction segs with
  | nil => simp
  | cons s segs ih =>
    obtain ⟨ihle, ihlt⟩ := ih fun t ht => h t (List.mem_cons_of_mem s ht)
    have hs := h s List.mem_cons_self
    cases segs with
    | nil => simpa [implode] using hs
    | cons t ts =>
      have hf : (implode glue ((s :: t :: ts).map f)).length =
          (f s).length + glue.length + (implode glue ((t :: ts).map f)).length := by
        simp [implode, List.length_append]
        omega
      have hg : (implode glue ((s :: t :: ts).map g)).length =
          (g s).length + glue.length + (implode glue ((t :: ts).map g)).length := by
        simp [implode, List.length_append]
        omega
      rw [hf, hg]
      refine ⟨by omega, ?_⟩
      rintro ⟨u, hu, hlt⟩
      rcases List.mem_cons.mp hu with rfl | hu
      · omega
      · have := ihlt ⟨u, hu, hlt⟩
        omega

theorem nul_not_mem_cString (s : Text) : '\x00' ∉ Extension.cString s := by
  intro h
  have := List.mem_takeWhile_imp h
  simp at this

theorem cString_of_not_mem {s : Text} (h : '\x00' ∉ s) : Extension.cString s = s := by
  rw [Extension.cString, List.takeWhile_eq_self_iff]
  intro c hc
  simp only [ne_eq, decide_eq_true_eq]
  rintro rfl
  exact h hc

theorem nul_not_mem_capitalize {s : Text} (hs : isIdentifier s = true) : '\x00' ∉ capitalize s := by
  have hnul : '\x00' ∉ s := not_mem_of_isIdentifier hs (by decide)
  cases s with
  | nil => cases hs
  | cons c cs =>
    have hc : c ≠ '\x00' := fun h => hnul (h ▸ List.mem_cons_self)
    rw [capitalize, List.mem_cons, not_or]
    refine ⟨fun h => hc ?_, fun h => hnul (List.mem_cons_of_mem c h)⟩
    exact eq_of_toUpper_eq h.symm (by decide)

/-- The name that the extension gives holds no null character. -/
theorem nul_not_mem_getPhpClassname : '\x00' ∉ Extension.getPhpClassname d := by
  have hpre : ∀ b : Bool, '\x00' ∉ (if b then reservedPrefix d else [] : Text) := by
    intro b
    cases b with
    | false => simp
    | true =>
      rw [if_pos rfl, reservedPrefix]
      split
      · decide +kernel
      · decide +kernel
  rw [getPhpClassname_eq, List.mem_append, not_or]
  constructor
  · rw [extensionNamespace]
    cases d.options.phpNamespace with
    | some s =>
      dsimp only
      split
      · rw [List.mem_append, not_or]
        exact ⟨nul_not_mem_cString s, by decide⟩
      · simp
    | none =>
      intro hmem
      obtain ⟨s, hs, hmem⟩ := List.mem_flatMap.mp hmem
      rw [extensionSegment] at hmem
      simp only [List.mem_append] at hmem
      rcases hmem with (hmem | hmem) | hmem
      · exact hpre _ hmem
      · exact nul_not_mem_capitalize (isSegments_package d s hs) hmem
      · revert hmem
        decide
  · refine not_mem_implode (by decide) fun part hpart => ?_
    obtain ⟨s, hs, rfl⟩ := List.mem_map.mp hpart
    rw [List.mem_append, not_or]
    refine ⟨?_, not_mem_of_isIdentifier (isSegments_names d s hs) (by decide)⟩
    rw [extensionPrefix]
    split
    · exact nul_not_mem_cString _
    · exact hpre _

/-- The runtime and the generator agree without a class prefix, and with a namespace. -/
theorem getFullClassName_eq_fullClassName
    (h : d.options.phpNamespace = none → d.package ≠ [] → d.classPrefix = []) :
    Runtime.getFullClassName d = Generator.fullClassName d := by
  rw [getFullClassName_eq, fullClassName_eq, namespaceText]
  cases hns : d.options.phpNamespace with
  | some s =>
    dsimp only
    split
    · rfl
    · rfl
  | none =>
    dsimp only
    by_cases hpkg : packageSegments d = []
    · rw [if_pos ((packageName_eq_nil_iff d).mpr hpkg), hpkg]
      rfl
    · have hname : d.packageName ≠ [] := fun h => hpkg ((packageName_eq_nil_iff d).mp h)
      have hclassPrefix : d.classPrefix = [] := h hns fun hnil => hpkg (by rw [packageSegments, hnil]; rfl)
      have hclass : namePrefix d (className d) = [] := by
        rw [namePrefix, if_neg (by simpa using hclassPrefix), reserved_className d hclassPrefix]
        rfl
      rw [if_neg hname, hclass, List.append_nil]
      congr 1
      rw [List.flatMap_congr]
      intro s hs
      rw [namePrefix, if_neg (by simpa using hclassPrefix), packageSegment, reserved_capitalize,
        packagePrefix_eq d hs (b := reserved) (by decide +kernel)]

/-- With a class prefix and a package, and without a namespace, the runtime and the generator
differ. -/
theorem getFullClassName_ne_fullClassName (hns : d.options.phpNamespace = none)
    (hpkg : d.package ≠ []) (hclassPrefix : d.classPrefix ≠ []) :
    Runtime.getFullClassName d ≠ Generator.fullClassName d := by
  intro heq
  have hsegs : packageSegments d ≠ [] := fun h => hpkg (List.map_eq_nil_iff.mp h)
  have hname : d.packageName ≠ [] := fun h => hsegs ((packageName_eq_nil_iff d).mp h)
  have hnamePrefix : ∀ s, namePrefix d s = d.classPrefix := fun s => if_pos hclassPrefix
  rw [getFullClassName_eq, fullClassName_eq, namespaceText, hns] at heq
  dsimp only at heq
  rw [if_neg hname] at heq
  simp only [hnamePrefix] at heq
  have heq := List.append_cancel_right heq
  generalize d.classPrefix = p at heq hclassPrefix
  have hident := isSegments_package d
  generalize packageSegments d = segs at heq hsegs hident
  -- the generator adds at most two characters to a segment
  have hlen : 2 ≤ p.length → (segs.flatMap fun s => packageSegment s ++ ['\\']).length ≤
      (segs.flatMap fun s => p ++ capitalize s ++ ['\\']).length := by
    intro hp
    clear heq hsegs hident
    induction segs with
    | nil => simp
    | cons s segs ih =>
      have hs : (packageSegment s).length ≤ p.length + (capitalize s).length := by
        rw [packageSegment, List.length_append]
        have : (if reserved s then "PB".toList else [] : Text).length ≤ 2 := by split <;> decide
        omega
      rw [List.flatMap_cons, List.flatMap_cons]
      simp only [List.length_append, List.length_singleton]
      omega
  have hshort : p.length < 2 := by
    by_contra hlong
    have htotal := congrArg List.length heq
    rw [List.length_append] at htotal
    have := hlen (by omega)
    omega
  obtain ⟨c, rfl⟩ : ∃ c, p = [c] := by
    rw [← List.length_eq_one_iff]
    have := List.length_pos_iff.mpr hclassPrefix
    omega
  obtain ⟨s, ss, rfl⟩ := List.exists_cons_of_ne_nil hsegs
  -- the first character is none of a separator, the last one is
  have hlast : c = '\\' := by
    rw [flatMap_eq_implode (by simp) packageSegment] at heq
    have hlast := congrArg List.getLast? heq
    rw [List.getLast?_concat, List.getLast?_concat] at hlast
    exact Option.some.inj hlast
  have hs := hident s List.mem_cons_self
  cases s with
  | nil => cases hs
  | cons a as =>
    have hfirst := congrArg List.head? heq
    rw [List.flatMap_cons, List.flatMap_cons] at hfirst
    rw [hlast] at hfirst
    by_cases hres : reserved (a :: as) = true
    · simp [packageSegment, hres] at hfirst
    · have hseg : packageSegment (a :: as) = a.toUpper :: as := by
        simp [packageSegment, hres, capitalize]
      rw [hseg] at hfirst
      have hfirst : some '\\' = some a.toUpper := hfirst
      have ha := all_isIdentifierChar hs a List.mem_cons_self
      rw [eq_of_toUpper_eq (Option.some.inj hfirst).symm (by decide)] at ha
      cases ha

/-- Segments of the package that the extension treats alike. -/
theorem extensionSegment_eq {s : Text} (hs : s ∈ packageSegments d) :
    extensionSegment d s =
      (if isObject s || reserved s then "PB".toList else []) ++ capitalize s := by
  rw [extensionSegment, packagePrefix_eq d hs (b := Extension.isReserved) (by decide +kernel),
    isReserved_eq]

/-- Where the extension alone reserves a word, its name is longer. -/
theorem length_fullClassName_lt
    (hnul : ∀ s ∈ d.options.phpNamespace, '\x00' ∉ s) (hnul' : '\x00' ∉ d.classPrefix)
    (h : (d.options.phpNamespace = none ∧ ∃ s ∈ packageSegments d, isObject s = true) ∨
      (d.classPrefix = [] ∧ ∃ s ∈ d.names, isObject s = true)) :
    (Generator.fullClassName d).length < (Extension.getPhpClassname d).length := by
  -- the segments of the package
  have hseg : ∀ s ∈ packageSegments d, (packageSegment s).length ≤ (extensionSegment d s).length ∧
      (isObject s = true → (packageSegment s).length < (extensionSegment d s).length) := by
    intro s hs
    rw [extensionSegment_eq d hs, packageSegment, List.length_append, List.length_append]
    cases hobj : isObject s with
    | true =>
      rw [reserved_of_isObject hobj]
      simp
    | false => simp
  have hns : (namespaceText d).length ≤ (extensionNamespace d).length ∧
      ((d.options.phpNamespace = none ∧ ∃ s ∈ packageSegments d, isObject s = true) →
        (namespaceText d).length < (extensionNamespace d).length) := by
    rw [namespaceText, extensionNamespace]
    cases hopt : d.options.phpNamespace with
    | some s => simp [cString_of_not_mem (hnul s (by rw [hopt]; rfl))]
    | none =>
      dsimp only
      by_cases hsegs : packageSegments d = []
      · simp [hsegs]
      · rw [flatMap_eq_implode hsegs, flatMap_eq_implode hsegs, List.length_append, List.length_append]
        obtain ⟨hle, hlt⟩ := length_implode_le ['\\'] fun s hs => (hseg s hs).1
        refine ⟨by omega, ?_⟩
        rintro ⟨-, s, hs, hobj⟩
        have := hlt ⟨s, hs, (hseg s hs).2 hobj⟩
        omega
  -- the names of the messages
  have hclass : (className d).length ≤ (extensionClass d).length ∧
      ((d.classPrefix = [] ∧ ∃ s ∈ d.names, isObject s = true) →
        (className d).length < (extensionClass d).length) := by
    have hname : ∀ s ∈ d.names, (namePrefix d s ++ s).length ≤ (extensionPrefix d s ++ s).length ∧
        (d.classPrefix = [] → isObject s = true →
          (namePrefix d s ++ s).length < (extensionPrefix d s ++ s).length) := by
      intro s _
      rw [namePrefix, extensionPrefix, cString_of_not_mem hnul', List.length_append,
        List.length_append, isReserved_eq]
      by_cases hp : d.classPrefix = []
      · have hres : 0 < (reservedPrefix d).length := by
          rw [reservedPrefix]
          split <;> decide
        cases hobj : isObject s with
        | true =>
          rw [reserved_of_isObject hobj]
          simp [hp]
          omega
        | false => simp [hp]
      · simp [hp]
    obtain ⟨hle, hlt⟩ := length_implode_le ['\\'] fun s hs => (hname s hs).1
    refine ⟨hle, ?_⟩
    rintro ⟨hp, s, hs, hobj⟩
    exact hlt ⟨s, hs, (hname s hs).2 hp hobj⟩
  rw [fullClassName_eq, getPhpClassname_eq, List.length_append, List.length_append]
  rcases h with h | h
  · have := hns.2 h
    omega
  · have := hclass.2 h
    omega

/-- Where no such word occurs the extension and the generator agree. -/
theorem getPhpClassname_eq_fullClassName
    (hnul : ∀ s ∈ d.options.phpNamespace, '\x00' ∉ s) (hnul' : '\x00' ∉ d.classPrefix)
    (hpkg : d.options.phpNamespace = none → ∀ s ∈ packageSegments d, isObject s = false)
    (hname : d.classPrefix = [] → ∀ s ∈ d.names, isObject s = false) :
    Extension.getPhpClassname d = Generator.fullClassName d := by
  have hns : extensionNamespace d = namespaceText d := by
    rw [namespaceText, extensionNamespace]
    cases hopt : d.options.phpNamespace with
    | some s => simp [cString_of_not_mem (hnul s (by rw [hopt]; rfl))]
    | none =>
      dsimp only
      rw [List.flatMap_congr]
      intro s hs
      rw [extensionSegment_eq d hs, hpkg hopt s hs, packageSegment, Bool.false_or]
  have hclass : extensionClass d = className d := by
    rw [extensionClass, className]
    congr 1
    refine List.map_congr_left fun s hs => ?_
    rw [namePrefix, extensionPrefix, cString_of_not_mem hnul', isReserved_eq]
    by_cases hp : d.classPrefix = []
    · rw [hname hp s hs, Bool.false_or]
    · rw [if_pos hp, if_pos hp]
  rw [getPhpClassname_eq, fullClassName_eq, hns, hclass]

end Compare

/-- Neither option holds a null character; no segment that a prefix could protect is the word
`object`, in any case; and a class prefix comes with a namespace or without a package. -/
structure NamesAgree (d : Definition) : Prop where
  namespace_nul : ∀ s ∈ d.options.phpNamespace, '\x00' ∉ s
  prefix_nul : '\x00' ∉ d.classPrefix
  package_object : d.options.phpNamespace = none → ∀ s ∈ d.package, toLower s.val ≠ "object".toList
  name_object : d.classPrefix = [] →
    ∀ s ∈ d.containing ++ [d.name], toLower s.val ≠ "object".toList
  prefix_package : d.options.phpNamespace = none → d.package ≠ [] → d.classPrefix = []

theorem isObject_eq_false_iff {l : List Identifier} :
    (∀ s ∈ l.map Subtype.val, isObject s = false) ↔ ∀ i ∈ l, toLower i.val ≠ "object".toList := by
  simp only [isObject, beq_eq_false_iff_ne, List.forall_mem_map]

/-- The three class names are the same exactly under these conditions. -/
theorem classNames_agree_iff (d : Definition) :
    (Extension.getPhpClassname d = Runtime.getFullClassName d ∧
      Runtime.getFullClassName d = Generator.fullClassName d) ↔ NamesAgree d := by
  constructor
  · rintro ⟨hext, hrun⟩
    have hgen : '\x00' ∉ Generator.fullClassName d := by
      rw [← hrun, ← hext]
      exact nul_not_mem_getPhpClassname d
    rw [fullClassName_eq, List.mem_append, not_or] at hgen
    have hns : ∀ s ∈ d.options.phpNamespace, '\x00' ∉ s := by
      intro s hs hmem
      refine hgen.1 ?_
      have hs : d.options.phpNamespace = some s := hs
      rw [namespaceText, hs]
      dsimp only
      rw [if_pos (List.ne_nil_of_mem hmem)]
      exact List.mem_append_left _ hmem
    have hclassPrefix : '\x00' ∉ d.classPrefix := by
      intro hmem
      refine hgen.2 ?_
      obtain ⟨s, ss, hnames⟩ := List.exists_cons_of_ne_nil (names_ne_nil d)
      have hpart : '\x00' ∈ namePrefix d s ++ s := by
        rw [namePrefix, if_pos (List.ne_nil_of_mem hmem)]
        exact List.mem_append_left _ hmem
      rw [className, hnames]
      cases ss with
      | nil => exact hpart
      | cons t ts =>
        rw [List.map_cons, implode_cons (by simp)]
        exact List.mem_append_left _ (List.mem_append_left _ hpart)
    have hlen : ¬ (Generator.fullClassName d).length < (Extension.getPhpClassname d).length := by
      rw [hext, hrun]
      exact lt_irrefl _
    refine ⟨hns, hclassPrefix, fun hnone => ?_, fun hempty => ?_, fun hnone hpkg => ?_⟩
    · rw [← isObject_eq_false_iff]
      intro s hs
      rw [Bool.eq_false_iff]
      exact fun hobj => hlen (length_fullClassName_lt d hns hclassPrefix (.inl ⟨hnone, s, hs, hobj⟩))
    · rw [← isObject_eq_false_iff]
      intro s hs
      rw [Bool.eq_false_iff]
      exact fun hobj => hlen (length_fullClassName_lt d hns hclassPrefix (.inr ⟨hempty, s, hs, hobj⟩))
    · by_contra hne
      exact getFullClassName_ne_fullClassName d hnone hpkg hne hrun
  · intro h
    have hrun := getFullClassName_eq_fullClassName d h.prefix_package
    rw [hrun]
    exact ⟨getPhpClassname_eq_fullClassName d h.namespace_nul h.prefix_nul
      (fun hnone => isObject_eq_false_iff.mpr (h.package_object hnone))
      (fun hempty => isObject_eq_false_iff.mpr (h.name_object hempty)), rfl⟩

/-- The message `Object` of the package `foo`, and a file with the class prefix `X`. -/
theorem classNames_object :
    let object : Definition := ⟨[⟨"foo".toList, by decide⟩], ⟨none, none⟩, [], ⟨"Object".toList, by decide⟩⟩
    let prefixed : Definition :=
      ⟨[⟨"foo".toList, by decide⟩], ⟨none, some ['X']⟩, [], ⟨"Bar".toList, by decide⟩⟩
    Extension.getPhpClassname object = "Foo\\PBObject".toList ∧
      Runtime.getFullClassName object = "Foo\\Object".toList ∧
      Generator.fullClassName object = "Foo\\Object".toList ∧
      Extension.getPhpClassname prefixed = "Foo\\XBar".toList ∧
      Runtime.getFullClassName prefixed = "XFoo\\XXBar".toList ∧
      Generator.fullClassName prefixed = "Foo\\XBar".toList := by
  decide +kernel

end Upb.Php
