import Mathlib.Data.List.TakeWhile
import Upb.Common.Except
import Upb.Json.StringRoundTrip

/-!
# Field masks in JSON

`jsonenc_fieldmask` writes the paths of a mask in lower camel case between two quotes, with commas between
them; `jsondec_fieldmask` reads them. The paths are written as they are, without the escapes of a JSON
string, and a reader knows their number by the commas: a mask comes back exactly if no path has a
character that means something else there, and if the last path is not empty.
-/

namespace Upb.Json

open Common

/-- An upper-case letter. -/
def isUpper (ch : UInt8) : Bool := 65 ≤ ch.toNat ∧ ch.toNat ≤ 90

/-- A lower-case letter. -/
def isLower (ch : UInt8) : Bool := 97 ≤ ch.toNat ∧ ch.toNat ≤ 122

/-- `jsonenc_fieldpath`. -/
def jsonencFieldpath : List UInt8 → Encoding
  | [] => .empty
  | ch :: path =>
    if isUpper ch then jsonencErr "Field mask element may not have upper-case letter."
    else if ch = ascii '_' then
      match path with
      | [] => jsonencErr "Underscore must be followed by a lowercase letter."
      | next :: path =>
        if isLower next then jsonencPutbytes [next - 32] ++ jsonencFieldpath path
        else jsonencErr "Underscore must be followed by a lowercase letter."
    else jsonencPutbytes [ch] ++ jsonencFieldpath path

/-- The loop of `jsonenc_fieldmask`. -/
def jsonencPaths : List (List UInt8) → Bool → Encoding
  | [], _ => .empty
  | path :: paths, first => jsonencPutsep [','] first ++ jsonencFieldpath path ++ jsonencPaths paths false

/-- `jsonenc_fieldmask`, of the paths of a mask. -/
def jsonencFieldmask (paths : List (List UInt8)) : Encoding :=
  jsonencPutstr ['"'] ++ jsonencPaths paths true ++ jsonencPutstr ['"']

/-- `jsondec_mask`: the characters that it writes. -/
def jsondecMask : List UInt8 → Except String (List UInt8)
  | [] => .ok []
  | ch :: buf =>
    if isUpper ch then (jsondecMask buf).map fun out => ascii '_' :: (ch + 32) :: out
    else if ch = ascii '_' then .error "field mask may not contain '_'"
    else (jsondecMask buf).map fun out => ch :: out

/-- The size that `jsondec_mask` allocates and returns. -/
def maskSize (buf : List UInt8) : ℕ := buf.length + buf.countP isUpper

/-- The loop of `jsondec_fieldmask`, with `memchr`: the paths that are appended. -/
def jsondecPaths (str : List UInt8) : Except String (List (List UInt8)) :=
  if str = [] then .ok []
  else do
    let elem := str.takeWhile (· ≠ ascii ',')
    let path ← jsondecMask elem
    let paths ← jsondecPaths (str.drop (elem.length + 1))
    .ok (path :: paths)
termination_by str.length
decreasing_by
  rw [List.length_drop]
  have := List.length_pos_iff.mpr ‹_›
  omega

/-- `jsondec_fieldmask`, of a mask that has some paths already. -/
def jsondecFieldmask (arr : List (List UInt8)) : Jsondec (List (List UInt8)) := do
  let str ← jsondecString
  let paths ← jsondecLift (jsondecPaths str)
  return arr ++ paths

variable {path path' text str : List UInt8} {paths : List (List UInt8)} {ch : UInt8}

/-- What `jsondec_mask` writes fills what it allocates. -/
theorem length_jsondecMask (h : jsondecMask text = .ok path) : path.length = maskSize text := by
  induction text generalizing path with
  | nil =>
    cases h
    rfl
  | cons ch text ih =>
    rw [jsondecMask] at h
    unfold maskSize at ih ⊢
    rw [List.length_cons, List.countP_cons]
    split at h
    · next hupper =>
      obtain ⟨out, hout, rfl⟩ := map_eq_ok.mp h
      rw [if_pos hupper, List.length_cons, List.length_cons, ih hout]
      omega
    · next hupper =>
      split at h
      · cases h
      · obtain ⟨out, hout, rfl⟩ := map_eq_ok.mp h
        rw [if_neg hupper, List.length_cons, ih hout]
        omega

theorem isUpper_sub (h : isLower ch = true) : isUpper (ch - 32) = true ∧ ch - 32 + 32 = ch := by
  have hlower : 97 ≤ ch.toNat ∧ ch.toNat ≤ 122 := of_decide_eq_true h
  have hsub : (ch - 32).toNat = ch.toNat - 32 := by
    rw [UInt8.toNat_sub_of_le]
    · rfl
    · rw [UInt8.le_iff_toNat_le]
      change 32 ≤ _
      omega
  refine ⟨decide_eq_true (by omega), ?_⟩
  rw [UInt8.sub_add_cancel]

theorem isLower_add (h : isUpper ch = true) : isLower (ch + 32) = true ∧ ch + 32 - 32 = ch := by
  have hupper : 65 ≤ ch.toNat ∧ ch.toNat ≤ 90 := of_decide_eq_true h
  have hadd : (ch + 32).toNat = ch.toNat + 32 := by
    rw [UInt8.toNat_add]
    change (ch.toNat + 32) % 256 = _
    omega
  refine ⟨decide_eq_true (by omega), ?_⟩
  rw [UInt8.add_sub_cancel]

/-- A path that is written is read back. -/
theorem jsondecMask_fieldpath (h : (jsonencFieldpath path).error = none) :
    jsondecMask (jsonencFieldpath path).text = .ok path := by
  fun_induction jsonencFieldpath path with
  | case1 => rfl
  | case2 ch path hupper => cases h
  | case3 => cases h
  | case4 next path hlower hupper ih =>
    obtain ⟨-, hpath⟩ := Encoding.error_append.mp h
    obtain ⟨hup, hadd⟩ := isUpper_sub hlower
    rw [Encoding.text_append rfl, text_jsonencPutbytes, List.singleton_append, jsondecMask, if_pos hup,
      ih hpath, hadd]
    rfl
  | case5 => cases h
  | case6 ch path hupper hunderscore ih =>
    obtain ⟨-, hpath⟩ := Encoding.error_append.mp h
    rw [Encoding.text_append rfl, text_jsonencPutbytes, List.singleton_append, jsondecMask, if_neg hupper,
      if_neg hunderscore, ih hpath]
    rfl

/-- A path that is read is written back. -/
theorem fieldpath_jsondecMask (h : jsondecMask text = .ok path) :
    (jsonencFieldpath path).error = none ∧ (jsonencFieldpath path).text = text := by
  induction text generalizing path with
  | nil =>
    cases h
    exact ⟨rfl, rfl⟩
  | cons ch text ih =>
    rw [jsondecMask] at h
    split at h
    · next hupper =>
      obtain ⟨out, hout, rfl⟩ := map_eq_ok.mp h
      obtain ⟨hok, htext⟩ := ih hout
      obtain ⟨hlower, hsub⟩ := isLower_add hupper
      rw [jsonencFieldpath, if_neg (by decide), if_pos rfl, if_pos hlower, hsub]
      refine ⟨Encoding.error_append.mpr ⟨rfl, hok⟩, ?_⟩
      rw [Encoding.text_append rfl, text_jsonencPutbytes, htext]
      rfl
    · next hupper =>
      split at h
      · cases h
      · next hunderscore =>
        obtain ⟨out, hout, rfl⟩ := map_eq_ok.mp h
        obtain ⟨hok, htext⟩ := ih hout
        unfold jsonencFieldpath
        rw [if_neg hupper, if_neg hunderscore]
        refine ⟨Encoding.error_append.mpr ⟨rfl, hok⟩, ?_⟩
        rw [Encoding.text_append rfl, text_jsonencPutbytes, htext]
        rfl

/-- What holds of letters and underscores holds of a path if and only if it does of what is written for
it. -/
theorem forall_mem_jsondecMask {P : UInt8 → Prop} (hunderscore : P (ascii '_'))
    (hletter : ∀ ch, isUpper ch = true ∨ isLower ch = true → P ch) (h : jsondecMask text = .ok path) :
    (∀ ch ∈ text, P ch) ↔ ∀ ch ∈ path, P ch := by
  induction text generalizing path with
  | nil =>
    cases h
    exact Iff.rfl
  | cons ch text ih =>
    rw [jsondecMask] at h
    split at h
    · next hupper =>
      obtain ⟨out, hout, rfl⟩ := map_eq_ok.mp h
      have hch := hletter ch (.inl hupper)
      have hlower := hletter (ch + 32) (.inr (isLower_add hupper).1)
      rw [List.forall_mem_cons, List.forall_mem_cons, List.forall_mem_cons, ih hout]
      tauto
    · split at h
      · cases h
      · obtain ⟨out, hout, rfl⟩ := map_eq_ok.mp h
        rw [List.forall_mem_cons, List.forall_mem_cons, ih hout]

theorem isUpper_or_isLower (h : isUpper ch = true ∨ isLower ch = true) :
    65 ≤ ch.toNat ∧ ch.toNat ≤ 90 ∨ 97 ≤ ch.toNat ∧ ch.toNat ≤ 122 :=
  h.imp of_decide_eq_true of_decide_eq_true

theorem ne_of_letter (h : isUpper ch = true ∨ isLower ch = true) {c : UInt8}
    (hc : ¬(65 ≤ c.toNat ∧ c.toNat ≤ 90) ∧ ¬(97 ≤ c.toNat ∧ c.toNat ≤ 122)) : ch ≠ c := by
  rintro rfl
  have := isUpper_or_isLower h
  omega

theorem comma_jsondecMask (h : jsondecMask text = .ok path) : ascii ',' ∉ text ↔ ascii ',' ∉ path := by
  have hiff := forall_mem_jsondecMask (P := fun ch => ch ≠ ascii ',') (by decide)
    (fun ch hch => ne_of_letter hch (by decide)) h
  have hnot : ∀ s : List UInt8, ascii ',' ∉ s ↔ ∀ ch ∈ s, ch ≠ ascii ',' :=
    fun s => ⟨fun hs ch hch heq => hs (heq ▸ hch), fun hs hmem => hs _ hmem rfl⟩
  rw [hnot, hnot, hiff]

theorem plainText_jsondecMask (h : jsondecMask text = .ok path) : PlainText text ↔ PlainText path := by
  refine forall_mem_jsondecMask (P := fun ch => ch ≠ ascii '"' ∧ ch ≠ ascii '\\' ∧ ¬ch < 0x20)
    (by decide) (fun ch hch => ⟨ne_of_letter hch (by decide), ne_of_letter hch (by decide), ?_⟩) h
  have hletter := isUpper_or_isLower hch
  rw [UInt8.lt_iff_toNat_lt]
  change ¬ch.toNat < 32
  omega

theorem eq_nil_jsondecMask (h : jsondecMask text = .ok path) : text = [] ↔ path = [] := by
  cases text with
  | nil =>
    cases h
    exact Iff.rfl
  | cons ch text =>
    rw [jsondecMask] at h
    refine ⟨nofun, ?_⟩
    rintro rfl
    split at h
    · obtain ⟨out, -, hout⟩ := map_eq_ok.mp h
      cases hout
    · split at h
      · cases h
      · obtain ⟨out, -, hout⟩ := map_eq_ok.mp h
        cases hout

/-- Texts behind each other with commas between them; there is one in front unless the first comes
first. -/
def joined : List (List UInt8) → Bool → List UInt8
  | [], _ => []
  | text :: texts, first => (if first then [] else [ascii ',']) ++ text ++ joined texts false

/-- The text that is written for a path. -/
abbrev camel (path : List UInt8) : List UInt8 := (jsonencFieldpath path).text

theorem jsonencPutsep_spec (first : Bool) : (jsonencPutsep [','] first).error = none ∧
    (jsonencPutsep [','] first).text = if first then [] else [ascii ','] := by
  cases first with
  | false => exact ⟨rfl, rfl⟩
  | true => exact ⟨rfl, rfl⟩

theorem jsonencPaths_error (first : Bool) : (jsonencPaths paths first).error = none ↔
    ∀ path ∈ paths, (jsonencFieldpath path).error = none := by
  induction paths generalizing first with
  | nil => exact ⟨fun _ => nofun, fun _ => rfl⟩
  | cons path paths ih =>
    rw [jsonencPaths, Encoding.error_append, Encoding.error_append, List.forall_mem_cons, ih]
    exact ⟨fun h => ⟨h.1.2, h.2⟩, fun h => ⟨⟨(jsonencPutsep_spec first).1, h.1⟩, h.2⟩⟩

theorem jsonencPaths_text {first : Bool} (h : ∀ path ∈ paths, (jsonencFieldpath path).error = none) :
    (jsonencPaths paths first).text = joined (paths.map camel) first := by
  induction paths generalizing first with
  | nil => rfl
  | cons path paths ih =>
    obtain ⟨hpath, hpaths⟩ := List.forall_mem_cons.mp h
    obtain ⟨hsep, htext⟩ := jsonencPutsep_spec first
    rw [jsonencPaths, Encoding.text_append (Encoding.error_append.mpr ⟨hsep, hpath⟩),
      Encoding.text_append hsep, htext, ih hpaths]
    rfl

theorem jsonencFieldmask_error : (jsonencFieldmask paths).error = none ↔
    ∀ path ∈ paths, (jsonencFieldpath path).error = none := by
  rw [jsonencFieldmask, Encoding.error_append, Encoding.error_append, jsonencPaths_error]
  exact ⟨fun h => h.1.2, fun h => ⟨⟨rfl, h⟩, rfl⟩⟩

theorem jsonencFieldmask_text (h : ∀ path ∈ paths, (jsonencFieldpath path).error = none) :
    (jsonencFieldmask paths).text = ascii '"' :: (joined (paths.map camel) true ++ [ascii '"']) := by
  have hpaths := (jsonencPaths_error true).mpr h
  rw [jsonencFieldmask, Encoding.text_append (Encoding.error_append.mpr ⟨rfl, hpaths⟩),
    Encoding.text_append rfl, jsonencPaths_text h]
  rfl

/-- A text without a comma is one path. -/
theorem jsondecPaths_of_not_mem (hne : text ≠ []) (h : ascii ',' ∉ text) :
    jsondecPaths text = (jsondecMask text).map fun path => [path] := by
  have hall : text.takeWhile (· ≠ ascii ',') = text := by
    rw [List.takeWhile_eq_self_iff]
    intro ch hch
    rw [decide_eq_true_iff]
    rintro rfl
    exact h hch
  rw [jsondecPaths, if_neg hne]
  simp only [hall]
  rw [List.drop_eq_nil_of_le (by omega), jsondecPaths, if_pos rfl]
  cases jsondecMask text <;> rfl

/-- A path ends at the first comma. -/
theorem jsondecPaths_of_comma {text rest : List UInt8} (h : ascii ',' ∉ text) :
    jsondecPaths (text ++ ascii ',' :: rest) = (do
      let path ← jsondecMask text
      let paths ← jsondecPaths rest
      .ok (path :: paths)) := by
  have htake : (text ++ ascii ',' :: rest).takeWhile (· ≠ ascii ',') = text := by
    rw [List.takeWhile_append_of_pos fun ch hch => by
      rw [decide_eq_true_iff]
      rintro rfl
      exact h hch]
    simp
  have hdrop : (text ++ ascii ',' :: rest).drop (text.length + 1) = rest := by
    rw [List.drop_append]
    simp
  rw [jsondecPaths, if_neg (by simp)]
  simp only [htake, hdrop]

theorem joined_cons_cons (text text' : List UInt8) (texts : List (List UInt8)) :
    joined (text :: text' :: texts) true = text ++ ascii ',' :: joined (text' :: texts) true := by
  simp [joined]

theorem joined_singleton (text : List UInt8) : joined [text] true = text := by
  simp [joined]

/-- The paths are read if they have no commas and the last one is there. -/
theorem jsondecPaths_joined (h : ∀ path ∈ paths, (jsonencFieldpath path).error = none ∧ ascii ',' ∉ path)
    (hlast : paths.getLast? ≠ some []) : jsondecPaths (joined (paths.map camel) true) = .ok paths := by
  induction paths with
  | nil => rw [List.map_nil, joined, jsondecPaths, if_pos rfl]
  | cons path paths ih =>
    obtain ⟨⟨hok, hcomma⟩, hpaths⟩ := List.forall_mem_cons.mp h
    have hread := jsondecMask_fieldpath hok
    have hcamel : ascii ',' ∉ camel path := (comma_jsondecMask hread).mpr hcomma
    cases paths with
    | nil =>
      have hne : camel path ≠ [] := by
        rw [ne_eq, eq_nil_jsondecMask hread]
        rintro rfl
        exact hlast rfl
      rw [List.map_singleton, joined_singleton, jsondecPaths_of_not_mem hne hcamel, hread]
      rfl
    | cons path' paths =>
      have hrest := ih hpaths (by simpa using hlast)
      rw [List.map_cons] at hrest
      rw [List.map_cons, List.map_cons, joined_cons_cons, jsondecPaths_of_comma hcamel, hread, hrest]
      rfl

/-- What is read as paths is what is written for them, perhaps with a comma behind it. -/
theorem joined_of_jsondecPaths (h : jsondecPaths str = .ok paths) :
    (∀ path ∈ paths, ascii ',' ∉ path) ∧ (paths = [] ↔ str = []) ∧
      (str = joined (paths.map camel) true ∧ paths.getLast? ≠ some [] ∨
        str = joined (paths.map camel) true ++ [ascii ',']) := by
  induction hn : str.length using Nat.strong_induction_on generalizing str paths with
  | _ n ih =>
    subst hn
    by_cases hne : str = []
    · subst hne
      rw [jsondecPaths, if_pos rfl] at h
      cases h
      exact ⟨nofun, ⟨fun _ => rfl, fun _ => rfl⟩, .inl ⟨rfl, nofun⟩⟩
    · by_cases hmem : ascii ',' ∈ str
      · obtain ⟨text, rest, rfl, hcomma⟩ := List.eq_append_cons_of_mem hmem
        rw [jsondecPaths_of_comma hcomma] at h
        obtain ⟨path, hpath, h⟩ := bind_eq_ok.mp h
        obtain ⟨paths, hpaths, h⟩ := bind_eq_ok.mp h
        cases h
        obtain ⟨-, hcamel⟩ := fieldpath_jsondecMask hpath
        obtain ⟨hcommas, hnil, hjoined⟩ := ih rest.length (by simp; omega) hpaths rfl
        refine ⟨List.forall_mem_cons.mpr ⟨(comma_jsondecMask hpath).mp hcomma, hcommas⟩,
          ⟨nofun, fun h => absurd h hne⟩, ?_⟩
        cases paths with
        | nil =>
          obtain rfl := hnil.mp rfl
          rw [List.map_singleton, joined_singleton, camel, hcamel]
          exact .inr rfl
        | cons path' paths =>
          rw [List.map_cons, List.map_cons, joined_cons_cons, camel, hcamel, List.append_assoc,
            List.cons_append, List.append_right_inj, List.append_right_inj, List.cons.injEq, List.cons.injEq,
            ← List.map_cons, List.getLast?_cons_cons]
          exact hjoined.imp (fun h => ⟨⟨rfl, h.1⟩, h.2⟩) fun h => ⟨rfl, h⟩
      · rw [jsondecPaths_of_not_mem hne hmem] at h
        obtain ⟨path, hpath, rfl⟩ := map_eq_ok.mp h
        obtain ⟨-, hcamel⟩ := fieldpath_jsondecMask hpath
        refine ⟨List.forall_mem_cons.mpr ⟨(comma_jsondecMask hpath).mp hmem, nofun⟩,
          ⟨nofun, fun h => absurd h hne⟩, .inl ⟨?_, ?_⟩⟩
        · rw [List.map_singleton, joined_singleton, camel, hcamel]
        · rw [List.getLast?_singleton, ne_eq, Option.some.injEq, ← eq_nil_jsondecMask hpath]
          exact hne

/-- A piece is longer than what it stands for, unless it stands for itself. -/
theorem Piece.length_le {piece bytes : List UInt8} (h : Piece piece bytes) :
    piece = bytes ∧ PlainText piece ∨ bytes.length < piece.length := by
  cases h with
  | plain h => exact .inl ⟨rfl, .cons h plainText_nil⟩
  | escape h => exact .inr (by simp)
  | @unicode text ch h =>
    right
    have hbytes : (String.utf8EncodeChar ch).length ≤ 4 := by
      rw [String.length_utf8EncodeChar]
      exact Char.utf8Size_le_four ch
    have htext : 4 ≤ text.length := by
      cases h with
      | single h => exact Nat.le_of_eq h.1.symm
      | pair h _ _ _ _ =>
        rw [List.length_append, h.1]
        omega
    rw [List.length_cons, List.length_cons]
    omega

/-- A text that stands for no less than itself stands for itself. -/
theorem StringBody.length_le {out : List UInt8} (h : StringBody text out) :
    text = out ∧ PlainText text ∨ out.length < text.length := by
  induction h with
  | nil => exact .inl ⟨rfl, plainText_nil⟩
  | cons hpiece _ ih =>
    rw [List.length_append, List.length_append]
    rcases hpiece.length_le with ⟨rfl, hplain⟩ | hlt
    · rcases ih with ⟨rfl, hplain'⟩ | hlt
      · exact .inl ⟨rfl, hplain.append hplain'⟩
      · exact .inr (by omega)
    · rcases ih with ⟨rfl, -⟩ | hlt'
      · exact .inr (by omega)
      · exact .inr (by omega)

/-- A text of JSON strings is read as what it is. -/
theorem joined_plainText (h : ∀ path ∈ paths, (jsonencFieldpath path).error = none) (first : Bool) :
    PlainText (joined (paths.map camel) first) ↔ ∀ path ∈ paths, PlainText path := by
  have happend : ∀ s t : List UInt8, PlainText (s ++ t) ↔ PlainText s ∧ PlainText t :=
    fun s t => List.forall_mem_append
  induction paths generalizing first with
  | nil => exact ⟨fun _ => nofun, fun _ => plainText_nil⟩
  | cons path paths ih =>
    obtain ⟨hok, hpaths⟩ := List.forall_mem_cons.mp h
    have hsep : PlainText (if first then [] else [ascii ',']) := by
      cases first with
      | true => exact plainText_nil
      | false => exact .cons (by decide) plainText_nil
    have hpath := plainText_jsondecMask (jsondecMask_fieldpath hok)
    rw [List.map_cons, joined, happend, happend, List.forall_mem_cons]
    exact ⟨fun h => ⟨hpath.mp h.1.2, (ih hpaths false).mp h.2⟩,
      fun h => ⟨⟨hsep, hpath.mpr h.1⟩, (ih hpaths false).mpr h.2⟩⟩

theorem jsondecLift_eq_ok {α : Type} {x : Except String α} {a : α} {d d' : DecState}
    (h : jsondecLift x d = .ok (a, d')) : x = .ok a ∧ d = d' := by
  cases x with
  | ok b =>
    cases h
    exact ⟨rfl, rfl⟩
  | error msg => cases h

/-- A mask that can be written comes back, from the whole of what is written and nothing else, if and only
if no path has a comma, a quote, a backslash or a control character and the last path is not empty. -/
theorem fieldmask_roundTrip_iff (paths : List (List UInt8)) (rest : List UInt8) (line column : ℕ) (depth : ℤ)
    (isFirst empty : Bool) (hok : (jsonencFieldmask paths).error = none) :
    jsondecFieldmask [] ⟨(jsonencFieldmask paths).text ++ rest, line, column, depth, isFirst, empty⟩ =
        .ok (paths, ⟨rest, line, column + (jsonencFieldmask paths).text.length, depth, isFirst, empty⟩) ↔
      (∀ path ∈ paths, PlainText path ∧ ascii ',' ∉ path) ∧ paths.getLast? ≠ some [] := by
  have hpaths := jsonencFieldmask_error.mp hok
  have htext := jsonencFieldmask_text hpaths
  have hrest : (jsonencFieldmask paths).text ++ rest =
      ascii '"' :: (joined (paths.map camel) true ++ ascii '"' :: rest) := by
    rw [htext, List.cons_append, List.append_assoc]
    rfl
  constructor
  · intro h
    rw [jsondecFieldmask, Prog.bind_eq_ok] at h
    obtain ⟨str, d1, hstr, h⟩ := h
    rw [Prog.bind_eq_ok] at h
    obtain ⟨read, d2, hlift, h⟩ := h
    obtain ⟨hread, hd⟩ := Prod.mk.inj (Except.ok.inj h)
    rw [List.nil_append] at hread
    subst hread
    obtain ⟨hdecode, rfl⟩ := jsondecLift_eq_ok hlift
    obtain ⟨ws, body, hws, hbody, heq⟩ := body_of_jsondecString hstr
    rw [hd] at heq
    dsimp only at heq
    rw [hrest] at heq
    obtain rfl : ws = [] := by
      cases ws with
      | nil => rfl
      | cons ch ws =>
        rw [List.cons_append, List.cons.injEq] at heq
        exact absurd (heq.1 ▸ hws ch (.head _)) not_isWs_quote
    obtain ⟨-, heq⟩ := List.cons.inj heq
    have hbodyEq : joined (read.map camel) true = body := List.append_cancel_right heq
    subst hbodyEq
    obtain ⟨hcommas, -, hjoined⟩ := joined_of_jsondecPaths hdecode
    rcases hbody.length_le with ⟨hself, hplain⟩ | hlt
    · have hgood := (joined_plainText hpaths true).mp hplain
      refine ⟨fun path hpath => ⟨hgood path hpath, hcommas path hpath⟩, ?_⟩
      rcases hjoined with hjoined | hjoined
      · exact hjoined.2
      · rw [← hself] at hjoined
        have := congrArg List.length hjoined
        rw [List.length_append, List.length_singleton] at this
        omega
    · rcases hjoined with ⟨hjoined, -⟩ | hjoined
      · rw [hjoined] at hlt
        exact absurd hlt (Nat.lt_irrefl _)
      · rw [hjoined, List.length_append] at hlt
        omega
  · rintro ⟨hgood, hlast⟩
    have hplain := (joined_plainText hpaths true).mpr fun path hpath => (hgood path hpath).1
    have hread := jsondecPaths_joined (fun path hpath => ⟨hpaths path hpath, (hgood path hpath).2⟩) hlast
    have hstr := jsondecString_plain
      (d := ⟨(jsonencFieldmask paths).text ++ rest, line, column, depth, isFirst, empty⟩) hplain hrest
    have hlength : (jsonencFieldmask paths).text.length = (joined (paths.map camel) true).length + 2 := by
      rw [htext]
      simp
    rw [jsondecFieldmask, Prog.bind_of_ok hstr, hread, ← hlength]
    unfold DecState.skip
    rw [List.drop_left]
    rfl

theorem fieldmask_roundTrip_iff_snake :
    jsondecFieldmask [] ⟨(jsonencFieldmask [['a', '_', 'b'].map ascii]).text ++ [], 1, 0, 64, true, false⟩ =
        .ok ([['a', '_', 'b'].map ascii],
          ⟨[], 1, 0 + (jsonencFieldmask [['a', '_', 'b'].map ascii]).text.length, 64, true, false⟩) ↔
      (∀ path ∈ [['a', '_', 'b'].map ascii], PlainText path ∧ ascii ',' ∉ path) ∧
        [['a', '_', 'b'].map ascii].getLast? ≠ some [] :=
  fieldmask_roundTrip_iff _ [] 1 0 64 true false rfl

end Upb.Json
