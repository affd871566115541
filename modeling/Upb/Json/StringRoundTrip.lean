import Upb.Json.Strings

/-!
# JSON strings come back

What `jsonenc_string` writes for any bytes is a string of JSON that `jsondec_string` reads as these bytes.
Text stays UTF-8 in both directions: ASCII is never a part of another character, so that an escape ends
where a character does.
-/

namespace Upb.Json

open Common Common.Utf8

variable {d d' : DecState} {a ch : UInt8} {c s t x y text str body front esc : List UInt8}

theorem escapeValue_lt {ch c : UInt8} (h : escapeValue ch = some c) : ch.toNat < 128 ∧ c.toNat < 128 := by
  unfold escapeValue at h
  split_ifs at h <;> cases h <;> subst_vars <;> decide

theorem hexNumber_lt {n m : ℕ} {hex : List UInt8} (h : hexNumber n hex = some m) : ∀ b ∈ hex, b.toNat < 128 := by
  induction hex generalizing n with
  | nil => nofun
  | cons ch hex ih =>
    obtain ⟨v, hv, h⟩ := Option.bind_eq_some_iff.mp h
    refine List.forall_mem_cons.mpr ⟨?_, ih h⟩
    unfold hexValue at hv
    split at hv
    · next hdigit =>
      unfold IsDigit at hdigit
      omega
    · split at hv
      · omega
      · split at hv
        · omega
        · cases hv

/-- A `\u` escape is ASCII. -/
theorem UnicodeEscape.lt {ch : Char} (h : UnicodeEscape esc ch) : ∀ b ∈ esc, b.toNat < 128 := by
  cases h with
  | single h => exact hexNumber_lt h.2
  | pair hhex _ hhex' _ _ =>
    rw [List.forall_mem_append, List.forall_mem_append]
    refine ⟨hexNumber_lt hhex.2, ?_, hexNumber_lt hhex'.2⟩
    simp only [List.forall_mem_cons]
    exact ⟨by decide, by decide, nofun⟩

/-- A string starts with a byte that stands for itself or with an escape, which is ASCII. -/
theorem StringBody.cons_cases (h : StringBody (a :: text) str) :
    (a ≠ ascii '\\' ∧ ∃ str', str = a :: str' ∧ StringBody text str') ∨
      ∃ front bytes text' str', (∀ b ∈ front, b.toNat < 128) ∧ IsText bytes ∧ bytes ≠ [] ∧
        (a :: text = front ++ text') ∧ str = bytes ++ str' ∧ front ≠ [] ∧ StringBody text' str' := by
  generalize htext : a :: text = text₀ at h
  cases h with
  | nil => cases htext
  | @cons piece bytes text' str' hpiece hbody =>
    cases hpiece with
    | plain hch =>
      cases htext
      exact .inl ⟨hch.2.1, str', rfl, hbody⟩
    | escape hch =>
      have hlt := escapeValue_lt hch
      refine .inr ⟨_, _, _, _, ?_, isText_of_ascii ?_, List.cons_ne_nil _ _, rfl, rfl,
        List.cons_ne_nil _ _, hbody⟩
      · exact List.forall_mem_cons.mpr ⟨by decide, List.forall_mem_cons.mpr ⟨hlt.1, nofun⟩⟩
      · exact List.forall_mem_cons.mpr ⟨hlt.2, nofun⟩
    | @unicode esc ch hesc =>
      have hone := IsText.cons (isChar_utf8EncodeChar ch) isText_nil
      rw [List.append_nil] at hone
      refine .inr ⟨_, _, _, _, ?_, hone, (isChar_utf8EncodeChar _).ne_nil, rfl, rfl,
        List.cons_ne_nil _ _, hbody⟩
      exact List.forall_mem_cons.mpr ⟨by decide, List.forall_mem_cons.mpr ⟨by decide, hesc.lt⟩⟩

/-- Bytes that are no ASCII stand for themselves. -/
theorem StringBody.of_high (hhigh : ∀ b ∈ c, ¬b.toNat < 128) (h : StringBody (c ++ text) str) :
    ∃ str', str = c ++ str' ∧ StringBody text str' := by
  induction c generalizing str with
  | nil => exact ⟨str, rfl, h⟩
  | cons a c ih =>
    obtain ⟨ha, hhigh⟩ := List.forall_mem_cons.mp hhigh
    rw [List.cons_append] at h
    rcases h.cons_cases with ⟨-, str', rfl, htail⟩ | ⟨front, _, _, _, hfront, -, -, heq, -, hne, -⟩
    · obtain ⟨str'', rfl, htail'⟩ := ih hhigh htail
      exact ⟨str'', rfl, htail'⟩
    · obtain ⟨b, front, rfl⟩ := List.exists_cons_of_ne_nil hne
      rw [List.cons_append, List.cons.injEq] at heq
      obtain ⟨rfl, -⟩ := heq
      exact absurd (hfront _ (.head _)) ha

/-- A string stands for text if it is written as text. -/
theorem StringBody.isText (h : StringBody body str) (hbody : IsText body) : IsText str := by
  induction hn : body.length using Nat.strong_induction_on generalizing body str with
  | _ n ih =>
    subst hn
    cases hbody' : body with
    | nil =>
      subst hbody'
      generalize hnil : ([] : List UInt8) = body at h
      cases h with
      | nil => exact isText_nil
      | cons hpiece _ => exact absurd (List.append_eq_nil_iff.mp hnil.symm).1 hpiece.ne_nil
    | cons a text =>
      obtain ⟨c, s, hc, hs, heq⟩ := hbody.exists_char (by rw [hbody']; simp)
      have hlength : s.length < body.length := by
        have := List.length_pos_iff.mpr hc.ne_nil
        rw [heq, List.length_append]
        omega
      rcases hc.ascii_or_high with ⟨b, rfl, hb⟩ | hhigh
      · rw [heq, List.singleton_append] at h
        rcases h.cons_cases with ⟨-, str', rfl, htail⟩ |
            ⟨front, bytes, text', str', hfront, hbytes, -, hsplit, rfl, hne, htail⟩
        · exact (isText_cons_iff hb).mpr (ih s.length hlength htail hs rfl)
        · rw [List.singleton_append] at heq
          rw [heq, hsplit, isText_ascii_append_iff hfront] at hbody
          refine hbytes.append (ih text'.length ?_ htail hbody rfl)
          have := List.length_pos_iff.mpr hne
          rw [heq, hsplit, List.length_append]
          omega
      · rw [heq] at h
        obtain ⟨str', rfl, htail⟩ := h.of_high hhigh
        exact .cons hc (ih s.length hlength htail hs rfl)

/-- What stands for ASCII is ASCII. -/
theorem Piece.lt {piece bytes : List UInt8} (h : Piece piece bytes) (hlt : ∀ b ∈ bytes, b.toNat < 128) :
    ∀ b ∈ piece, b.toNat < 128 := by
  cases h with
  | plain _ => exact hlt
  | escape h =>
    exact List.forall_mem_cons.mpr ⟨by decide, List.forall_mem_cons.mpr ⟨(escapeValue_lt h).1, nofun⟩⟩
  | unicode h =>
    exact List.forall_mem_cons.mpr ⟨by decide, List.forall_mem_cons.mpr ⟨by decide, h.lt⟩⟩

/-- Control characters are written with four digits. -/
theorem isHex4_formatHex : ∀ n < 32, IsHex4 (formatHex 4 n) n := by
  unfold IsHex4
  decide +kernel

/-- What is written for a byte stands for it. -/
theorem jsonencStringChar_spec (ch : UInt8) :
    (jsonencStringChar ch).error = none ∧ Piece (jsonencStringChar ch).text [ch] := by
  unfold jsonencStringChar
  split
  · next h =>
    subst h
    exact ⟨rfl, .escape (by decide)⟩
  · split
    · next h =>
      subst h
      exact ⟨rfl, .escape (by decide)⟩
    · split
      · next h =>
        subst h
        exact ⟨rfl, .escape (by decide)⟩
      · split
        · next h =>
          subst h
          exact ⟨rfl, .escape (by decide)⟩
        · next hquote =>
          split
          · next h =>
            subst h
            exact ⟨rfl, .escape (by decide)⟩
          · split
            · next h =>
              subst h
              exact ⟨rfl, .escape (by decide)⟩
            · split
              · next h =>
                subst h
                exact ⟨rfl, .escape (by decide)⟩
              · next hbackslash =>
                split
                · next hcontrol =>
                  rw [UInt8.lt_iff_toNat_lt] at hcontrol
                  have hlt : ch.toNat < 32 := hcontrol
                  obtain ⟨c, hc⟩ := exists_char (v := ch.toNat) (.inl (by omega))
                  have hbytes : String.utf8EncodeChar c = [ch] := by
                    unfold String.utf8EncodeChar
                    dsimp only
                    rw [if_pos (by omega), hc, UInt8.ofNat_toNat]
                  have hhex := isHex4_formatHex ch.toNat hlt
                  rw [← hc] at hhex
                  have hpiece := Piece.unicode (.single hhex)
                  rw [hbytes, hc] at hpiece
                  refine ⟨rfl, ?_⟩
                  rwa [text_jsonencPrintf]
                · next hcontrol =>
                  refine ⟨rfl, ?_⟩
                  rw [text_jsonencPutbytes]
                  exact .plain ⟨hquote, hbackslash, hcontrol⟩

/-- What is written between the quotes stands for the bytes. -/
theorem jsonencStringbody_spec (str : List UInt8) :
    (jsonencStringbody str).error = none ∧ StringBody (jsonencStringbody str).text str := by
  induction str with
  | nil => exact ⟨rfl, .nil⟩
  | cons ch str ih =>
    obtain ⟨hok, hpiece⟩ := jsonencStringChar_spec ch
    rw [jsonencStringbody, Encoding.text_append hok]
    exact ⟨Encoding.error_append.mpr ⟨hok, ih.1⟩, .cons hpiece ih.2⟩

theorem text_jsonencStringbody_cons (ch : UInt8) (str : List UInt8) :
    (jsonencStringbody (ch :: str)).text = (jsonencStringChar ch).text ++ (jsonencStringbody str).text :=
  Encoding.text_append (jsonencStringChar_spec ch).1 _

/-- Bytes that are no ASCII are written as they are. -/
theorem text_jsonencStringbody_high (hhigh : ∀ b ∈ c, ¬b.toNat < 128) (str : List UInt8) :
    (jsonencStringbody (c ++ str)).text = c ++ (jsonencStringbody str).text := by
  induction c with
  | nil => rfl
  | cons ch c ih =>
    obtain ⟨hch, hhigh⟩ := List.forall_mem_cons.mp hhigh
    have hchar : (jsonencStringChar ch).text = [ch] := by
      have hne : ∀ a : UInt8, a.toNat < 128 → ch ≠ a := by
        rintro a ha rfl
        exact hch ha
      have hcontrol : ¬ch < 0x20 := by
        rw [UInt8.lt_iff_toNat_lt]
        intro hlt
        exact hch (Nat.lt_trans hlt (by decide))
      unfold jsonencStringChar
      rw [if_neg (hne _ (by decide)), if_neg (hne _ (by decide)), if_neg (hne _ (by decide)),
        if_neg (hne _ (by decide)), if_neg (hne _ (by decide)), if_neg (hne _ (by decide)),
        if_neg (hne _ (by decide)), if_neg hcontrol, text_jsonencPutbytes]
    rw [List.cons_append, text_jsonencStringbody_cons, hchar, ih hhigh]
    rfl

/-- UTF-8 is written as UTF-8. -/
theorem isText_jsonencStringbody (h : IsText str) : IsText (jsonencStringbody str).text := by
  obtain ⟨chars, rfl⟩ := h
  induction chars with
  | nil => exact isText_nil
  | cons ch chars ih =>
    have hc := isChar_utf8EncodeChar ch
    rw [List.flatMap_cons]
    rcases hc.ascii_or_high with ⟨a, ha, hlt⟩ | hhigh
    · rw [ha, List.singleton_append, text_jsonencStringbody_cons]
      refine (isText_ascii_append_iff ((jsonencStringChar_spec a).2.lt ?_)).mpr ih
      exact List.forall_mem_cons.mpr ⟨hlt, nofun⟩
    · rw [text_jsonencStringbody_high hhigh]
      exact .cons hc ih

/-- The text of a string. -/
theorem jsonencString_spec (str : List UInt8) : (jsonencString str).error = none ∧
    (jsonencString str).text = ascii '"' :: ((jsonencStringbody str).text ++ [ascii '"']) := by
  have hbody := (jsonencStringbody_spec str).1
  have hfront : (jsonencPutstr ['"'] ++ jsonencStringbody str).error = none :=
    Encoding.error_append.mpr ⟨rfl, hbody⟩
  refine ⟨Encoding.error_append.mpr ⟨hfront, rfl⟩, ?_⟩
  rw [jsonencString, Encoding.text_append hfront, Encoding.text_append rfl]
  rfl

/-- A string between quotes is UTF-8 if what is between them is. -/
theorem isText_quoted_iff : IsText (ascii '"' :: (body ++ [ascii '"'])) ↔ IsText body := by
  have hquote : (ascii '"').toNat < 128 := by decide
  rw [isText_cons_iff hquote]
  refine ⟨fun h => (IsText.split hquote h).1, fun h => h.append ?_⟩
  exact (isText_cons_iff hquote).mpr isText_nil

/-- Every byte string comes back from what is written for it, whatever follows; and the written text is
UTF-8 if and only if the bytes are. -/
theorem jsonString_roundTrip (str rest : List UInt8) (line column : ℕ) (depth : ℤ) (isFirst empty : Bool) :
    (jsonencString str).error = none ∧
      jsondecString ⟨(jsonencString str).text ++ rest, line, column, depth, isFirst, empty⟩ =
        .ok (str, ⟨rest, line, column + (jsonencString str).text.length, depth, isFirst, empty⟩) ∧
      (IsText (jsonencString str).text ↔ IsText str) := by
  obtain ⟨hok, htext⟩ := jsonencString_spec str
  have hbody := (jsonencStringbody_spec str).2
  refine ⟨hok, ?_, ?_⟩
  · have hrest : (jsonencString str).text ++ rest =
        ascii '"' :: ((jsonencStringbody str).text ++ ascii '"' :: rest) := by
      rw [htext, List.cons_append, List.append_assoc]
      rfl
    have hread := jsondecString_of_body
      (d := ⟨(jsonencString str).text ++ rest, line, column, depth, isFirst, empty⟩) hbody hrest
    have hlength : (jsonencString str).text.length = (jsonencStringbody str).text.length + 2 := by
      rw [htext]
      simp
    rw [hread, ← hlength]
    unfold DecState.skip
    rw [List.drop_left]
  · rw [htext, isText_quoted_iff]
    exact ⟨hbody.isText, isText_jsonencStringbody⟩

/-- Strings that are read from UTF-8 are UTF-8, and so is what follows them. -/
theorem jsondecString_isText (h : jsondecString d = .ok (str, d')) (hd : IsText d.rest) :
    IsText str ∧ IsText d'.rest := by
  obtain ⟨ws, body, hws, hbody, hrest⟩ := body_of_jsondecString h
  have hquote : (ascii '"').toNat < 128 := by decide
  rw [hrest] at hd
  obtain ⟨-, hd⟩ := hd.split hquote
  obtain ⟨hbodyText, hd⟩ := hd.split hquote
  exact ⟨hbody.isText hbodyText, hd⟩

theorem jsondecString_isText_eAcute : IsText [0xC3, 0xA9] ∧ IsText [] := by
  have hread : jsondecString ⟨['"', '\\', 'u', '0', '0', 'e', '9', '"'].map ascii, 1, 0, 64, false, false⟩ =
      .ok ([0xC3, 0xA9], ⟨[], 1, 8, 64, false, false⟩) := rfl
  exact jsondecString_isText hread (isText_of_ascii (by decide +kernel))

end Upb.Json
