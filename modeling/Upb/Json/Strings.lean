import Upb.Common.Utf8
import Upb.Json.Decoder
import Upb.Json.Encoder

/-!
# JSON strings

`jsonenc_string` of `upb/json/encode.c`, and the strings of JSON as a grammar of their own: pieces between
two quotes, each of which is a byte, an escape or a `\u` escape. `jsondec_string` reads exactly this
grammar, what `jsonenc_string` writes is in it, and both keep UTF-8.
-/

namespace Upb.Json

open Common Common.Utf8

/-- The conversion `%0Nx` of a number that is not negative. -/
def formatHex (width n : ℕ) : List UInt8 :=
  let digits := (Nat.toDigits 16 n).map ascii
  List.replicate (width - digits.length) (ascii '0') ++ digits

/-- The body of the loop of `jsonenc_stringbody`. -/
def jsonencStringChar (ch : UInt8) : Encoding :=
  if ch = ascii '\n' then jsonencPutstr ['\\', 'n']
  else if ch = ascii '\r' then jsonencPutstr ['\\', 'r']
  else if ch = ascii '\t' then jsonencPutstr ['\\', 't']
  else if ch = ascii '"' then jsonencPutstr ['\\', '"']
  else if ch = 12 then jsonencPutstr ['\\', 'f']
  else if ch = 8 then jsonencPutstr ['\\', 'b']
  else if ch = ascii '\\' then jsonencPutstr ['\\', '\\']
  else if ch < 0x20 then jsonencPrintf (['\\', 'u'].map ascii ++ formatHex 4 ch.toNat)
  else jsonencPutbytes [ch]

/-- `jsonenc_stringbody`. -/
def jsonencStringbody : List UInt8 → Encoding
  | [] => .empty
  | ch :: str => jsonencStringChar ch ++ jsonencStringbody str

/-- `jsonenc_string`. -/
def jsonencString (str : List UInt8) : Encoding :=
  jsonencPutstr ['"'] ++ jsonencStringbody str ++ jsonencPutstr ['"']

/-- White space of JSON. -/
def IsWs (ch : UInt8) : Prop := ch = ascii ' ' ∨ ch = ascii '\t' ∨ ch = ascii '\n' ∨ ch = ascii '\r'

/-- The value of a hexadecimal digit. -/
def hexValue (ch : UInt8) : Option ℕ :=
  if IsDigit ch then some (ch.toNat - 48)
  else if 97 ≤ ch.toNat ∧ ch.toNat ≤ 102 then some (ch.toNat - 97 + 10)
  else if 65 ≤ ch.toNat ∧ ch.toNat ≤ 70 then some (ch.toNat - 65 + 10)
  else none

/-- The number that hexadecimal digits denote, with what the digits in front of them denote. -/
def hexNumber : ℕ → List UInt8 → Option ℕ
  | front, [] => some front
  | front, ch :: hex => (hexValue ch).bind fun v => hexNumber (front * 16 + v) hex

/-- Four hexadecimal digits and their number. -/
def IsHex4 (hex : List UInt8) (n : ℕ) : Prop := hex.length = 4 ∧ hexNumber 0 hex = some n

/-- What stands for a character behind `\u`: its number, or the two surrogates of it. -/
inductive UnicodeEscape : List UInt8 → Char → Prop
  | single {hex : List UInt8} {ch : Char} (h : IsHex4 hex ch.toNat) : UnicodeEscape hex ch
  | pair {hex hex' : List UInt8} {high low : ℕ} {ch : Char} (hhex : IsHex4 hex high)
      (hhigh : 0xD800 ≤ high ∧ high ≤ 0xDBFF) (hhex' : IsHex4 hex' low)
      (hlow : 0xDC00 ≤ low ∧ low ≤ 0xDFFF)
      (hch : ch.toNat = (high - 0xD800) * 0x400 + (low - 0xDC00) + 0x10000) :
      UnicodeEscape (hex ++ ([ascii '\\', ascii 'u'] ++ hex')) ch

/-- The byte that a character behind a backslash stands for. -/
def escapeValue (ch : UInt8) : Option UInt8 :=
  if ch = ascii '"' then some (ascii '"')
  else if ch = ascii '\\' then some (ascii '\\')
  else if ch = ascii '/' then some (ascii '/')
  else if ch = ascii 'b' then some 8
  else if ch = ascii 'f' then some 12
  else if ch = ascii 'n' then some 10
  else if ch = ascii 'r' then some 13
  else if ch = ascii 't' then some 9
  else none

/-- A piece of a string, with the bytes that it stands for. -/
inductive Piece : List UInt8 → List UInt8 → Prop
  | plain {ch : UInt8} (h : ch ≠ ascii '"' ∧ ch ≠ ascii '\\' ∧ ¬ch < 0x20) : Piece [ch] [ch]
  | escape {ch c : UInt8} (h : escapeValue ch = some c) : Piece [ascii '\\', ch] [c]
  | unicode {text : List UInt8} {ch : Char} (h : UnicodeEscape text ch) :
      Piece (ascii '\\' :: ascii 'u' :: text) (String.utf8EncodeChar ch)

/-- What is between the quotes of a string, with the bytes that it stands for. -/
inductive StringBody : List UInt8 → List UInt8 → Prop
  | nil : StringBody [] []
  | cons {piece bytes text out : List UInt8} (hpiece : Piece piece bytes) (h : StringBody text out) :
      StringBody (piece ++ text) (bytes ++ out)

variable {d d' : DecState} {ch c : UInt8} {text rest out bytes piece hex : List UInt8} {cp m n : ℕ}

theorem skip_rest (h : d.rest = text ++ rest) : (d.skip text.length).rest = rest := by
  rw [DecState.skip, h]
  exact List.drop_left

theorem skip_one_rest (h : d.rest = ch :: rest) : (d.skip 1).rest = rest := by
  rw [DecState.skip, h]
  rfl

theorem codepointDigits_cons (h : d.rest = ch :: rest) : codepointDigits (n + 1) cp d =
    match hexValue ch with
    | some v => codepointDigits n (cp * 16 + v) (d.skip 1)
    | none => jsondecErr "Invalid hex digit" (d.skip 1) := by
  rw [codepointDigits, Prog.bind_of_ok (jsondecNext_of_cons h)]
  unfold hexValue
  split_ifs
  · rfl
  · rfl
  · rfl
  · rfl

theorem codepointDigits_of_hexNumber (hhex : hexNumber cp hex = some n) (h : d.rest = hex ++ rest) :
    codepointDigits hex.length cp d = .ok (n, d.skip hex.length) := by
  induction hex generalizing cp d with
  | nil =>
    cases hhex
    rfl
  | cons ch hex ih =>
    obtain ⟨v, hv, hhex⟩ := Option.bind_eq_some_iff.mp hhex
    have hskip : (d.skip 1).rest = hex ++ rest := skip_one_rest h
    rw [List.length_cons, codepointDigits_cons h, hv]
    dsimp only
    rw [ih hhex hskip, DecState.skip_skip, Nat.add_comm 1]

theorem hexNumber_of_codepointDigits (hle : n ≤ d.rest.length)
    (h : codepointDigits n cp d = .ok (m, d')) : hexNumber cp (d.rest.take n) = some m ∧ d' = d.skip n := by
  induction n generalizing cp d with
  | zero =>
    cases h
    exact ⟨rfl, rfl⟩
  | succ n ih =>
    cases hrest : d.rest with
    | nil =>
      rw [hrest] at hle
      cases hle
    | cons ch rest =>
      rw [codepointDigits_cons hrest] at h
      cases hv : hexValue ch with
      | none =>
        rw [hv] at h
        cases h
      | some v =>
        rw [hv] at h
        have hskip : (d.skip 1).rest = rest := skip_one_rest hrest
        rw [hrest, List.length_cons] at hle
        obtain ⟨hnumber, rfl⟩ := ih (by rw [hskip]; omega) h
        rw [hskip] at hnumber
        rw [List.take_succ_cons, hexNumber, hv, Option.bind_some, DecState.skip_skip, Nat.add_comm 1]
        exact ⟨hnumber, rfl⟩

/-- Four digits are read if there are four. -/
theorem jsondecCodepoint_of_isHex4 (hhex : IsHex4 hex cp) (h : d.rest = hex ++ rest) :
    jsondecCodepoint d = .ok (cp, d.skip hex.length) := by
  have hlength : ¬d.rest.length < 4 := by
    rw [h, List.length_append, hhex.1]
    omega
  have hread := codepointDigits_of_hexNumber hhex.2 h
  rw [hhex.1] at hread
  rw [jsondecCodepoint, if_neg hlength, hread, hhex.1]

/-- A number that is read has four digits. -/
theorem isHex4_of_jsondecCodepoint (h : jsondecCodepoint d = .ok (cp, d')) :
    ∃ hex, IsHex4 hex cp ∧ hex <+: d.rest ∧ d' = d.skip hex.length := by
  rw [jsondecCodepoint] at h
  split at h
  · cases h
  · next hlength =>
    have hle : 4 ≤ d.rest.length := Nat.le_of_not_lt hlength
    obtain ⟨hnumber, rfl⟩ := hexNumber_of_codepointDigits hle h
    have htake : (d.rest.take 4).length = 4 := List.length_take_of_le hle
    exact ⟨d.rest.take 4, ⟨htake, hnumber⟩, List.take_prefix 4 d.rest, by rw [htake]⟩

/-- The bytes of a character are those of UTF-8. -/
theorem toUTF8_toNat (ch : Char) : toUTF8 ch.toNat = String.utf8EncodeChar ch := by
  obtain ⟨v, hv⟩ : ∃ v, ch.val.toNat = v := ⟨_, rfl⟩
  have hv' : ch.toNat = v := hv
  have hvalid : ch.val.toNat < 0xD800 ∨ 0xDFFF < ch.val.toNat ∧ ch.val.toNat < 0x110000 := ch.valid
  unfold toUTF8 String.utf8EncodeChar
  dsimp only
  rw [hv', hv]
  split_ifs
  · rfl
  · rw [Nat.mod_eq_of_lt (by omega : v / 64 < 32)]
  · rw [Nat.mod_eq_of_lt (by omega : v / 4096 < 16)]
  · rw [Nat.mod_eq_of_lt (by omega : v / 262144 < 8)]
  · omega

/-- A character is no surrogate. -/
theorem not_surrogate (ch : Char) : isHigh ch.toNat = false ∧ isLow ch.toNat = false := by
  have hvalid : ch.toNat < 0xD800 ∨ 0xDFFF < ch.toNat ∧ ch.toNat < 0x110000 := ch.valid
  unfold isHigh isLow
  constructor
  · rw [decide_eq_false_iff_not]
    omega
  · rw [decide_eq_false_iff_not]
    omega

theorem isEmpty_utf8EncodeChar (ch : Char) : (String.utf8EncodeChar ch).isEmpty = false := by
  rw [List.isEmpty_eq_false_iff]
  exact (isChar_utf8EncodeChar ch).ne_nil

/-- What no character has as its number has no bytes, if it is no surrogate. -/
theorem exists_char_of_toUTF8 (hcp : isHigh cp = false) (hcp' : isLow cp = false)
    (h : (toUTF8 cp).isEmpty = false) : ∃ ch : Char, ch.toNat = cp := by
  unfold isHigh at hcp
  unfold isLow at hcp'
  rw [decide_eq_false_iff_not] at hcp hcp'
  have hle : cp ≤ 0x10ffff := by
    by_contra hlt
    unfold toUTF8 at h
    rw [if_neg (by omega), if_neg (by omega), if_neg (by omega), if_neg hlt] at h
    cases h
  exact exists_char (show cp < 0xD800 ∨ 0xDFFF < cp ∧ cp < 0x110000 by omega)

theorem jsondecUnicode_of_escape {ch : Char} (hesc : UnicodeEscape text ch) (h : d.rest = text ++ rest) :
    jsondecUnicode d = .ok (String.utf8EncodeChar ch, d.skip text.length) := by
  cases hesc with
  | single hhex =>
    rw [jsondecUnicode, Prog.bind_of_ok (jsondecCodepoint_of_isHex4 hhex h), (not_surrogate ch).1,
      (not_surrogate ch).2]
    dsimp only [Bool.false_eq_true, if_false]
    rw [pure_bind, toUTF8_toNat, isEmpty_utf8EncodeChar]
    rfl
  | @pair hex hex' high low _ hhex hhigh hhex' hlow hch =>
    have hhigh' : isHigh high = true := decide_eq_true hhigh
    have hlow' : isLow low = true := decide_eq_true hlow
    have hpair : fromPair high low = ch.toNat := by
      unfold fromPair
      omega
    rw [List.append_assoc, List.append_assoc] at h
    have h1 := skip_rest h
    have h2 : ((d.skip hex.length).skip 2).rest = hex' ++ rest := skip_rest h1
    have hlit : jsondecParselit ['\\', 'u'] (d.skip hex.length) =
        .ok ((), (d.skip hex.length).skip 2) := by
      rw [jsondecParselit, if_pos]
      · rfl
      · rw [h1]
        exact List.isPrefixOf_iff_prefix.mpr ⟨_, rfl⟩
    rw [jsondecUnicode, Prog.bind_of_ok (jsondecCodepoint_of_isHex4 hhex h), hhigh', if_pos rfl,
      Prog.bind_of_ok hlit, Prog.bind_of_ok (jsondecCodepoint_of_isHex4 hhex' h2), hlow']
    dsimp only [Bool.not_true, Bool.false_eq_true, if_false]
    rw [pure_bind, hpair, toUTF8_toNat, isEmpty_utf8EncodeChar, DecState.skip_skip, DecState.skip_skip,
      List.length_append, List.length_append]
    rfl

/-- The end of `jsondec_unicode`. -/
theorem writesUTF8_eq_ok (cp : ℕ) (h : (if (toUTF8 cp).isEmpty = true then
    (jsondecErr "Invalid codepoint" >>= fun _ : Unit => pure (toUTF8 cp)) else pure (toUTF8 cp) :
      Jsondec (List UInt8)) d = .ok (bytes, d')) :
    (toUTF8 cp).isEmpty = false ∧ bytes = toUTF8 cp ∧ d' = d := by
  split at h
  · rw [Prog.bind_eq_ok] at h
    obtain ⟨_, _, herr, -⟩ := h
    cases herr
  · next hsome =>
    cases h
    exact ⟨Bool.eq_false_iff.mpr hsome, rfl, rfl⟩

theorem escape_of_jsondecUnicode (h : jsondecUnicode d = .ok (bytes, d')) :
    ∃ text ch, UnicodeEscape text ch ∧ text <+: d.rest ∧ d' = d.skip text.length ∧
      bytes = String.utf8EncodeChar ch := by
  rw [jsondecUnicode, Prog.bind_eq_ok] at h
  obtain ⟨cp, d1, hcp, h⟩ := h
  obtain ⟨hex, hhex, hpre, rfl⟩ := isHex4_of_jsondecCodepoint hcp
  split at h
  · next hhigh =>
    rw [Prog.bind_eq_ok] at h
    obtain ⟨_, d2, hlit, h⟩ := h
    rw [Prog.bind_eq_ok] at h
    obtain ⟨low, d3, hlow, h⟩ := h
    obtain ⟨hex', hhex', hpre', rfl⟩ := isHex4_of_jsondecCodepoint hlow
    dsimp only at h
    split at h
    · rw [Prog.bind_eq_ok] at h
      obtain ⟨_, _, herr, -⟩ := h
      cases herr
    · next hislow =>
      obtain ⟨v, hv⟩ : ∃ v, fromPair cp low = v := ⟨_, rfl⟩
      rw [pure_bind, hv] at h
      obtain ⟨-, rfl, rfl⟩ := writesUTF8_eq_ok v h
      rw [Bool.not_eq_true, Bool.not_eq_false'] at hislow
      have hhigh' : 0xD800 ≤ cp ∧ cp ≤ 0xDBFF := of_decide_eq_true hhigh
      have hislow' : 0xDC00 ≤ low ∧ low ≤ 0xDFFF := of_decide_eq_true hislow
      have hpair : fromPair cp low = (cp - 0xD800) * 0x400 + (low - 0xDC00) + 0x10000 := by
        unfold fromPair
        omega
      rw [hv] at hpair
      obtain ⟨ch, hch⟩ := exists_char (v := v)
        (show v < 0xD800 ∨ 0xDFFF < v ∧ v < 0x110000 from .inr (by omega))
      unfold jsondecParselit at hlit
      split at hlit
      · next hlitpre =>
        cases hlit
        refine ⟨hex ++ ([ascii '\\', ascii 'u'] ++ hex'), ch,
          .pair hhex hhigh' hhex' hislow' (hch.trans hpair), ?_, ?_, ?_⟩
        · obtain ⟨rest, hrest⟩ := hpre
          have hskip := skip_rest hrest.symm
          rw [hskip] at hlitpre
          obtain ⟨rest', hrest'⟩ := List.isPrefixOf_iff_prefix.mp hlitpre
          have hskip' := skip_rest (hskip.trans hrest'.symm)
          obtain ⟨rest'', hrest''⟩ := hpre'
          change hex' ++ rest'' = _ at hrest''
          refine ⟨rest'', ?_⟩
          rw [← hrest, ← hrest', List.append_assoc, List.append_assoc, hrest'']
          congr 2
        · rw [DecState.skip_skip, DecState.skip_skip, List.length_append, List.length_append]
          rfl
        · rw [← toUTF8_toNat]
          exact congrArg toUTF8 hch.symm
      · cases hlit
  · next hhigh =>
    split at h
    · rw [Prog.bind_eq_ok] at h
      obtain ⟨_, _, herr, -⟩ := h
      cases herr
    · next hlow =>
      rw [pure_bind] at h
      obtain ⟨hsome, rfl, rfl⟩ := writesUTF8_eq_ok _ h
      obtain ⟨ch, rfl⟩ := exists_char_of_toUTF8 (Bool.eq_false_iff.mpr hhigh)
        (Bool.eq_false_iff.mpr hlow) hsome
      exact ⟨hex, ch, .single hhex, hpre, rfl, toUTF8_toNat ch⟩
theorem jsondecSkip_apply (n : ℕ) (d : DecState) : jsondecSkip n d = .ok ((), d.skip n) := rfl

theorem jsondecEscape_of_cons (h : d.rest = ch :: rest) : jsondecEscape d =
    match escapeValue ch with
    | some c => .ok (c, d.skip 1)
    | none => jsondecErr "Invalid escape char" (d.skip 1) := by
  rw [jsondecEscape, Prog.bind_of_ok (jsondecNext_of_cons h)]
  unfold escapeValue
  split_ifs <;> rfl

/-- A round of the loop reads a piece. -/
theorem jsondecStringStep_of_piece (hpiece : Piece piece bytes) (h : d.rest = piece ++ rest) :
    jsondecStringStep out d = .ok (.inl (out ++ bytes), d.skip piece.length) := by
  cases hpiece with
  | plain hch => exact jsondecStringStep_plain h hch.1 hch.2.1 hch.2.2
  | @escape ch c hesc =>
    have hskip : (d.skip 1).rest = ch :: rest := skip_one_rest h
    have hbyte : jsondecByte (d.skip 1) = .ok (some ch, d.skip 1) := by
      rw [jsondecByte, hskip]
      rfl
    have hne : ch ≠ ascii 'u' := by
      rintro rfl
      cases hesc
    have hread := jsondecEscape_of_cons hskip
    rw [hesc] at hread
    rw [jsondecStringStep, Prog.bind_of_ok (jsondecNext_of_cons h), if_neg (by decide), if_pos rfl,
      Prog.bind_of_ok hbyte]
    dsimp only
    rw [if_neg hne, Prog.bind_of_ok hread, DecState.skip_skip]
    rfl
  | @unicode text ch hesc =>
    have hskip : (d.skip 1).rest = ascii 'u' :: (text ++ rest) := skip_one_rest h
    have hbyte : jsondecByte (d.skip 1) = .ok (some (ascii 'u'), d.skip 1) := by
      rw [jsondecByte, hskip]
      rfl
    have hskip' : ((d.skip 1).skip 1).rest = text ++ rest := skip_one_rest hskip
    rw [jsondecStringStep, Prog.bind_of_ok (jsondecNext_of_cons h), if_neg (by decide), if_pos rfl,
      Prog.bind_of_ok hbyte]
    dsimp only
    rw [if_pos rfl]
    rw [Prog.bind_of_ok (jsondecSkip_apply 1 (d.skip 1)),
      Prog.bind_of_ok (jsondecUnicode_of_escape hesc hskip'), DecState.skip_skip, DecState.skip_skip,
      List.length_cons, List.length_cons, show 1 + (1 + text.length) = text.length + 1 + 1 by omega]
    rfl

/-- A round that goes on has read a piece. -/
theorem piece_of_jsondecStringStep (hne : d.rest ≠ [])
    (h : jsondecStringStep out d = .ok (.inl text, d')) :
    ∃ piece bytes, Piece piece bytes ∧ piece <+: d.rest ∧ text = out ++ bytes ∧ d' = d.skip piece.length := by
  obtain ⟨ch, rest, hrest⟩ := List.exists_cons_of_ne_nil hne
  rw [jsondecStringStep, Prog.bind_of_ok (jsondecNext_of_cons hrest)] at h
  split at h
  · cases h
  · next hquote =>
    split at h
    · next hbackslash =>
      subst hbackslash
      cases rest with
      | nil =>
        have hbyte : jsondecByte (d.skip 1) = .ok (none, d.skip 1) := by
          rw [jsondecByte, skip_one_rest hrest]
          rfl
        rw [Prog.bind_of_ok hbyte] at h
        cases h
      | cons next rest =>
        have hskip : (d.skip 1).rest = next :: rest := skip_one_rest hrest
        have hbyte : jsondecByte (d.skip 1) = .ok (some next, d.skip 1) := by
          rw [jsondecByte, hskip]
          rfl
        rw [Prog.bind_of_ok hbyte] at h
        dsimp only at h
        split at h
        · next hu =>
          subst hu
          rw [Prog.bind_of_ok (jsondecSkip_apply 1 (d.skip 1)), Prog.bind_eq_ok] at h
          obtain ⟨bytes, d1, hunicode, h⟩ := h
          cases h
          obtain ⟨esc, c, hesc, hpre, rfl, rfl⟩ := escape_of_jsondecUnicode hunicode
          have hskip' : ((d.skip 1).skip 1).rest = rest := skip_one_rest hskip
          rw [hskip'] at hpre
          refine ⟨_, _, .unicode hesc, ?_, rfl, ?_⟩
          · rw [hrest]
            exact List.cons_prefix_cons.mpr ⟨rfl, List.cons_prefix_cons.mpr ⟨rfl, hpre⟩⟩
          · rw [DecState.skip_skip, DecState.skip_skip, List.length_cons, List.length_cons,
              show 1 + (1 + esc.length) = esc.length + 1 + 1 by omega]
        · next hu =>
          rw [Prog.bind_eq_ok] at h
          obtain ⟨c, d1, hescape, h⟩ := h
          cases h
          rw [jsondecEscape_of_cons hskip] at hescape
          cases hvalue : escapeValue next with
          | none =>
            rw [hvalue] at hescape
            cases hescape
          | some c' =>
            rw [hvalue] at hescape
            cases hescape
            refine ⟨_, _, .escape hvalue, ?_, rfl, ?_⟩
            · rw [hrest]
              exact ⟨rest, rfl⟩
            · rw [DecState.skip_skip]
              rfl
    · next hbackslash =>
      split at h
      · cases h
      · next hcontrol =>
        cases h
        refine ⟨_, _, .plain ⟨hquote, hbackslash, hcontrol⟩, ?_, rfl, rfl⟩
        rw [hrest]
        exact ⟨rest, rfl⟩

/-- A round that ends the loop has read a quote. -/
theorem quote_of_jsondecStringStep (hne : d.rest ≠ [])
    (h : jsondecStringStep out d = .ok (.inr text, d')) :
    text = out ∧ d' = d.skip 1 ∧ ∃ rest, d.rest = ascii '"' :: rest := by
  obtain ⟨ch, rest, hrest⟩ := List.exists_cons_of_ne_nil hne
  rw [jsondecStringStep, Prog.bind_of_ok (jsondecNext_of_cons hrest)] at h
  split at h
  · next hquote =>
    cases h
    exact ⟨rfl, rfl, rest, by rw [hrest, hquote]⟩
  · split at h
    · rw [Prog.bind_eq_ok] at h
      obtain ⟨byte, d1, hbyte, h⟩ := h
      cases byte with
      | none => cases h
      | some next =>
        dsimp only at h
        split at h
        · rw [Prog.bind_eq_ok] at h
          obtain ⟨_, _, _, h⟩ := h
          rw [Prog.bind_eq_ok] at h
          obtain ⟨_, _, _, h⟩ := h
          cases h
        · rw [Prog.bind_eq_ok] at h
          obtain ⟨_, _, _, h⟩ := h
          cases h
    · split at h
      · cases h
      · cases h

theorem Piece.ne_nil (h : Piece piece bytes) : piece ≠ [] := by
  cases h <;> exact List.cons_ne_nil _ _

theorem jsondecAtEnd_of_ne_nil (h : d.rest ≠ []) : jsondecAtEnd d = .ok (false, d) := by
  rw [jsondecAtEnd, List.isEmpty_eq_false_iff.mpr h]

/-- The loop reads what is between the quotes. -/
theorem jsondecStringLoop_of_body (hbody : StringBody text bytes) (hn : text.length < n)
    (h : d.rest = text ++ ascii '"' :: rest) :
    jsondecStringLoop n out d = .ok (out ++ bytes, d.skip (text.length + 1)) := by
  induction hbody generalizing d out n with
  | nil => exact jsondecStringLoop_plain plainText_nil hn h
  | @cons piece bytes text bytes' hpiece hbody ih =>
    obtain ⟨n, rfl⟩ := Nat.exists_eq_succ_of_ne_zero (Nat.ne_of_gt (Nat.zero_lt_of_lt hn))
    have hlength := List.length_pos_iff.mpr hpiece.ne_nil
    rw [List.append_assoc] at h
    have hend := jsondecAtEnd_of_ne_nil (d := d) (by
      rw [h]
      exact List.append_ne_nil_of_left_ne_nil hpiece.ne_nil _)
    rw [List.length_append] at hn ⊢
    rw [jsondecStringLoop, Prog.loop_of_not_done hend,
      Prog.bind_of_ok (jsondecStringStep_of_piece hpiece h)]
    refine (ih (by omega) (skip_rest h)).trans ?_
    rw [DecState.skip_skip, List.append_assoc, Nat.add_assoc]

/-- What the loop has read is what is between quotes. -/
theorem body_of_jsondecStringLoop (h : jsondecStringLoop n out d = .ok (bytes, d')) :
    ∃ text b, StringBody text b ∧ bytes = out ++ b ∧ d' = d.skip (text.length + 1) ∧
      d.rest = text ++ ascii '"' :: d'.rest := by
  induction n generalizing d out with
  | zero =>
    rw [jsondecStringLoop, Prog.loop, Prog.bind_eq_ok] at h
    obtain ⟨done, d1, -, h⟩ := h
    split at h
    · cases h
    · cases h
  | succ n ih =>
    by_cases hne : d.rest = []
    · have hend : jsondecAtEnd d = .ok (true, d) := by
        rw [jsondecAtEnd, hne]
        rfl
      rw [jsondecStringLoop, Prog.loop_of_done hend] at h
      cases h
    · obtain ⟨k, r, d1, hk, hstep, hr⟩ := Prog.loop_eq_ok (jsondecAtEnd_of_ne_nil hne) h
      obtain rfl := Nat.succ.inj hk
      rcases hr with ⟨out', rfl, hloop⟩ | ⟨rfl, rfl⟩
      · obtain ⟨piece, b, hpiece, ⟨rest, hrest⟩, rfl, rfl⟩ := piece_of_jsondecStringStep hne hstep
        obtain ⟨text, b', hbody, rfl, rfl, hd⟩ := ih hloop
        rw [skip_rest hrest.symm] at hd
        refine ⟨piece ++ text, b ++ b', .cons hpiece hbody, by rw [List.append_assoc], ?_, ?_⟩
        · rw [DecState.skip_skip, List.length_append, Nat.add_assoc]
        · rw [← hrest, hd, List.append_assoc]
      · obtain ⟨rfl, rfl, rest, hrest⟩ := quote_of_jsondecStringStep hne hstep
        refine ⟨[], [], .nil, by rw [List.append_nil], rfl, ?_⟩
        rw [hrest, skip_one_rest hrest]
        rfl

theorem isWs_iff : IsWs ch ↔ ch = ascii '\n' ∨ isBlank ch = true := by
  unfold IsWs isBlank
  rw [decide_eq_true_iff]
  tauto

/-- White space is consumed up to what is none. -/
theorem consumewsLoop_append {ws : List UInt8} (hws : ∀ ch ∈ ws, IsWs ch) (hch : ¬IsWs ch) (line column : ℕ) :
    (consumewsLoop (ws ++ ch :: rest) line column).1 = ch :: rest := by
  rw [isWs_iff, not_or] at hch
  induction ws generalizing line column with
  | nil => rw [List.nil_append, consumewsLoop, if_neg hch.1, if_neg hch.2]
  | cons w ws ih =>
    obtain ⟨hw, hws⟩ := List.forall_mem_cons.mp hws
    rw [List.cons_append, consumewsLoop]
    split
    · exact ih hws _ _
    · next hline =>
      rw [if_pos ((isWs_iff.mp hw).resolve_left hline)]
      exact ih hws _ _

/-- What is consumed is white space. -/
theorem consumewsLoop_spec (text : List UInt8) (line column : ℕ) :
    ∃ ws, (∀ ch ∈ ws, IsWs ch) ∧ text = ws ++ (consumewsLoop text line column).1 := by
  induction text generalizing line column with
  | nil => exact ⟨[], nofun, rfl⟩
  | cons ch text ih =>
    rw [consumewsLoop]
    split
    · next hline =>
      obtain ⟨ws, hws, heq⟩ := ih (line + 1) 1
      exact ⟨ch :: ws, List.forall_mem_cons.mpr ⟨.inr (.inr (.inl hline)), hws⟩, by rw [List.cons_append, ← heq]⟩
    · split
      · next hblank =>
        obtain ⟨ws, hws, heq⟩ := ih line (column + 1)
        exact ⟨ch :: ws, List.forall_mem_cons.mpr ⟨isWs_iff.mpr (.inr hblank), hws⟩,
          by rw [List.cons_append, ← heq]⟩
      · exact ⟨[], nofun, rfl⟩

/-- White space is skipped. -/
theorem jsondecSkipws_append {ws : List UInt8} (hws : ∀ ch ∈ ws, IsWs ch) (hch : ¬IsWs ch)
    (h : d.rest = ws ++ ch :: rest) : ∃ d', jsondecSkipws d = .ok ((), d') ∧ d'.rest = ch :: rest := by
  have hloop : (consumewsLoop (ws ++ ch :: rest) d.line d.column).1 = ch :: rest :=
    consumewsLoop_append hws hch d.line d.column
  rw [← h] at hloop
  refine ⟨⟨(consumewsLoop d.rest d.line d.column).1, (consumewsLoop d.rest d.line d.column).2.1,
    (consumewsLoop d.rest d.line d.column).2.2, d.depth, d.isFirst, d.emptyStringNumerics⟩, ?_, hloop⟩
  have hconsume : jsondecConsumews d = .ok ((), ⟨(consumewsLoop d.rest d.line d.column).1,
      (consumewsLoop d.rest d.line d.column).2.1, (consumewsLoop d.rest d.line d.column).2.2, d.depth,
      d.isFirst, d.emptyStringNumerics⟩) := rfl
  rw [jsondecSkipws, Prog.bind_of_ok hconsume, Prog.bind_of_ok (jsondecAtEnd_of_ne_nil (by
    rw [hloop]
    exact List.cons_ne_nil _ _))]
  rfl

/-- What is skipped is white space. -/
theorem jsondecSkipws_eq_ok {u : Unit} (h : jsondecSkipws d = .ok (u, d')) :
    (∃ ws, (∀ ch ∈ ws, IsWs ch) ∧ d.rest = ws ++ d'.rest) ∧ d'.rest ≠ [] := by
  rw [jsondecSkipws, Prog.bind_eq_ok] at h
  obtain ⟨_, d1, hconsume, h⟩ := h
  cases hconsume
  rw [Prog.bind_eq_ok] at h
  obtain ⟨done, d2, hdone, h⟩ := h
  cases hdone
  split at h
  · cases h
  · next hne =>
    cases h
    exact ⟨consumewsLoop_spec _ _ _, fun hnil => hne (List.isEmpty_iff.mpr hnil)⟩

theorem not_isWs_quote : ¬IsWs (ascii '"') := by
  unfold IsWs
  decide

/-- A string between quotes is read. -/
theorem jsondecString_of_body (hbody : StringBody text bytes)
    (h : d.rest = ascii '"' :: (text ++ ascii '"' :: rest)) :
    jsondecString d = .ok (bytes, d.skip (text.length + 2)) := by
  have hskip : (d.skip 1).rest = text ++ ascii '"' :: rest := skip_one_rest h
  rw [jsondecString, Prog.bind_of_ok (jsondecSkipws_of_cons h (by decide) (by decide)),
    Prog.bind_of_ok (jsondecNext_of_cons h), if_neg (not_not.mpr rfl)]
  change jsondecStringLoop (d.skip 1).rest.length [] (d.skip 1) = _
  rw [jsondecStringLoop_of_body hbody (by rw [hskip]; simp) hskip, DecState.skip_skip, List.nil_append,
    Nat.add_comm 1]

/-- What is read is a string between quotes, behind white space. -/
theorem body_of_jsondecString (h : jsondecString d = .ok (bytes, d')) :
    ∃ ws body, (∀ ch ∈ ws, IsWs ch) ∧ StringBody body bytes ∧
      d.rest = ws ++ ascii '"' :: (body ++ ascii '"' :: d'.rest) := by
  rw [jsondecString, Prog.bind_eq_ok] at h
  obtain ⟨_, d1, hws, h⟩ := h
  obtain ⟨⟨ws, hws, hrest⟩, hne⟩ := jsondecSkipws_eq_ok hws
  obtain ⟨ch, rest, hcons⟩ := List.exists_cons_of_ne_nil hne
  rw [Prog.bind_of_ok (jsondecNext_of_cons hcons)] at h
  split at h
  · cases h
  · next hquote =>
    rw [ne_eq, not_not] at hquote
    subst hquote
    change jsondecStringLoop (d1.skip 1).rest.length [] (d1.skip 1) = _ at h
    obtain ⟨body, b, hbody, rfl, -, hd⟩ := body_of_jsondecStringLoop h
    rw [skip_one_rest hcons] at hd
    exact ⟨ws, body, hws, hbody, by rw [hrest, hcons, hd]⟩

/-- A string is read exactly if one is there: white space, and pieces between quotes. -/
theorem jsondecString_exact (d : DecState) (str rest : List UInt8) :
    (∃ d', jsondecString d = .ok (str, d') ∧ d'.rest = rest) ↔
      ∃ ws body, (∀ ch ∈ ws, IsWs ch) ∧ StringBody body str ∧
        d.rest = ws ++ ascii '"' :: (body ++ ascii '"' :: rest) := by
  constructor
  · rintro ⟨d', h, rfl⟩
    exact body_of_jsondecString h
  · rintro ⟨ws, body, hws, hbody, hrest⟩
    obtain ⟨d1, hskip, hcons⟩ := jsondecSkipws_append hws not_isWs_quote hrest
    refine ⟨d1.skip (body.length + 2), ?_, ?_⟩
    · have hread := jsondecString_of_body hbody hcons
      rw [jsondecString, Prog.bind_of_ok (jsondecSkipws_of_cons hcons (by decide) (by decide))] at hread
      rw [jsondecString, Prog.bind_of_ok hskip, hread]
    · have hend := skip_one_rest (skip_rest (skip_one_rest hcons))
      rwa [DecState.skip_skip, DecState.skip_skip,
        show 1 + (body.length + 1) = body.length + 2 by omega] at hend

end Upb.Json
