import Upb.Common.DecimalText
import Upb.Common.Prog

/-!
# The JSON decoder's input

The state of `upb/json/decode.c`, its white space and its strings. A program of the decoder reads the rest
of the input and fails with a message and the place where it stands.
-/

namespace Upb.Json

open Common

/-- The fields of `jsondec` that are about the input. -/
structure DecState where
  /-- From `ptr` to `end`. -/
  rest : List UInt8
  line : ℕ
  /-- `ptr - line_begin`. -/
  column : ℕ
  depth : ℤ
  isFirst : Bool
  /-- The result is `kUpb_JsonDecodeResult_OkWithEmptyStringNumerics`. -/
  emptyStringNumerics : Bool

/-- An error: "Error parsing JSON @%d:%d: %s". -/
structure JsonError where
  line : ℕ
  column : ℕ
  msg : String

/-- A program of the decoder. -/
abbrev Jsondec (α : Type) := Prog JsonError DecState α

/-- The state behind some bytes that contain no newline. -/
def DecState.skip (d : DecState) (n : ℕ) : DecState :=
  { d with rest := d.rest.drop n, column := d.column + n }

/-- `jsondec_err`. -/
def jsondecErr {α : Type} (msg : String) : Jsondec α := fun d => .error ⟨d.line, d.column, msg⟩

/-- `*d->ptr`, if there is a byte. -/
def jsondecByte : Jsondec (Option UInt8) := fun d => .ok (d.rest.head?, d)

/-- `d->ptr += n`. -/
def jsondecSkip (n : ℕ) : Jsondec Unit := fun d => .ok ((), d.skip n)

/-- `*d->ptr++`, where there is a byte. -/
def jsondecNext : Jsondec UInt8 := fun d => .ok (d.rest.headD 0, d.skip 1)

/-- `d->ptr == d->end`. -/
def jsondecAtEnd : Jsondec Bool := fun d => .ok (d.rest.isEmpty, d)

/-- The result of a function that reads a text of its own. -/
def jsondecLift {α : Type} (x : Except String α) : Jsondec α :=
  match x with
  | .ok a => pure a
  | .error msg => jsondecErr msg

/-- White space except a newline. -/
def isBlank (ch : UInt8) : Bool := ch = ascii '\r' ∨ ch = ascii '\t' ∨ ch = ascii ' '

/-- The loop of `jsondec_consumews`. -/
def consumewsLoop : List UInt8 → ℕ → ℕ → List UInt8 × ℕ × ℕ
  | [], line, column => ([], line, column)
  | ch :: rest, line, column =>
    if ch = ascii '\n' then consumewsLoop rest (line + 1) 1
    else if isBlank ch then consumewsLoop rest line (column + 1)
    else (ch :: rest, line, column)

/-- `jsondec_consumews`. -/
def jsondecConsumews : Jsondec Unit := fun d =>
  let (rest, line, column) := consumewsLoop d.rest d.line d.column
  .ok ((), { d with rest, line, column })

/-- `jsondec_skipws`. -/
def jsondecSkipws : Jsondec Unit := do
  jsondecConsumews
  if ← jsondecAtEnd then jsondecErr "Unexpected EOF"

/-- `jsondec_tryparsech`. -/
def jsondecTryparsech (ch : UInt8) : Jsondec Bool := do
  if (← jsondecByte) = some ch then
    jsondecSkip 1
    return true
  else return false

/-- `jsondec_parselit`. -/
def jsondecParselit (lit : List Char) : Jsondec Unit := fun d =>
  if (lit.map ascii).isPrefixOf d.rest then .ok ((), d.skip lit.length)
  else jsondecErr ("Expected: '" ++ String.ofList lit ++ "'") d

/-- `jsondec_wsch`. -/
def jsondecWsch (ch : Char) : Jsondec Unit := do
  jsondecSkipws
  if !(← jsondecTryparsech (ascii ch)) then jsondecErr ("Expected: '" ++ String.ofList [ch] ++ "'")

/-- `jsondec_escape`. -/
def jsondecEscape : Jsondec UInt8 := do
  let ch ← jsondecNext
  if ch = ascii '"' then return ascii '"'
  else if ch = ascii '\\' then return ascii '\\'
  else if ch = ascii '/' then return ascii '/'
  else if ch = ascii 'b' then return 8
  else if ch = ascii 'f' then return 12
  else if ch = ascii 'n' then return 10
  else if ch = ascii 'r' then return 13
  else if ch = ascii 't' then return 9
  else jsondecErr "Invalid escape char"

/-- The digits of `jsondec_codepoint`. -/
def codepointDigits : ℕ → ℕ → Jsondec ℕ
  | 0, cp => pure cp
  | n + 1, cp => do
    let ch ← jsondecNext
    if IsDigit ch then codepointDigits n (cp * 16 + (ch.toNat - 48))
    else if 97 ≤ ch.toNat ∧ ch.toNat ≤ 102 then codepointDigits n (cp * 16 + (ch.toNat - 97 + 10))
    else if 65 ≤ ch.toNat ∧ ch.toNat ≤ 70 then codepointDigits n (cp * 16 + (ch.toNat - 65 + 10))
    else jsondecErr "Invalid hex digit"

/-- `jsondec_codepoint`. -/
def jsondecCodepoint : Jsondec ℕ := fun d =>
  if d.rest.length < 4 then jsondecErr "EOF inside string" d else codepointDigits 4 0 d

/-- `upb_Unicode_IsHigh`. -/
def isHigh (cp : ℕ) : Bool := 0xd800 ≤ cp ∧ cp ≤ 0xdbff

/-- `upb_Unicode_IsLow`. -/
def isLow (cp : ℕ) : Bool := 0xdc00 ≤ cp ∧ cp ≤ 0xdfff

/-- `upb_Unicode_FromPair`. -/
def fromPair (high low : ℕ) : ℕ := high % 0x400 * 0x400 + low % 0x400 + 0x10000

/-- `upb_Unicode_ToUTF8`. -/
def toUTF8 (cp : ℕ) : List UInt8 :=
  if cp ≤ 0x7f then [UInt8.ofNat cp]
  else if cp ≤ 0x07ff then [UInt8.ofNat (cp / 64 + 0xc0), UInt8.ofNat (cp % 64 + 0x80)]
  else if cp ≤ 0xffff then
    [UInt8.ofNat (cp / 4096 + 0xe0), UInt8.ofNat (cp / 64 % 64 + 0x80), UInt8.ofNat (cp % 64 + 0x80)]
  else if cp ≤ 0x10ffff then
    [UInt8.ofNat (cp / 262144 + 0xf0), UInt8.ofNat (cp / 4096 % 64 + 0x80),
      UInt8.ofNat (cp / 64 % 64 + 0x80), UInt8.ofNat (cp % 64 + 0x80)]
  else []

/-- `jsondec_unicode`. -/
def jsondecUnicode : Jsondec (List UInt8) := do
  let cp ← jsondecCodepoint
  let cp ←
    if isHigh cp then do
      jsondecParselit ['\\', 'u']
      let low ← jsondecCodepoint
      if !isLow low then jsondecErr "Invalid low surrogate"
      pure (fromPair cp low)
    else if isLow cp then jsondecErr "Unpaired low surrogate"
    else pure cp
  let bytes := toUTF8 cp
  if bytes.isEmpty then jsondecErr "Invalid codepoint"
  return bytes

/-- A round of the loop of `jsondec_string`: more of the string, or all of it. -/
def jsondecStringStep (out : List UInt8) : Jsondec (List UInt8 ⊕ List UInt8) := do
  let ch ← jsondecNext
  if ch = ascii '"' then return .inr out
  else if ch = ascii '\\' then
    match ← jsondecByte with
    | none => jsondecErr "EOF inside string"
    | some next =>
      if next = ascii 'u' then do
        jsondecSkip 1
        return .inl (out ++ (← jsondecUnicode))
      else return .inl (out ++ [← jsondecEscape])
  else if ch < 0x20 then jsondecErr "Invalid char in JSON string"
  else return .inl (out ++ [ch])

/-- The loop of `jsondec_string`, which consumes a byte a round. -/
def jsondecStringLoop : ℕ → List UInt8 → Jsondec (List UInt8) :=
  Prog.loop jsondecAtEnd ⟨0, 0, ""⟩ jsondecStringStep fun _ => jsondecErr "EOF inside string"

/-- `jsondec_string`. -/
def jsondecString : Jsondec (List UInt8) := do
  jsondecSkipws
  if (← jsondecNext) ≠ ascii '"' then jsondecErr "Expected string"
  fun d => jsondecStringLoop d.rest.length [] d

/-- A text that a JSON string shows as it is. -/
def PlainText (text : List UInt8) : Prop := ∀ ch ∈ text, ch ≠ ascii '"' ∧ ch ≠ ascii '\\' ∧ ¬ch < 0x20

theorem PlainText.append {text text' : List UInt8} (h : PlainText text) (h' : PlainText text') :
    PlainText (text ++ text') := by
  intro ch hch
  rcases List.mem_append.mp hch with hch | hch
  · exact h ch hch
  · exact h' ch hch

theorem PlainText.cons {ch : UInt8} {text : List UInt8}
    (hch : ch ≠ ascii '"' ∧ ch ≠ ascii '\\' ∧ ¬ch < 0x20) (h : PlainText text) : PlainText (ch :: text) := by
  intro c hc
  rcases List.mem_cons.mp hc with rfl | hc
  · exact hch
  · exact h c hc

theorem plainText_nil : PlainText [] := nofun

/-- Digits stand for themselves. -/
theorem plainText_of_isDigit {text : List UInt8} (h : ∀ ch ∈ text, IsDigit ch) : PlainText text := by
  intro ch hch
  have hdigit := h ch hch
  unfold IsDigit at hdigit
  refine ⟨?_, ?_, ?_⟩
  · rintro rfl
    exact absurd hdigit (by decide)
  · rintro rfl
    exact absurd hdigit (by decide)
  · rw [UInt8.lt_iff_toNat_lt]
    change ¬ch.toNat < 32
    omega

section Strings

variable {d : DecState} {ch : UInt8} {text rest out : List UInt8}

theorem DecState.skip_skip (d : DecState) (m n : ℕ) : (d.skip m).skip n = d.skip (m + n) := by
  simp only [skip, List.drop_drop, Nat.add_assoc]

theorem jsondecNext_of_cons (h : d.rest = ch :: rest) : jsondecNext d = .ok (ch, d.skip 1) := by
  rw [jsondecNext, h]
  rfl

/-- White space ends where something else comes. -/
theorem jsondecSkipws_of_cons (h : d.rest = ch :: rest) (hch : ch ≠ ascii '\n') (hblank : isBlank ch = false) :
    jsondecSkipws d = .ok ((), d) := by
  have hloop : consumewsLoop d.rest d.line d.column = (d.rest, d.line, d.column) := by
    rw [h, consumewsLoop, if_neg hch, if_neg (by simp [hblank])]
  have hconsume : jsondecConsumews d = .ok ((), d) := by
    rw [jsondecConsumews, hloop]
  have hend : jsondecAtEnd d = .ok (false, d) := by
    rw [jsondecAtEnd, h]
    rfl
  rw [jsondecSkipws, Prog.bind_of_ok hconsume, Prog.bind_of_ok hend]
  rfl

/-- A round on a byte that stands for itself. -/
theorem jsondecStringStep_plain (h : d.rest = ch :: rest) (hquote : ch ≠ ascii '"')
    (hbackslash : ch ≠ ascii '\\') (hcontrol : ¬ch < 0x20) :
    jsondecStringStep out d = .ok (.inl (out ++ [ch]), d.skip 1) := by
  rw [jsondecStringStep, Prog.bind_of_ok (jsondecNext_of_cons h), if_neg hquote, if_neg hbackslash,
    if_neg hcontrol]
  rfl

/-- The round on the closing quote. -/
theorem jsondecStringStep_quote (h : d.rest = ascii '"' :: rest) :
    jsondecStringStep out d = .ok (.inr out, d.skip 1) := by
  rw [jsondecStringStep, Prog.bind_of_ok (jsondecNext_of_cons h), if_pos rfl]
  rfl

/-- The loop on a plain text. -/
theorem jsondecStringLoop_plain (htext : PlainText text) {n : ℕ} (hn : text.length < n)
    (h : d.rest = text ++ ascii '"' :: rest) :
    jsondecStringLoop n out d = .ok (out ++ text, d.skip (text.length + 1)) := by
  induction text generalizing d out n with
  | nil =>
    obtain ⟨n, rfl⟩ := Nat.exists_eq_succ_of_ne_zero (Nat.ne_of_gt hn)
    have hend : jsondecAtEnd d = .ok (false, d) := by
      rw [jsondecAtEnd, h]
      rfl
    rw [jsondecStringLoop, Prog.loop_of_not_done hend, Prog.bind_of_ok (jsondecStringStep_quote h)]
    simp
  | cons ch text ih =>
    obtain ⟨n, rfl⟩ := Nat.exists_eq_succ_of_ne_zero (Nat.ne_of_gt (Nat.zero_lt_of_lt hn))
    have hend : jsondecAtEnd d = .ok (false, d) := by
      rw [jsondecAtEnd, h]
      rfl
    obtain ⟨hquote, hbackslash, hcontrol⟩ := htext ch (.head _)
    rw [jsondecStringLoop, Prog.loop_of_not_done hend,
      Prog.bind_of_ok (jsondecStringStep_plain h hquote hbackslash hcontrol)]
    have hskip : (d.skip 1).rest = text ++ ascii '"' :: rest := by
      rw [DecState.skip, h]
      rfl
    refine (ih (fun c hc => htext c (.tail _ hc)) (Nat.lt_of_succ_lt_succ hn) hskip).trans ?_
    rw [DecState.skip_skip, List.append_assoc, List.length_cons, Nat.add_comm 1]
    rfl

/-- A plain text between quotes. -/
theorem jsondecString_plain (htext : PlainText text) (h : d.rest = ascii '"' :: (text ++ ascii '"' :: rest)) :
    jsondecString d = .ok (text, d.skip (text.length + 2)) := by
  have hskip : (d.skip 1).rest = text ++ ascii '"' :: rest := by
    rw [DecState.skip, h]
    rfl
  rw [jsondecString, Prog.bind_of_ok (jsondecSkipws_of_cons h (by decide) (by decide)),
    Prog.bind_of_ok (jsondecNext_of_cons h), if_neg (not_not.mpr rfl)]
  change jsondecStringLoop (d.skip 1).rest.length [] (d.skip 1) = _
  rw [jsondecStringLoop_plain htext (by rw [hskip]; simp) hskip, DecState.skip_skip, List.nil_append,
    Nat.add_comm 1]

end Strings

end Upb.Json
