import Mathlib.Algebra.Group.Nat.Defs
import Mathlib.Data.Int.Notation
import Mathlib.Data.Nat.Notation

/-!
# Default values of bytes fields

`upb/reflection/internal/def_builder.c` unescapes the default value of a bytes field when a file is
loaded, and `upb/util/def_to_proto.c` escapes it when the file is written again. A `char` is a byte;
whether it is signed depends on the platform and decides how it compares to an integer.
-/

namespace Upb.Reflection

/-- A `char` as an `int`. -/
def charToInt (signed : Bool) (ch : UInt8) : ℤ :=
  if signed ∧ 128 ≤ ch.toNat then (ch.toNat : ℤ) - 256 else ch.toNat

/-- The errors of `_upb_DefBuilder_ParseEscape`. -/
inductive EscapeError where
  /-- "\\x must be followed by at least one hex digit (field='%s')" -/
  | noHexDigit
  /-- "Value of hex escape in field %s exceeds 8 bits" -/
  | hexTooLarge
  /-- "unterminated escape sequence in field %s" -/
  | unterminated
  /-- "Unknown escape sequence: \\%c" -/
  | unknownEscape (ch : UInt8)
  deriving DecidableEq

section Parse

variable (signed : Bool)

/-- `TryGetHexDigit`: the digit or -1, and the characters behind it. -/
def tryGetHexDigit : List UInt8 → ℤ × List UInt8
  | [] => (-1, [])
  | ch :: src =>
    if 48 ≤ charToInt signed ch ∧ charToInt signed ch ≤ 57 then (charToInt signed ch - 48, src)
    else
      -- `upb_ascii_lower`
      let lower := ch ||| 0x20
      if 97 ≤ charToInt signed lower ∧ charToInt signed lower ≤ 102 then
        (charToInt signed lower - 97 + 0xa, src)
      else (-1, ch :: src)

/-- The loop of `upb_DefBuilder_ParseHexEscape`, which consumes a character a round. -/
def hexEscapeLoop : ℕ → ℕ → List UInt8 → ℕ × List UInt8
  | 0, ret, src => (ret, src)
  | fuel + 1, ret, src =>
    let (hexDigit, src) := tryGetHexDigit signed src
    if 0 ≤ hexDigit then hexEscapeLoop fuel ((ret <<< 4) % 2 ^ 32 ||| hexDigit.toNat) src
    else (ret, src)

/-- `upb_DefBuilder_ParseHexEscape`. -/
def parseHexEscape (src : List UInt8) : Except EscapeError (UInt8 × List UInt8) :=
  let (hexDigit, src) := tryGetHexDigit signed src
  if hexDigit < 0 then .error .noHexDigit
  else
    let (ret, src) := hexEscapeLoop signed src.length hexDigit.toNat src
    if 0xff < ret then .error .hexTooLarge else .ok (UInt8.ofNat ret, src)

/-- `TryGetOctalDigit`, whose result is a `char`. -/
def tryGetOctalDigit : List UInt8 → UInt8 × List UInt8
  | [] => (0xff, [])
  | ch :: src =>
    if 48 ≤ charToInt signed ch ∧ charToInt signed ch ≤ 55 then (ch - 48, src) else (0xff, ch :: src)

/-- The rounds of `upb_DefBuilder_ParseOctalEscape`. -/
def octalEscapeLoop : ℕ → UInt8 → List UInt8 → UInt8 × List UInt8
  | 0, ch, src => (ch, src)
  | n + 1, ch, src =>
    let (digit, src) := tryGetOctalDigit signed src
    if 0 ≤ charToInt signed digit then octalEscapeLoop n (ch <<< 3 ||| digit) src
    else octalEscapeLoop n ch src

/-- `upb_DefBuilder_ParseOctalEscape`. -/
def parseOctalEscape (src : List UInt8) : UInt8 × List UInt8 := octalEscapeLoop signed 3 0 src

/-- The escapes of a single character. -/
def simpleEscape (ch : UInt8) : Option UInt8 :=
  match ch.toNat with
  | 97 => some 7     -- a
  | 98 => some 8     -- b
  | 102 => some 12   -- f
  | 110 => some 10   -- n
  | 114 => some 13   -- r
  | 116 => some 9    -- t
  | 118 => some 11   -- v
  | 92 => some 92    -- backslash
  | 39 => some 39    -- single quote
  | 34 => some 34    -- double quote
  | 63 => some 63    -- question mark
  | _ => none

/-- `_upb_DefBuilder_ParseEscape`, behind the backslash. -/
def parseEscape : List UInt8 → Except EscapeError (UInt8 × List UInt8)
  | [] => .error .unterminated
  | ch :: src =>
    match simpleEscape ch with
    | some value => .ok (value, src)
    | none =>
      if ch = 120 ∨ ch = 88 then parseHexEscape signed src
      else if 48 ≤ ch ∧ ch ≤ 55 then .ok (parseOctalEscape signed (ch :: src))
      else .error (.unknownEscape ch)

/-- The loop of `unescape`, which consumes a character a round. -/
def unescapeLoop : ℕ → List UInt8 → Except EscapeError (List UInt8)
  | _, [] => .ok []
  | 0, _ => .ok []
  | fuel + 1, ch :: src =>
    if ch = 92 then do
      let (value, src) ← parseEscape signed src
      let dst ← unescapeLoop fuel src
      .ok (value :: dst)
    else do
      let dst ← unescapeLoop fuel src
      .ok (ch :: dst)

/-- `unescape`: the default value of a bytes field, from its text. -/
def unescape (data : List UInt8) : Except EscapeError (List UInt8) := unescapeLoop signed data.length data

end Parse

section Export

/-- `upb_isprint`. -/
def isprint (signed : Bool) (ch : UInt8) : Bool := 0x20 ≤ charToInt signed ch && charToInt signed ch ≤ 0x7f

/-- `special_escape`; `none` is -1. -/
def specialEscape (ch : UInt8) : Option UInt8 :=
  match ch.toNat with
  | 10 => some 110
  | 13 => some 114
  | 9 => some 116
  | 92 => some 92
  | 39 => some 39
  | 34 => some 34
  | _ => none

/-- What `default_bytes` writes for a byte. -/
def defaultByte (signed : Bool) (ch : UInt8) : List UInt8 :=
  match specialEscape ch with
  | some escape => [92, escape]
  | none =>
    if isprint signed ch then [ch]
    else [92, (ch >>> 6) + 48, ((ch >>> 3) &&& 0x7) + 48, (ch &&& 0x7) + 48]

/-- `default_bytes`. -/
def defaultBytes (signed : Bool) (val : List UInt8) : List UInt8 := val.flatMap (defaultByte signed)

end Export

end Upb.Reflection
