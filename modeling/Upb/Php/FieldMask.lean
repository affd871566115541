import Upb.Php.Segments

/-!
# Field masks of the PHP runtime

`parseFieldMask` and `formatFieldMask` of `Internal/GPBUtil.php`. A mask is the list of its paths;
its text has the paths between commas, in lower camel case. `camel2underscore` finds the words of a
camel case name with a regular expression, modelled here with the choices the engine makes: the
first alternative before the second, and runs as long as what follows allows.
-/

namespace Upb.Php

/-- `[A-Z0-9]`. -/
def isUpperOrDigit (c : Char) : Bool := c.isUpper || c.isDigit

/-- `[a-z0-9]`. -/
def isLowerOrDigit (c : Char) : Bool := c.isLower || c.isDigit

/-- `(?=$|[A-Z][a-z0-9])`; the end of the text may have a newline after it. -/
def wordFollows : Text → Bool
  | [] => true
  | [c] => c == '\n'
  | c :: d :: _ => c.isUpper && isLowerOrDigit d

/-- `[A-Z0-9]*(?=$|[A-Z][a-z0-9])`: the longest run that ends where the look-ahead holds. -/
def upperRun : Text → Option Text
  | [] => some []
  | c :: cs =>
    match if isUpperOrDigit c then upperRun cs else none with
    | some run => some (c :: run)
    | none => if wordFollows (c :: cs) then some [] else none

/-- `[A-Z][A-Z0-9]*(?=$|[A-Z][a-z0-9])|[A-Za-z][a-z0-9]+` at the start of a text. -/
def matchWord : Text → Option Text
  | [] => none
  | c :: cs =>
    match if c.isUpper then upperRun cs else none with
    | some run => some (c :: run)
    | none =>
      if c.isAlpha && cs.head?.any isLowerOrDigit then some (c :: cs.takeWhile isLowerOrDigit)
      else none

/-- `preg_match_all`: the matches one after the other. `taken` is the number of characters that the
last match still covers. -/
def pregMatchAll (taken : Nat) : Text → List Text
  | [] => []
  | c :: cs =>
    match taken with
    | taken + 1 => pregMatchAll taken cs
    | 0 =>
      match matchWord (c :: cs) with
      | some word => word :: pregMatchAll (word.length - 1) cs
      | none => pregMatchAll 0 cs

/-- `strtoupper`. -/
def strtoupper (s : Text) : Text := s.map Char.toUpper

/-- `ucfirst`. -/
def ucfirst (s : Text) : Text := capitalize s

/-- `lcfirst`. -/
def lcfirst : Text → Text
  | [] => []
  | c :: cs => c.toLower :: cs

/-- A matched word in lower case, or with its first letter in lower case. -/
def lowerWord (word : Text) : Text := if word = strtoupper word then toLower word else lcfirst word

/-- `camel2underscore`. -/
def camel2underscore (input : Text) : Text := implode ['_'] ((pregMatchAll 0 input).map lowerWord)

/-- The segments of a name joined, every one but the first with `ucfirst`. -/
def convertSegments (start : Bool) : List Text → Text
  | [] => []
  | segment :: segments =>
    (if start then segment else ucfirst segment) ++ convertSegments false segments

/-- One path in `formatFieldMask`. -/
def convertPath (path : Text) : Text :=
  implode ['.'] ((explode '.' path).map fun field => convertSegments true (explode '_' field))

/-- `formatFieldMask`. -/
def formatFieldMask (paths : List Text) : Text := implode [','] (paths.map convertPath)

/-- One path in `parseFieldMask`. -/
def parsePath (path : Text) : Text := implode ['.'] ((explode '.' path).map camel2underscore)

/-- `parseFieldMask`. -/
def parseFieldMask (pathsString : Text) : List Text :=
  if pathsString.length = 0 then [] else (explode ',' pathsString).map parsePath

end Upb.Php
