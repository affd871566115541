import Mathlib.Data.List.Basic

/-!
# PHP class names

The three programs that compute the name of the PHP class of a message or an enum: the C extension
(`php/ext/google/protobuf/names.c`), the PHP runtime (`GPBUtil.php`) and the code generator
(`compiler/php/names.cc` and `php_generator.cc`). Texts are lists of characters.
-/

namespace Upb.Php

/-- A text. -/
abbrev Text := List Char

/-- A letter or an underscore, followed by letters, digits and underscores. -/
def isIdentifier : Text → Bool
  | [] => false
  | c :: cs => (c.isAlpha || c == '_') && cs.all fun d => d.isAlphanum || d == '_'

/-- An identifier of a schema. -/
abbrev Identifier := { s : Text // isIdentifier s = true }

/-- The options of a file that class names depend on; both may be absent. -/
structure FileOptions where
  phpNamespace : Option Text
  phpClassPrefix : Option Text

/-- A message or an enum: the package of its file as a list of identifiers, the options of the file,
the messages that contain it, the outermost first, and its own name. -/
structure Definition where
  package : List Identifier
  options : FileOptions
  containing : List Identifier
  name : Identifier

/-- `implode`: the parts with a glue between them. -/
def implode (glue : Text) : List Text → Text
  | [] => []
  | [s] => s
  | s :: ss => s ++ glue ++ implode glue ss

/-- `explode`: the parts between the separators. -/
def explode (separator : Char) : Text → List Text
  | [] => [[]]
  | c :: cs =>
    if c = separator then [] :: explode separator cs
    else
      match explode separator cs with
      | [] => [[c]]
      | s :: ss => (c :: s) :: ss

namespace Definition

variable (d : Definition)

/-- The texts of the names from the outermost message on. -/
def names : List Text := (d.containing ++ [d.name]).map Subtype.val

/-- `package` of the file. -/
def packageName : Text := implode ['.'] (d.package.map Subtype.val)

/-- The full name. -/
def fullName : Text := implode ['.'] (d.package.map Subtype.val ++ d.names)

/-- The prefix of classes; absent and empty are the same to all three programs. -/
def classPrefix : Text := d.options.phpClassPrefix.getD []

end Definition

/-- The `strtolower` of all three programs. -/
def toLower (s : Text) : Text := s.map Char.toLower

/-- A word of a list of reserved words. -/
def isWord (words : List String) (s : Text) : Bool := words.any fun w => w.toList == s

namespace Extension

/-- `kReservedNames` of the C extension. -/
def kReservedNames : List String :=
  ["abstract", "and", "array", "as", "break", "callable", "case", "catch", "class", "clone",
    "const", "continue", "declare", "default", "die", "do", "echo", "else", "elseif", "empty",
    "enddeclare", "endfor", "endforeach", "endif", "endswitch", "endwhile", "eval", "exit",
    "extends", "final", "finally", "fn", "for", "foreach", "function", "if", "implements",
    "include", "include_once", "instanceof", "global", "goto", "insteadof", "interface", "isset",
    "list", "match", "namespace", "new", "object", "or", "parent", "print", "private", "protected",
    "public", "readonly", "require", "require_once", "return", "self", "static", "switch", "throw",
    "trait", "try", "unset", "use", "var", "while", "xor", "yield", "int", "float", "bool",
    "string", "true", "false", "null", "void", "iterable"]

/-- A text as a C string, which ends at the first null character. -/
def cString (s : Text) : Text := s.takeWhile (· ≠ '\x00')

/-- `is_reserved` without `previous`. -/
def isReserved (segment : Text) : Bool := isWord kReservedNames (toLower segment)

/-- `fill_prefix`; the prefix may be null. -/
def fillPrefix (segment : Text) (prefixGiven : Option Text) (package : Text) : Text :=
  let prefixText := cString (prefixGiven.getD [])
  if prefixText ≠ [] then prefixText
  else if isReserved segment then
    if package = "google.protobuf".toList then "GPB".toList else "PB".toList
  else []

/-- `fill_segment`. -/
def fillSegment (segment : Text) (useCamel : Bool) : Text :=
  match segment with
  | [] => []
  | c :: cs => if useCamel && (c < 'A' || 'Z' < c) then c.toUpper :: cs else c :: cs

/-- The segments that the loops of `fill_namespace` and `fill_classname` come to, behind the
characters `segment` of the current one; a loop ends where a segment would start at the end. -/
def segmentsFrom (segment : Text) : Text → List Text
  | [] => if segment.isEmpty then [] else [segment]
  | c :: cs => if c = '.' then segment :: segmentsFrom [] cs else segmentsFrom (segment ++ [c]) cs

/-- `fill_namespace`. -/
def fillNamespace (package : Text) (phpNamespace : Option Text) : Text :=
  match phpNamespace with
  | some s => if cString s ≠ [] then cString s ++ ['\\'] else []
  | none => (segmentsFrom [] package).flatMap fun s =>
      fillPrefix s (some []) package ++ fillSegment s true ++ ['\\']

/-- The loop of `fill_classname` over the segments. -/
def fillClassnameLoop (package : Text) (prefixGiven : Option Text) : List Text → Text
  | [] => []
  | [s] => fillPrefix s prefixGiven package ++ fillSegment s false
  | s :: ss => fillPrefix s prefixGiven package ++ fillSegment s false ++ ['\\'] ++
      fillClassnameLoop package prefixGiven ss

/-- `fill_classname`. -/
def fillClassname (fullname package : Text) (prefixGiven : Option Text) : Text :=
  let start := if package.length = 0 then 0 else package.length + 1
  fillClassnameLoop package prefixGiven (segmentsFrom [] (fullname.drop start))

/-- `GetPhpClassname`. -/
def getPhpClassname (d : Definition) : Text :=
  fillNamespace d.packageName d.options.phpNamespace ++
    fillClassname d.fullName d.packageName d.options.phpClassPrefix

end Extension

namespace Runtime

/-- `$reserved_words` of `GPBUtil::getClassNamePrefix`. -/
def reservedWords : List String :=
  ["abstract", "and", "array", "as", "break", "callable", "case", "catch", "class", "clone",
    "const", "continue", "declare", "default", "die", "do", "echo", "else", "elseif", "empty",
    "enddeclare", "endfor", "endforeach", "endif", "endswitch", "endwhile", "eval", "exit",
    "extends", "final", "finally", "fn", "for", "foreach", "function", "global", "goto", "if",
    "implements", "include", "include_once", "instanceof", "insteadof", "interface", "isset",
    "list", "match", "namespace", "new", "or", "parent", "print", "private", "protected",
    "public", "readonly", "require", "require_once", "return", "self", "static", "switch", "throw",
    "trait", "try", "unset", "use", "var", "while", "xor", "yield", "int", "float", "bool",
    "string", "true", "false", "null", "void", "iterable"]

/-- `GPBUtil::getClassNamePrefix`. -/
def getClassNamePrefix (classname : Text) (d : Definition) : Text :=
  let classPrefix := d.options.phpClassPrefix.getD []
  if classPrefix ≠ [] then classPrefix
  else if isWord reservedWords (toLower classname) then
    if d.packageName = "google.protobuf".toList then "GPB".toList else "PB".toList
  else []

/-- `GPBUtil::getClassNameWithoutPackage`. -/
def getClassNameWithoutPackage (name : Text) (d : Definition) : Text :=
  implode ['\\'] ((explode '.' name).map fun part => getClassNamePrefix part d ++ part)

/-- `ucwords`, from a place where a word starts or not. -/
def ucwordsFrom (start : Bool) : Text → Text
  | [] => []
  | c :: cs => (if start then c.toUpper else c) ::
      ucwordsFrom (c ∈ [' ', '\t', '\r', '\n', '\x0c', '\x0b']) cs

/-- `ucwords`. -/
def ucwords (s : Text) : Text := ucwordsFrom true s

/-- The `$classname` of `GPBUtil::getFullClassName`; `$containing` is the dotted name of the
containing messages. -/
def getFullClassName (d : Definition) : Text :=
  let containing := implode ['.'] (d.containing.map Subtype.val)
  let messageNameWithoutPackage :=
    if containing ≠ [] then containing ++ ['.'] ++ d.name.val else d.name.val
  let package := d.packageName
  let classNameWithoutPackage := getClassNameWithoutPackage messageNameWithoutPackage d
  match d.options.phpNamespace with
  | some phpNamespace =>
    if phpNamespace ≠ [] then phpNamespace ++ ['\\'] ++ classNameWithoutPackage
    else classNameWithoutPackage
  | none =>
    if package = [] then classNameWithoutPackage
    else
      let parts := (explode '.' package).map ucwords
      let parts := parts.map fun part => getClassNamePrefix part d ++ part
      implode ['\\'] parts ++ ['\\'] ++ getClassNamePrefix classNameWithoutPackage d ++
        classNameWithoutPackage

end Runtime

namespace Generator

/-- `kReservedNames` of the code generator. -/
def kReservedNames : List String :=
  ["abstract", "and", "array", "as", "break", "callable", "case", "catch", "class", "clone",
    "const", "continue", "declare", "default", "die", "do", "echo", "else", "elseif", "empty",
    "enddeclare", "endfor", "endforeach", "endif", "endswitch", "endwhile", "eval", "exit",
    "extends", "final", "finally", "fn", "for", "foreach", "function", "global", "goto", "if",
    "implements", "include", "include_once", "instanceof", "insteadof", "interface", "isset",
    "list", "match", "namespace", "new", "or", "parent", "print", "private", "protected",
    "public", "readonly", "require", "require_once", "return", "self", "static", "switch", "throw",
    "trait", "try", "unset", "use", "var", "while", "xor", "yield", "int", "float", "bool",
    "string", "true", "false", "null", "void", "iterable"]

/-- `IsReservedName`. -/
def isReservedName (name : Text) : Bool := isWord kReservedNames (toLower name)

/-- `ReservedNamePrefix`. -/
def reservedNamePrefix (classname : Text) (d : Definition) : Text :=
  if isReservedName classname then
    if d.packageName = "google.protobuf".toList then "GPB".toList else "PB".toList
  else []

/-- `ClassNamePrefixImpl`. -/
def classNamePrefixImpl (classname : Text) (d : Definition) : Text :=
  let classPrefix := d.options.phpClassPrefix.getD []
  if classPrefix ≠ [] then classPrefix else reservedNamePrefix classname d

/-- `GeneratedClassNameImpl`: the containing messages are added from the innermost on. -/
def generatedClassNameImpl (d : Definition) : Text :=
  d.containing.reverse.foldl
    (fun classname containing =>
      classNamePrefixImpl containing.val d ++ containing.val ++ ['\\'] ++ classname)
    (classNamePrefixImpl d.name.val d ++ d.name.val)

/-- `PhpNamePrefix`. -/
def phpNamePrefix (classname : Text) : Text :=
  if isReservedName classname then "PB".toList else []

/-- The loop of `PhpName` of a file that is not `descriptor.proto`. -/
def phpNameLoop (result segment : Text) (capNextLetter : Bool) : Text → Text
  | [] => result ++ phpNamePrefix segment ++ segment
  | c :: cs =>
    if 'a' ≤ c ∧ c ≤ 'z' ∧ capNextLetter then phpNameLoop result (segment ++ [c.toUpper]) false cs
    else if c = '.' then phpNameLoop (result ++ phpNamePrefix segment ++ segment ++ ['\\']) [] true cs
    else phpNameLoop result (segment ++ [c]) false cs

/-- `PhpName`. -/
def phpName (fullName : Text) : Text := phpNameLoop [] [] true fullName

/-- `RootPhpNamespace`. -/
def rootPhpNamespace (d : Definition) : Text :=
  match d.options.phpNamespace with
  | some s => if s ≠ [] then s else []
  | none => if d.packageName ≠ [] then phpName d.packageName else []

/-- `FullClassName`. -/
def fullClassName (d : Definition) : Text :=
  let classname := generatedClassNameImpl d
  let phpNamespace := rootPhpNamespace d
  if phpNamespace ≠ [] then phpNamespace ++ ['\\'] ++ classname else classname

end Generator

end Upb.Php
