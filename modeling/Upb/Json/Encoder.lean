import Upb.Common.DecimalText

/-!
# The JSON encoder's output

`upb/json/encode.c` writes its text through `jsonenc_putbytes`, `jsonenc_putstr` and `jsonenc_printf`, and
gives up with `jsonenc_err`. Nothing else of it looks at the output buffer, so an encoding is the list of
its writes, and the error that ends it.
-/

namespace Upb.Json

open Common

/-- A write of the encoder. -/
inductive Write where
  /-- `jsonenc_putbytes` and `jsonenc_putstr`. -/
  | putbytes (data : List UInt8)
  /-- `jsonenc_printf`, with the text that the format and its arguments stand for. -/
  | printf (text : List UInt8)

/-- The text of a write. -/
def Write.text : Write → List UInt8
  | .putbytes data => data
  | .printf text => text

/-- The writes of an encoding, and the message of the error that ends it. -/
structure Encoding where
  writes : List Write
  error : Option String

namespace Encoding

/-- The complete text. -/
def text (e : Encoding) : List UInt8 := e.writes.flatMap Write.text

/-- What the encoder writes next; an error ends the encoding. -/
def append (e e' : Encoding) : Encoding :=
  match e.error with
  | some _ => e
  | none => ⟨e.writes ++ e'.writes, e'.error⟩

instance : Append Encoding := ⟨append⟩

/-- An encoding that writes nothing. -/
def empty : Encoding := ⟨[], none⟩

theorem append_of_ok {e : Encoding} (h : e.error = none) (e' : Encoding) :
    e ++ e' = ⟨e.writes ++ e'.writes, e'.error⟩ := by
  change append e e' = _
  rw [append, h]

/-- Both parts of an encoding without error end well. -/
theorem error_append {e e' : Encoding} : (e ++ e').error = none ↔ e.error = none ∧ e'.error = none := by
  change (append e e').error = none ↔ _
  unfold append
  cases h : e.error with
  | none => simp
  | some msg => simp [h]

theorem text_append {e : Encoding} (h : e.error = none) (e' : Encoding) :
    (e ++ e').text = e.text ++ e'.text := by
  rw [append_of_ok h, text, List.flatMap_append]
  rfl

end Encoding

/-- `jsonenc_err`. -/
def jsonencErr (msg : String) : Encoding := ⟨[], some msg⟩

/-- `jsonenc_putbytes`. -/
def jsonencPutbytes (data : List UInt8) : Encoding := ⟨[.putbytes data], none⟩

/-- `jsonenc_putstr`. -/
def jsonencPutstr (str : List Char) : Encoding := jsonencPutbytes (str.map ascii)

/-- `jsonenc_printf`. -/
def jsonencPrintf (text : List UInt8) : Encoding := ⟨[.printf text], none⟩

@[simp] theorem error_jsonencPutbytes (data : List UInt8) : (jsonencPutbytes data).error = none := rfl

@[simp] theorem error_jsonencPutstr (str : List Char) : (jsonencPutstr str).error = none := rfl

@[simp] theorem error_jsonencPrintf (text : List UInt8) : (jsonencPrintf text).error = none := rfl

@[simp] theorem text_jsonencPutbytes (data : List UInt8) : (jsonencPutbytes data).text = data :=
  List.append_nil data

@[simp] theorem text_jsonencPutstr (str : List Char) : (jsonencPutstr str).text = str.map ascii :=
  List.append_nil _

@[simp] theorem text_jsonencPrintf (text : List UInt8) : (jsonencPrintf text).text = text :=
  List.append_nil text

/-- The conversion `%d` with a precision: a sign, and digits up to the precision. -/
def formatInt (precision : ℕ) (z : ℤ) : List UInt8 :=
  (if z < 0 then [ascii '-'] else []) ++ decimal precision z.natAbs

/-- The conversion `%0Nd`: zeros between the sign and the digits up to the width. -/
def formatPadded (width : ℕ) (z : ℤ) : List UInt8 :=
  if z < 0 then ascii '-' :: decimal (width - 1) z.natAbs else decimal width z.natAbs

theorem formatInt_of_nonneg (precision : ℕ) {z : ℤ} (h : 0 ≤ z) :
    formatInt precision z = decimal precision z.toNat := by
  rw [formatInt, if_neg (by omega), show z.natAbs = z.toNat by omega]
  rfl

/-- A number that fills at most the width. -/
theorem formatPadded_of_lt {width n : ℕ} (hwidth : 0 < width) (h : n < 10 ^ width) :
    formatPadded width n = lastDigits width n := by
  rw [formatPadded, if_neg (by omega), Int.natAbs_natCast, decimal_of_lt hwidth h]

/-- `jsonenc_putsep`. -/
def jsonencPutsep (str : List Char) (first : Bool) : Encoding :=
  if first then .empty else jsonencPutstr str

/-- The options of the encoder that are read here. -/
structure EncodeOptions where
  useProtoNames : Bool
  formatEnumsAsIntegers : Bool

/-- The names of a field. -/
structure FieldDef where
  isExtension : Bool
  fullName : List UInt8
  name : List UInt8
  jsonName : List UInt8

/-- The full name of an enum, and the numbers and names of its values. -/
structure EnumDef where
  fullName : List UInt8
  values : List (ℤ × List UInt8)

/-- `upb_EnumDef_FindValueByNumber`. -/
def EnumDef.findValueByNumber (e : EnumDef) (val : ℤ) : Option (List UInt8) :=
  (e.values.find? fun v => v.1 = val).map Prod.snd

/-- "google.protobuf.NullValue". -/
def nullValueName : List UInt8 :=
  ['g', 'o', 'o', 'g', 'l', 'e', '.', 'p', 'r', 'o', 't', 'o', 'b', 'u', 'f', '.',
    'N', 'u', 'l', 'l', 'V', 'a', 'l', 'u', 'e'].map ascii

/-- `jsonenc_enum`. -/
def jsonencEnum (options : EncodeOptions) (e : EnumDef) (val : ℤ) : Encoding :=
  if e.fullName = nullValueName then jsonencPutstr ['n', 'u', 'l', 'l']
  else
    match if options.formatEnumsAsIntegers then none else e.findValueByNumber val with
    | some name => jsonencPrintf (ascii '"' :: name ++ [ascii '"'])
    | none => jsonencPrintf (formatInt 1 val)

/-- `jsonenc_fieldval`, with what it writes for the value. -/
def jsonencFieldval (options : EncodeOptions) (f : FieldDef) (value : Encoding) (first : Bool) : Encoding :=
  jsonencPutsep [','] first ++
    (if f.isExtension then jsonencPrintf (['"', '['].map ascii ++ f.fullName ++ [']', '"', ':'].map ascii)
    else jsonencPrintf (ascii '"' :: (if options.useProtoNames then f.name else f.jsonName) ++
      ['"', ':'].map ascii)) ++
    value

/-- `jsonenc_msgfields`, for the fields it visits. -/
def jsonencMsgfields (options : EncodeOptions) : List (FieldDef × Encoding) → Bool → Encoding
  | [], _ => .empty
  | (f, value) :: fields, first =>
    jsonencFieldval options f value first ++ jsonencMsgfields options fields false

/-- `jsonenc_msg`. -/
def jsonencMsg (options : EncodeOptions) (fields : List (FieldDef × Encoding)) : Encoding :=
  jsonencPutstr ['{'] ++ jsonencMsgfields options fields true ++ jsonencPutstr ['}']

end Upb.Json
