import Mathlib.Tactic.Linarith
import Mathlib.Tactic.Ring
import Upb.Php.VarintSizes

/-!
# Predicted and written sizes of messages

A message, an entry of a map and a packed field have a length in front of them, which is predicted
before they are written. Each of them is as long as predicted exactly when the excesses of what is
directly in it add up to nothing.
-/

namespace Upb.Php

variable {κ : Type}

/-- What has a length in front of it: a message, an entry of a map or a packed field. -/
inductive Part (κ : Type) where
  | message (klass : κ) (contents : List (Datum κ)) (unknown : List UInt8)
  | entry (key : ScalarType) (value : FieldType κ) (k : Scalar) (d : Datum κ)
  | packed (type : FieldType κ) (elements : List (Datum κ))

section Definitions

variable (pool : κ → List (FieldDescriptor κ))

namespace Part

/-- The size that is predicted for it. -/
def size : Part κ → ℕ
  | .message klass contents unknown => fieldsByteSize pool (pool klass) contents + unknown.length
  | .entry key value k d =>
    scalarByteSize (keyField key : FieldDescriptor κ) key k + fieldByteSize pool (valueField value) d
  | .packed type elements => elementsByteSize pool type elements

/-- What is written of it. -/
def written : Part κ → List (List UInt8)
  | .message klass contents unknown => serializeFields pool (pool klass) contents ++ [unknown]
  | .entry key value k d =>
    serializeScalar (keyField key : FieldDescriptor κ) key k ++ serializeField pool (valueField value) d ++ [[]]
  | .packed type elements => serializeElements pool none type elements

/-- It is as long as predicted. -/
def Right (part : Part κ) : Prop := (part.written pool).flatten.length = part.size pool

end Part

mutual

/-- The parts of the fields of an object. -/
def fieldsParts : List (FieldDescriptor κ) → List (Datum κ) → List (Part κ)
  | field :: fields, content :: contents => fieldParts field content ++ fieldsParts fields contents
  | _, _ => []

/-- The parts of a field. -/
def fieldParts (field : FieldDescriptor κ) : Datum κ → List (Part κ)
  | .null => []
  | .scalar _ => []
  | .message klass contents unknown => .message klass contents unknown :: fieldsParts (pool klass) contents
  | .repeated elements =>
    match field.kind with
    | .repeated type packed =>
      if elements.isEmpty then []
      else if packed then .packed type elements :: elementsParts elements
      else elementsParts elements
    | _ => []
  | .map entries =>
    match field.kind with
    | .map key value => entriesParts key value entries
    | _ => []

/-- The parts of an element. -/
def dataParts : Datum κ → List (Part κ)
  | .message klass contents unknown => .message klass contents unknown :: fieldsParts (pool klass) contents
  | _ => []

/-- The parts of the elements of a repeated field. -/
def elementsParts : List (Datum κ) → List (Part κ)
  | [] => []
  | d :: elements => dataParts d ++ elementsParts elements

/-- The parts of the entries of a map. -/
def entriesParts (key : ScalarType) (value : FieldType κ) : List (Scalar × Datum κ) → List (Part κ)
  | [] => []
  | (k, d) :: entries => .entry key value k d :: fieldParts (valueField value) d ++ entriesParts key value entries

end

/-- The excess of a singular scalar field. -/
def scalarExcess (field : FieldDescriptor κ) (type : ScalarType) (v : Scalar) : ℤ :=
  if field.existScalar type v then type.excess v else 0

/-- The excess of an element: of a scalar, or of the length of a message. -/
def dataExcess (type : FieldType κ) : Datum κ → ℤ
  | .scalar v =>
    match type with
    | .scalar type => type.excess v
    | .message _ => 0
  | .message klass contents unknown => lengthExcess ((Part.message klass contents unknown).size pool)
  | _ => 0

/-- The excess of a field without what is inside of its parts. -/
def fieldExcess (field : FieldDescriptor κ) : Datum κ → ℤ
  | .null => 0
  | .scalar v =>
    match field.kind with
    | .singular (.scalar type) _ => scalarExcess field type v
    | _ => 0
  | .message klass contents unknown => lengthExcess ((Part.message klass contents unknown).size pool)
  | .repeated elements =>
    match field.kind with
    | .repeated type packed =>
      if elements.isEmpty then 0
      else if packed then lengthExcess ((Part.packed type elements).size pool)
      else (elements.map (dataExcess pool type)).sum
    | _ => 0
  | .map entries =>
    match field.kind with
    | .map key value => (entries.map fun (k, d) => lengthExcess ((Part.entry key value k d).size pool)).sum
    | _ => 0

/-- The excess of what is directly in a part. -/
def Part.excess : Part κ → ℤ
  | .message klass contents _ => (List.zipWith (fieldExcess pool) (pool klass) contents).sum
  | .entry key value k d =>
    scalarExcess (keyField key : FieldDescriptor κ) key k + fieldExcess pool (valueField value) d
  | .packed type elements => (elements.map (dataExcess pool type)).sum

/-- The parts of an object, and the object itself. -/
def objectParts (klass : κ) (object : Properties κ) : List (Part κ) :=
  .message klass object.contents object.unknown :: fieldsParts pool (pool klass) object.contents

/-- Every size is predicted as it is written, and the buffer is filled. -/
def SizesExact (klass : κ) (object : Properties κ) : Prop :=
  (∀ part ∈ objectParts pool klass object, part.Right pool) ∧
    serializeToString pool (pool klass) object = (serializeToStream pool (pool klass) object).flatten

/-- The excesses in each part add up to nothing. -/
def Balanced (klass : κ) (object : Properties κ) : Prop :=
  ∀ part ∈ objectParts pool klass object, part.excess pool = 0

end Definitions

section Scalars

/-- The tag of a field with a number that is allowed. -/
theorem toNat_makeTag {number w : ℕ} (hn : number < 2 ^ 29) (hw : w < 8) :
    (makeTag number w).toNat = number * 8 + w := by
  have hor := Nat.two_pow_add_eq_or_of_lt (i := 3) (b := w) hw number
  rw [makeTag, BitVec.toNat_or, BitVec.toNat_shiftLeft, BitVec.toNat_ofNat, BitVec.toNat_ofNat,
    Nat.shiftLeft_eq, Nat.mod_eq_of_lt (show number < 2 ^ 64 by omega),
    Nat.mod_eq_of_lt (show w < 2 ^ 64 by omega), Nat.mod_eq_of_lt (show number * 2 ^ 3 < 2 ^ 64 by omega),
    Nat.mul_comm, ← hor]
  omega

theorem wireType_lt (field : FieldDescriptor κ) : field.wireType < 8 := by
  have htype : ∀ type : FieldType κ, type.wireType < 8 := by
    intro type
    cases type with
    | scalar type => cases type <;> simp [FieldType.wireType, ScalarType.getWireType]
    | message klass => simp [FieldType.wireType]
  rw [FieldDescriptor.wireType]
  split
  · exact htype _
  · exact htype _
  · decide

/-- The wire type does not change the size of a tag. -/
theorem length_makeTag {number w w' : ℕ} (hn : number < 2 ^ 29) (hw : w < 8) (hw' : w' < 8) :
    (writeVarintToArray (makeTag number w')).length = varint32Size (makeTag number w).toInt false := by
  have htag := toNat_makeTag hn hw
  have htag' := toNat_makeTag hn hw'
  have hint : ∀ {v : PhpInt}, v.toNat < 2 ^ 35 → v.toInt = v.toNat := by
    intro v hv
    rw [BitVec.toInt_eq_toNat_cond, if_pos (by omega)]
  rw [length_write_varint32Size (by omega), hint (by omega), hint (by omega), htag, htag', varint32Size,
    varint32Size]
  split_ifs <;> omega

theorem length_tag {field : FieldDescriptor κ} (hn : field.number < 2 ^ 29) :
    field.tag.length = field.tagSize :=
  length_makeTag hn (wireType_lt field) (wireType_lt field)

theorem length_packedTag {field : FieldDescriptor κ} (hn : field.number < 2 ^ 29) :
    field.packedTag.length = field.tagSize :=
  length_makeTag hn (wireType_lt field) (by decide)

/-- A number of 32 bits that keeps all its bits. -/
theorem length_write_of_nonneg {v : PhpInt} {signExtended : Bool} (h : ¬v.toInt < 0) :
    ((writeVarintToArray v).length : ℤ) = varint32Size v.toInt signExtended + lengthExcess v.toNat := by
  rw [length_writeVarintToArray, (toInt_eq_toNat h).1, varint32Size_natCast, lengthExcess,
    Nat.mod_eq_of_lt v.isLt]
  push_cast
  ring

/-- A scalar is written with its excess. -/
theorem length_write (type : ScalarType) (v : Scalar) :
    ((type.write v).flatten.length : ℤ) = type.byteSize v + type.excess v := by
  have hsigned : ((writeVarintToArray v.toInt).length : ℤ) = varint32Size v.toInt.toInt true +
      if v.toInt.toInt < 0 then 0 else lengthExcess v.toInt.toNat := by
    split
    next h => rw [length_writeVarintToArray, log_of_negative h, varint32Size, if_pos h]; rfl
    next h => exact length_write_of_nonneg h
  have hstring : (((writeVarintToArray (BitVec.ofNat 64 v.toStr.length)) ++ v.toStr).length : ℤ) =
      v.toStr.length + varint32Size v.toStr.length false + lengthExcess v.toStr.length := by
    have hsize := length_writeSize v.toStr.length
    rw [writeSize] at hsize
    rw [List.length_append, Nat.cast_add, hsize]
    ring
  cases type with
  | double => cases v <;> simp [ScalarType.write, ScalarType.byteSize, ScalarType.excess]
  | float => cases v <;> simp [ScalarType.write, ScalarType.byteSize, ScalarType.excess]
  | int64 | uint64 =>
    simp only [ScalarType.write, ScalarType.byteSize, ScalarType.excess, List.flatten_singleton, add_zero,
      length_write_varint64Size]
  | int32 | enum =>
    simp only [ScalarType.write, ScalarType.byteSize, ScalarType.excess, List.flatten_singleton, hsigned]
  | fixed64 | sfixed64 | fixed32 | sfixed32 =>
    simp [ScalarType.write, ScalarType.byteSize, ScalarType.excess]
  | bool =>
    simp only [ScalarType.write, ScalarType.byteSize, ScalarType.excess, List.flatten_singleton, add_zero]
    split <;> rfl
  | string | bytes =>
    simp only [ScalarType.write, ScalarType.byteSize, ScalarType.excess, List.flatten_cons, List.flatten_nil,
      List.append_nil, hstring, Nat.cast_add]
  | uint32 =>
    simp only [ScalarType.write, ScalarType.byteSize, ScalarType.excess, List.flatten_singleton]
    split
    next h =>
      rw [length_writeVarintToArray, varint32Size, if_pos h]
      push_cast
      ring
    next h => exact length_write_of_nonneg h
  | sint32 =>
    have hlt : (zigZagEncode32 v.toInt).toNat < 2 ^ 35 := by
      rw [zigZagEncode32, BitVec.toNat_and]
      exact lt_of_le_of_lt Nat.and_le_right (by decide)
    simp only [ScalarType.write, ScalarType.byteSize, ScalarType.excess, List.flatten_singleton, add_zero,
      length_write_varint32Size hlt]
  | sint64 =>
    simp only [ScalarType.write, ScalarType.byteSize, ScalarType.excess, List.flatten_singleton, add_zero,
      length_write_varint64Size]

end Scalars

section Parts

variable {pool : κ → List (FieldDescriptor κ)} {field : FieldDescriptor κ}

theorem length_serializeScalar (hn : field.number < 2 ^ 29) (type : ScalarType) (v : Scalar) :
    ((serializeScalar field type v).flatten.length : ℤ) = scalarByteSize field type v + scalarExcess field type v := by
  rw [serializeScalar, scalarByteSize, scalarExcess]
  split
  · rw [List.flatten_cons, List.length_append, length_tag hn, Nat.cast_add, length_write]
    push_cast
    ring
  · rfl

/-- A part with its length in front of it. -/
theorem Part.Right.length_delimited {part : Part κ} (h : part.Right pool) :
    ((writeSize (part.size pool)).length + (part.written pool).flatten.length : ℤ) =
      delimitedSize (part.size pool) + lengthExcess (part.size pool) := by
  rw [length_writeSize, h, delimitedSize]
  push_cast
  ring

theorem length_serializeData (type : FieldType κ) {d : Datum κ} (h : ∀ part ∈ dataParts pool d, part.Right pool) :
    ((serializeData pool type d).flatten.length : ℤ) = dataByteSize pool type d + dataExcess pool type d := by
  cases d with
  | scalar v =>
    cases type with
    | scalar type => exact length_write type v
    | message klass => rfl
  | message klass contents unknown =>
    have hright := (h _ (List.mem_cons_self)).length_delimited
    rw [serializeData, dataByteSize, dataExcess]
    simp only [Part.size, Part.written] at hright
    simp only [List.flatten_cons, List.length_append, Nat.cast_add, Part.size] at hright ⊢
    exact hright
  | null | repeated | map => rfl

theorem length_serializeElements (tagged : Option (FieldDescriptor κ))
    (hn : ∀ f ∈ tagged, f.number < 2 ^ 29) (type : FieldType κ) {elements : List (Datum κ)}
    (h : ∀ part ∈ elementsParts pool elements, part.Right pool) :
    ((serializeElements pool tagged type elements).flatten.length : ℤ) =
      elements.length * ((tagged.map FieldDescriptor.tagSize).getD 0 : ℕ) + elementsByteSize pool type elements +
        (elements.map (dataExcess pool type)).sum := by
  induction elements with
  | nil => simp [serializeElements, elementsByteSize]
  | cons d elements ih =>
    rw [elementsParts] at h
    have hdata := length_serializeData type fun part hpart => h part (List.mem_append_left _ hpart)
    have hrest := ih fun part hpart => h part (List.mem_append_right _ hpart)
    have htag : (((tagged.map FieldDescriptor.tag).toList.flatten.length : ℕ) : ℤ) =
        ((tagged.map FieldDescriptor.tagSize).getD 0 : ℕ) := by
      cases tagged with
      | none => rfl
      | some f => simp [length_tag (hn f rfl)]
    rw [serializeElements, elementsByteSize]
    simp only [List.flatten_append, List.length_append, List.length_cons, List.map_cons, List.sum_cons,
      Nat.cast_add, hdata, hrest, htag]
    push_cast
    ring

theorem length_serializeEntries (hn : field.number < 2 ^ 29) {key : ScalarType} {value : FieldType κ}
    {entries : List (Scalar × Datum κ)} (h : ∀ part ∈ entriesParts pool key value entries, part.Right pool) :
    ((serializeEntries pool field key value entries).flatten.length : ℤ) =
      entries.length * field.tagSize + entriesByteSize pool key value entries +
        (entries.map fun (k, d) => lengthExcess ((Part.entry key value k d).size pool)).sum := by
  induction entries with
  | nil => simp [serializeEntries, entriesByteSize]
  | cons entry entries ih =>
    obtain ⟨k, d⟩ := entry
    rw [entriesParts] at h
    have hentry := (h _ List.mem_cons_self).length_delimited
    have hrest := ih fun part hpart => h part (List.mem_cons_of_mem _ (List.mem_append_right _ hpart))
    rw [serializeEntries, entriesByteSize]
    simp only [Part.size, Part.written] at hentry
    simp only [List.flatten_append, List.flatten_cons, List.length_append, List.length_cons, List.map_cons,
      List.sum_cons, Nat.cast_add, hrest, length_tag hn, Part.size] at hentry ⊢
    push_cast at hentry ⊢
    linarith

/-- A field is written with its excess, if its parts are as long as predicted. -/
theorem length_serializeField (hn : field.number < 2 ^ 29) {content : Datum κ}
    (h : ∀ part ∈ fieldParts pool field content, part.Right pool) :
    ((serializeField pool field content).flatten.length : ℤ) =
      fieldByteSize pool field content + fieldExcess pool field content := by
  cases content with
  | null => rfl
  | scalar v =>
    rw [serializeField, fieldByteSize, fieldExcess]
    cases hkind : field.kind with
    | singular type i =>
      cases type with
      | scalar type => exact length_serializeScalar hn type v
      | message klass => rfl
    | repeated | map => rfl
  | message klass contents unknown =>
    have hright := (h _ List.mem_cons_self).length_delimited
    rw [serializeField, fieldByteSize, fieldExcess]
    simp only [Part.size, Part.written] at hright
    simp only [List.flatten_cons, List.length_append, Nat.cast_add, length_tag hn, Part.size] at hright ⊢
    linarith
  | repeated elements =>
    rw [fieldParts] at h
    rw [serializeField, fieldByteSize, fieldExcess]
    cases hkind : field.kind with
    | repeated type packed =>
      rw [hkind] at h
      dsimp only at h ⊢
      split_ifs at h ⊢ with hempty hpacked
      · rfl
      · have hright := (h _ List.mem_cons_self).length_delimited
        simp only [Part.size, Part.written] at hright
        simp only [List.flatten_cons, List.length_append, Nat.cast_add, length_packedTag hn, Part.size] at hright ⊢
        linarith
      · have helements := length_serializeElements (some field) (by rintro _ ⟨⟩; exact hn) type h
        rw [helements]
        push_cast
        rfl
    | singular | map => rfl
  | map entries =>
    rw [fieldParts] at h
    rw [serializeField, fieldByteSize, fieldExcess]
    cases hkind : field.kind with
    | map key value =>
      rw [hkind] at h
      have hentries := length_serializeEntries hn h
      dsimp only
      rw [hentries]
      push_cast
      rfl
    | singular | repeated => rfl

theorem length_serializeFields {fields : List (FieldDescriptor κ)} (hn : ∀ f ∈ fields, f.number < 2 ^ 29)
    {contents : List (Datum κ)} (h : ∀ part ∈ fieldsParts pool fields contents, part.Right pool) :
    ((serializeFields pool fields contents).flatten.length : ℤ) =
      fieldsByteSize pool fields contents + (List.zipWith (fieldExcess pool) fields contents).sum := by
  induction fields generalizing contents with
  | nil => cases contents <;> rfl
  | cons field fields ih =>
    cases contents with
    | nil => rfl
    | cons content contents =>
      rw [fieldsParts] at h
      have hfield := length_serializeField (hn field List.mem_cons_self) fun part hpart =>
        h part (List.mem_append_left _ hpart)
      have hrest := ih (fun f hf => hn f (List.mem_cons_of_mem _ hf)) fun part hpart =>
        h part (List.mem_append_right _ hpart)
      rw [serializeFields, fieldsByteSize]
      simp only [List.flatten_append, List.length_append, Nat.cast_add, List.zipWith_cons_cons, List.sum_cons,
        hfield, hrest]
      ring

/-- The parts inside of a part. -/
def Part.inner (pool : κ → List (FieldDescriptor κ)) : Part κ → List (Part κ)
  | .message klass contents _ => fieldsParts pool (pool klass) contents
  | .entry _ value _ d => fieldParts pool (valueField value) d
  | .packed _ elements => elementsParts pool elements

/-- A part is written with its excess, if the parts inside of it are as long as predicted. -/
theorem Part.length_written (hpool : ∀ klass, ∀ f ∈ pool klass, f.number < 2 ^ 29) {part : Part κ}
    (h : ∀ q ∈ part.inner pool, q.Right pool) :
    ((part.written pool).flatten.length : ℤ) = part.size pool + part.excess pool := by
  cases part with
  | message klass contents unknown =>
    have hfields := length_serializeFields (hpool klass) h
    simp only [written, size, excess, List.flatten_append, List.length_append, List.flatten_singleton,
      Nat.cast_add, hfields]
    ring
  | entry key value k d =>
    have hkey := @length_serializeScalar κ (keyField key) (show 1 < 2 ^ 29 by decide) key k
    have hvalue := @length_serializeField κ pool (valueField value) (show 2 < 2 ^ 29 by decide) d h
    simp only [written, size, excess, List.flatten_append, List.length_append, List.flatten_singleton,
      List.length_nil, Nat.cast_add, hkey, hvalue]
    push_cast
    ring
  | packed type elements =>
    have helements := length_serializeElements none nofun type h
    simp only [written, size, excess, helements]
    simp

/-- In these parts, sizes are exact when the excesses add up to nothing. -/
def Exact (pool : κ → List (FieldDescriptor κ)) (parts : List (Part κ)) : Prop :=
  (∀ part ∈ parts, part.Right pool) ↔ ∀ part ∈ parts, part.excess pool = 0

theorem Exact.nil : Exact pool [] := by simp [Exact]

theorem Exact.append {l l' : List (Part κ)} (h : Exact pool l) (h' : Exact pool l') : Exact pool (l ++ l') := by
  rw [Exact, List.forall_mem_append, List.forall_mem_append]
  exact and_congr h h'

theorem Exact.cons (hpool : ∀ klass, ∀ f ∈ pool klass, f.number < 2 ^ 29) (part : Part κ)
    (h : Exact pool (part.inner pool)) : Exact pool (part :: part.inner pool) := by
  rw [Exact, List.forall_mem_cons, List.forall_mem_cons]
  have hpart : (∀ q ∈ part.inner pool, q.Right pool) → (part.Right pool ↔ part.excess pool = 0) := by
    intro hinner
    have hlength := Part.length_written hpool hinner
    rw [Part.Right]
    omega
  constructor
  · rintro ⟨hright, hinner⟩
    exact ⟨(hpart hinner).mp hright, h.mp hinner⟩
  · rintro ⟨hzero, hinner⟩
    exact ⟨(hpart (h.mpr hinner)).mpr hzero, h.mpr hinner⟩

section Induction

set_option linter.unusedSectionVars false

variable (hpool : ∀ klass, ∀ f ∈ pool klass, f.number < 2 ^ 29)
include hpool

mutual

theorem exact_fieldsParts (fields : List (FieldDescriptor κ)) : (contents : List (Datum κ)) →
    Exact pool (fieldsParts pool fields contents)
  | [] => by
    cases fields <;> exact .nil
  | content :: contents => by
    cases fields with
    | nil => exact .nil
    | cons field fields => exact (exact_fieldParts field content).append (exact_fieldsParts fields contents)

theorem exact_fieldParts (field : FieldDescriptor κ) : (content : Datum κ) →
    Exact pool (fieldParts pool field content)
  | .null => .nil
  | .scalar _ => .nil
  | .message klass contents unknown => Exact.cons hpool (.message klass contents unknown)
      (exact_fieldsParts (pool klass) contents)
  | .repeated elements => by
    rw [fieldParts]
    cases field.kind with
    | repeated type packed =>
      dsimp only
      split_ifs
      · exact .nil
      · exact Exact.cons hpool (.packed type elements) (exact_elementsParts elements)
      · exact exact_elementsParts elements
    | singular | map => exact .nil
  | .map entries => by
    rw [fieldParts]
    cases field.kind with
    | map key value => exact exact_entriesParts key value entries
    | singular | repeated => exact .nil

theorem exact_dataParts : (d : Datum κ) → Exact pool (dataParts pool d)
  | .message klass contents unknown => Exact.cons hpool (.message klass contents unknown)
      (exact_fieldsParts (pool klass) contents)
  | .null => .nil
  | .scalar _ => .nil
  | .repeated _ => .nil
  | .map _ => .nil

theorem exact_elementsParts : (elements : List (Datum κ)) → Exact pool (elementsParts pool elements)
  | [] => .nil
  | d :: elements => (exact_dataParts d).append (exact_elementsParts elements)

theorem exact_entriesParts (key : ScalarType) (value : FieldType κ) : (entries : List (Scalar × Datum κ)) →
    Exact pool (entriesParts pool key value entries)
  | [] => .nil
  | (k, d) :: entries =>
    (Exact.cons hpool (.entry key value k d) (exact_fieldParts (valueField value) d)).append
      (exact_entriesParts key value entries)

end

end Induction

/-- A buffer that is long enough takes everything. -/
theorem CodedOutputStream.writeRaw_eq {pieces : List (List UInt8)} {written : List UInt8} {size : ℕ}
    (h : pieces.flatten.length ≤ size) :
    CodedOutputStream.writeRaw ⟨written, size⟩ pieces =
      ⟨written ++ pieces.flatten, size - pieces.flatten.length⟩ := by
  induction pieces generalizing written size with
  | nil => simp [CodedOutputStream.writeRaw]
  | cons data rest ih =>
    rw [List.flatten_cons, List.length_append] at h
    rw [CodedOutputStream.writeRaw, if_neg (by dsimp only; omega), ih (by dsimp only; omega)]
    simp [Nat.sub_sub]

/-- The buffer has exactly the bytes that are written. -/
theorem serializeToString_eq {klass : κ} {object : Properties κ}
    (h : (Part.message klass object.contents object.unknown).Right pool) :
    serializeToString pool (pool klass) object = (serializeToStream pool (pool klass) object).flatten := by
  have hsize : (serializeToStream pool (pool klass) object).flatten.length = byteSize pool (pool klass) object := h
  rw [serializeToString, CodedOutputStream.writeRaw_eq hsize.le, hsize, Nat.sub_self]
  simp [CodedOutputStream.getData]

end Parts

/-- A class with one `int32` field. -/
def oneInt32 : Unit → List (FieldDescriptor Unit) := fun _ => [⟨1, .singular (.scalar .int32) none⟩]

theorem oneInt32_number : ∀ klass, ∀ f ∈ oneInt32 klass, f.number < 2 ^ 29 := by
  intro klass f hf
  rw [List.mem_singleton.mp hf]
  decide

end Upb.Php
