import Upb.Php.UnknownFields

/-!
# Which unknown fields pass through unchanged

A record that a class does not declare is kept and written again with the same bytes, unless the sign
of its tag as a number of 32 bits makes the tag ten bytes long.
-/

namespace Upb.Php

open Upb.Wire (IsVarint leb leb_lt)

open CodedInputStream (toInt32 after_advance inBuffer_new rest_new)

namespace Record

variable (r : Record)

theorem tag_length : r.tag.length ≤ 5 := by
  have hmin := Upb.Wire.isMinimal_longvarint (n := 5) (by omega) (show r.number * 8 + r.wireType < 2 ^ (5 * 7) by
    have := r.tag_lt
    omega)
  obtain ⟨hsplit, hvalue, -⟩ := hmin
  have hle := r.minimal.2.2 _ hsplit hvalue
  have hfive := hsplit.length_le
  obtain ⟨hsplit', -⟩ := @Upb.Wire.splitVarint_longvarint 5 5 (r.number * 8 + r.wireType) le_rfl
    (by have := r.tag_lt; omega) (by omega) []
  have := (Upb.Wire.splitVarint_length hsplit').2
  omega

theorem isVarint_tag : IsVarint 10 r.tag :=
  isVarint_mono r.minimal.1 (by have := r.tag_length; omega)

/-- The tag is kept when it is not negative as a number of 32 bits. -/
theorem kept_of_lt (h : r.number < 2 ^ 28) : r.kept = r.bytes := by
  have hlt : r.number * 8 + r.wireType < 2 ^ 31 := by
    have := r.wireType_lt
    omega
  have hread : r.readTag.toNat = r.number * 8 + r.wireType := by
    rw [readTag, toNat_toInt32, BitVec.toNat_ofNat]
    split <;> omega
  rw [kept, bytes, write_of_isMinimal (hread ▸ r.minimal)]

/-- Any other tag gets ten bytes. -/
theorem length_kept_of_ge (h : 2 ^ 28 ≤ r.number) : r.bytes.length < r.kept.length := by
  have hread : 2 ^ 63 ≤ r.readTag.toNat := by
    have := r.tag_lt
    rw [readTag, toNat_toInt32, BitVec.toNat_ofNat]
    split <;> omega
  have hvalue := (isMinimal_write r.readTag).2.1
  have hlt := leb_lt (writeVarintToArray r.readTag)
  have hlength : 10 ≤ (writeVarintToArray r.readTag).length := by
    by_contra hle
    have hpow : 2 ^ ((writeVarintToArray r.readTag).length * 7) ≤ 2 ^ 63 :=
      Nat.pow_le_pow_right (by omega) (by omega)
    omega
  have htag := r.tag_length
  rw [kept, bytes, List.length_append, List.length_append]
  omega

theorem length_bytes_pos : 0 < r.bytes.length := by
  have := r.isVarint_tag.length_pos
  rw [bytes, List.length_append]
  omega

end Record

/-- Records are kept as they are exactly when no tag has a sign. -/
theorem flatMap_kept_iff (records : List Record) :
    records.flatMap Record.kept = records.flatMap Record.bytes ↔ ∀ r ∈ records, r.number < 2 ^ 28 := by
  have hle : ∀ r : Record, r.bytes.length ≤ r.kept.length := by
    intro r
    by_cases h : r.number < 2 ^ 28
    · rw [r.kept_of_lt h]
    · exact (r.length_kept_of_ge (by omega)).le
  have hlength : ∀ records : List Record,
      (records.flatMap Record.bytes).length ≤ (records.flatMap Record.kept).length := by
    intro records
    induction records with
    | nil => exact le_rfl
    | cons r records ih =>
      simp only [List.flatMap_cons, List.length_append]
      have := hle r
      omega
  induction records with
  | nil => simp
  | cons r records ih =>
    rw [List.forall_mem_cons, List.flatMap_cons, List.flatMap_cons]
    constructor
    · intro h
      have htotal := congrArg List.length h
      rw [List.length_append, List.length_append] at htotal
      have htail := hlength records
      have hr : r.number < 2 ^ 28 := by
        by_contra hge
        have := r.length_kept_of_ge (by omega)
        omega
      rw [r.kept_of_lt hr] at h
      exact ⟨hr, ih.mp (List.append_cancel_left h)⟩
    · rintro ⟨hr, htail⟩
      rw [r.kept_of_lt hr, ih.mpr htail]

section Parse

variable {κ : Type} {pool : κ → List (FieldDescriptor κ)} {utf8 : List UInt8 → Bool}

/-- The records are read one after the other, and kept in their order. -/
theorem parseFromStream_records {entry : Bool} {fields : List (FieldDescriptor κ)} {records : List Record}
    (hnone : ∀ r ∈ records, getFieldByNumber fields r.number = none) {fuel : ℕ}
    (hfuel : records.length < fuel) (object : Properties κ) {s : CodedInputStream} (hs : s.InBuffer)
    (hrest : s.rest = records.flatMap Record.bytes) :
    ∃ s', parseFromStream pool utf8 fuel entry fields object s =
      .ok (⟨object.contents, object.unknown ++ records.flatMap Record.kept⟩, s') := by
  induction records generalizing fuel object s with
  | nil =>
    obtain ⟨fuel, rfl⟩ : ∃ n, fuel = n + 1 := ⟨fuel - 1, by omega⟩
    have hend : s.current = s.bufferEnd := by
      have hlen := hs.length_rest
      have hcur := hs.current_le
      rw [hrest, List.flatMap_nil, List.length_nil] at hlen
      omega
    have htag : s.readTag.1 = 0 := by
      rw [CodedInputStream.readTag, if_pos hend]
      dsimp only
      split <;> rfl
    refine ⟨s.readTag.2, ?_⟩
    rw [parseFromStream, List.flatMap_nil, List.append_nil]
    exact if_pos htag
  | cons r records ih =>
    obtain ⟨fuel, rfl⟩ : ∃ n, fuel = n + 1 := ⟨fuel - 1, by omega⟩
    rw [List.length_cons] at hfuel
    rw [List.flatMap_cons, Record.bytes, List.append_assoc] at hrest
    have hafter : s.After r.tag.length (s.advance r.tag.length) := after_advance s _
    have hs₁ := hafter.inBuffer hrest hs
    have hrest₁ := hafter.rest hrest
    have hafter₁ : (s.advance r.tag.length).After r.payload.length
        ((s.advance r.tag.length).advance r.payload.length) := after_advance _ _
    have htag := CodedInputStream.readTag_eq hs hrest r.isVarint_tag
    rw [r.minimal.2.1] at htag
    have hne : r.readTag ≠ 0 := toInt32_ne_zero r.tag_lt (by have := r.number_pos; omega)
    have hnumber : getTagFieldNumber r.readTag = r.number := by
      rw [Record.readTag, getTagFieldNumber_toInt32 r.tag_lt]
      have := r.wireType_lt
      omega
    obtain ⟨s', hs'⟩ := ih (fun t ht => hnone t (List.mem_cons_of_mem r ht)) (show records.length < fuel by omega)
      ⟨object.contents, object.unknown ++ r.kept⟩ (hafter₁.inBuffer hrest₁ hs₁) (hafter₁.rest hrest₁)
    refine ⟨s', ?_⟩
    have hstep : parseFieldFromStream pool utf8 (parseFromStream pool utf8 fuel) entry fields object r.readTag
        (s.advance r.tag.length) = .ok (⟨object.contents, object.unknown ++ r.kept⟩,
          (s.advance r.tag.length).advance r.payload.length) := by
      rw [parseFieldFromStream, hnumber, hnone r List.mem_cons_self, skipField_record r hs₁ hrest₁]
      rfl
    have htag' : s.readTag = (r.readTag, s.advance r.tag.length) := htag
    rw [parseFromStream, htag']
    dsimp only
    rw [if_neg hne, hstep]
    simp only [bind, Except.bind]
    rw [hs', List.flatMap_cons, List.append_assoc]

end Parse

section Empty

variable {κ : Type} (pool : κ → List (FieldDescriptor κ))

theorem isDefault_defaultValue (type : ScalarType) : type.isDefault type.defaultValue = true := by
  cases type <;> decide

/-- Nothing is written for a field that is not set. -/
theorem serializeField_initial (field : FieldDescriptor κ) :
    serializeField pool field field.initial = [] ∧ fieldByteSize pool field field.initial = 0 := by
  obtain ⟨number, kind⟩ := field
  cases kind with
  | singular type oneof =>
    cases type with
    | message klass => exact ⟨rfl, rfl⟩
    | scalar type =>
      cases oneof with
      | some i => exact ⟨rfl, rfl⟩
      | none =>
        simp [FieldDescriptor.initial, serializeField, fieldByteSize, serializeScalar, scalarByteSize,
          FieldDescriptor.existScalar, isDefault_defaultValue]
  | repeated type packed => exact ⟨rfl, rfl⟩
  | map key value => simp [FieldDescriptor.initial, serializeField, fieldByteSize, serializeEntries, entriesByteSize]

theorem serializeFields_initial (fields : List (FieldDescriptor κ)) :
    serializeFields pool fields (fields.map FieldDescriptor.initial) = [] ∧
      fieldsByteSize pool fields (fields.map FieldDescriptor.initial) = 0 := by
  induction fields with
  | nil => exact ⟨rfl, rfl⟩
  | cons field fields ih =>
    rw [List.map_cons, serializeFields, fieldsByteSize, (serializeField_initial pool field).1,
      (serializeField_initial pool field).2, ih.1, ih.2]
    exact ⟨rfl, rfl⟩

/-- An object with nothing but unknown fields is serialized as these. -/
theorem serializeToString_unknown (fields : List (FieldDescriptor κ)) (unknown : List UInt8) :
    serializeToString pool fields ⟨fields.map FieldDescriptor.initial, unknown⟩ = unknown := by
  have hsize : byteSize pool fields ⟨fields.map FieldDescriptor.initial, unknown⟩ = unknown.length := by
    rw [byteSize, (serializeFields_initial pool fields).2, Nat.zero_add]
  have hwrite : serializeToStream pool fields ⟨fields.map FieldDescriptor.initial, unknown⟩ = [unknown] := by
    rw [serializeToStream, (serializeFields_initial pool fields).1, List.nil_append]
  rw [serializeToString, hsize, hwrite, CodedOutputStream.writeRaw, if_neg (lt_irrefl _),
    CodedOutputStream.writeRaw, CodedOutputStream.getData]
  simp

end Empty

theorem length_records_lt (records : List Record) :
    records.length < (records.flatMap Record.bytes).length + 1 := by
  induction records with
  | nil => exact Nat.zero_lt_succ _
  | cons r records ih =>
    have := r.length_bytes_pos
    rw [List.flatMap_cons, List.length_append, List.length_cons]
    omega

/-- Well-formed records with minimal tags whose numbers a class does not declare, parsed into an empty
message of the class and serialized, come back with the same bytes exactly when all their numbers are
below `2^28`. -/
theorem unknownFields_passThrough {κ : Type} (pool : κ → List (FieldDescriptor κ)) (utf8 : List UInt8 → Bool)
    (klass : κ) (records : List Record)
    (hundeclared : ∀ r ∈ records, getFieldByNumber (pool klass) r.number = none) :
    (mergeFromString pool utf8 klass (newObject (pool klass)) (records.flatMap Record.bytes)).map
        (serializeToString pool (pool klass)) = .ok (records.flatMap Record.bytes) ↔
      ∀ r ∈ records, r.number < 2 ^ 28 := by
  obtain ⟨s', hparse⟩ := @parseFromStream_records κ pool utf8 false _ records hundeclared _
    (length_records_lt records) (newObject (pool klass)) _ (inBuffer_new _) (rest_new _)
  rw [mergeFromString, hparse, ← flatMap_kept_iff]
  simp only [Except.map, newObject, List.nil_append, serializeToString_unknown, Except.ok.injEq]

/-- A varint field with the number one. -/
def varintOne : Record where
  number := 1
  wireType := 0
  tag := [0x08]
  payload := [0x96, 0x01]
  number_pos := by omega
  number_lt := by omega
  minimal := Upb.Wire.isMinimal_of_length (by decide) rfl (.inl le_rfl)
  wf := .varint (by decide)

theorem unknownFields_passThrough_one :
    (mergeFromString (fun _ : Unit => []) (fun _ => true) () (newObject []) [0x08, 0x96, 0x01]).map
        (serializeToString (fun _ : Unit => []) []) = .ok [0x08, 0x96, 0x01] ↔
      ∀ r ∈ [varintOne], r.number < 2 ^ 28 :=
  unknownFields_passThrough (fun _ : Unit => []) (fun _ => true) () [varintOne] (fun _ _ => rfl)

/-- A varint field with the number `2^28` comes back with a tag of ten bytes. -/
theorem unknownFields_signedTag :
    (mergeFromString (fun _ : Unit => []) (fun _ => true) () (newObject [])
        [0x80, 0x80, 0x80, 0x80, 0x08, 0x00]).map (serializeToString (fun _ : Unit => []) []) =
      .ok [0x80, 0x80, 0x80, 0x80, 0xF8, 0xFF, 0xFF, 0xFF, 0xFF, 0x01, 0x00] := by
  rfl

end Upb.Php
