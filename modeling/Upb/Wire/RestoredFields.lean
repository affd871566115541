import Upb.Compare.MessageEquality
import Upb.Wire.EncodeParts
import Upb.Wire.Restorable

/-!
# What the records of a field restore

The records that the encoder writes for a value, an array or a map take the decoder to contents that
agree with what was written. The depth that the encoder had left does not matter.
-/

namespace Upb.Wire

open Upb.Common BoundedReader
open Upb.Compare (Place dataIsZero mapSize IsNumberType IsStringType)

variable {cfg : DecodeConfig} {opts : EncodeOptions} {depth n fuel level : ℕ} {t : TableId}
  {f : LinkedField} {ext : Option ExtId} {s s' : Slot} {l : List Slot} {bytes body : List UInt8}

/-- A delimited record as the encoder writes it. -/
theorem isDelimited_encode (hn : n < 2 ^ 29) (hlen : body.length ≤ int32Max) :
    IsDelimited n body (encodeTag n .delimited ++ encodeVarint body.length ++ body) := by
  rw [int32Max] at hlen
  exact .mk (isTag_encodeVarint .delimited hn) (isVarint_encodeVarint (by decide) (by decide) (by omega))
    (leb_encodeVarint (by omega))

theorem isPackable_of_isNumberType (h : IsNumberType f) : f.field.descriptortype.isPackable = true := by
  obtain ⟨hstring, hbytes, hmessage⟩ := h
  rw [MiniTableField.isSubMessage] at hmessage
  generalize f.field.descriptortype = type at hstring hbytes hmessage
  cases type <;> first | rfl | exact absurd rfl hstring | exact absurd rfl hbytes | cases hmessage

section Values

/-- What the record of a value restores. -/
structure ValueRestored (cfg : DecodeConfig) (depth : ℕ) (f : LinkedField) (s : Slot)
    (bytes : List UInt8) (s' : Slot) : Prop where
  agrees : Agrees cfg.schema cfg.hash (.value f) s s'
  record : ValueRecord cfg depth f bytes s'
  nonzero : ¬ IsStringType f → Slot.isNonzero s' = Slot.isNonzero s
  short : s'.toStr.length ≤ int32Max

/-- The value is restored from what the encoder writes for it. -/
def ValueRestores (cfg : DecodeConfig) (opts : EncodeOptions) (depth : ℕ) (f : LinkedField) (s : Slot) :
    Prop :=
  f.field.number < 2 ^ 29 → ∀ (fuel level : ℕ) (bytes : List UInt8),
    encodeValue (encodeMessage cfg.schema cfg.hash opts fuel) level f s = .ok bytes →
    bytes.length ≤ int32Max → ∃ s', ValueRestored cfg depth f s bytes s'

/-- Numbers are restored. -/
theorem valueRestores_number (type : IsNumberType f) (kind : s = .zero ∨ s = .bits s.toBits)
    (range : s.toBits < 2 ^ valueBits f.field.descriptortype) (decl : declared f s.toBits = true) :
    ValueRestores cfg opts depth f s := by
  intro hn fuel level bytes henc _
  have hpack := isPackable_of_isNumberType type
  obtain ⟨p, hp, hnumber⟩ := isNumber_encodeNumber hpack range
  rw [encodeValue_of_isPackable _ _ hpack, hp] at henc
  cases henc
  refine ⟨.bits s.toBits, .number type rfl,
    valueRecord_number hpack (isTag_encodeVarint _ hn) hnumber decl, fun _ => ?_, Nat.zero_le _⟩
  rcases kind with hs | hs
  · rw [hs]
    rfl
  · rw [← hs]

/-- Strings are restored. -/
theorem valueRestores_string (type : IsStringType f)
    (valid : checksUtf8 cfg f.field = true → cfg.validUtf8 s.toStr = true) :
    ValueRestores cfg opts depth f s := by
  intro hn fuel level bytes henc _
  have hstring : encodeValue (encodeMessage cfg.schema cfg.hash opts fuel) level f s = encodeString f s := by
    rw [encodeValue]
    rcases type with h | h <;> rw [h]
  rw [hstring, encodeString] at henc
  cases hlen : encodeLength s.toStr.length with
  | error e =>
    rw [hlen] at henc
    cases henc
  | ok len =>
    rw [hlen] at henc
    cases henc
    obtain ⟨hmax, rfl⟩ := encodeLength_eq_ok.mp hlen
    exact ⟨.str s.toStr, .string type rfl,
      valueRecord_string type (isDelimited_encode hn hmax) hmax valid, fun h => absurd type h, hmax⟩

/-- The message is restored from what the encoder writes for it. -/
def MessageRestores (cfg : DecodeConfig) (opts : EncodeOptions) (depth : ℕ) (t : TableId) (s : Slot) :
    Prop :=
  ∀ (m : Message) (fuel level : ℕ) (bytes : List UInt8), s.toMessage = some m →
    encodeMessage cfg.schema cfg.hash opts fuel level t m = .ok bytes → bytes.length ≤ int32Max →
    ∃ m', Agrees cfg.schema cfg.hash (.message t) s (.ofMessage m') ∧
      Decodes cfg depth t bytes ⟨.new, false⟩ ⟨m', false⟩

/-- A slot with a message is not zero. -/
theorem isNonzero_of_toMessage {m : Message} (h : s.toMessage = some m) : Slot.isNonzero s = true := by
  cases s <;> first | rfl | cases h

/-- Sub-messages and groups are restored with one level more. -/
theorem valueRestores_submessage (hreq : cfg.checkRequired = false)
    (type : f.field.isSubMessage = true) (table : f.sub.message = some t)
    (ih : MessageRestores cfg opts depth t s) : ValueRestores cfg opts (depth + 1) f s := by
  intro hn fuel level bytes henc hlen
  have hkind : f.field.descriptortype = .message ∨ f.field.descriptortype = .group := by
    simpa [MiniTableField.isSubMessage] using type
  have hsub : encodeValue (encodeMessage cfg.schema cfg.hash opts fuel) level f s =
      encodeSubMessage (encodeMessage cfg.schema cfg.hash opts fuel) level f s := by
    rw [encodeValue]
    rcases hkind with h | h <;> rw [h]
  rw [hsub, encodeSubMessage, subMessage, table] at henc
  cases hm : s.toMessage with
  | none =>
    rw [hm] at henc
    cases henc
  | some m =>
    rw [hm] at henc
    cases hbody : encodeMessage cfg.schema cfg.hash opts fuel level t m with
    | error e =>
      simp only [bind, Except.bind, hbody] at henc
      cases henc
    | ok body =>
      simp only [bind, Except.bind, hbody] at henc
      have hnonzero : ∀ m', ¬ IsStringType f →
          Slot.isNonzero (.ofMessage m') = Slot.isNonzero s :=
        fun _ _ => (isNonzero_of_toMessage hm).symm
      rcases hkind with htype | htype
      · rw [if_neg (by rw [htype]; decide)] at henc
        cases hsize : encodeLength body.length with
        | error e =>
          rw [hsize] at henc
          cases henc
        | ok len =>
          rw [hsize] at henc
          cases henc
          obtain ⟨hmax, rfl⟩ := encodeLength_eq_ok.mp hsize
          obtain ⟨m', hagrees, hdecodes⟩ := ih m fuel level body hm hbody hmax
          exact ⟨.ofMessage m', .submessage type table hagrees,
            valueRecord_message hreq htype table (isDelimited_encode hn hmax) hmax hdecodes, hnonzero m',
            Nat.zero_le _⟩
      · rw [if_pos htype] at henc
        cases henc
        have hmax : body.length ≤ int32Max := by
          simp only [List.length_append] at hlen
          omega
        obtain ⟨m', hagrees, hdecodes⟩ := ih m fuel level body hm hbody hmax
        refine ⟨.ofMessage m', .submessage type table hagrees, ?_, hnonzero m', Nat.zero_le _⟩
        rw [List.append_assoc]
        exact valueRecord_group hreq htype table (isTag_encodeVarint .startGroup hn)
          (isTag_encodeVarint .endGroup hn) hdecodes

end Values

section Fields

/-- Whether a field without presence holds something that a reader sees. -/
def hasContents (f : MiniTableField) (s : Slot) : Bool :=
  if dataIsZero f s then false
  else if f.isArray then !s.toArray.isEmpty
  else if f.isMap then mapSize s != 0
  else true

/-- The strings are the fields that are represented as such. -/
def RepFits (f : MiniTableField) : Prop :=
  f.mode.rep = .repStringView ↔
    f.mode.fieldMode = .scalar ∧ (f.descriptortype = .string ∨ f.descriptortype = .bytes)

/-- What the records of a field restore. Without records, a repeated field stays as it is. -/
structure FieldRestored (cfg : DecodeConfig) (depth : ℕ) (f : LinkedField) (s : Slot)
    (bytes : List UInt8) (s' : Slot) : Prop where
  agrees : Agrees cfg.schema cfg.hash (.field f) s s'
  seen : RepFits f.field → hasContents f.field s' = hasContents f.field s
  updates : (f.field.mode.fieldMode ≠ .scalar ∧ bytes = [] ∧ s' = .zero) ∨
    ∀ t ext, Finds cfg t f ext → Updates cfg depth t f ext bytes .zero s'

/-- The contents of the field are restored from what the encoder writes for them. -/
def FieldRestores (cfg : DecodeConfig) (opts : EncodeOptions) (depth : ℕ) (f : LinkedField) (s : Slot) :
    Prop :=
  f.field.number < 2 ^ 29 → ∀ (fuel level : ℕ) (bytes : List UInt8),
    encodeField cfg.schema cfg.hash opts (encodeMessage cfg.schema cfg.hash opts fuel) level f s =
      .ok bytes → bytes.length ≤ int32Max → ∃ s', FieldRestored cfg depth f s bytes s'

@[simp] theorem hasContents_zero (f : MiniTableField) : hasContents f .zero = false := by
  have hzero : dataIsZero f .zero = true := by
    rw [dataIsZero]
    cases f.mode.rep <;> rfl
  rw [hasContents, if_pos hzero]

/-- The contents of a singular field are seen unless they are zero. -/
theorem hasContents_scalar {f : MiniTableField} (hmode : f.mode.fieldMode = .scalar) (s : Slot) :
    hasContents f s = !dataIsZero f s := by
  rw [hasContents, MiniTableField.isArray, MiniTableField.isMap, hmode]
  cases dataIsZero f s <;> rfl

/-- What is not a string is represented by memory that may be zero. -/
theorem dataIsZero_of_not_string {f : MiniTableField} (h : f.mode.rep ≠ .repStringView) (s : Slot) :
    dataIsZero f s = !Slot.isNonzero s := by
  rw [dataIsZero]
  revert h
  generalize f.mode.rep = rep
  intro h
  cases rep <;> first | rfl | exact absurd rfl h

/-- The value of a singular field is not null when it is a sub-message. -/
theorem toMessage_ne_none {place : Place} (h : Restorable cfg depth place s) (hplace : place = .value f)
    (hsub : f.field.isSubMessage = true) : s.toMessage ≠ none := by
  cases h with
  | number type =>
    cases hplace
    exact absurd hsub (by rw [type.2.2]; decide)
  | string type =>
    cases hplace
    rw [MiniTableField.isSubMessage] at hsub
    rcases type with h | h <;> rw [h] at hsub <;> cases hsub
  | submessage _ _ sub =>
    cases sub with
    | message hs => rw [hs]; exact Option.some_ne_none _
  | message | scalar | array | map => cases hplace

/-- Singular fields are restored. -/
theorem fieldRestores_scalar (hmode : f.field.mode.fieldMode = .scalar)
    (val : Restorable cfg depth (.value f) s) (ih : ValueRestores cfg opts depth f s) :
    FieldRestores cfg opts depth f s := by
  intro hn fuel level bytes henc hlen
  rw [encodeField, hmode] at henc
  obtain ⟨s', hs'⟩ := ih hn fuel (level - 1) bytes
    (encodeValue_of_encodeScalar (toMessage_ne_none val rfl) henc) hlen
  refine ⟨s', .scalar hmode hs'.agrees, fun hrep => ?_, .inr fun t ext hf =>
    hs'.record.updates_scalar hf hmode rfl⟩
  rw [hasContents_scalar hmode, hasContents_scalar hmode]
  by_cases htype : IsStringType f
  · have hstring : f.field.mode.rep = .repStringView := hrep.mpr ⟨hmode, htype⟩
    have hval : s.toStr = s'.toStr := by
      cases hs'.agrees with
      | number type => exact absurd htype (by rintro (h | h); exacts [type.1 h, type.2.1 h])
      | string _ val => exact val
      | submessage type =>
        rw [MiniTableField.isSubMessage] at type
        rcases htype with h | h <;> rw [h] at type <;> cases type
    rw [dataIsZero, dataIsZero, hstring, hval]
  · have hother : f.field.mode.rep ≠ .repStringView := fun h => htype (hrep.mp h).2
    rw [dataIsZero_of_not_string hother, dataIsZero_of_not_string hother, hs'.nonzero htype]

/-- The bytes of numbers that the encoder writes behind each other. -/
theorem isNumbers_encodedNumbers {type : FieldType} (htype : type.isPackable = true) (elems : List Slot)
    (hrange : ∀ v ∈ elems, v.toBits < 2 ^ valueBits type) :
    IsNumbers type (elems.map Slot.toBits) ((encodedNumbers type elems).map Prod.snd).flatten := by
  induction elems with
  | nil => exact .nil
  | cons v elems ih =>
    obtain ⟨p, hp, hnumber⟩ := isNumber_encodeNumber htype (hrange v List.mem_cons_self)
    have hrest := ih fun v hv => hrange v (List.mem_cons_of_mem _ hv)
    simp only [encodedNumbers, List.filterMap_cons, hp, List.map_cons, List.flatten_cons]
    exact .cons hnumber hrest

/-- The records of elements restore the elements, one behind the other. -/
theorem updates_elements (hn : f.field.number < 2 ^ 29) (hmode : f.field.mode.fieldMode = .array)
    (hpresence : f.field.presence = 0) (ih : ∀ v ∈ l, ValueRestores cfg opts depth f v)
    (henc : encodeBackwards (encodeValue (encodeMessage cfg.schema cfg.hash opts fuel) level f) l.reverse =
      .ok bytes) (hlen : bytes.length ≤ int32Max) :
    ∃ l', List.Forall₂ (Agrees cfg.schema cfg.hash (.value f)) l l' ∧
      (l = [] ∧ bytes = [] ∨ ∀ t ext, Finds cfg t f ext → ∀ c,
        Updates cfg depth t f ext bytes c (.array (c.toArray ++ l'))) := by
  induction l generalizing bytes with
  | nil =>
    cases henc
    exact ⟨[], .nil, .inl ⟨rfl, rfl⟩⟩
  | cons v l ihl =>
    obtain ⟨front, rest, hfront, hrest, rfl⟩ := (encodeBackwards_reverse_cons v l).mp henc
    rw [List.length_append] at hlen
    obtain ⟨v', hv'⟩ := ih v List.mem_cons_self hn fuel level front hfront (by omega)
    obtain ⟨l', hagrees, hupdates⟩ := ihl (fun v hv => ih v (List.mem_cons_of_mem _ hv)) hrest (by omega)
    refine ⟨v' :: l', .cons hv'.agrees hagrees, .inr fun t ext hf c => ?_⟩
    have hfirst := hv'.record.updates_array hf hmode hpresence c
    rcases hupdates with ⟨rfl, rfl⟩ | hupdates
    · cases hagrees
      rwa [List.append_nil]
    · have hlast := hupdates t ext hf (.array (c.toArray ++ [v']))
      have hsplit : c.toArray ++ v' :: l' = (Slot.array (c.toArray ++ [v'])).toArray ++ l' := by
        rw [Slot.toArray, List.append_assoc]
        rfl
      rw [hsplit]
      exact hfirst.append hlast

/-- The restored elements of a repeated field. -/
theorem fieldRestored_array (hmode : f.field.mode.fieldMode = .array) {l' : List Slot}
    (hagrees : List.Forall₂ (Agrees cfg.schema cfg.hash (.value f)) s.toArray l') (hne : s.toArray ≠ [])
    (hupdates : ∀ t ext, Finds cfg t f ext → Updates cfg depth t f ext bytes .zero (.array l')) :
    FieldRestored cfg depth f s bytes (.array l') := by
  have hlength := hagrees.length_eq
  refine ⟨.array hmode hlength fun i v1 v2 h1 h2 => ?_, fun hrep => ?_, .inr hupdates⟩
  · obtain ⟨hi, hv1⟩ := List.getElem?_eq_some_iff.mp h1
    obtain ⟨hi', hv2⟩ := List.getElem?_eq_some_iff.mp (show l'[i]? = some v2 from h2)
    rw [← hv1, ← hv2]
    exact hagrees.get hi hi'
  · have hother : f.field.mode.rep ≠ .repStringView := fun h => by
      have hscalar := (hrep.mp h).1
      rw [hmode] at hscalar
      cases hscalar
    have hs : Slot.isNonzero s = true := by
      cases s <;> first | rfl | exact absurd rfl hne
    have hne' : l' ≠ [] := by
      rintro rfl
      exact hne (List.length_eq_zero_iff.mp hlength)
    have harray : f.field.isArray = true := by rw [MiniTableField.isArray, hmode]; rfl
    have hseen : (s.toArray.isEmpty) = ((Slot.array l').toArray.isEmpty) := by
      rw [List.isEmpty_eq_false_iff.mpr hne]
      exact (List.isEmpty_eq_false_iff.mpr hne').symm
    rw [hasContents, hasContents, dataIsZero_of_not_string hother, dataIsZero_of_not_string hother, hs,
      harray, hseen]
    rfl

/-- Repeated fields are restored. -/
theorem fieldRestores_array (hmode : f.field.mode.fieldMode = .array) (hpresence : f.field.presence = 0)
    (elems : ∀ v ∈ s.toArray, Restorable cfg depth (.value f) v)
    (ih : ∀ v ∈ s.toArray, ValueRestores cfg opts depth f v) : FieldRestores cfg opts depth f s := by
  intro hn fuel level bytes henc hlen
  rw [encodeField, hmode] at henc
  by_cases hnil : s.toArray = []
  · have hbytes : bytes = [] := by
      dsimp only at henc
      rw [encodeArray, if_pos hnil] at henc
      exact (Except.ok.inj henc).symm
    have hrepeated : f.field.mode.fieldMode ≠ .scalar := by
      rw [hmode]
      rintro ⟨⟩
    refine ⟨.zero, .array hmode (by rw [hnil]; rfl) ?_, fun _ => ?_, .inl ⟨hrepeated, hbytes, rfl⟩⟩
    · intro i v1 v2 h1
      rw [hnil] at h1
      cases h1
    · rw [hasContents_zero, hasContents]
      split
      · rfl
      · rw [MiniTableField.isArray, hmode, hnil]
        rfl
  · rcases encodeArray_cases henc with ⟨h, -⟩ | ⟨hpack, body, len, hbody, hlength, rfl⟩ | hrecords
    · exact absurd h hnil
    · have hnumbers : ∀ v ∈ s.toArray, v.toBits < 2 ^ valueBits f.field.descriptortype ∧
          declared f v.toBits = true ∧ IsNumberType f := by
        intro v hv
        cases elems v hv with
        | number type _ range decl => exact ⟨range, decl, type⟩
        | string type => rcases type with h | h <;> rw [h] at hpack <;> cases hpack
        | submessage type =>
          simp only [MiniTableField.isSubMessage, Bool.or_eq_true, beq_iff_eq] at type
          rcases type with h | h <;> rw [h] at hpack <;> cases hpack
      obtain ⟨hmax, rfl⟩ := encodeLength_eq_ok.mp hlength
      have hbytes := isNumbers_encodedNumbers hpack s.toArray fun v hv => (hnumbers v hv).1
      rw [← hbody] at hbytes
      have hdecl : ∀ x ∈ s.toArray.map Slot.toBits, declared f x = true := by
        intro x hx
        obtain ⟨v, hv, rfl⟩ := List.mem_map.mp hx
        exact (hnumbers v hv).2.1
      have hagrees : List.Forall₂ (Agrees cfg.schema cfg.hash (.value f)) s.toArray
          ((s.toArray.map Slot.toBits).map Slot.bits) := by
        rw [List.map_map, List.forall₂_map_right_iff, List.forall₂_same]
        exact fun v hv => .number (hnumbers v hv).2.2 rfl
      exact ⟨_, fieldRestored_array hmode hagrees hnil fun t ext hf =>
        updates_packed hf hmode hpresence hpack hbytes hdecl (isDelimited_encode hn hmax) hmax .zero⟩
    · obtain ⟨l', hagrees, hupdates⟩ := updates_elements hn hmode hpresence ih hrecords hlen
      rcases hupdates with ⟨h, -⟩ | hupdates
      · exact absurd h hnil
      · exact ⟨_, fieldRestored_array hmode hagrees hnil fun t ext hf => hupdates t ext hf .zero⟩

end Fields

end Upb.Wire
