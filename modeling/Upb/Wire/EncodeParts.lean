import Upb.Wire.Encode

/-!
# The parts of an encoding

The encoder writes a list from its last element to its first. What it writes for a list is the
concatenation of what it writes for the elements, and it writes the elements of a repeated field that is
not packed like singular values.
-/

namespace Upb.Wire

section Backwards

variable {α : Type} {encode : α → Encoded} {bytes : List UInt8}

/-- The last element of the list comes first in the output. -/
theorem encodeBackwards_concat (l : List α) (a : α) :
    encodeBackwards encode (l ++ [a]) = .ok bytes ↔
      ∃ front rest, encode a = .ok front ∧ encodeBackwards encode l = .ok rest ∧
        bytes = front ++ rest := by
  induction l generalizing bytes with
  | nil =>
    rw [List.nil_append, encodeBackwards, encodeBackwards]
    cases encode a with
    | error e => exact ⟨nofun, nofun⟩
    | ok front =>
      constructor
      · intro h
        cases h
        exact ⟨front, [], rfl, rfl, (List.append_nil front).symm⟩
      · rintro ⟨_, _, hfront, hrest, rfl⟩
        cases hfront
        cases hrest
        rw [List.append_nil]
        rfl
  | cons b l ih =>
    rw [List.cons_append, encodeBackwards, encodeBackwards]
    cases encode b with
    | error e => exact ⟨nofun, nofun⟩
    | ok last =>
      have hbind : ∀ x : Encoded, (do
          let front ← x
          (Except.ok (front ++ last) : Encoded)) = .ok bytes ↔ ∃ r, x = .ok r ∧ bytes = r ++ last := by
        intro x
        cases x with
        | error e => exact ⟨nofun, nofun⟩
        | ok r => exact ⟨fun h => ⟨r, rfl, (Except.ok.inj h).symm⟩,
            fun ⟨_, hr, hb⟩ => by cases hr; rw [hb]; rfl⟩
      change (do
          let front ← encodeBackwards encode (l ++ [a])
          (Except.ok (front ++ last) : Encoded)) = .ok bytes ↔ ∃ front rest, encode a = .ok front ∧ (do
          let front ← encodeBackwards encode l
          (Except.ok (front ++ last) : Encoded)) = .ok rest ∧ bytes = front ++ rest
      rw [hbind]
      constructor
      · rintro ⟨r, hr, rfl⟩
        obtain ⟨front, rest, hfront, hrest, rfl⟩ := ih.mp hr
        refine ⟨front, rest ++ last, hfront, ?_, List.append_assoc _ _ _⟩
        rw [hrest]
        rfl
      · rintro ⟨front, rest, hfront, hrest, rfl⟩
        cases hl : encodeBackwards encode l with
        | error e =>
          rw [hl] at hrest
          cases hrest
        | ok r =>
          rw [hl] at hrest
          cases hrest
          exact ⟨front ++ r, ih.mpr ⟨front, r, hfront, hl, rfl⟩, (List.append_assoc _ _ _).symm⟩

/-- The output for a list that is written from its end. -/
theorem encodeBackwards_reverse_cons (a : α) (l : List α) :
    encodeBackwards encode (a :: l).reverse = .ok bytes ↔
      ∃ front rest, encode a = .ok front ∧ encodeBackwards encode l.reverse = .ok rest ∧
        bytes = front ++ rest := by
  rw [List.reverse_cons]
  exact encodeBackwards_concat l.reverse a

end Backwards

section Values

variable {sub : SubEncoder} {depth : ℕ} {f : LinkedField} {s : Slot} {bytes : List UInt8}

/-- The record of one value, with its tag. -/
def encodeValue (sub : SubEncoder) (depth : ℕ) (f : LinkedField) (s : Slot) : Encoded :=
  match f.field.descriptortype with
  | .string | .bytes => encodeString f s
  | .group | .message => encodeSubMessage sub depth f s
  | type =>
    match encodeNumber type s.toBits with
    | some (wireType, val) => .ok (encodeTag f.field.number wireType ++ val)
    | none => .ok []

/-- `encode_scalar` writes the record of its value, unless a sub-message is null. -/
theorem encodeValue_of_encodeScalar (hm : f.field.isSubMessage = true → s.toMessage ≠ none)
    (h : encodeScalar sub depth f s = .ok bytes) : encodeValue sub (depth - 1) f s = .ok bytes := by
  have hsome : f.field.isSubMessage = true → s.toMessage.isNone = false := by
    intro hf
    rw [Option.isNone_eq_false_iff, Option.isSome_iff_ne_none]
    exact hm hf
  rw [encodeScalar] at h
  rw [encodeValue]
  rw [MiniTableField.isSubMessage] at hsome
  cases htype : f.field.descriptortype <;> rw [htype] at h hsome
  case group =>
    rw [hsome rfl] at h
    dsimp only at h ⊢
    rw [if_neg Bool.false_ne_true] at h
    split at h
    · cases h
    · exact h
  case message =>
    rw [hsome rfl] at h
    dsimp only at h ⊢
    rw [if_neg Bool.false_ne_true] at h
    split at h
    · cases h
    · exact h
  all_goals exact h

/-- The wire types and the bytes of the numbers in a repeated field. -/
def encodedNumbers (type : FieldType) (elems : List Slot) : List (WireType × List UInt8) :=
  elems.filterMap fun elem => encodeNumber type elem.toBits

/-- The record of a number. -/
theorem encodeValue_of_isPackable (sub : SubEncoder) (depth : ℕ)
    (htype : f.field.descriptortype.isPackable = true) (s : Slot) :
    encodeValue sub depth f s =
      match encodeNumber f.field.descriptortype s.toBits with
      | some (wireType, val) => .ok (encodeTag f.field.number wireType ++ val)
      | none => .ok [] := by
  rw [encodeValue]
  revert htype
  generalize f.field.descriptortype = type
  intro htype
  cases type <;> first | rfl | cases htype

/-- The numbers of a field that is not packed. -/
theorem encodeBackwards_numbers (htype : f.field.descriptortype.isPackable = true) (elems : List Slot) :
    encodeBackwards (encodeValue sub depth f) elems.reverse =
      .ok ((encodedNumbers f.field.descriptortype elems).map
        fun (wireType, val) => encodeTag f.field.number wireType ++ val).flatten := by
  induction elems with
  | nil => rfl
  | cons s elems ih =>
    have hvalue := encodeValue_of_isPackable sub depth htype s
    rw [encodeBackwards_reverse_cons]
    cases hs : encodeNumber f.field.descriptortype s.toBits with
    | none =>
      rw [hs] at hvalue
      refine ⟨[], _, hvalue, ih, ?_⟩
      simp only [encodedNumbers, List.filterMap_cons, hs, List.nil_append]
    | some q =>
      rw [hs] at hvalue
      refine ⟨_, _, hvalue, ih, ?_⟩
      simp only [encodedNumbers, List.filterMap_cons, hs, List.map_cons, List.flatten_cons]

/-- What `encode_array` writes: nothing, a packed record, or one record for each element. -/
theorem encodeArray_cases (h : encodeArray sub depth f s = .ok bytes) :
    (s.toArray = [] ∧ bytes = []) ∨
      (f.field.descriptortype.isPackable = true ∧ ∃ body len,
        body = ((encodedNumbers f.field.descriptortype s.toArray).map Prod.snd).flatten ∧
        encodeLength body.length = .ok len ∧
        bytes = encodeTag f.field.number .delimited ++ len ++ body) ∨
      encodeBackwards (encodeValue sub (depth - 1) f) s.toArray.reverse = .ok bytes := by
  rw [encodeArray] at h
  split at h
  · next hnil => exact .inl ⟨hnil, (Except.ok.inj h).symm⟩
  · refine .inr ?_
    cases hpack : f.field.descriptortype.isPackable with
    | true =>
      have hbytes : (if f.field.isPacked then do
            let body := ((encodedNumbers f.field.descriptortype s.toArray).map Prod.snd).flatten
            let len ← encodeLength body.length
            (.ok (encodeTag f.field.number .delimited ++ len ++ body) : Encoded)
          else .ok ((encodedNumbers f.field.descriptortype s.toArray).map
            fun (wireType, val) => encodeTag f.field.number wireType ++ val).flatten) = .ok bytes := by
        revert h hpack
        generalize f.field.descriptortype = type
        intro h hpack
        cases type <;> first | exact h | cases hpack
      split at hbytes
      · left
        refine ⟨rfl, ((encodedNumbers f.field.descriptortype s.toArray).map Prod.snd).flatten, ?_⟩
        dsimp only at hbytes
        cases hlen : encodeLength ((encodedNumbers f.field.descriptortype s.toArray).map
          Prod.snd).flatten.length with
        | error e =>
          rw [hlen] at hbytes
          cases hbytes
        | ok len =>
          rw [hlen] at hbytes
          exact ⟨len, rfl, rfl, (Except.ok.inj hbytes).symm⟩
      · right
        rw [encodeBackwards_numbers hpack]
        exact hbytes
    | false =>
      right
      have hvalue : ∀ type, f.field.descriptortype = type → encodeValue sub (depth - 1) f =
          match type with
          | .string | .bytes => encodeString f
          | .group | .message => encodeSubMessage sub (depth - 1) f
          | _ => encodeValue sub (depth - 1) f := by
        intro type htype
        funext s
        cases type <;> simp only [encodeValue, htype]
      split at h
      · next htype => rwa [hvalue _ htype]
      · next htype => rwa [hvalue _ htype]
      · next htype =>
        split at h
        · cases h
        · rwa [hvalue _ htype]
      · next htype =>
        split at h
        · cases h
        · rwa [hvalue _ htype]
      · next h₁ h₂ h₃ h₄ =>
        generalize f.field.descriptortype = type at hpack h₁ h₂ h₃ h₄
        cases type <;> try cases hpack
        · exact (h₁ rfl).elim
        · exact (h₃ rfl).elim
        · exact (h₄ rfl).elim
        · exact (h₂ rfl).elim

/-- A length that is written. -/
theorem encodeLength_eq_ok {n : ℕ} {len : List UInt8} :
    encodeLength n = .ok len ↔ n ≤ int32Max ∧ len = encodeVarint n := by
  rw [encodeLength]
  split
  · exact ⟨nofun, fun h => absurd h.1 (by omega)⟩
  · exact ⟨fun h => ⟨by omega, (Except.ok.inj h).symm⟩, fun h => by rw [h.2]⟩

end Values

end Upb.Wire
