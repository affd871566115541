import Upb.Php.Consumption

/-!
# Parsing comes to an end

Every tag and every element of a packed field is at least one byte of the data, so that the steps that
the loops are given are enough.
-/

namespace Upb.Php

open Upb.Common (bind_eq_ok bind_ne_error map_ne_error)
open CodedInputStream

variable {κ : Type} {pool : κ → List (FieldDescriptor κ)} {utf8 : List UInt8 → Bool} {parse : Parser κ}
  {entry : Bool} {fields : List (FieldDescriptor κ)} {object object' : Properties κ}
  {tag : PhpInt} {s s' : CodedInputStream} {fuel : ℕ}

section Reads

theorem Advances.le (h : s.Advances s') : s.current ≤ s'.current := by
  obtain ⟨k, rfl⟩ := h
  exact Nat.le_add_right _ _

theorem readVarint64_lt {v : PhpInt} (h : s.readVarint64 = (some v, s')) : s.current < s'.current := by
  rw [readVarint64, maxVarintBytes, readVarint64Loop] at h
  split at h
  · cases h
  · dsimp only at h
    split at h
    · exact Nat.lt_of_succ_le (Advances.le (readVarint64Loop_advances h))
    · cases h
      exact Nat.lt_succ_self _

theorem readRaw_lt {size : ℤ} {data : List UInt8} (h : s.readRaw size = (some data, s')) (hpos : 0 < size) :
    s.current < s'.current := by
  obtain ⟨-, -, rfl⟩ := readRaw_eq_some.mp h
  simp only [advance]
  omega

/-- A scalar takes at least a byte. -/
theorem ScalarType.read_lt {type : ScalarType} {v : Scalar} (h : type.read s = .ok (v, s')) :
    s.current < s'.current := by
  rcases ScalarType.read_cases h with ⟨-, var, hread⟩ | ⟨-, ⟨data, hread⟩ | ⟨var, hread⟩⟩ | ⟨-, data, hread⟩ |
    ⟨-, length, t, data, hlen, hread⟩
  · exact readVarint64_lt hread
  · exact readRaw_lt hread (by omega)
  · obtain ⟨low, t, high, hlow, hhigh⟩ := readLittleEndian64_eq_some hread
    exact (readRaw_lt hlow (by omega)).trans_le (Advances.le (readRaw_advances hhigh))
  · exact readRaw_lt hread (by omega)
  · exact (readVarint64_lt hlen).trans_le (Advances.le (readRaw_advances hread))

/-- Behind the data there is no tag. -/
theorem readTag_lt (h : s.readTag = (tag, s')) (hne : tag ≠ 0) :
    s.current < s.buffer.length ∧ s.current < s'.current := by
  rw [readTag] at h
  split at h
  · dsimp only at h
    split at h
    all_goals
      cases h
      exact absurd rfl hne
  next hend =>
    split at h
    next result t hread =>
      cases h
      obtain ⟨var, hvar, rfl⟩ := readVarint32_eq_some.mp hread
      refine ⟨?_, readVarint64_lt hvar⟩
      by_contra hlen
      have hbyte : s.buffer.getD s.current 0 = 0 := by
        rw [List.getD_eq_getElem?_getD, List.getElem?_eq_none (by omega)]
        rfl
      rw [readVarint64, maxVarintBytes, readVarint64Loop, if_neg hend, hbyte] at hvar
      cases hvar
      exact hne rfl
    next =>
      cases h
      exact absurd rfl hne

end Reads

section Errors

theorem orThrow_ne_outOfFuel {α : Type} (message : String) (r : Option α × CodedInputStream) :
    orThrow message r ≠ .error .outOfFuel := by
  obtain ⟨_ | a, t⟩ := r <;> simp [orThrow]

theorem ScalarType.read_ne_outOfFuel (type : ScalarType) (s : CodedInputStream) :
    type.read s ≠ .error .outOfFuel := by
  cases type <;> exact bind_ne_error (orThrow_ne_outOfFuel _ _) fun _ _ => nofun

theorem ScalarType.check_ne_outOfFuel (type : ScalarType) (v : Scalar) :
    type.check utf8 v ≠ .error .outOfFuel := by
  unfold ScalarType.check
  split
  · nofun
  · nofun
  · split <;> nofun
  · nofun

theorem checkValue_ne_outOfFuel (type : FieldType κ) (value : Datum κ) :
    checkValue utf8 type value ≠ .error .outOfFuel := by
  unfold checkValue
  split
  · exact map_ne_error (ScalarType.check_ne_outOfFuel _ _)
  · nofun

theorem appendHelper_ne_outOfFuel (field : FieldDescriptor κ) (type : FieldType κ) (value : Datum κ) :
    appendHelper utf8 fields object field type value ≠ .error .outOfFuel := by
  rw [appendHelper]
  split
  · exact map_ne_error (checkValue_ne_outOfFuel _ _)
  · nofun

theorem kvUpdateHelper_ne_outOfFuel (field : FieldDescriptor κ) (keyType : ScalarType) (type : FieldType κ)
    (key : Scalar) (value : Datum κ) :
    kvUpdateHelper utf8 fields object field keyType type key value ≠ .error .outOfFuel := by
  rw [kvUpdateHelper]
  split
  · exact bind_ne_error (ScalarType.check_ne_outOfFuel _ _) fun _ _ =>
      bind_ne_error (checkValue_ne_outOfFuel _ _) fun _ _ => nofun
  · nofun

theorem skipField_ne_outOfFuel : skipField s tag ≠ .error .outOfFuel := by
  have hmap : ∀ {α : Type} (message : String) (r : Option α × CodedInputStream),
      (orThrow message r).map Prod.snd ≠ .error .outOfFuel :=
    fun message r => map_ne_error (orThrow_ne_outOfFuel message r)
  rw [skipField]
  split
  · rintro ⟨⟩
  · dsimp only
    split
    · exact bind_ne_error (hmap _ _) fun _ _ => by rintro ⟨⟩
    · exact bind_ne_error (hmap _ _) fun _ _ => by rintro ⟨⟩
    · exact bind_ne_error (hmap _ _) fun _ _ => by rintro ⟨⟩
    · exact bind_ne_error (orThrow_ne_outOfFuel _ _) fun _ _ =>
        bind_ne_error (hmap _ _) fun _ _ => by rintro ⟨⟩
    · rintro ⟨⟩

theorem packedLoop_ne_outOfFuel {field : FieldDescriptor κ} {type : ScalarType}
    (hfuel : s.currentLimit - s.current < fuel) :
    packedLoop utf8 fields field type fuel object s ≠ .error .outOfFuel := by
  induction fuel generalizing object s with
  | zero => omega
  | succ fuel ih =>
    rw [packedLoop]
    split
    next hmore =>
      have hbefore : s.current < s.currentLimit := by
        rw [bytesUntilLimit] at hmore
        split at hmore <;> omega
      refine bind_ne_error (ScalarType.read_ne_outOfFuel _ _) fun r hread => ?_
      obtain ⟨v, t⟩ := r
      refine bind_ne_error (appendHelper_ne_outOfFuel _ _ _) fun o _ => ?_
      have hlt := ScalarType.read_lt hread
      obtain ⟨k, rfl⟩ := ScalarType.read_advances hread
      apply ih
      simp only [advance] at hlt ⊢
      omega
    next => rintro ⟨⟩

theorem readPacked_ne_outOfFuel {field : FieldDescriptor κ} {type : ScalarType} (hs : s.Held) :
    readPacked utf8 fields object field type s ≠ .error .outOfFuel := by
  rw [readPacked]
  refine bind_ne_error (orThrow_ne_outOfFuel _ _) fun ⟨length, t⟩ hread => ?_
  have ht := (readVarint32_advances (orThrow_eq_ok.mp hread)).moves hs
  dsimp only
  split
  next => nofun
  next oldLimit u hpush =>
    have hu := (pushLimit_held ht.toHeld hpush).limit_le
    exact bind_ne_error (packedLoop_ne_outOfFuel (by omega)) fun _ _ => nofun

/-- The parser has enough steps behind a stream. -/
def Enough (parse : Parser κ) (s : CodedInputStream) : Prop :=
  ∀ e inner o u, u.Held → u.buffer = s.buffer → s.current ≤ u.current → parse e inner o u ≠ .error .outOfFuel

theorem readMessage_ne_outOfFuel {e : Bool} {inner : List (FieldDescriptor κ)} (hs : s.Held)
    (hparse : Enough parse s) : readMessage (parse e inner) object s ≠ .error .outOfFuel := by
  rw [readMessage]
  refine bind_ne_error (orThrow_ne_outOfFuel _ _) fun r hread => ?_
  obtain ⟨length, t⟩ := r
  have ht := (readVarint64_advances (orThrow_eq_ok.mp hread)).moves hs
  dsimp only
  rw [incrementRecursionDepthAndPushLimit]
  cases hpush : t.pushLimit length.toInt with
  | none => rintro ⟨⟩
  | some pushed =>
    obtain ⟨oldLimit, u⟩ := pushed
    have hu := pushLimit_held ht.toHeld hpush
    obtain ⟨-, -, rfl⟩ := (pushLimit_eq_some ht.toHeld).mp hpush
    dsimp only
    split
    next => rintro ⟨⟩
    next =>
      refine bind_ne_error (hparse _ _ _ _ ⟨hu.size, hu.limit_le⟩ ht.buffer ht.forward) fun r _ => ?_
      obtain ⟨o, v⟩ := r
      change (if v.legitimateMessageEnd = true then _ else _) ≠ _
      split <;> rintro ⟨⟩

theorem readValue_ne_outOfFuel (type : FieldType κ) (hs : s.Held) (hparse : Enough parse s) :
    readValue pool parse type s ≠ .error .outOfFuel := by
  cases type with
  | scalar type => exact map_ne_error (ScalarType.read_ne_outOfFuel _ _)
  | message klass => exact map_ne_error (readMessage_ne_outOfFuel hs hparse)

theorem readNormal_ne_outOfFuel {field : FieldDescriptor κ} (hs : s.Held) (hparse : Enough parse s) :
    readNormal pool utf8 parse entry fields object field s ≠ .error .outOfFuel := by
  rw [readNormal]
  split
  next type _ _ =>
    refine bind_ne_error (readValue_ne_outOfFuel type hs hparse) fun r _ => ?_
    obtain ⟨value, t⟩ := r
    dsimp only
    split
    · rintro ⟨⟩
    · exact bind_ne_error (checkValue_ne_outOfFuel _ _) fun _ _ => by rintro ⟨⟩
  next type _ _ =>
    refine bind_ne_error (readValue_ne_outOfFuel type hs hparse) fun r _ => ?_
    obtain ⟨value, t⟩ := r
    exact bind_ne_error (appendHelper_ne_outOfFuel _ _ _) fun _ _ => by rintro ⟨⟩
  next keyType type _ =>
    refine bind_ne_error (map_ne_error (readMessage_ne_outOfFuel hs hparse)) fun r _ => ?_
    obtain ⟨key, value, t⟩ := r
    exact bind_ne_error (kvUpdateHelper_ne_outOfFuel _ _ _ _ _) fun _ _ => by rintro ⟨⟩

theorem parseFieldFromStream_ne_outOfFuel (hs : s.Held) (hparse : Enough parse s) :
    parseFieldFromStream pool utf8 parse entry fields object tag s ≠ .error .outOfFuel := by
  rw [parseFieldFromStream]
  split
  next => exact map_ne_error skipField_ne_outOfFuel
  next field _ =>
    split
    · exact readNormal_ne_outOfFuel hs hparse
    · split
      next type _ =>
        split
        · exact readPacked_ne_outOfFuel hs
        · exact map_ne_error skipField_ne_outOfFuel
      next => exact map_ne_error skipField_ne_outOfFuel

end Errors

theorem parseFromStream_ne_outOfFuel (hs : s.Held) (hfuel : s.buffer.length - s.current < fuel) :
    parseFromStream pool utf8 fuel entry fields object s ≠ .error .outOfFuel := by
  induction fuel generalizing entry fields object s with
  | zero => omega
  | succ fuel ih =>
    rw [parseFromStream]
    cases htag : s.readTag with
    | mk tag t =>
      have ht := readTag_moves hs htag
      dsimp only
      split
      next => rintro ⟨⟩
      next hne =>
        obtain ⟨hlen, hlt⟩ := readTag_lt htag hne
        have henough : Enough (parseFromStream pool utf8 fuel) t := by
          intro e inner o u hu hbuffer hle
          apply ih hu
          rw [hbuffer, ht.buffer]
          omega
        refine bind_ne_error (parseFieldFromStream_ne_outOfFuel ht.toHeld henough) fun r hfield => ?_
        obtain ⟨o, u⟩ := r
        have hu := parseFieldFromStream_moves (fun _ _ _ _ _ _ hv hok => parseFromStream_moves hv hok)
          ht.toHeld hfield
        exact henough _ _ _ _ hu.toHeld hu.buffer hu.forward

/-- The steps that `mergeFromString` is given are enough for all data. -/
theorem mergeFromString_ne_outOfFuel (pool : κ → List (FieldDescriptor κ)) (utf8 : List UInt8 → Bool)
    (klass : κ) (object : Properties κ) (data : List UInt8) :
    mergeFromString pool utf8 klass object data ≠ .error .outOfFuel := by
  apply map_ne_error
  apply parseFromStream_ne_outOfFuel ⟨rfl, le_rfl⟩
  exact Nat.lt_succ_of_le (Nat.sub_le _ _)

end Upb.Php
