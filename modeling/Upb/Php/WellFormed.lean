import Upb.Php.StreamTakes

/-!
# Well-formed messages

The records of a message are those of its class. A field that is not declared, or not with this wire
type, has any payload of the wire type; a message, a map entry and a packed field have a length and
what is inside. Varints are at most ten bytes long, and a tag counts modulo `2 ^ 32`.
-/

namespace Upb.Php

open Upb.Wire (IsVarint leb splitVarint splitVarint_eq_some_iff)

variable {κ : Type} {m w : ℕ} {p q t u : List UInt8}

/-- What is read behind a tag. -/
inductive Reading (κ : Type) where
  | skipped
  | scalar (type : ScalarType)
  | nested (fields : List (FieldDescriptor κ))
  | packed (type : ScalarType)

namespace FieldType

/-- A value of the type. -/
def reading (pool : κ → List (FieldDescriptor κ)) : FieldType κ → Reading κ
  | .scalar type => .scalar type
  | .message klass => .nested (pool klass)

end FieldType

namespace FieldDescriptor

/-- A value of the field in the normal format. -/
def reading (pool : κ → List (FieldDescriptor κ)) (field : FieldDescriptor κ) : Reading κ :=
  match field.kind with
  | .singular type _ => type.reading pool
  | .repeated type _ => type.reading pool
  | .map key value => .nested (entryFields key value)

end FieldDescriptor

/-- What is read behind a tag with this number and this wire type. -/
def reading (pool : κ → List (FieldDescriptor κ)) (fields : List (FieldDescriptor κ)) (number w : ℕ) :
    Reading κ :=
  match getFieldByNumber fields number with
  | none => .skipped
  | some field =>
    if w = field.wireType then field.reading pool
    else
      match field.packable with
      | some type => if w = 2 then .packed type else .skipped
      | none => .skipped

/-- The elements of a packed field. -/
inductive Elements (type : ScalarType) : List UInt8 → Prop
  | nil : Elements type []
  | cons {p rest : List UInt8} (hp : PayloadMod (2 ^ 64) type.getWireType p) (hrest : Elements type rest) :
      Elements type (p ++ rest)

/-- Payloads without messages inside. -/
inductive Plain (number w : ℕ) : Reading κ → List UInt8 → Prop
  | skipped {p : List UInt8} (hnumber : number ≠ 0) (hp : PayloadMod (2 ^ 32) w p) : Plain number w .skipped p
  | scalar {type : ScalarType} {p : List UInt8} (hp : PayloadMod (2 ^ 64) type.getWireType p) :
      Plain number w (.scalar type) p
  | packed {type : ScalarType} {len data : List UInt8} (hlen : IsVarint 10 len)
      (hvalue : leb len % 2 ^ 32 = data.length) (hdata : Elements type data) :
      Plain number w (.packed type) (len ++ data)

/-- The field number of a tag. -/
def tagNumber (tag : List UInt8) : ℕ := leb tag % 2 ^ 32 / 8

/-- The wire type of a tag. -/
def tagType (tag : List UInt8) : ℕ := leb tag % 8

/-- Bytes that are a tag. -/
structure IsTag (tag : List UInt8) : Prop where
  varint : IsVarint 10 tag
  ne_zero : leb tag % 2 ^ 32 ≠ 0

/-- Well-formed messages with these fields. -/
inductive WellFormed (pool : κ → List (FieldDescriptor κ)) : List (FieldDescriptor κ) → List UInt8 → Prop
  | nil {fields : List (FieldDescriptor κ)} : WellFormed pool fields []
  | plain {fields : List (FieldDescriptor κ)} {tag payload rest : List UInt8} (htag : IsTag tag)
      (hpayload : Plain (tagNumber tag) (tagType tag) (reading pool fields (tagNumber tag) (tagType tag)) payload)
      (hrest : WellFormed pool fields rest) : WellFormed pool fields (tag ++ (payload ++ rest))
  | nested {fields inner : List (FieldDescriptor κ)} {tag len data rest : List UInt8} (htag : IsTag tag)
      (hreading : reading pool fields (tagNumber tag) (tagType tag) = .nested inner)
      (hlen : IsVarint 10 len) (hvalue : leb len % 2 ^ 64 = data.length)
      (hdata : WellFormed pool inner data) (hrest : WellFormed pool fields rest) :
      WellFormed pool fields (tag ++ (len ++ (data ++ rest)))

section Cancel

/-- Varints at the front of the same bytes are the same. -/
theorem varint_cancel {n : ℕ} (hp : IsVarint n p) (hq : IsVarint n q) (h : p ++ t = q ++ u) :
    p = q ∧ t = u := by
  have hsplit : splitVarint n (p ++ t) = some (p, t) := splitVarint_eq_some_iff.mpr ⟨hp, rfl⟩
  have hsplit' : splitVarint n (q ++ u) = some (q, u) := splitVarint_eq_some_iff.mpr ⟨hq, rfl⟩
  rw [h, hsplit'] at hsplit
  simpa [eq_comm] using hsplit

/-- A length and its data at the front of the same bytes are the same. -/
theorem delimited_cancel {len len' data data' : List UInt8} (hlen : IsVarint 10 len)
    (hlen' : IsVarint 10 len') (hvalue : leb len % m = data.length) (hvalue' : leb len' % m = data'.length)
    (h : len ++ (data ++ t) = len' ++ (data' ++ u)) : len = len' ∧ data = data' ∧ t = u := by
  obtain ⟨rfl, hdata⟩ := varint_cancel hlen hlen' h
  exact ⟨rfl, List.append_inj hdata (hvalue.symm.trans hvalue')⟩

theorem PayloadMod.cancel (hp : PayloadMod m w p) (hq : PayloadMod m w q) (h : p ++ t = q ++ u) :
    p = q ∧ t = u := by
  cases hp with
  | varint hp =>
    cases hq with
    | varint hq => exact varint_cancel hp hq h
  | fixed64 hp =>
    cases hq with
    | fixed64 hq => exact List.append_inj h (hp.trans hq.symm)
  | delimited hlen hvalue =>
    cases hq with
    | delimited hlen' hvalue' =>
      rw [List.append_assoc, List.append_assoc] at h
      obtain ⟨rfl, rfl, htail⟩ := delimited_cancel hlen hlen' hvalue hvalue' h
      exact ⟨rfl, htail⟩
  | fixed32 hp =>
    cases hq with
    | fixed32 hq => exact List.append_inj h (hp.trans hq.symm)

theorem Plain.cancel {number : ℕ} {r : Reading κ} (hp : Plain number w r p) (hq : Plain number w r q)
    (h : p ++ t = q ++ u) : p = q ∧ t = u := by
  cases hp with
  | skipped _ hp =>
    cases hq with
    | skipped _ hq => exact hp.cancel hq h
  | scalar hp =>
    cases hq with
    | scalar hq => exact hp.cancel hq h
  | packed hlen hvalue _ =>
    cases hq with
    | packed hlen' hvalue' _ =>
      rw [List.append_assoc, List.append_assoc] at h
      obtain ⟨rfl, rfl, htail⟩ := delimited_cancel hlen hlen' hvalue hvalue' h
      exact ⟨rfl, htail⟩

theorem Plain.ne_nested {number : ℕ} {inner : List (FieldDescriptor κ)} :
    ¬Plain number w (.nested inner) p := nofun

variable {pool : κ → List (FieldDescriptor κ)} {fields : List (FieldDescriptor κ)}

/-- Well-formed messages after each other are well formed. -/
theorem WellFormed.append (hp : WellFormed pool fields p) (hq : WellFormed pool fields q) :
    WellFormed pool fields (p ++ q) := by
  induction hp with
  | nil => exact hq
  | plain htag hpayload _ ih =>
    rw [List.append_assoc, List.append_assoc]
    exact .plain htag hpayload (ih hq)
  | nested htag hreading hlen hvalue hdata _ _ ih =>
    rw [List.append_assoc, List.append_assoc, List.append_assoc]
    exact .nested htag hreading hlen hvalue hdata (ih hq)

/-- What is behind a well-formed message in a well-formed message is well formed. -/
theorem WellFormed.of_append (hp : WellFormed pool fields p) (h : WellFormed pool fields (p ++ q)) :
    WellFormed pool fields q := by
  induction hp with
  | nil => exact h
  | @plain fields tag payload rest htag hpayload _ ih =>
    generalize hbytes : tag ++ (payload ++ rest) ++ q = bytes at h
    rw [List.append_assoc, List.append_assoc] at hbytes
    cases h with
    | nil =>
      have hpos := htag.varint.length_pos
      simp_all
    | plain htag' hpayload' hrest' =>
      obtain ⟨rfl, hbehind⟩ := varint_cancel htag.varint htag'.varint hbytes
      obtain ⟨-, rfl⟩ := hpayload.cancel hpayload' hbehind
      exact ih hrest'
    | nested htag' hreading _ _ _ _ =>
      obtain ⟨rfl, -⟩ := varint_cancel htag.varint htag'.varint hbytes
      rw [hreading] at hpayload
      exact absurd hpayload Plain.ne_nested
  | @nested fields inner tag len data rest htag hreading hlen hvalue hdata _ _ ih =>
    generalize hbytes : tag ++ (len ++ (data ++ rest)) ++ q = bytes at h
    rw [List.append_assoc, List.append_assoc, List.append_assoc] at hbytes
    cases h with
    | nil =>
      have hpos := htag.varint.length_pos
      simp_all
    | plain htag' hpayload' _ =>
      obtain ⟨rfl, -⟩ := varint_cancel htag.varint htag'.varint hbytes
      rw [hreading] at hpayload'
      exact absurd hpayload' Plain.ne_nested
    | nested htag' _ hlen' hvalue' _ hrest' =>
      obtain ⟨rfl, hbehind⟩ := varint_cancel htag.varint htag'.varint hbytes
      obtain ⟨-, -, rfl⟩ := delimited_cancel hlen hlen' hvalue hvalue' hbehind
      exact ih hrest'

/-- A well-formed message that is not empty starts with a tag. -/
theorem WellFormed.exists_tag (h : WellFormed pool fields p) (hne : p ≠ []) :
    ∃ tag rest, IsTag tag ∧ p = tag ++ rest := by
  cases h with
  | nil => exact absurd rfl hne
  | plain htag => exact ⟨_, _, htag, rfl⟩
  | nested htag => exact ⟨_, _, htag, rfl⟩

end Cancel

end Upb.Php
