import Upb.Php.ParseProgress

/-!
# Whether all of the input is parsed

`mergeFromString` stops where `readTag` returns zero and does not look why: a zero tag, a tag that is
cut off and the limit on all bytes end it like the end of the data. The loop over the fields of the
outermost message is followed from one tag to the next.
-/

namespace Upb.Php

open Upb.Common (bind_eq_ok)
open CodedInputStream

variable {κ : Type}

/-- The states in which the loop over the fields of the outermost message stands before a tag, with the
steps that are left. -/
inductive Reaches (pool : κ → List (FieldDescriptor κ)) (utf8 : List UInt8 → Bool) (klass : κ)
    (object : Properties κ) (data : List UInt8) : ℕ → Properties κ → CodedInputStream → Prop
  | start : Reaches pool utf8 klass object data (data.length + 1) object (.new data)
  | step {fuel : ℕ} {o o' : Properties κ} {tag : PhpInt} {s t u : CodedInputStream}
      (h : Reaches pool utf8 klass object data (fuel + 1) o s) (htag : s.readTag = (tag, t)) (hne : tag ≠ 0)
      (hfield : parseFieldFromStream pool utf8 (parseFromStream pool utf8 fuel) false (pool klass) o tag t =
        .ok (o', u)) :
      Reaches pool utf8 klass object data fuel o' u

/-- `mergeFromString` throws, or has read all bytes, as a well-formed message. -/
def ConsumesAll (pool : κ → List (FieldDescriptor κ)) (utf8 : List UInt8 → Bool) (klass : κ)
    (object : Properties κ) (data : List UInt8) : Prop :=
  ∀ object' s, parseFromStream pool utf8 (data.length + 1) false (pool klass) object (.new data) =
      .ok (object', s) →
    s.current = data.length ∧ WellFormed pool (pool klass) data

/-- The loop is never behind the end of the buffer, and before its end it stands before a tag. -/
def TagsAhead (pool : κ → List (FieldDescriptor κ)) (utf8 : List UInt8 → Bool) (klass : κ)
    (object : Properties κ) (data : List UInt8) : Prop :=
  data.length < phpIntMax ∧ ∀ fuel o s, Reaches pool utf8 klass object data fuel o s →
    s.current ≤ s.bufferEnd ∧ (s.current < data.length → ∃ tag tail, IsTag tag ∧ s.rest = tag ++ tail)

variable {pool : κ → List (FieldDescriptor κ)} {utf8 : List UInt8 → Bool} {klass : κ}
  {object o object' : Properties κ} {data : List UInt8} {fuel : ℕ} {s s' : CodedInputStream}

/-- The rest of the parse starts where the loop stands. -/
theorem Reaches.parse (h : Reaches pool utf8 klass object data fuel o s) :
    parseFromStream pool utf8 (data.length + 1) false (pool klass) object (.new data) =
      parseFromStream pool utf8 fuel false (pool klass) o s := by
  induction h with
  | start => rfl
  | step _ htag hne hfield ih =>
    rw [ih, parseFromStream, htag]
    dsimp only
    rw [if_neg hne, hfield]
    rfl

/-- Where the parse ends, the loop read a tag that is zero. -/
theorem Reaches.last (h : Reaches pool utf8 klass object data fuel o s)
    (hparse : parseFromStream pool utf8 fuel false (pool klass) o s = .ok (object', s')) :
    ∃ fuel' u, Reaches pool utf8 klass object data fuel' object' u ∧ u.readTag = (0, s') := by
  induction fuel generalizing o s with
  | zero => cases hparse
  | succ fuel ih =>
    rw [parseFromStream] at hparse
    cases htag : s.readTag with
    | mk tag t =>
      rw [htag] at hparse
      dsimp only at hparse
      split at hparse
      next hzero =>
        cases hparse
        rw [hzero] at htag
        exact ⟨_, s, h, htag⟩
      next hne =>
        obtain ⟨⟨o', u⟩, hfield, hparse⟩ := bind_eq_ok.mp hparse
        exact ih (.step h htag hne hfield) hparse

/-- As long as the loop is inside of the buffer, it has read well-formed records. -/
theorem Reaches.passed (hlen : data.length < phpIntMax)
    (hroom : data.length ≤ totalBytesLimit ∨
      ∀ fuel o s, Reaches pool utf8 klass object data fuel o s → s.current ≤ s.bufferEnd)
    (h : Reaches pool utf8 klass object data fuel o s) :
    ∃ p, WellFormed pool (pool klass) p ∧ (new data).Passed p s ∧ s.Sane ∧ data.length < fuel + s.current := by
  induction h with
  | start => exact ⟨[], .nil, .nil (sane_new hlen).toHeld, sane_new hlen, by simp [new]⟩
  | @step fuel o o' tag s t u h htag hne hfield ih =>
    obtain ⟨p, hp, hpassed, hs, hfuel⟩ := ih
    have hroom' : s.bufferEnd ≤ totalBytesLimit ∨ u.current ≤ u.bufferEnd :=
      hroom.imp hpassed.closed fun hin => hin _ _ _ (.step h htag hne hfield)
    obtain ⟨q, hq, hnonempty, hrest, hu⟩ := parseFieldFromStream_passed (parseFromStream_sound pool utf8 fuel)
      (fun _ _ _ _ _ _ hv hok => parseFromStream_moves hv hok) hs hroom' htag hne hfield
    refine ⟨p ++ q, hp.append hq, hpassed.trans hrest, hu, ?_⟩
    have hpos := List.length_pos_of_ne_nil hnonempty
    have hcurrent := hrest.current
    omega

/-- What the loop has read and what it has in front of it are the data. -/
theorem passed_new {p : List UInt8} (h : (new data).Passed p s) : data = p ++ data.drop s.current := by
  obtain ⟨tail, htail⟩ := h.bytes
  have hdata : data = p ++ tail := htail
  have hcurrent : s.current = p.length := by simpa [new] using h.current
  rw [hcurrent]
  conv_rhs => rw [hdata, List.drop_left]
  exact hdata

/-- Before a tag the loop does not stop. -/
theorem readTag_ne_zero {tag tail : List UInt8} (hs : s.InBuffer) (htag : IsTag tag) (hrest : s.rest = tag ++ tail) :
    (s.readTag).1 ≠ 0 := by
  rw [readTag_eq hs hrest htag.varint, toInt32_mod]
  exact toInt32_ne_zero (Nat.mod_lt _ (by omega)) (Nat.pos_of_ne_zero htag.ne_zero)

theorem TagsAhead.consumesAll (h : TagsAhead pool utf8 klass object data) :
    ConsumesAll pool utf8 klass object data := by
  obtain ⟨hlen, hahead⟩ := h
  intro object' s' hparse
  obtain ⟨fuel, u, hu, hzero⟩ := Reaches.start.last hparse
  obtain ⟨hin, htag⟩ := hahead _ _ _ hu
  obtain ⟨p, hp, hpassed, hsane, -⟩ := hu.passed hlen (.inr fun _ _ _ hr => (hahead _ _ _ hr).1)
  have hlimit := hpassed.limit
  have hle := hsane.bufferEnd_le
  have hbuffer : u.currentLimit = data.length := hlimit
  have hend : u.current = data.length := by
    by_contra hne
    obtain ⟨tag, tail, htag, hrest⟩ := htag (by omega)
    have hne := readTag_ne_zero hsane.toInBuffer htag hrest
    rw [hzero] at hne
    exact hne rfl
  have hdata := passed_new hpassed
  rw [hend, List.drop_length, List.append_nil] at hdata
  refine ⟨?_, hdata ▸ hp⟩
  rw [readTag, if_pos (by omega)] at hzero
  dsimp only at hzero
  split at hzero
  all_goals
    cases hzero
    exact hend

theorem ConsumesAll.tagsAhead (htotal : data.length ≤ totalBytesLimit)
    (h : ConsumesAll pool utf8 klass object data) : TagsAhead pool utf8 klass object data := by
  have hlen : data.length < phpIntMax := by
    rw [totalBytesLimit] at htotal
    rw [phpIntMax]
    omega
  refine ⟨hlen, fun fuel o s hs => ?_⟩
  obtain ⟨p, hp, hpassed, hsane, hfuel⟩ := hs.passed hlen (.inl htotal)
  refine ⟨hsane.current_le, fun hbefore => ?_⟩
  have hend : s.bufferEnd = data.length := by
    have hlimit : s.currentLimit = data.length := hpassed.limit
    rcases hsane.closest with hmin | hmin <;> omega
  have hrest : s.rest = data.drop s.current := by
    rw [CodedInputStream.rest, show s.buffer = data from hpassed.buffer, hend, ← List.length_drop,
      List.take_length]
  cases htag : s.readTag with
  | mk tag t =>
    by_cases hzero : tag = 0
    · obtain ⟨fuel, rfl⟩ : ∃ k, fuel = k + 1 := ⟨fuel - 1, by omega⟩
      have hstop : parseFromStream pool utf8 (fuel + 1) false (pool klass) o s = .ok (o, t) := by
        rw [parseFromStream, htag]
        exact if_pos hzero
      obtain ⟨-, hwhole⟩ := h _ _ (hs.parse.trans hstop)
      rw [passed_new hpassed] at hwhole
      have hne : data.drop s.current ≠ [] := by
        rw [Ne, List.drop_eq_nil_iff]
        omega
      obtain ⟨tag', tail, htag', heq⟩ := (hp.of_append hwhole).exists_tag hne
      exact ⟨tag', tail, htag', hrest.trans heq⟩
    · obtain ⟨bytes, hbytes, htook, -⟩ := readTag_isTag hsane.toInBuffer htag hzero
      exact ⟨bytes, _, hbytes, htook.rest_eq⟩

end Upb.Php
