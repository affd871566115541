import Upb.Wire.Decode
import Upb.Wire.Reads

/-!
# The wire grammar

Sequences of records, with groups nested to any depth, and the two skippers of the decoder: the loop
over the fields of a message and the recursive skipping of groups.
-/

namespace Upb.Wire

open Upb.Common BoundedReader

/-- The bytes of a value that is not a group. The varint of a length has at most `lengthBytes` bytes. -/
inductive IsValue (lengthBytes : ℕ) : WireType → List UInt8 → Prop
  | varint {v : List UInt8} (h : IsVarint 10 v) : IsValue lengthBytes .varint v
  | bit32 {v : List UInt8} (h : v.length = 4) : IsValue lengthBytes .bit32 v
  | bit64 {v : List UInt8} (h : v.length = 8) : IsValue lengthBytes .bit64 v
  | delimited {len payload : List UInt8} (hlen : IsVarint lengthBytes len)
      (hmax : leb len ≤ int32Max) (h : payload.length = leb len) :
      IsValue lengthBytes .delimited (len ++ payload)

/-- Sequences of records whose groups nest at most so deep. The field numbers of the sequence itself
meet the predicate `number`, those inside of its groups meet `inner`. -/
inductive Records (lengthBytes : ℕ) (inner : ℕ → Prop) : (ℕ → Prop) → ℕ → List UInt8 → Prop
  | nil {number : ℕ → Prop} {depth : ℕ} : Records lengthBytes inner number depth []
  | field {number : ℕ → Prop} {depth n : ℕ} {w : WireType} {tag v rest : List UInt8} (hn : number n)
      (htag : IsTag n w tag) (hv : IsValue lengthBytes w v)
      (hrest : Records lengthBytes inner number depth rest) :
      Records lengthBytes inner number depth (tag ++ v ++ rest)
  | group {number : ℕ → Prop} {depth n : ℕ} {tag body endTag rest : List UInt8} (hn : number n)
      (htag : IsTag n .startGroup tag) (hbody : Records lengthBytes inner inner depth body)
      (hend : IsTag n .endGroup endTag)
      (hrest : Records lengthBytes inner number (depth + 1) rest) :
      Records lengthBytes inner number (depth + 1) (tag ++ (body ++ endTag) ++ rest)

/-- What skipping a value that is not a group reads. -/
theorem skipValue_eq_ok {skip : ℕ → Reading BoundedReader Unit} {tag : ℕ} {w : WireType}
    (hw : getWireType tag = some w) (hg : w ≠ .startGroup) {r r' : BoundedReader} :
    skipValue stream skip tag r = .ok ((), r') ↔ ∃ v, IsValue 5 w v ∧ Reads r v r' := by
  rw [skipValue, hw]
  cases w with
  | varint =>
    change (readVarint stream >>= fun _ => pure ()) r = _ ↔ _
    rw [Prog.bind_eq_ok]
    constructor
    · rintro ⟨val, t, hread, hp⟩
      cases hp
      obtain ⟨p, hp, -, hreads⟩ := readVarint_eq_ok.mp hread
      exact ⟨p, .varint hp, hreads⟩
    · rintro ⟨v, hv, hreads⟩
      cases hv with
      | varint h => exact ⟨_, r', readVarint_eq_ok.mpr ⟨v, h, rfl, hreads⟩, rfl⟩
  | bit32 =>
    refine skip_eq_ok.trans (exists_congr fun v => and_congr_left fun _ => ⟨.bit32, fun h => ?_⟩)
    cases h with
    | bit32 h => exact h
  | bit64 =>
    refine skip_eq_ok.trans (exists_congr fun v => and_congr_left fun _ => ⟨.bit64, fun h => ?_⟩)
    cases h with
    | bit64 h => exact h
  | delimited =>
    change (readSize stream >>= fun size => stream.skip size) r = _ ↔ _
    rw [Prog.bind_eq_ok]
    constructor
    · rintro ⟨size, t, hread, hskip⟩
      obtain ⟨p, hp, hmax, rfl, hreads⟩ := readSize_eq_ok.mp hread
      obtain ⟨v, hv, hreads'⟩ := skip_eq_ok.mp hskip
      exact ⟨p ++ v, .delimited hp hmax hv, hreads.trans hreads'⟩
    · rintro ⟨v, hv, hreads⟩
      cases hv with
      | @delimited len payload hlen hmax h =>
        have hrest : r.rest = len ++ (payload ++ r'.rest) := by rw [hreads.1, List.append_assoc]
        refine ⟨_, r.advance len.length, readSize_eq_ok.mpr ⟨len, hlen, hmax, rfl,
          reads_advance hrest⟩, skip_eq_ok.mpr ⟨payload, h, ?_, ?_⟩⟩
        · rw [advance, hrest, List.drop_left]
        · rw [hreads.2]
          simp [advance, Nat.add_assoc, List.drop_drop]
  | startGroup => exact absurd rfl hg
  | endGroup =>
    constructor
    · intro h
      cases h
    · rintro ⟨v, hv, -⟩
      cases hv

/-- Splits the reading of two parts. -/
theorem BoundedReader.Reads.split {r r' : BoundedReader} {v w : List UInt8}
    (h : Reads r (v ++ w) r') :
    Reads r v (r.advance v.length) ∧ Reads (r.advance v.length) w r' := by
  have hrest : r.rest = v ++ (w ++ r'.rest) := by rw [h.1, List.append_assoc]
  refine ⟨reads_advance hrest, ?_, ?_⟩
  · rw [advance, hrest, List.drop_left]
  · rw [h.2]
    simp [advance, Nat.add_assoc, List.drop_drop]

theorem BoundedReader.Reads.length_eq {r r' : BoundedReader} {v : List UInt8} (h : Reads r v r') :
    r.rest.length = v.length + r'.rest.length := by
  rw [h.1, List.length_append]

section SkipGroup

variable {fuel depth tag : ℕ} {r r' : BoundedReader}

/-- A round of the loop of `_upb_WireReader_SkipGroup`. -/
def groupRound (fuel depth tag : ℕ) : Unit → Reading BoundedReader (Unit ⊕ Unit) := fun _ => do
  let t ← readTag stream
  if t = tag / 8 * 8 + WireType.endGroup.toNat then pure (.inr ())
  else
    skipValue stream (skipGroup stream fuel depth) t
    pure (.inl ())

/-- The loop of `_upb_WireReader_SkipGroup`. -/
def groupLoop (fuel depth tag n : ℕ) : Reading BoundedReader Unit :=
  Prog.loop stream.isDone .outOfFuel (groupRound fuel depth tag) (fun _ => throw .malformed) n ()

theorem skipGroup_succ : skipGroup stream fuel (depth + 1) tag = groupLoop fuel depth tag fuel := rfl

theorem isDone_of_ne_nil (h : r.rest ≠ []) : stream.isDone r = .ok (false, r) := by
  change Except.ok (r.rest.isEmpty, r) = _
  rw [List.isEmpty_eq_false_iff.mpr h]

theorem isDone_of_eq_nil (h : r.rest = []) : stream.isDone r = .ok (true, r) := by
  change Except.ok (r.rest.isEmpty, r) = _
  rw [h]
  rfl

theorem IsVarint.ne_nil {n : ℕ} {p : List UInt8} (h : IsVarint n p) : p ≠ [] :=
  List.length_pos_iff.mp h.length_pos

/-- A round at the end group tag. -/
theorem groupRound_end {endTag : List UInt8} (hend : IsTag (tag / 8) .endGroup endTag)
    (h : Reads r endTag r') : groupRound fuel depth tag () r = .ok (.inr (), r') := by
  rw [groupRound, Prog.bind_of_ok (readTag_eq_ok.mpr ⟨endTag, hend.varint, hend.lt, rfl, h⟩),
    if_pos hend.value]
  rfl

/-- A round at a record. -/
theorem groupRound_record {n : ℕ} {w : WireType} {p : List UInt8} (hp : IsTag n w p)
    (hw : w ≠ .endGroup) {r₁ : BoundedReader} (h : Reads r p r₁)
    (hskip : skipValue stream (skipGroup stream fuel depth) (leb p) r₁ = .ok ((), r')) :
    groupRound fuel depth tag () r = .ok (.inl (), r') := by
  have hne : leb p ≠ tag / 8 * 8 + WireType.endGroup.toNat := by
    intro heq
    have htype := hp.getWireType
    rw [heq, getWireType_eq_some_iff] at htype
    cases w <;> simp [WireType.toNat] at htype hw
  rw [groupRound, Prog.bind_of_ok (readTag_eq_ok.mpr ⟨p, hp.varint, hp.lt, rfl, h⟩), if_neg hne,
    Prog.bind_of_ok hskip]
  rfl

/-- Records are skipped up to the end group tag. -/
theorem groupLoop_of_records {inner number : ℕ → Prop} {body : List UInt8}
    (h : Records 5 inner number depth body) :
    ∀ {tag n : ℕ} {endTag : List UInt8} {r r' : BoundedReader},
      IsTag (tag / 8) .endGroup endTag → Reads r (body ++ endTag) r' → body.length < n →
      r.rest.length ≤ fuel → groupLoop fuel depth tag n r = .ok ((), r') := by
  induction h with
  | nil =>
    intro tag n endTag r r' hend hreads hn hfuel
    obtain ⟨n, rfl⟩ : ∃ k, n = k + 1 := ⟨n - 1, by omega⟩
    have hne : r.rest ≠ [] := by
      rw [hreads.1]
      simp [hend.varint.ne_nil]
    rw [groupLoop, Prog.loop_of_not_done (isDone_of_ne_nil hne),
      Prog.bind_of_ok (groupRound_end hend hreads)]
    rfl
  | @field number depth k w p v rest hk hp hv hrest ih =>
    intro tag n endTag r r' hend hreads hn hfuel
    obtain ⟨n, rfl⟩ : ∃ k, n = k + 1 := ⟨n - 1, by omega⟩
    rw [List.append_assoc, List.append_assoc] at hreads
    obtain ⟨h₁, hreads⟩ := hreads.split
    obtain ⟨h₂, hreads⟩ := hreads.split
    have hne : r.rest ≠ [] := by
      rw [h₁.1]
      simp [hp.varint.ne_nil]
    have hw : w ≠ .endGroup ∧ w ≠ .startGroup := by cases hv <;> simp
    have hround : groupRound fuel depth tag () r = .ok (.inl (), _) := groupRound_record hp hw.1 h₁
      ((skipValue_eq_ok hp.getWireType hw.2).mpr ⟨v, hv, h₂⟩)
    rw [groupLoop, Prog.loop_of_not_done (isDone_of_ne_nil hne), Prog.bind_of_ok hround]
    have hlen₁ := h₁.length_eq
    have hlen₂ := h₂.length_eq
    simp only [List.length_append] at hn hlen₂
    have := hp.varint.length_pos
    exact ih hend hreads (by omega) (by omega)
  | @group number depth k p body end' rest hk hp hbody hend' hrest ihbody ihrest =>
    intro tag n endTag r r' hend hreads hn hfuel
    obtain ⟨n, rfl⟩ : ∃ k, n = k + 1 := ⟨n - 1, by omega⟩
    rw [List.append_assoc, List.append_assoc] at hreads
    obtain ⟨h₁, hreads⟩ := hreads.split
    obtain ⟨h₂, hreads⟩ := hreads.split
    have hne : r.rest ≠ [] := by
      rw [h₁.1]
      simp [hp.varint.ne_nil]
    have hlen₁ := h₁.length_eq
    have hlen₂ := h₂.length_eq
    have hlen₃ : (body ++ end').length = body.length + end'.length := List.length_append
    simp only [List.length_append] at hn
    have := hp.varint.length_pos
    have := hend'.varint.length_pos
    have hskip : skipValue stream (skipGroup stream fuel (depth + 1)) (leb p)
        (r.advance p.length) = .ok ((), (r.advance p.length).advance (body ++ end').length) := by
      rw [skipValue, hp.getWireType]
      change groupLoop fuel depth (leb p) fuel _ = _
      have hnumber : leb p / 8 = k := hp.getFieldNumber
      exact ihbody (by rw [hnumber]; exact hend') h₂ (by omega) (by omega)
    have hround : groupRound fuel (depth + 1) tag () r = .ok (.inl (), _) :=
      groupRound_record hp (by decide) h₁ hskip
    rw [groupLoop, Prog.loop_of_not_done (isDone_of_ne_nil hne), Prog.bind_of_ok hround]
    exact ihrest hend hreads (by omega) (by omega)

/-- What is skipped up to the end group tag are records. -/
theorem records_of_skipGroup (h : skipGroup stream fuel depth tag r = .ok ((), r')) :
    ∃ d body endTag, depth = d + 1 ∧ Records 5 (fun _ => True) (fun _ => True) d body ∧
      IsTag (tag / 8) .endGroup endTag ∧ Reads r (body ++ endTag) r' := by
  induction depth generalizing tag r r' with
  | zero => cases h
  | succ depth ih =>
    -- the loop, round by round
    have hloop : ∀ {n : ℕ} {r r' : BoundedReader}, groupLoop fuel depth tag n r = .ok ((), r') →
        ∃ body endTag, Records 5 (fun _ => True) (fun _ => True) depth body ∧
          IsTag (tag / 8) .endGroup endTag ∧ Reads r (body ++ endTag) r' := by
      intro n
      induction n with
      | zero =>
        intro r r' h
        by_cases hr : r.rest = []
        · rw [groupLoop, Prog.loop_of_done (isDone_of_eq_nil hr)] at h
          cases h
        · obtain ⟨k, _, _, hk, _⟩ := Prog.loop_eq_ok (isDone_of_ne_nil hr) h
          omega
      | succ n ihn =>
        intro r r' h
        by_cases hr : r.rest = []
        · rw [groupLoop, Prog.loop_of_done (isDone_of_eq_nil hr)] at h
          cases h
        obtain ⟨k, res, t', hk, hround, hres⟩ := Prog.loop_eq_ok (isDone_of_ne_nil hr) h
        obtain rfl : n = k := by omega
        rw [groupRound, Prog.bind_eq_ok] at hround
        obtain ⟨t, r₁, htag, hround⟩ := hround
        obtain ⟨p, hp, hlt, rfl, hreads⟩ := readTag_eq_ok.mp htag
        by_cases hend : leb p = tag / 8 * 8 + WireType.endGroup.toNat
        · rw [if_pos hend] at hround
          cases hround
          rcases hres with ⟨_, hres, _⟩ | ⟨_, rfl⟩
          · cases hres
          · exact ⟨[], p, .nil, ⟨hp, hlt, hend⟩, hreads⟩
        · rw [if_neg hend, Prog.bind_eq_ok] at hround
          obtain ⟨_, r₂, hskip, hround⟩ := hround
          cases hround
          rcases hres with ⟨_, _, hres⟩ | ⟨hres, _⟩
          swap
          · cases hres
          obtain ⟨body, endTag, hbody, hendTag, hreads'⟩ := ihn hres
          cases hw : getWireType (leb p) with
          | none =>
            rw [skipValue, hw] at hskip
            cases hskip
          | some w =>
            have hp' := IsTag.of_getWireType hp hlt hw
            by_cases hg : w = .startGroup
            · subst hg
              rw [skipValue, hw] at hskip
              obtain ⟨d, body', endTag', rfl, hbody', hend', hreads''⟩ := ih hskip
              refine ⟨_, endTag, .group trivial hp' hbody' hend' hbody, hendTag, ?_⟩
              have := hreads.trans (hreads''.trans hreads')
              simpa only [List.append_assoc] using this
            · obtain ⟨v, hv, hreads''⟩ := (skipValue_eq_ok hw hg).mp hskip
              refine ⟨_, endTag, .field trivial hp' hv hbody, hendTag, ?_⟩
              have := hreads.trans (hreads''.trans hreads')
              simpa only [List.append_assoc] using this
    rw [skipGroup_succ] at h
    obtain ⟨body, endTag, hbody⟩ := hloop h
    exact ⟨depth, body, endTag, rfl, hbody⟩

end SkipGroup

end Upb.Wire
