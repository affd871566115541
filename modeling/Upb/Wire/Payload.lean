import Upb.Wire.Grammar
import Upb.Wire.Rounds

/-!
# Decoding a payload

What the checked decoder makes of some bytes depends neither on where they stand nor on how many rounds
the loops have, as long as there are enough of them. The bytes of a concatenation are decoded one part
after the other.
-/

namespace Upb.Wire

open Upb.Common BoundedReader

variable {cfg : DecodeConfig} {fuel calls depth : ℕ} {t : TableId} {d : Decoding} {r : BoundedReader}

/-- A call of the checked decoder on the bytes of a payload. -/
def decodePayload (cfg : DecodeConfig) (calls depth : ℕ) (t : TableId) (d : Decoding)
    (payload : List UInt8) : Except DecodeError (Decoding × Option ℕ) :=
  (decodeMessage stream cfg payload.length calls depth t d (.init 0 payload)).map Prod.fst

/-- Both readers see the same bytes. -/
theorem longerSim_rel_of_eq {P : Prop} {r₁ r₂ : BoundedReader} (h : r₁.rest = r₂.rest) :
    (longerSim P).rel ([] : List UInt8) .base r₁ r₂ :=
  ⟨by rw [h, List.append_nil], fun h => absurd rfl h, trivial⟩

/-- The checked decoder on a reader in front of a payload. -/
theorem decodeMessage_eq_decodePayload (cfg : DecodeConfig) (calls depth : ℕ) (t : TableId)
    (d : Decoding) (hr : r.rest.length ≤ fuel) :
    match decodePayload cfg calls depth t d r.rest with
    | .ok v => ∃ r', decodeMessage stream cfg fuel calls depth t d r = .ok (v, r') ∧
        (v.2 = none → r'.rest = [])
    | .error e => decodeMessage stream cfg fuel calls depth t d r = .error e := by
  have hsub : (longerSim False).SubSim (decodeMessage stream cfg fuel calls)
      (decodeMessage stream cfg r.rest.length calls) :=
    decodeMessage_subSim (longerSim False) (.inr ⟨hr, .inr rfl⟩) (fun _ => goodItems_longer _ _) calls
  have hout := (hsub depth t d).rel ([] : List UInt8) r (.init 0 r.rest) (longerSim_rel_of_eq rfl)
  have hsafe : SubConsumes r.rest.length (decodeMessage stream cfg r.rest.length calls) :=
    decodeMessage_consumes cfg calls
  have hcode := hsafe r.rest.length le_rfl depth t d (.init 0 r.rest) le_rfl
  rw [decodePayload]
  cases hp : decodeMessage stream cfg r.rest.length calls depth t d (.init 0 r.rest) with
  | error e =>
    rw [hp] at hout hcode
    rcases hout with h | ⟨h, -⟩ | h | rfl
    · exact h
    · exact h.elim
    · exact h.elim
    · exact absurd rfl hcode.2
  | ok q =>
    rw [hp] at hout
    rcases hout with ⟨_, r', h, rfl, hrel⟩ | ⟨-, h⟩
    · refine ⟨r', h, fun hnone => ?_⟩
      have hphase := hrel.phase
      rw [StreamSim.endLevel, hnone] at hphase
      exact hphase
    · exact h.1.elim

theorem decodePayload_succ (payload : List UInt8) :
    decodePayload cfg (calls + 1) depth t d payload =
      (messageLoop stream cfg payload.length (decodeMessage stream cfg payload.length calls) depth t
        payload.length d (.init 0 payload)).map fun q => messageEnd cfg t q.1 := by
  rw [decodePayload, decodeMessage_succ, Prog.bind_apply]
  generalize messageLoop stream _ _ _ _ _ _ _ _ = o
  cases o <;> rfl

/-- A call whose result does not miss required fields has not missed any before. -/
theorem messageEnd_eq {m : Message} {q : Decoding × Option ℕ} {endGroup : Option ℕ}
    (h : messageEnd cfg t q = (⟨m, false⟩, endGroup)) : q = (⟨m, false⟩, endGroup) := by
  obtain ⟨⟨msg, missing⟩, _⟩ := q
  simp only [messageEnd, checkRequired, Prod.mk.injEq, Decoding.mk.injEq] at h
  obtain ⟨⟨rfl, hreq⟩, rfl⟩ := h
  cases missing with
  | false => rfl
  | true =>
    exfalso
    revert hreq
    split <;> simp

/-- The loop on a reader in front of a payload. -/
theorem messageLoop_eq_payload {rounds : ℕ} (hr : r.rest.length ≤ fuel)
    (hrounds : r.rest.length ≤ rounds) :
    (messageLoop stream cfg fuel (decodeMessage stream cfg fuel calls) depth t rounds d r).map
        (fun q => messageEnd cfg t q.1) = decodePayload cfg (calls + 1) depth t d r.rest := by
  have hsub : (longerSim False).SubSim (decodeMessage stream cfg fuel calls)
      (decodeMessage stream cfg r.rest.length calls) :=
    decodeMessage_subSim (longerSim False) (.inr ⟨hr, .inr rfl⟩) (fun _ => goodItems_longer _ _) calls
  have htriple : (longerSim False).Triple Eq .base
      (messageLoop stream cfg fuel (decodeMessage stream cfg fuel calls) depth t rounds d)
      (messageLoop stream cfg r.rest.length (decodeMessage stream cfg r.rest.length calls) depth t
        r.rest.length d) StreamSim.endLevel :=
    messageLoop_triple (longerSim False) (.inr ⟨hr, .inr rfl⟩) hsub (goodItems_longer _ _) depth t
      (.inr ⟨hrounds, .inr rfl⟩) d
  have hout := htriple.rel ([] : List UInt8) r (.init 0 r.rest) (longerSim_rel_of_eq rfl)
  have hsafe : SubConsumes r.rest.length (decodeMessage stream cfg r.rest.length (calls + 1)) :=
    decodeMessage_consumes cfg (calls + 1)
  have hcode := hsafe r.rest.length le_rfl depth t d (.init 0 r.rest) le_rfl
  rw [decodePayload_succ]
  cases hp : messageLoop stream cfg r.rest.length (decodeMessage stream cfg r.rest.length calls) depth
      t r.rest.length d (.init 0 r.rest) with
  | error e =>
    rw [hp] at hout
    rcases hout with h | ⟨h, -⟩ | h | rfl
    · rw [h]
    · exact h.elim
    · exact h.elim
    · rw [decodeMessage_succ, Prog.bind_of_error hp] at hcode
      exact absurd rfl hcode.2
  | ok q =>
    rw [hp] at hout
    rcases hout with ⟨_, r', h, rfl, -⟩ | ⟨-, h⟩
    · rw [h]
      rfl
    · exact h.1.elim

/-- The parts of a payload are decoded one after the other. -/
theorem decodePayload_append {m : Message} {p : List UInt8}
    (h : decodePayload cfg (calls + 1) depth t d p = .ok (⟨m, false⟩, none)) (q : List UInt8) :
    decodePayload cfg (calls + 1) depth t d (p ++ q) =
      decodePayload cfg (calls + 1) depth t ⟨m, false⟩ q := by
  have hlen : (p ++ q).length = p.length + q.length := List.length_append
  rw [decodePayload_succ] at h
  cases hloop : messageLoop stream cfg p.length (decodeMessage stream cfg p.length calls) depth t
      p.length d (.init 0 p) with
  | error e =>
    rw [hloop] at h
    cases h
  | ok o =>
    obtain ⟨res, r₁⟩ := o
    rw [hloop] at h
    obtain rfl := messageEnd_eq (Except.ok.inj h)
    obtain ⟨k, r₂, hk, hrounds, hdone⟩ := exists_rounds hloop
    have hnil : r₂.rest = [] := by
      have hempty : stream.isDone r₂ = .ok (r₂.rest.isEmpty, r₂) := rfl
      rw [hempty] at hdone
      exact List.isEmpty_iff.mp (congrArg Prod.fst (Except.ok.inj hdone))
    obtain ⟨r', hrounds', hrest⟩ := hrounds.longer (show p.length ≤ (p ++ q).length by omega)
      (show (BoundedReader.init 0 (p ++ q)).rest = (BoundedReader.init 0 p).rest ++ q from rfl)
    rw [hnil, List.nil_append] at hrest
    obtain ⟨n, hn⟩ := Nat.exists_eq_add_of_le (show k ≤ (p ++ q).length by omega)
    subst hrest
    rw [decodePayload_succ, ← messageLoop_eq_payload (show r'.rest.length ≤ (p ++ r'.rest).length by omega)
      (show r'.rest.length ≤ n by omega), ← hrounds'.messageLoop_eq n, ← hn]

/-- `upb_Decode` on the patch buffer stream accepts what the checked decoder accepts as a payload. -/
theorem upbDecode_iff_decodePayload {maxDepth : ℕ} {m m' : Message} {input : List UInt8}
    (hinput : input.length ≤ int32Max) :
    (upbDecode cfg maxDepth t m input).map Decoded.msg = .ok m' ↔
      decodePayload cfg (effectiveMaxDepth maxDepth + 1) (effectiveMaxDepth maxDepth) t ⟨m, false⟩ input =
        .ok (⟨m', false⟩, none) := by
  set depth := effectiveMaxDepth maxDepth with hdepth
  have hrun : decode stream cfg input.length maxDepth t m (.init 0 input) =
      (decodeMessage stream cfg input.length (depth + 1) depth t ⟨m, false⟩ >>= fun r =>
        if r.2 ≠ none then throw .malformed else if r.1.missingRequired then throw .missingRequired
        else pure r.1.msg) (.init 0 input) := rfl
  rw [Prog.map_eq_ok]
  simp only [upbDecode_eq_ok_iff cfg maxDepth t m hinput, checkedDecode, decodePayload, Prog.map_eq_ok, hrun]
  constructor
  · rintro ⟨_, ⟨⟨m₁, r₁⟩, hm, rfl⟩, rfl⟩
    obtain ⟨⟨⟨msg, missing⟩, endGroup⟩, r₂, hsub, hend⟩ := Prog.bind_eq_ok.mp hm
    refine ⟨_, hsub, ?_⟩
    cases endGroup with
    | some n => cases hend
    | none =>
      cases missing with
      | true => cases hend
      | false =>
        cases hend
        rfl
  · rintro ⟨⟨_, r₁⟩, hsub, rfl⟩
    exact ⟨⟨m', r₁.log⟩, ⟨(m', r₁), Prog.bind_of_ok hsub, rfl⟩, rfl⟩

/-- A program under a limit. -/
theorem withLimit_eq {α : Type} {x : Reading BoundedReader α} {p w : List UInt8}
    (hr : r.rest = p ++ w) :
    stream.withLimit p.length x r =
      (x { r with rest := p }).map fun (a, r') => (a, { r' with rest := r'.rest ++ w }) := by
  have hpush : stream.pushLimit p.length r = .ok (w, { r with rest := p }) := by
    change BoundedReader.pushLimit p.length r = _
    rw [BoundedReader.pushLimit, hr, if_pos (by simp), List.take_left, List.drop_left]
    rfl
  rw [Stream.withLimit, Prog.bind_of_ok hpush, Prog.bind_apply]
  cases x { r with rest := p } <;> rfl

/-- A round of the field loop reads a tag. -/
theorem decodeField_of_tag {sub : SubDecoder BoundedReader} {n : ℕ} {w : WireType}
    {tag v : List UInt8} (htag : IsTag n w tag) (hw : w ≠ .endGroup) (hr : r.rest = tag ++ v) :
    decodeField stream cfg fuel sub depth t d r =
      (decodeFieldData stream cfg fuel sub depth t d n (some w) >>= fun d => pure (.inl d))
        (advance { r with start := (r.pos, r.rest) } tag.length) := by
  have hreads : Reads { r with start := (r.pos, r.rest) } tag
      (advance { r with start := (r.pos, r.rest) } tag.length) := reads_advance hr
  have hread := readTag_eq_ok.mpr ⟨tag, htag.varint, htag.lt, rfl, hreads⟩
  rw [decodeField, Prog.bind_of_ok (show stream.mark r = .ok ((), _) from rfl), Prog.bind_of_ok hread]
  simp only [htag.getWireType, htag.getFieldNumber]
  rw [if_neg (by simpa using hw)]

/-- A payload that the decoder reads in rounds. -/
theorem decodePayload_of_rounds {k : ℕ} {p : List UInt8} (hk : k ≤ p.length) {d' : Decoding}
    {r' : BoundedReader} (h : Rounds stream cfg p.length (decodeMessage stream cfg p.length calls)
      depth t k d (.init 0 p) d' r') (hnil : r'.rest = []) :
    decodePayload cfg (calls + 1) depth t d p = .ok (messageEnd cfg t (d', none)) := by
  obtain ⟨n, hn⟩ := Nat.exists_eq_add_of_le hk
  have hloop := h.messageLoop_eq n
  have hend : messageLoop stream cfg p.length (decodeMessage stream cfg p.length calls) depth t n d'
      r' = .ok ((d', none), r') := Prog.loop_of_done (isDone_of_eq_nil hnil)
  rw [← hn] at hloop
  rw [decodePayload_succ, hloop, hend]
  rfl

/-- The empty payload. -/
theorem decodePayload_nil :
    decodePayload cfg (calls + 1) depth t d [] = .ok (messageEnd cfg t (d, none)) :=
  decodePayload_of_rounds le_rfl (.refl d _) rfl

/-- A payload that is one record. -/
theorem decodePayload_of_record {rec : List UInt8} (hne : rec ≠ []) {d' : Decoding} {r' : BoundedReader}
    (h : decodeField stream cfg rec.length (decodeMessage stream cfg rec.length calls) depth t d
      (.init 0 rec) = .ok (.inl d', r')) (hnil : r'.rest = []) :
    decodePayload cfg (calls + 1) depth t d rec = .ok (messageEnd cfg t (d', none)) :=
  decodePayload_of_rounds (List.length_pos_iff.mpr hne)
    (.step (isDone_of_ne_nil hne) h (.refl d' r')) hnil

/-- A payload whose first record fails. -/
theorem decodePayload_of_error {rec : List UInt8} (hne : rec ≠ []) {e : DecodeError}
    (h : decodeField stream cfg rec.length (decodeMessage stream cfg rec.length calls) depth t d
      (.init 0 rec) = .error e) :
    decodePayload cfg (calls + 1) depth t d rec = .error e := by
  obtain ⟨n, hn⟩ := Nat.exists_eq_add_one_of_ne_zero (List.length_pos_iff.mpr hne).ne'
  have hdone : stream.isDone (.init 0 rec) = .ok (false, .init 0 rec) := isDone_of_ne_nil hne
  have hloop : messageLoop stream cfg rec.length (decodeMessage stream cfg rec.length calls) depth t
      (n + 1) d (.init 0 rec) = .error e := by
    rw [messageLoop, Prog.loop_of_not_done hdone, Prog.bind_of_error h]
  rw [← hn] at hloop
  rw [decodePayload_succ, hloop]
  rfl

/-- `_upb_Decoder_RecurseSubMessage` on the bytes of a payload. -/
def decodeSubPayload (cfg : DecodeConfig) (calls depth : ℕ) (t : TableId) (d : Decoding)
    (payload : List UInt8) : Except DecodeError Decoding :=
  match depth with
  | 0 => .error .maxDepthExceeded
  | depth + 1 =>
    match decodePayload cfg calls depth t d payload with
    | .ok (d, none) => .ok d
    | .ok (_, some _) => .error .malformed
    | .error e => .error e

/-- A delimited sub-message under the limit of its record. -/
theorem withLimit_recurseSubMessage (cfg : DecodeConfig) (calls depth : ℕ) (t : TableId)
    (d : Decoding) {p w : List UInt8} (hr : r.rest = p ++ w) (hp : p.length ≤ fuel) :
    match decodeSubPayload cfg calls depth t d p with
    | .ok x => ∃ r', stream.withLimit p.length
        (recurseSubMessage (decodeMessage stream cfg fuel calls) depth t d none) r = .ok (x, r') ∧
          r'.rest = w
    | .error e => stream.withLimit p.length
        (recurseSubMessage (decodeMessage stream cfg fuel calls) depth t d none) r = .error e := by
  rw [withLimit_eq hr]
  cases depth with
  | zero => rfl
  | succ depth =>
    have hrun := decodeMessage_eq_decodePayload cfg calls depth t d
      (show ({ r with rest := p } : BoundedReader).rest.length ≤ fuel from hp)
    rw [decodeSubPayload, recurseSubMessage, Prog.bind_apply]
    simp only at hrun
    cases hres : decodePayload cfg calls depth t d p with
    | error e =>
      rw [hres] at hrun
      rw [hrun]
      rfl
    | ok v =>
      rw [hres] at hrun
      obtain ⟨r', hr', hnil⟩ := hrun
      obtain ⟨x, endGroup⟩ := v
      rw [hr']
      cases endGroup with
      | some n => rfl
      | none =>
        refine ⟨_, rfl, ?_⟩
        change r'.rest ++ w = w
        rw [hnil rfl, List.nil_append]

end Upb.Wire
