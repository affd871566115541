import Upb.Wire.BoundedReader
import Upb.Wire.Decode

/-!
# The decoder terminates

Over the checked reader every round of every loop of the decoder consumes a byte, so that as many
rounds as there are input bytes are enough: the decoder returns, or fails with one of its codes.
-/

namespace Upb.Wire

open Upb.Common

/-- The codes of the decoder: all errors but a read out of bounds and the end of the rounds. -/
def IsCode (e : DecodeError) : Prop := e ≠ .outOfBounds ∧ e ≠ .outOfFuel

/-- From at most `n` bytes before the limit, `x` gets to at most `m` bytes before it, with a value that
meets `Q`, or fails with a code. -/
def Consumes {α : Type} (n : ℕ) (x : Reading BoundedReader α) (m : ℕ) (Q : α → Prop) : Prop :=
  Prog.Safe IsCode (fun r => r.rest.length ≤ n) x fun a r => Q a ∧ r.rest.length ≤ m

namespace Consumes

variable {α β γ : Type} {n m k : ℕ} {Q : α → Prop} {Q' : β → Prop}

theorem pure {a : α} (h : Q a) : Consumes n (pure a) n Q := Prog.Safe.pure fun _ hr => ⟨h, hr⟩

theorem throw {e : DecodeError} (h : IsCode e) : Consumes n (throw e) m Q := Prog.Safe.throw h

theorem bind {x : Reading BoundedReader α} {f : α → Reading BoundedReader β}
    (hx : Consumes n x m Q) (hf : ∀ a, Q a → Consumes m (f a) k Q') : Consumes n (x >>= f) k Q' :=
  Prog.Safe.bind hx fun a r hr => hf a hr.1 r hr.2

theorem mono {x : Reading BoundedReader α} {n' m' : ℕ} (hx : Consumes n x m Q) (hn : n' ≤ n)
    (hm : m ≤ m') : Consumes n' x m' Q :=
  Prog.Safe.conseq hx (fun _ h => h.trans hn) fun _ _ h => ⟨h.1, h.2.trans hm⟩

theorem imp {x : Reading BoundedReader α} {P : α → Prop} (hx : Consumes n x m Q)
    (h : ∀ a, Q a → P a) : Consumes n x m P :=
  Prog.Safe.conseq hx (fun _ h => h) fun _ _ hr => ⟨h _ hr.1, hr.2⟩

/-- A loop each of whose rounds consumes a byte. -/
theorem loop {step : β → Reading BoundedReader (β ⊕ γ)} {finish : β → Reading BoundedReader γ}
    {fuel : ℕ} (I : β → Prop) (Q : γ → Prop) (hn : n ≤ fuel)
    (hfinish : ∀ k b, I b → Consumes k (finish b) k Q)
    (hstep : ∀ k b, k < n → I b → Consumes (k + 1) (step b) k fun r =>
      match r with
      | .inl b => I b
      | .inr c => Q c) {b : β} (hb : I b) :
    Consumes n (Prog.loop BoundedReader.stream.isDone .outOfFuel step finish fuel b) n Q := by
  refine Prog.Safe.loop (fun r : BoundedReader => r.rest.length) I Q (fun k r hr => ?_) hfinish
    (fun k b hk hb => (hstep k b hk hb).conseq (fun _ h => h) fun r s hs => ?_) n fuel b hb le_rfl hn
  · refine ⟨hr, fun h => ?_⟩
    rw [List.isEmpty_eq_false_iff] at h
    exact List.length_pos_iff.mpr h
  · cases r <;> exact hs

end Consumes

namespace BoundedReader

variable {n : ℕ}

theorem consumes_readLong {k : ℕ} (hk : 0 < k) (max : ℕ) :
    Consumes (n + 1) (stream.readLong k max) n fun _ => True := by
  intro r hr
  rw [stream_readLong hk]
  cases hs : splitVarint k r.rest with
  | none => exact ⟨by decide, by decide⟩
  | some q =>
    obtain ⟨p, rest⟩ := q
    have hp := splitVarint_length hs
    rw [readOutcome]
    by_cases h : p.length = 1 ∨ leb p % 2 ^ 64 ≤ max
    · rw [if_pos h]
      refine ⟨trivial, ?_⟩
      simp only [advance, List.length_drop]
      omega
    · rw [if_neg h]
      exact ⟨by decide, by decide⟩

theorem consumes_take (k : ℕ) : Consumes n (take k) n fun data => data.length ≤ n := by
  intro r hr
  rw [take]
  by_cases h : k ≤ r.rest.length
  · rw [if_pos h]
    refine ⟨(List.length_take_le _ _).trans (h.trans hr), ?_⟩
    simp only [advance, List.length_drop]
    omega
  · rw [if_neg h]
    exact ⟨by decide, by decide⟩

theorem consumes_readFixed (k : ℕ) : Consumes n (stream.readFixed k) n fun _ => True :=
  (consumes_take k).bind fun _ _ => .pure trivial

theorem consumes_skip (k : ℕ) : Consumes n (stream.skip k) n fun _ => True :=
  (consumes_take k).bind fun _ _ => .pure trivial

theorem consumes_readStringAlwaysAlias (k : ℕ) :
    Consumes n (stream.readStringAlwaysAlias k) n fun v => v.data.length ≤ n := by
  intro r hr
  have hread : stream.readStringAlwaysAlias k r = if k ≤ r.rest.length then
      .ok (⟨r.pos, r.rest.take k⟩, { r.advance k with log := r.log ++ [⟨r.pos, k⟩] })
    else .error .malformed := rfl
  rw [hread]
  by_cases h : k ≤ r.rest.length
  · rw [if_pos h]
    refine ⟨(List.length_take_le _ _).trans (h.trans hr), ?_⟩
    simp only [advance, List.length_drop]
    omega
  · rw [if_neg h]
    exact ⟨by decide, by decide⟩

/-- An operation that changes nothing but the registers of the reader. -/
theorem consumes_register {α : Type} {x : Reading BoundedReader α}
    (h : ∀ r, ∃ a r', x r = .ok (a, r') ∧ r'.rest = r.rest) : Consumes n x n fun _ => True := by
  intro r hr
  obtain ⟨a, r', hx, hrest⟩ := h r
  rw [hx]
  exact ⟨trivial, by rw [hrest]; exact hr⟩

theorem consumes_mark : Consumes n stream.mark n fun _ => True :=
  consumes_register fun r => ⟨(), { r with start := (r.pos, r.rest) }, rfl, rfl⟩

theorem consumes_startCapture : Consumes n stream.startCapture n fun _ => True :=
  consumes_register fun r => ⟨(), { r with captureStart := r.start }, rfl, rfl⟩

theorem consumes_endCapture : Consumes n stream.endCapture n fun _ => True := by
  refine consumes_register fun r => ?_
  let size := r.pos - r.captureStart.1
  exact ⟨r.captureStart.2.take size, { r with log := r.log ++ [⟨r.captureStart.1, size⟩] }, rfl, rfl⟩

/-- A program under a limit. -/
theorem consumes_withLimit {α : Type} {x : Reading BoundedReader α} {Q : α → Prop} {k : ℕ}
    (hx : ∀ j ≤ n, Consumes j x j Q) : Consumes n (stream.withLimit k x) n Q := by
  intro r hr
  rw [Stream.withLimit]
  by_cases h : k ≤ r.rest.length
  · have hpush : stream.pushLimit k r = .ok (r.rest.drop k, { r with rest := r.rest.take k }) :=
      if_pos h
    rw [Prog.bind_of_ok hpush]
    have hin := hx k (h.trans hr) { r with rest := r.rest.take k } (List.length_take_le _ _)
    rw [Prog.bind_apply]
    cases hxr : x { r with rest := r.rest.take k } with
    | error e => rw [hxr] at hin; exact hin
    | ok p =>
      rw [hxr] at hin
      refine ⟨hin.1, ?_⟩
      change (p.2.rest ++ r.rest.drop k).length ≤ n
      rw [List.length_append, List.length_drop]
      have := hin.2
      omega
  · have hpush : stream.pushLimit k r = .error .malformed := if_neg h
    rw [Prog.bind_of_error hpush]
    exact ⟨by decide, by decide⟩

/-- A program on a fresh stream over an aliased string. -/
theorem consumes_nested {α : Type} {x : Reading BoundedReader α} {Q : α → Prop} {v : View}
    (hx : Consumes v.data.length x v.data.length Q) : Consumes n (stream.nested v x) n Q := by
  intro r hr
  have hin := hx (stream.enter v) (Nat.le_refl _)
  rw [Stream.nested]
  cases hxr : x (stream.enter v) with
  | error e => rw [hxr] at hin; exact hin
  | ok p => rw [hxr] at hin; exact ⟨hin.1, hr⟩

end BoundedReader

open BoundedReader

variable (cfg : DecodeConfig) {fuel n : ℕ}

theorem isCode_malformed : IsCode .malformed := ⟨by decide, by decide⟩

theorem skipValue_consumes {skip : ℕ → Reading BoundedReader Unit}
    (hskip : ∀ tag, Consumes n (skip tag) n fun _ => True) (tag : ℕ) :
    Consumes n (skipValue stream skip tag) n fun _ => True := by
  have hread : ∀ {k max : ℕ}, 0 < k → Consumes n (stream.readLong k max) n fun _ => True := by
    intro k max hk
    exact (consumes_readLong (n := n) hk max).mono (Nat.le_succ n) le_rfl
  rw [skipValue]
  split
  · exact (hread (by decide)).bind fun _ _ => .pure trivial
  · exact consumes_skip 4
  · exact consumes_skip 8
  · exact (hread (by decide)).bind fun size _ => consumes_skip size
  · exact hskip tag
  · exact .throw isCode_malformed
  · exact .throw isCode_malformed

/-- Skipping a group consumes its bytes. -/
theorem skipGroup_consumes (hn : n ≤ fuel) (depthLimit tag : ℕ) :
    Consumes n (skipGroup stream fuel depthLimit tag) n fun _ => True := by
  induction depthLimit generalizing n tag with
  | zero => exact .throw isCode_malformed
  | succ depthLimit ih =>
    refine Consumes.loop (fun _ => True) (fun _ => True) hn
      (fun _ _ _ => .throw isCode_malformed) (fun k _ hk _ => ?_) trivial
    refine (consumes_readLong (by decide) _).bind fun t _ => ?_
    split
    · exact .pure trivial
    · exact (skipValue_consumes (fun tag => ih (by omega) tag) t).bind fun _ _ => .pure trivial

theorem decodeWireValue_consumes (found : Found) (wireType : Option WireType) :
    Consumes n (decodeWireValue stream cfg found wireType) n fun _ => True := by
  have hread : ∀ {k max : ℕ}, 0 < k → Consumes n (stream.readLong k max) n fun _ => True := by
    intro k max hk
    exact (consumes_readLong (n := n) hk max).mono (Nat.le_succ n) le_rfl
  rcases wireType with _ | wireType
  · exact .throw isCode_malformed
  cases wireType with
  | varint =>
    refine (hread (by decide)).bind fun val _ => ?_
    cases found with
    | field f ext =>
      dsimp only
      split
      · split <;> exact .pure trivial
      · exact .pure trivial
    | _ => exact .pure trivial
  | bit32 =>
    refine (consumes_readFixed 4).bind fun val _ => ?_
    cases found with
    | field f ext => dsimp only; split <;> exact .pure trivial
    | _ => exact .pure trivial
  | bit64 =>
    refine (consumes_readFixed 8).bind fun val _ => ?_
    cases found with
    | field f ext => dsimp only; split <;> exact .pure trivial
    | _ => exact .pure trivial
  | delimited => exact (hread (by decide)).bind fun size _ => .pure trivial
  | startGroup =>
    cases found with
    | field f ext => dsimp only [decodeWireValue]; split <;> exact .pure trivial
    | _ => exact .pure trivial
  | endGroup => exact .throw isCode_malformed

theorem readString_consumes (size : ℕ) (validate : Bool) :
    Consumes n (readString stream cfg size validate) n fun _ => True := by
  refine (consumes_readStringAlwaysAlias size).bind fun v _ => ?_
  split
  · exact .throw ⟨by decide, by decide⟩
  · exact .pure trivial

/-- A decoder of sub-messages that consumes at most what is there. -/
def SubConsumes (fuel : ℕ) (sub : SubDecoder BoundedReader) : Prop :=
  ∀ n ≤ fuel, ∀ depth t d, Consumes n (sub depth t d) n fun _ => True

variable {cfg} {sub : SubDecoder BoundedReader}

theorem decodeSubMessage_consumes (hsub : SubConsumes fuel sub) (hn : n ≤ fuel) (depth : ℕ)
    (f : LinkedField) (d : Decoding) (size : ℕ) :
    Consumes n (decodeSubMessage stream sub depth f d size) n fun _ => True := by
  have hrec : ∀ j ≤ n, ∀ t expected,
      Consumes j (recurseSubMessage sub depth t d expected) j fun _ => True := by
    intro j hj t expected
    cases depth with
    | zero => exact .throw ⟨by decide, by decide⟩
    | succ depth =>
      refine (hsub j (by omega) depth t d).bind fun r _ => ?_
      dsimp only
      split
      · exact .throw isCode_malformed
      · exact .pure trivial
  rw [decodeSubMessage]
  split
  · exact .throw ⟨by decide, by decide⟩
  · split
    · refine (consumes_register fun r => ⟨_, r, rfl, rfl⟩).bind fun done _ => ?_
      cases done with
      | true => exact .throw isCode_malformed
      | false => exact hrec n le_rfl _ _
    · exact consumes_withLimit fun j hj => hrec j hj _ _

theorem decodeFixedPacked_consumes (lg2 size : ℕ) :
    Consumes n (decodeFixedPacked stream lg2 size) n fun _ => True := by
  refine (consumes_take size).bind fun data _ => ?_
  split
  · exact .throw isCode_malformed
  · exact .pure trivial

/-- A loop over packed varints. -/
private theorem packedLoop_consumes {β : Type} (hn : n ≤ fuel) (append : β → ℕ → β) (size : ℕ)
    (b : β) :
    Consumes n (stream.withLimit size (Prog.loop stream.isDone .outOfFuel
      (fun b => do let val ← readVarint stream; pure (.inl (append b val))) pure fuel b)) n
      fun _ => True :=
  consumes_withLimit fun j hj => Consumes.loop (fun _ => True) (fun _ => True) (hj.trans hn)
    (fun _ _ _ => .pure trivial)
    (fun _ _ _ _ => (consumes_readLong (by decide) _).bind fun _ _ => .pure trivial) trivial

theorem decodeToArray_consumes (hsub : SubConsumes fuel sub) (hn : n ≤ fuel) (depth : ℕ)
    (f : LinkedField) (d : Decoding) (op : DecodeOp) (val : ℕ) :
    Consumes n (decodeToArray stream cfg fuel sub depth f d op val) n fun _ => True := by
  cases op with
  | string => exact (readString_consumes cfg val true).bind fun _ _ => .pure trivial
  | bytes => exact (readString_consumes cfg val false).bind fun _ _ => .pure trivial
  | subMessage =>
    exact (decodeSubMessage_consumes hsub hn depth f _ val).bind fun _ _ => .pure trivial
  | fixedPacked lg2 => exact (decodeFixedPacked_consumes lg2 val).bind fun _ _ => .pure trivial
  | varintPacked lg2 =>
    exact (packedLoop_consumes hn (fun elems v =>
      elems ++ [storeBits lg2 (munge f.field.descriptortype v)]) val []).bind fun _ _ => .pure trivial
  | packedEnum =>
    exact (packedLoop_consumes hn (fun b v => if f.sub.checkEnum (v % 2 ^ 32)
      then (b.1 ++ [storeBits 2 v], b.2)
      else (b.1, b.2 ++ enumValueUnknown f.field.number v)) val ([], [])).bind
      fun _ _ => .pure trivial
  | _ => exact .pure trivial

theorem decodeToMap_consumes (hsub : SubConsumes fuel sub) (hn : n ≤ fuel) (depth : ℕ)
    (f : LinkedField) (d : Decoding) (size : ℕ) :
    Consumes n (decodeToMap stream cfg sub depth f d size) n fun _ => True := by
  rw [decodeToMap]
  split
  · exact .throw ⟨by decide, by decide⟩
  · refine (decodeSubMessage_consumes hsub hn depth f _ size).bind fun r _ => ?_
    dsimp only
    split
    · split
      · exact .pure trivial
      · exact .throw ⟨by decide, by decide⟩
    · split
      · exact .pure trivial
      · exact .throw ⟨by decide, by decide⟩

theorem decodeToSubMessage_consumes (hsub : SubConsumes fuel sub) (hn : n ≤ fuel) (depth : ℕ)
    (f : LinkedField) (d : Decoding) (op : DecodeOp) (val : ℕ) :
    Consumes n (decodeToSubMessage stream cfg sub depth f d op val) n fun _ => True := by
  cases op with
  | subMessage =>
    exact (decodeSubMessage_consumes hsub hn depth f _ val).bind fun _ _ => .pure trivial
  | string => exact (readString_consumes cfg val true).bind fun _ _ => .pure trivial
  | bytes => exact (readString_consumes cfg val false).bind fun _ _ => .pure trivial
  | _ => exact .pure trivial

theorem decodeKnownField_consumes (hsub : SubConsumes fuel sub) (hn : n ≤ fuel) (depth : ℕ)
    (f : LinkedField) (ext : Option ExtId) (d : Decoding) (op : DecodeOp) (val : ℕ) :
    Consumes n (decodeKnownField stream cfg fuel sub depth f ext d op val) n fun _ => True := by
  have hfield : ∀ d, Consumes n (decodeToField stream cfg fuel sub depth f d op val) n
      fun _ => True := by
    intro d
    rw [decodeToField]
    split
    · exact decodeToArray_consumes hsub hn depth f d op val
    · exact decodeToMap_consumes hsub hn depth f d val
    · exact decodeToSubMessage_consumes hsub hn depth f d op val
  cases ext with
  | none => exact hfield d
  | some e => exact (hfield _).bind fun _ _ => .pure trivial

theorem decodeUnknownField_consumes (hn : n ≤ fuel) (depth : ℕ) (d : Decoding) (number : ℕ)
    (wireType : Option WireType) (val : ℕ) :
    Consumes n (decodeUnknownField stream fuel depth d number wireType val) n fun _ => True := by
  have hskip : Consumes n (skipUnknown stream fuel depth number wireType val) n fun _ => True := by
    rcases wireType with _ | wireType
    · exact .pure trivial
    cases wireType with
    | delimited => exact (consumes_take val).bind fun _ _ => .pure trivial
    | startGroup => exact skipGroup_consumes hn depth (number * 8)
    | _ => exact .pure trivial
  rw [decodeUnknownField]
  split
  · exact .throw isCode_malformed
  · refine consumes_startCapture.bind fun _ _ => hskip.bind fun _ _ => ?_
    exact consumes_endCapture.bind fun _ _ => .pure trivial

theorem decodeTop_consumes (hsub : SubConsumes fuel sub) (hn : n ≤ fuel) (depth : ℕ) (t : TableId)
    (m : Message) : Consumes n (decodeTop sub depth t m) n fun _ => True := by
  refine (hsub n hn depth t ⟨m, false⟩).bind fun r _ => ?_
  dsimp only
  split
  · exact .throw isCode_malformed
  · split
    · exact .throw ⟨by decide, by decide⟩
    · exact .pure trivial

theorem addMessageSetItem_consumes (hsub : SubConsumes fuel sub) (depth : ℕ)
    (t : TableId) (d : Decoding) (typeId : ℕ) {v : View} (hv : v.data.length ≤ fuel) :
    Consumes n (addMessageSetItem stream cfg sub depth t d typeId v) n fun _ => True := by
  rw [addMessageSetItem]
  split
  · split
    · exact .throw ⟨by decide, by decide⟩
    · split
      · exact .throw ⟨by decide, by decide⟩
      · exact (consumes_nested (decodeTop_consumes hsub hv _ _ _)).bind fun _ _ => .pure trivial
  · exact .pure trivial

theorem decodeMessageSetItem_consumes (hsub : SubConsumes fuel sub) (hn : n ≤ fuel) (depth : ℕ)
    (t : TableId) (d : Decoding) :
    Consumes n (decodeMessageSetItem stream cfg fuel sub depth t d) n fun _ => True := by
  refine Consumes.loop (fun st => ∀ v ∈ st.payload, v.data.length ≤ fuel) (fun _ => True) hn
    (fun _ _ _ => .throw isCode_malformed) (fun k st hk hst => ?_) (by simp)
  have hread : ∀ {j max : ℕ}, 0 < j → Consumes k (stream.readLong j max) k fun _ => True := by
    intro j max hj
    exact (consumes_readLong (n := k) hj max).mono (Nat.le_succ k) le_rfl
  refine (consumes_readLong (by decide) _).bind fun tag _ => ?_
  obtain ⟨d, typeId, payload⟩ := st
  dsimp only at hst ⊢
  split
  · exact .pure trivial
  split
  · refine (hread (by decide)).bind fun tmp _ => ?_
    cases typeId with
    | some id => exact .pure hst
    | none =>
      cases payload with
      | none => exact .pure hst
      | some v =>
        exact (addMessageSetItem_consumes hsub depth t d _ (hst v rfl)).bind fun _ _ => .pure hst
  split
  · refine (hread (by decide)).bind fun size _ => ?_
    refine (consumes_readStringAlwaysAlias size).bind fun v hv => ?_
    have hv' : ∀ w ∈ some v, w.data.length ≤ fuel := by
      intro w hw
      cases hw
      omega
    cases payload with
    | some w => exact .pure hst
    | none =>
      cases typeId with
      | none => exact .pure hv'
      | some id =>
        exact (addMessageSetItem_consumes hsub depth t d _ (by omega)).bind fun _ _ => .pure hv'
  · refine (skipValue_consumes (fun tag => skipGroup_consumes (by omega) depth tag) tag).bind
      fun _ _ => .pure hst

/-- What is done with the value of a known field consumes at most what is there. -/
theorem decodeFoundField_consumes (hsub : SubConsumes fuel sub) (hn : n ≤ fuel) (depth : ℕ) (found : Found)
    (d : Decoding) (op : DecodeOp) (val : ℕ) :
    Consumes n (match found with
      | .field f ext => decodeKnownField stream cfg fuel sub depth f ext d op val
      | _ => pure d) n fun _ => True := by
  cases found with
  | field f ext => exact decodeKnownField_consumes hsub hn depth f ext d op val
  | _ => exact .pure trivial

/-- One call of the decoder consumes at most what is there if its nested calls do. -/
theorem decodeMessageWith_consumes (hsub : SubConsumes fuel sub) :
    SubConsumes fuel (decodeMessageWith stream cfg fuel sub) := by
  intro n hn depth t d
  refine Consumes.bind (Q := fun _ => True) ?_ fun _ _ => .pure trivial
  refine Consumes.loop (fun _ => True) (fun _ => True) hn (fun _ _ _ => .pure trivial)
    (fun k d hk _ => ?_) trivial
  refine consumes_mark.bind fun _ _ => ?_
  refine (consumes_readLong (by decide) _).bind fun tag _ => ?_
  dsimp only
  split
  · exact .pure trivial
  · refine Consumes.bind (Q := fun _ => True) ?_ fun _ _ => .pure trivial
    refine (decodeWireValue_consumes cfg _ _).bind fun r _ => ?_
    obtain ⟨op, val⟩ := r
    have hk : k ≤ fuel := by omega
    cases op with
    | unknownField => exact decodeUnknownField_consumes (by omega) depth d _ _ val
    | messageSetItem => exact decodeMessageSetItem_consumes hsub (by omega) depth t d
    | _ => exact decodeFoundField_consumes hsub hk depth _ d _ val

theorem decodeMessage_consumes (cfg : DecodeConfig) (calls : ℕ) :
    SubConsumes fuel (decodeMessage stream cfg fuel calls) := by
  induction calls with
  | zero => exact fun _ _ _ _ _ => .throw ⟨by decide, by decide⟩
  | succ calls ih => exact decodeMessageWith_consumes ih

/-- Over the checked reader a call of `upb_Decode` with as many rounds as input bytes returns, or fails
with one of its codes. -/
theorem decode_isCode {maxDepth : ℕ} {t : TableId} {m : Message} {r : BoundedReader}
    (h : r.rest.length ≤ fuel) {e : DecodeError}
    (he : decode stream cfg fuel maxDepth t m r = .error e) : IsCode e := by
  have hd := decodeTop_consumes (decodeMessage_consumes cfg (effectiveMaxDepth maxDepth + 1))
    h (effectiveMaxDepth maxDepth) t m r le_rfl
  change decodeTop _ _ _ _ _ = _ at he
  rw [he] at hd
  exact hd

end Upb.Wire
