import Upb.Common.Below
import Upb.Wire.Decode

/-!
# Larger depth limits

A call of the decoder that succeeds under a depth limit does the same under a larger one.
-/

namespace Upb.Wire

open Upb.Common Upb.Common.Prog

section Encoder

/-- Wherever `x` succeeds, `y` does the same. -/
def Encoded.Below (x y : Encoded) : Prop := ∀ b, x = .ok b → y = .ok b

namespace Encoded

theorem Below.refl (x : Encoded) : Below x x := fun _ h => h

theorem Below.error (e : EncodeError) (y : Encoded) : Below (.error e) y := fun _ h => by cases h

theorem Below.bind {α : Type} {x y : Except EncodeError α} {f g : α → Encoded}
    (h : ∀ a, x = .ok a → y = .ok a) (hf : ∀ a, Below (f a) (g a)) : Below (x >>= f) (y >>= g) := by
  intro b hb
  cases hx : x with
  | error e =>
    rw [hx] at hb
    cases hb
  | ok a =>
    rw [hx] at hb
    rw [h a hx]
    exact hf a b hb

end Encoded

open Encoded

theorem encodeBackwards_below {α : Type} {f g : α → Encoded} (h : ∀ a, Below (f a) (g a)) (l : List α) :
    Below (encodeBackwards f l) (encodeBackwards g l) := by
  induction l with
  | nil => exact .refl _
  | cons a as ih => exact .bind (h a) fun _ => .bind ih fun _ => .refl _

variable {sub sub' : SubEncoder} (hsub : ∀ depth t m, Below (sub depth t m) (sub' depth t m))
variable {sch : Schema} {hash : Hashes} {opts : EncodeOptions}
include hsub

theorem encodeSubMessage_below (depth : ℕ) (f : LinkedField) (s : Slot) :
    Below (encodeSubMessage sub depth f s) (encodeSubMessage sub' depth f s) :=
  .bind (fun _ h => h) fun _ => .bind (hsub _ _ _) fun _ => .refl _

theorem encodeScalar_below (depth : ℕ) (f : LinkedField) (s : Slot) :
    Below (encodeScalar sub depth f s) (encodeScalar sub' depth f s) := by
  rw [encodeScalar, encodeScalar]
  split
  · exact .refl _
  · exact .refl _
  · split
    · exact .refl _
    · split
      · exact .refl _
      · exact encodeSubMessage_below hsub _ f s
  · split
    · exact .refl _
    · split
      · exact .refl _
      · exact encodeSubMessage_below hsub _ f s
  · exact .refl _

theorem encodeArray_below (depth : ℕ) (f : LinkedField) (s : Slot) :
    Below (encodeArray sub depth f s) (encodeArray sub' depth f s) := by
  rw [encodeArray, encodeArray]
  split
  · exact .refl _
  · split
    · exact .refl _
    · exact .refl _
    · split
      · exact .refl _
      · exact encodeBackwards_below (encodeSubMessage_below hsub _ f) _
    · split
      · exact .refl _
      · exact encodeBackwards_below (encodeSubMessage_below hsub _ f) _
    · exact .refl _

theorem encodeMap_below (depth : ℕ) (f : LinkedField) (s : Slot) :
    Below (encodeMap sch hash opts sub depth f s) (encodeMap sch hash opts sub' depth f s) := by
  unfold encodeMap
  split
  · split
    · exact .refl _
    · refine encodeBackwards_below (fun ent => ?_) _
      rw [encodeMapentry, encodeMapentry]
      split
      · exact .bind (encodeScalar_below hsub _ _ _) fun _ =>
          .bind (encodeScalar_below hsub _ _ _) fun _ => .refl _
      · exact .refl _
  · exact .refl _

theorem encodeField_below (depth : ℕ) (f : LinkedField) (s : Slot) :
    Below (encodeField sch hash opts sub depth f s) (encodeField sch hash opts sub' depth f s) := by
  rw [encodeField, encodeField]
  split
  · exact encodeArray_below hsub depth f s
  · exact encodeMap_below hsub depth f s
  · exact encodeScalar_below hsub depth f s

theorem encodeExts_below (depth : ℕ) (ext : ExtMode) (m : Message) :
    Below (encodeExts sch hash opts sub depth ext m) (encodeExts sch hash opts sub' depth ext m) := by
  have hext : ∀ isMessageSet e, Below (encodeExt sch hash opts sub depth isMessageSet e)
      (encodeExt sch hash opts sub' depth isMessageSet e) := by
    intro isMessageSet e
    rw [encodeExt, encodeExt]
    split
    · exact .bind (fun _ h => h) fun _ => .bind (hsub _ _ _) fun _ => .refl _
    · exact encodeField_below hsub depth _ _
  rw [encodeExts, encodeExts]
  split
  · exact .refl _
  · dsimp only
    split
    · exact .refl _
    · split
      · exact encodeBackwards_below (hext _) _
      · exact encodeBackwards_below (hext _) _

theorem encodeMessageWith_below (depth : ℕ) (t : TableId) (m : Message) :
    Below (encodeMessageWith sch hash opts sub depth t m)
      (encodeMessageWith sch hash opts sub' depth t m) := by
  rw [encodeMessageWith, encodeMessageWith]
  split
  · exact .refl _
  · exact .bind (encodeExts_below hsub _ _ _) fun _ =>
      .bind (encodeBackwards_below (fun f => encodeField_below hsub depth f _) _) fun _ => .refl _

omit hsub

/-- More nested calls of the encoder. -/
theorem encodeMessage_below {fuel fuel' : ℕ} (hfuel : fuel ≤ fuel') (depth : ℕ) (t : TableId)
    (m : Message) :
    Below (encodeMessage sch hash opts fuel depth t m) (encodeMessage sch hash opts fuel' depth t m) := by
  induction fuel generalizing fuel' depth t m with
  | zero => exact .error _ _
  | succ fuel ih =>
    obtain ⟨fuel', rfl⟩ : ∃ k, fuel' = k + 1 := ⟨fuel' - 1, by omega⟩
    exact encodeMessageWith_below (fun depth t m => ih (by omega) depth t m) depth t m

end Encoder

section Decoder

variable {σ : Type} {S : Stream σ} {cfg : DecodeConfig} {fuel depth depth' : ℕ}

theorem skipValue_below {skip skip' : ℕ → Reading σ Unit} (h : ∀ tag, Below (skip tag) (skip' tag))
    (tag : ℕ) : Below (skipValue S skip tag) (skipValue S skip' tag) := by
  rw [skipValue, skipValue]
  split
  · exact .refl _
  · exact .refl _
  · exact .refl _
  · exact .refl _
  · exact h tag
  · exact .refl _
  · exact .refl _

theorem skipGroup_below (hdepth : depth ≤ depth') (tag : ℕ) :
    Below (skipGroup S fuel depth tag) (skipGroup S fuel depth' tag) := by
  induction depth generalizing depth' tag with
  | zero => exact .throw _ _
  | succ depth ih =>
    obtain ⟨depth', rfl⟩ : ∃ k, depth' = k + 1 := ⟨depth' - 1, by omega⟩
    refine .loop (fun _ => ?_) _ _
    refine (Below.refl _).bind fun tag => .ite (.refl _) ?_
    exact (skipValue_below (fun tag => ih (by omega) tag) tag).bind fun _ => .refl _

/-- Two decoders of sub-messages, the second one under larger depths. -/
def SubBelow (sub sub' : SubDecoder σ) : Prop :=
  ∀ depth depth', depth ≤ depth' → ∀ t d, Below (sub depth t d) (sub' depth' t d)

theorem withLimit_below {α : Type} {x y : Reading σ α} (h : Below x y) (n : ℕ) :
    Below (S.withLimit n x) (S.withLimit n y) :=
  (Below.refl _).bind fun _ => h.bind fun _ => .refl _

theorem nested_below {α : Type} {x y : Reading σ α} (h : Below x y) (v : View) :
    Below (S.nested v x) (S.nested v y) := by
  intro s r hr
  rw [Stream.nested] at hr ⊢
  cases hx : x (S.enter v) with
  | error e =>
    rw [hx] at hr
    cases hr
  | ok q =>
    rw [hx] at hr
    rw [h _ _ hx]
    exact hr

variable {sub sub' : SubDecoder σ} (hsub : SubBelow sub sub') (hdepth : depth ≤ depth')
include hsub hdepth

theorem recurseSubMessage_below (t : TableId) (d : Decoding) (expected : Option ℕ) :
    Below (recurseSubMessage sub depth t d expected) (recurseSubMessage sub' depth' t d expected) := by
  cases depth with
  | zero => exact .throw _ _
  | succ depth =>
    obtain ⟨depth', rfl⟩ : ∃ k, depth' = k + 1 := ⟨depth' - 1, by omega⟩
    exact (hsub depth depth' (by omega) t d).bind fun _ => .refl _

theorem decodeSubMessage_below (f : LinkedField) (d : Decoding) (size : ℕ) :
    Below (decodeSubMessage S sub depth f d size) (decodeSubMessage S sub' depth' f d size) := by
  rw [decodeSubMessage, decodeSubMessage]
  split
  · exact .refl _
  · refine .ite ?_ (withLimit_below (recurseSubMessage_below hsub hdepth _ d _) size)
    exact (Below.refl _).bind fun _ => .ite (.refl _) (recurseSubMessage_below hsub hdepth _ d _)

theorem decodeToArray_below (f : LinkedField) (d : Decoding) (op : DecodeOp) (val : ℕ) :
    Below (decodeToArray S cfg fuel sub depth f d op val)
      (decodeToArray S cfg fuel sub' depth' f d op val) := by
  cases op with
  | subMessage => exact (decodeSubMessage_below hsub hdepth f _ val).bind fun _ => .refl _
  | _ => exact .refl _

theorem decodeToMap_below (f : LinkedField) (d : Decoding) (size : ℕ) :
    Below (decodeToMap S cfg sub depth f d size) (decodeToMap S cfg sub' depth' f d size) := by
  rw [decodeToMap, decodeToMap]
  split
  · exact .refl _
  · refine (decodeSubMessage_below hsub hdepth f _ size).bind fun r => .ite ?_ (.refl _)
    -- the encoder of the entry has more nested calls
    have hentry : ∀ entry data, mapEntryUnknown cfg depth f.field.number entry r.msg = some data →
        mapEntryUnknown cfg depth' f.field.number entry r.msg = some data := by
      intro entry data h
      rw [mapEntryUnknown] at h ⊢
      split at h
      · next buf hbuf =>
        rw [show encode cfg.schema cfg.hash {} (depth' + 2) entry r.msg = .ok buf from
          encodeMessage_below (by omega) _ _ _ _ hbuf]
        exact h
      · cases h
    split
    · next map data hmap hdata =>
      rw [hmap, hentry _ _ hdata]
      exact .refl _
    · exact .throw _ _

theorem decodeToSubMessage_below (f : LinkedField) (d : Decoding) (op : DecodeOp) (val : ℕ) :
    Below (decodeToSubMessage S cfg sub depth f d op val)
      (decodeToSubMessage S cfg sub' depth' f d op val) := by
  cases op with
  | subMessage => exact (decodeSubMessage_below hsub hdepth f _ val).bind fun _ => .refl _
  | _ => exact .refl _

theorem decodeToField_below (f : LinkedField) (d : Decoding) (op : DecodeOp) (val : ℕ) :
    Below (decodeToField S cfg fuel sub depth f d op val)
      (decodeToField S cfg fuel sub' depth' f d op val) := by
  rw [decodeToField, decodeToField]
  split
  · exact decodeToArray_below hsub hdepth f d op val
  · exact decodeToMap_below hsub hdepth f d val
  · exact decodeToSubMessage_below hsub hdepth f d op val

theorem decodeKnownField_below (f : LinkedField) (ext : Option ExtId) (d : Decoding) (op : DecodeOp)
    (val : ℕ) :
    Below (decodeKnownField S cfg fuel sub depth f ext d op val)
      (decodeKnownField S cfg fuel sub' depth' f ext d op val) := by
  cases ext with
  | none => exact decodeToField_below hsub hdepth f d op val
  | some e => exact (decodeToField_below hsub hdepth f _ op val).bind fun _ => .refl _

theorem decodeTop_below (t : TableId) (m : Message) :
    Below (decodeTop sub depth t m) (decodeTop sub' depth' t m) :=
  (hsub depth depth' hdepth t _).bind fun _ => .refl _

theorem addMessageSetItem_below (t : TableId) (d : Decoding) (typeId : ℕ) (v : View) :
    Below (addMessageSetItem S cfg sub depth t d typeId v)
      (addMessageSetItem S cfg sub' depth' t d typeId v) := by
  rw [addMessageSetItem, addMessageSetItem]
  split
  · split
    · exact .refl _
    · split
      · exact .throw _ _
      · rw [if_neg (by omega)]
        exact (nested_below (decodeTop_below hsub (by omega) _ _) v).bind fun _ => .refl _
  · exact .refl _

theorem messageSetItemStep_below (t : TableId) (st : ItemState) :
    Below (messageSetItemStep S cfg fuel sub depth t st)
      (messageSetItemStep S cfg fuel sub' depth' t st) := by
  have hitem : ∀ typeId v, Below (addMessageSetItem S cfg sub depth t st.decoding typeId v)
      (addMessageSetItem S cfg sub' depth' t st.decoding typeId v) :=
    addMessageSetItem_below hsub hdepth t st.decoding
  refine (Below.refl _).bind fun tag => .ite (.refl _) (.ite ?_ (.ite ?_ ?_))
  · refine (Below.refl _).bind fun tmp => ?_
    split
    · exact .refl _
    · split
      · exact (hitem _ _).bind fun _ => .refl _
      · exact .refl _
  · refine (Below.refl _).bind fun size => (Below.refl _).bind fun view => ?_
    split
    · exact .refl _
    · split
      · exact (hitem _ _).bind fun _ => .refl _
      · exact .refl _
  · exact (skipValue_below (fun tag => skipGroup_below hdepth tag) tag).bind fun _ => .refl _

theorem decodeFoundField_below (found : Found) (d : Decoding) (op : DecodeOp) (val : ℕ) :
    Below
      (match found with
        | .field f ext => decodeKnownField S cfg fuel sub depth f ext d op val
        | _ => pure d)
      (match found with
        | .field f ext => decodeKnownField S cfg fuel sub' depth' f ext d op val
        | _ => pure d) := by
  cases found with
  | field f ext => exact decodeKnownField_below hsub hdepth f ext d op val
  | _ => exact .refl _

theorem decodeFieldData_below (t : TableId) (d : Decoding) (number : ℕ)
    (wireType : Option WireType) :
    Below (decodeFieldData S cfg fuel sub depth t d number wireType)
      (decodeFieldData S cfg fuel sub' depth' t d number wireType) := by
  refine (Below.refl _).bind fun r => ?_
  obtain ⟨op, val⟩ := r
  cases op with
  | unknownField =>
    change Below (decodeUnknownField S fuel depth d number wireType val)
      (decodeUnknownField S fuel depth' d number wireType val)
    rw [decodeUnknownField, decodeUnknownField]
    refine .ite (.refl _) ((Below.refl _).bind fun _ => .bind ?_ fun _ => .refl _)
    unfold skipUnknown
    split
    · exact .refl _
    · exact skipGroup_below hdepth _
    · exact .refl _
  | messageSetItem => exact .loop (messageSetItemStep_below hsub hdepth t) _ _
  | _ => exact decodeFoundField_below hsub hdepth _ d _ val

theorem decodeMessageWith_below (t : TableId) (d : Decoding) :
    Below (decodeMessageWith S cfg fuel sub depth t d)
      (decodeMessageWith S cfg fuel sub' depth' t d) := by
  refine .bind (.loop (fun d => ?_) _ _) fun _ => .refl _
  refine (Below.refl _).bind fun _ => (Below.refl _).bind fun tag => .ite (.refl _) ?_
  exact (decodeFieldData_below hsub hdepth t d _ _).bind fun _ => .refl _

omit hsub hdepth

/-- A larger depth limit, with more nested calls. -/
theorem decodeMessage_below {calls calls' : ℕ} (hcalls : calls ≤ calls') :
    SubBelow (decodeMessage S cfg fuel calls) (decodeMessage S cfg fuel calls') := by
  induction calls generalizing calls' with
  | zero => exact fun _ _ _ _ _ => .throw _ _
  | succ calls ih =>
    obtain ⟨calls', rfl⟩ : ∃ k, calls' = k + 1 := ⟨calls' - 1, by omega⟩
    exact fun _ _ hdepth t d => decodeMessageWith_below (ih (by omega)) hdepth t d

end Decoder

end Upb.Wire
