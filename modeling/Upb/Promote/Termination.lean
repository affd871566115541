import Upb.Promote.Extension
import Upb.Wire.WireGrammar

/-!
# When promotion ends

The promotion to a message leaves its loop only when no record of the number is found any more: a
record whose payload cannot be decoded, or for which there is no memory, is found again and again. The
promotions to an array or a map leave their loops then, but do not notice that a record could not be
deleted. The promotion of an extension always ends.
-/

namespace Upb.Promote

open Upb.Common Upb.Wire

variable {cfg : DecodeConfig} {maxDepth : ℕ} {f : MiniTableField} {t : TableId} {msg : Message}
  {aux : List AuxPtr}

/-- All allocations of a round get their memory. -/
def RoundEvent.AllocationsSucceed (ev : RoundEvent) : Prop :=
  ev.newMessage = true ∧ ev.decode = true ∧ ev.container = true ∧ ev.append = true ∧ ev.split = true

/-- A round in which nothing gets memory. -/
def noMemory : RoundEvent := ⟨false, false, false, false, false, id, .parseError⟩

section Find

/-- The deletion of a record that was found makes the unknown fields shorter. -/
theorem unknownSize_lt_of_findUnknown {n depthLimit : ℕ} {found : FindUnknownRet}
    (h : findUnknown aux n depthLimit = .ok found) :
    ∃ aux', deleteUnknown aux found true = some aux' ∧ unknownSize aux' < unknownSize aux := by
  obtain ⟨before, after, pre, rec, post, hfound⟩ := findUnknownFrom_ok h
  obtain ⟨w, tag, v, rfl, htag, -⟩ := hfound.isRecord
  have hpos := htag.varint.length_pos
  have hin : found.IsIn before (pre ++ (tag ++ v) ++ post) := by
    refine ⟨by rw [hfound.iter, Nat.zero_add], ?_, ?_⟩
    · rw [hfound.offset, hfound.len]
      simp only [List.length_append]
      omega
    · rw [hfound.len, List.length_append]
      omega
  obtain ⟨ret, hdelete⟩ : ∃ ret, deleteUnknown aux found true = ret := ⟨_, rfl⟩
  have heq := hdelete
  rw [hfound.entries, deleteUnknown_eq hin, if_neg (fun h => absurd h.2.2 (by decide))] at heq
  subst heq
  refine ⟨_, hdelete, ?_⟩
  rw [hfound.entries] at hdelete ⊢
  exact unknownSize_deleteUnknown hin hdelete

theorem findUnknown_ne_outOfFuel (n depthLimit : ℕ) : findUnknown aux n depthLimit ≠ .outOfFuel :=
  findUnknownFrom_ne_outOfFuel

end Find

section Repeated

/-- A promotion to an array or a map returns if its container can be created and records can be
deleted, whatever else fails. -/
theorem repeatedReturns {add : RoundEvent → Message → Message → AddResult} {env : ℕ → RoundEvent}
    (hadd : ∀ k msg m, add (env k) msg m ≠ .nullPointer) (hsplit : ∀ k, (env k).split = true) :
    Ends (promoteRepeatedRound cfg maxDepth f t add) env ⟨msg, aux⟩ PromoteEnd.Returned := by
  refine ends_of_measure (fun st => unknownSize st.aux) (I := fun _ => True) (fun k st _ => ?_) trivial
  rw [promoteRepeatedRound]
  cases hfind : findUnknown st.aux f.number (effectiveMaxDepth maxDepth) with
  | parseError => trivial
  | notPresent => trivial
  | outOfFuel => exact absurd hfind (findUnknown_ne_outOfFuel _ _)
  | ok found =>
    obtain ⟨aux', hdelete, hless⟩ := unknownSize_lt_of_findUnknown hfind
    dsimp only
    cases parseUnknownMessage cfg maxDepth t (env k) none (recordOf st.aux found) with
    | parseError => trivial
    | outOfMemory => trivial
    | ok m =>
      have hnull := hadd k st.msg m
      dsimp only
      cases hres : add (env k) st.msg m with
      | nullPointer => exact absurd hres hnull
      | outOfMemory msg => trivial
      | added msg =>
        rw [hsplit k, hdelete]
        exact ⟨trivial, hless⟩

theorem getOrCreateArray_isSome {ev : RoundEvent} (hev : ev.container = true) (s : Slot) :
    (getOrCreateArray ev s).isSome := by
  cases s <;> simp [getOrCreateArray, hev]

theorem mapTable_new_isSome (hash : Hashes) (keySize : ℕ) : (MapTable.new hash keySize).isSome := by
  rw [MapTable.new]
  split <;> rfl

theorem getOrCreateMap_isSome {ev : RoundEvent} (hev : ev.container = true)
    (hkey : (cfg.schema.field t 0).isSome) (s : Slot) : (getOrCreateMap cfg t ev s).isSome := by
  obtain ⟨key, hkey⟩ := Option.isSome_iff_exists.mp hkey
  cases s <;> simp [getOrCreateMap, mapOrNew, hev, hkey, mapTable_new_isSome]

/-- `upb_MiniTable_PromoteUnknownToMessageArray` returns. -/
theorem arrayReturns_of_split {env : ℕ → RoundEvent} (hsplit : ∀ k, (env k).split = true)
    (hcontainer : ∀ k, (env k).container = true) : ArrayReturns cfg maxDepth f t msg aux env := by
  refine repeatedReturns (fun k msg m => ?_) hsplit
  have hsome := getOrCreateArray_isSome (hcontainer k) (msg.data f)
  rw [addToArray]
  split
  · next hnone =>
    rw [hnone] at hsome
    cases hsome
  · split <;> nofun

/-- `upb_MiniTable_PromoteUnknownToMap` returns. -/
theorem mapReturns_of_split {env : ℕ → RoundEvent} (hkey : (cfg.schema.field t 0).isSome)
    (hsplit : ∀ k, (env k).split = true) (hcontainer : ∀ k, (env k).container = true) :
    MapReturns cfg maxDepth f t msg aux env := by
  refine repeatedReturns (fun k msg m => ?_) hsplit
  have hsome := getOrCreateMap_isSome (hcontainer k) hkey (msg.data f)
  rw [addToMap]
  split
  · next hnone =>
    rw [hnone] at hsome
    cases hsome
  · split <;> nofun

end Repeated

section Message

/-- Without memory, a record that is found is found in every round. -/
theorem not_messageReturns_noMemory {found : FindUnknownRet}
    (h : findUnknown aux f.number (effectiveMaxDepth maxDepth) = .ok found) :
    ¬ MessageReturns cfg maxDepth f t msg aux fun _ => noMemory := by
  refine not_ends_of_invariant (I := fun st => st.aux = aux ∧ st.message = none) (fun _ st hst => ?_)
    ⟨rfl, rfl⟩
  obtain ⟨haux, hmessage⟩ := hst
  refine ⟨{ st with message := none }, ?_, haux, rfl⟩
  rw [promoteMessageRound, haux, h, hmessage]
  rfl

/-- A promotion that finds no record is over. -/
theorem ends_of_none (h : ∀ found, findUnknown aux f.number (effectiveMaxDepth maxDepth) ≠ .ok found)
    (base : Option Message) (env : ℕ → RoundEvent) :
    Ends (promoteMessageRound cfg maxDepth f t) env ⟨msg, aux, base⟩ fun _ => True := by
  have hround : ∃ r, promoteMessageRound cfg maxDepth f t (env 0) ⟨msg, aux, base⟩ = .inr r := by
    rw [promoteMessageRound]
    cases hfind : findUnknown aux f.number (effectiveMaxDepth maxDepth) with
    | ok found => exact absurd hfind (h found)
    | outOfFuel => exact absurd hfind (findUnknown_ne_outOfFuel _ _)
    | parseError => exact ⟨_, rfl⟩
    | notPresent => exact ⟨_, rfl⟩
  obtain ⟨r, hr⟩ := hround
  exact ⟨1, r, hr, trivial⟩

/-- A promotion to an array or a map that finds no record is over. -/
theorem repeatedReturns_of_none {add : RoundEvent → Message → Message → AddResult}
    (h : ∀ found, findUnknown aux f.number (effectiveMaxDepth maxDepth) ≠ .ok found)
    (env : ℕ → RoundEvent) :
    Ends (promoteRepeatedRound cfg maxDepth f t add) env ⟨msg, aux⟩ PromoteEnd.Returned := by
  have hround : promoteRepeatedRound cfg maxDepth f t add (env 0) ⟨msg, aux⟩ =
      .inr (.returned .ok ⟨msg, aux⟩) := by
    rw [promoteRepeatedRound]
    cases hfind : findUnknown aux f.number (effectiveMaxDepth maxDepth) with
    | ok found => exact absurd hfind (h found)
    | outOfFuel => exact absurd hfind (findUnknown_ne_outOfFuel _ _)
    | parseError => rfl
    | notPresent => rfl
  exact ⟨1, _, hround, trivial⟩

/-- The payload of a record is decoded into a message. -/
def DecodesRecord (cfg : DecodeConfig) (maxDepth : ℕ) (t : TableId) (base : Option Message)
    (rec : List UInt8) (m : Message) : Prop :=
  ∃ payload d, recordPayload rec = some payload ∧
    upbDecode (payloadConfig cfg) maxDepth t (base.getD .new) payload = .ok d ∧ d.msg = m

/-- The payloads of records are decoded one after the other into one message. -/
def DecodesInTurn (cfg : DecodeConfig) (maxDepth : ℕ) (t : TableId) :
    Option Message → List (List UInt8) → Prop
  | _, [] => True
  | base, rec :: recs => ∃ m, DecodesRecord cfg maxDepth t base rec m ∧
      DecodesInTurn cfg maxDepth t (some m) recs

/-- With memory, a record is parsed as its payload is decoded. -/
theorem parseUnknownMessage_of_succeed {ev : RoundEvent} (hev : ev.AllocationsSucceed)
    {base : Option Message} {rec : List UInt8} {m : Message} (h : DecodesRecord cfg maxDepth t base rec m) :
    parseUnknownMessage cfg maxDepth t ev base rec = .ok m := by
  obtain ⟨payload, d, hpayload, hdecode, rfl⟩ := h
  rw [parseUnknownMessage, if_neg (by rw [hev.1]; simp), hpayload]
  dsimp only
  rw [if_neg (by rw [hev.2.1]; simp), hdecode]

/-- A round with memory in which failed decodings leave nothing behind and stray records fail. -/
def plainEvent : RoundEvent := ⟨true, true, true, true, true, id, .parseError⟩

theorem plainEvent_succeeds : plainEvent.AllocationsSucceed := ⟨rfl, rfl, rfl, rfl, rfl⟩

theorem parseUnknownMessage_plain {base : Option Message} {rec : List UInt8} {m : Message}
    (h : parseUnknownMessage cfg maxDepth t plainEvent base rec = .ok m) :
    DecodesRecord cfg maxDepth t base rec m := by
  rw [parseUnknownMessage, if_neg (by simp [plainEvent])] at h
  split at h
  · cases h
  · next payload hpayload =>
    rw [if_neg (by simp [plainEvent])] at h
    split at h
    · next d hdecode =>
      cases h
      exact ⟨payload, d, hpayload, hdecode, rfl⟩
    · cases h
    · cases h

/-- A record that cannot be decoded is found in every round. -/
theorem not_ends_of_parse_fails {base : Option Message} {found : FindUnknownRet}
    (hfind : findUnknown aux f.number (effectiveMaxDepth maxDepth) = .ok found)
    (hparse : ∀ m, parseUnknownMessage cfg maxDepth t plainEvent base (recordOf aux found) ≠ .ok m) :
    ¬ Ends (promoteMessageRound cfg maxDepth f t) (fun _ => plainEvent) ⟨msg, aux, base⟩ fun _ => True := by
  refine not_ends_of_invariant (I := fun st => st = ⟨msg, aux, base⟩) (fun _ st hst => ?_) rfl
  subst hst
  refine ⟨_, ?_, rfl⟩
  rw [promoteMessageRound, hfind]
  dsimp only
  cases h : parseUnknownMessage cfg maxDepth t plainEvent base (recordOf aux found) with
  | ok m => exact absurd h (hparse m)
  | parseError => cases base <;> rfl
  | outOfMemory => cases base <;> rfl

theorem effectiveMaxDepth_ne_zero (maxDepth : ℕ) : effectiveMaxDepth maxDepth ≠ 0 := by
  rw [effectiveMaxDepth]
  split
  · next h => exact h
  · decide

/-- With memory, the loop ends just when the payloads of the records can be decoded in turn. -/
theorem ends_iff_decodesInTurn (msg : Message) {recs : List (List UInt8)} :
    ∀ {aux : List AuxPtr} {base : Option Message},
      EntriesHold f.number (effectiveMaxDepth maxDepth) recs aux →
      ((∀ env : ℕ → RoundEvent, (∀ k, (env k).AllocationsSucceed) →
        Ends (promoteMessageRound cfg maxDepth f t) env ⟨msg, aux, base⟩ fun _ => True) ↔
      DecodesInTurn cfg maxDepth t base recs) := by
  induction recs with
  | nil =>
    intro aux base h
    refine ⟨fun _ => trivial, fun _ env _ => ends_of_none (fun found => ?_) base env⟩
    rw [findUnknown, if_pos (effectiveMaxDepth_ne_zero maxDepth), h.findUnknownFrom_of_nil 0]
    rintro ⟨⟩
  | cons rec recs ih =>
    intro aux base h
    obtain ⟨found, hfind, hrecord, hdelete⟩ :=
      h.findUnknown (effectiveMaxDepth maxDepth) (if_pos (effectiveMaxDepth_ne_zero maxDepth))
    have haux : ∃ aux', deleteUnknown aux found true = some aux' ∧
        EntriesHold f.number (effectiveMaxDepth maxDepth) recs aux' := by
      rcases hdelete true with ⟨-, hfalse⟩ | hsome
      · cases hfalse
      · exact hsome
    obtain ⟨aux', hdeleted, hrest⟩ := haux
    -- a round that decodes the record goes on with the others
    have hround : ∀ {ev : RoundEvent} {m : Message}, ev.split = true →
        parseUnknownMessage cfg maxDepth t ev base rec = .ok m →
        promoteMessageRound cfg maxDepth f t ev ⟨msg, aux, base⟩ = .inl ⟨msg, aux', some m⟩ := by
      intro ev m hsplit hparse
      rw [promoteMessageRound, hfind]
      dsimp only
      rw [hrecord, hparse, hsplit, hdeleted]
      rfl
    constructor
    · intro hends
      cases hparse : parseUnknownMessage cfg maxDepth t plainEvent base rec with
      | ok m =>
        refine ⟨m, parseUnknownMessage_plain hparse, (ih hrest).mp fun env henv => ?_⟩
        have hall := hends (fun k => Nat.casesOn k plainEvent env) fun k => by
          cases k with
          | zero => exact plainEvent_succeeds
          | succ k => exact henv k
        exact (ends_iff_of_round (hround rfl hparse)).mp hall
      | parseError =>
        refine absurd (hends (fun _ => plainEvent) fun _ => plainEvent_succeeds) ?_
        exact not_ends_of_parse_fails hfind fun m hm => by cases (hrecord ▸ hparse).symm.trans hm
      | outOfMemory =>
        refine absurd (hends (fun _ => plainEvent) fun _ => plainEvent_succeeds) ?_
        exact not_ends_of_parse_fails hfind fun m hm => by cases (hrecord ▸ hparse).symm.trans hm
    · rintro ⟨m, hdecodes, hturn⟩ env henv
      have hparse := parseUnknownMessage_of_succeed (henv 0) hdecodes
      rw [ends_iff_of_round (hround (henv 0).2.2.2.2 hparse)]
      exact (ih hrest).mpr hturn (fun k => env (k + 1)) fun k => henv (k + 1)

end Message

/-- The four promotions return. -/
structure PromotionsReturn (cfg : DecodeConfig) (maxDepth : ℕ) (f : MiniTableField) (t : TableId)
    (msg : Message) (aux : List AuxPtr) (env : ℕ → RoundEvent) : Prop where
  message : MessageReturns cfg maxDepth f t msg aux env
  array : ArrayReturns cfg maxDepth f t msg aux env
  /-- The table of a map's entries has its fields. -/
  map : (cfg.schema.field t 0).isSome → MapReturns cfg maxDepth f t msg aux env
  extension : ∀ e create, (getOrPromoteExtension cfg maxDepth e t env create msg aux).isSome

/-- A field of message type with the number 1. -/
def messageField : MiniTableField := ⟨1, 8, 0, 0, .message, ⟨.scalar, false, false, false, .rep8Byte⟩⟩

/-- An entry with one delimited record of the number 1 holds that record. -/
theorem entriesHold_delimited {v : List UInt8} (hv : IsValue 5 .delimited v) :
    EntriesHold 1 (effectiveMaxDepth 0) [0x0a :: v] [.unknown (0x0a :: v)] := by
  have htag : IsTag 1 .delimited [0x0a] := ⟨by decide, by decide, by decide⟩
  have hrecord : HoldsRecords 1 (effectiveMaxDepth 0) [0x0a :: v] (0x0a :: v ++ []) :=
    .hit htag (.value hv) .nil
  rw [List.append_nil] at hrecord
  exact .singleton hrecord

end Upb.Promote
