import Upb.Promote.Promote

/-!
# Promotion of an extension

`upb_Message_GetOrPromoteExtension` decodes all records of the extension first, and deletes them
afterwards, one by one: as many as it has decoded. Every one of them is found again.
-/

namespace Upb.Promote

open Upb.Common Upb.Wire BoundedReader

/-- `upb_GetExtension_Status`. -/
inductive GetExtensionStatus where
  | ok | notPresent | parseError | outOfMemory
  deriving DecidableEq

/-- The records that were decoded so far, and the message they were decoded into. -/
structure ExtensionState where
  foundCount : ℕ
  message : Option Message

section Program

variable {σ : Type} (S : Stream σ) (parse : ℕ → Option Message → List UInt8 → ParseRet)

/-- One round of the loop over the records of an entry. -/
def extensionRound (fuel number : ℕ) (st : ExtensionState) :
    Reading σ (ExtensionState ⊕ (ExtensionState ⊕ GetExtensionStatus)) := do
  match ← nextRecord S fuel 100 number with
  | some data =>
    match parse st.foundCount st.message data with
    | .ok m => pure (.inl ⟨st.foundCount + 1, some m⟩)
    | .outOfMemory => pure (.inr (.inr .outOfMemory))
    | .parseError => pure (.inr (.inr .parseError))
  | none => pure (.inl st)

/-- The loop over the records of an entry. -/
def extensionRecords (fuel number : ℕ) (st : ExtensionState) :
    Reading σ (ExtensionState ⊕ GetExtensionStatus) :=
  Prog.loop (isDoneOrFailed S) .outOfFuel (extensionRound S parse fuel number)
    (fun st => pure (.inl st)) fuel st

end Program

section

variable (parse : ℕ → Option Message → List UInt8 → ParseRet) (number : ℕ)

/-- The loop over the entries; `none` is a loop that does not end. -/
def extensionEntries : List AuxPtr → ExtensionState → Option (ExtensionState ⊕ GetExtensionStatus)
  | [], st => some (.inl st)
  | .unknown data :: aux, st =>
    match extensionRecords stream parse data.length number st (.init 0 data) with
    | .ok (.inl st, _) => extensionEntries aux st
    | .ok (.inr status, _) => some (.inr status)
    | .error .outOfFuel => none
    | .error _ => some (.inr .parseError)
  | _ :: aux, st => extensionEntries aux st

/-- The loop that deletes so many records; `none` is a record that is not found. -/
def deleteRecords (split : ℕ → Bool) : ℕ → List AuxPtr → Option (GetExtensionStatus × List AuxPtr)
  | 0, aux => some (.ok, aux)
  | count + 1, aux =>
    match findUnknown aux number 0 with
    | .ok found =>
      match deleteUnknown aux found (split count) with
      | some aux => deleteRecords split count aux
      | none => some (.outOfMemory, aux)
    | _ => none

end

/-- `upb_Message_GetOrPromoteExtension` of the extension `e`, whose sub-message has the table `t`. The
`k`-th record meets the `k`-th event; `create` says whether the extension gets its memory. -/
def getOrPromoteExtension (cfg : DecodeConfig) (maxDepth : ℕ) (e : ExtId) (t : TableId)
    (env : ℕ → RoundEvent) (create : Bool) (msg : Message) (aux : List AuxPtr) :
    Option (GetExtensionStatus × Message × List AuxPtr) :=
  let number := (cfg.schema.ext e).field.number
  if (msg.getext e).isSome then some (.ok, msg, aux)
  else
    match extensionEntries (fun k base rec => parseUnknownMessage cfg maxDepth t (env k) base rec) number
      aux ⟨0, none⟩ with
    | none => none
    | some (.inr status) => some (status, msg, aux)
    | some (.inl ⟨_, none⟩) => some (.notPresent, msg, aux)
    | some (.inl ⟨count, some m⟩) =>
      if ¬ create then some (.outOfMemory, msg, aux)
      else
        (deleteRecords number (fun k => (env k).split) count (aux ++ [.extension e])).map fun (status, aux) =>
          (status, msg.setExt e (.ofMessage m), aux)

section Records

variable {parse : ℕ → Option Message → List UInt8 → ParseRet} {fuel n : ℕ}

/-- The records that were decoded are the records of the number. -/
theorem holdsRecords_of_loop :
    ∀ {rounds : ℕ} {st st' : ExtensionState} {r r' : BoundedReader}, r.rest.length ≤ fuel →
      Prog.loop stream.isDone .outOfFuel (extensionRound stream parse fuel n) (fun st => pure (.inl st))
        rounds st r = .ok (.inl st', r') →
      ∃ recs, HoldsRecords n 100 recs r.rest ∧ st'.foundCount = st.foundCount + recs.length := by
  intro rounds
  induction rounds with
  | zero =>
    intro st st' r r' _ h
    by_cases hr : r.rest = []
    · rw [Prog.loop_of_done (isDone_of_eq_nil hr)] at h
      cases h
      exact ⟨[], by rw [hr]; exact .nil, rfl⟩
    · obtain ⟨_, _, _, hk, -⟩ := Prog.loop_eq_ok (isDone_of_ne_nil hr) h
      cases hk
  | succ rounds ih =>
    intro st st' r r' hfuel h
    by_cases hr : r.rest = []
    · rw [Prog.loop_of_done (isDone_of_eq_nil hr)] at h
      cases h
      exact ⟨[], by rw [hr]; exact .nil, rfl⟩
    obtain ⟨_, out, r₁, hk, hround, hres⟩ := Prog.loop_eq_ok (isDone_of_ne_nil hr) h
    cases hk
    obtain ⟨read, r₂, hread, hround⟩ := Prog.bind_eq_ok.mp hround
    obtain ⟨k, w, tag, v, rest, htag, hv, hrest⟩ := record_of_nextRecord hread
    have hlen : r.rest.length = (tag ++ v).length + rest.length := by rw [hrest, List.length_append]
    by_cases hn : k = n
    · subst hn
      obtain ⟨r₃, hhit, hbehind, -⟩ := nextRecord_hit htag hv hrest hfuel
      rw [hhit] at hread
      cases hread
      dsimp only at hround
      cases hparse : parse st.foundCount st.message (tag ++ v) with
      | ok m =>
        rw [hparse] at hround
        cases hround
        rcases hres with ⟨_, hres, hloop⟩ | ⟨hres, -⟩
        swap
        · cases hres
        cases hres
        obtain ⟨recs, hrecs, hfound⟩ := ih (by rw [hbehind]; omega) hloop
        refine ⟨(tag ++ v) :: recs, ?_, by rw [hfound, List.length_cons]; dsimp only; omega⟩
        rw [hrest, ← hbehind]
        exact .hit htag hv hrecs
      | parseError =>
        rw [hparse] at hround
        cases hround
        rcases hres with ⟨_, hres, -⟩ | ⟨hres, -⟩ <;> cases hres
      | outOfMemory =>
        rw [hparse] at hround
        cases hround
        rcases hres with ⟨_, hres, -⟩ | ⟨hres, -⟩ <;> cases hres
    · obtain ⟨r₃, hmiss, hbehind, -⟩ := nextRecord_miss hn htag hv hrest hfuel
      rw [hmiss] at hread
      cases hread
      cases hround
      rcases hres with ⟨_, hres, hloop⟩ | ⟨hres, -⟩
      swap
      · cases hres
      cases hres
      obtain ⟨recs, hrecs, hfound⟩ := ih (by rw [hbehind]; omega) hloop
      refine ⟨recs, ?_, hfound⟩
      rw [hrest, ← hbehind]
      exact .miss hn htag hv hrecs

/-- The loop over the records does not run out of rounds. -/
theorem extensionRecords_ne_outOfFuel {st : ExtensionState} {e : DecodeError} {data : List UInt8}
    (h : extensionRecords stream parse data.length n st (.init 0 data) = .error e) : e ≠ .outOfFuel := by
  have hsafe : Consumes data.length (extensionRecords stream parse data.length n st) data.length
      fun _ => True := by
    refine Consumes.loop (fun _ => True) (fun _ => True) le_rfl (fun _ _ _ => .pure trivial)
      (fun i st hi _ => ?_) trivial
    refine (nextRecord_consumes hi).bind fun read _ => ?_
    cases read with
    | none => exact .pure trivial
    | some rec =>
      dsimp only
      split <;> exact .pure trivial
  have hout := hsafe (.init 0 data) le_rfl
  rw [h] at hout
  exact hout.2

/-- The loop over the entries ends, and has decoded all records of the number. -/
theorem extensionEntries_spec :
    ∀ (aux : List AuxPtr) (st : ExtensionState), match extensionEntries parse n aux st with
      | none => False
      | some (.inl st') => ∃ recs, EntriesHold n 100 recs aux ∧
          st'.foundCount = st.foundCount + recs.length
      | some (.inr _) => True := by
  intro aux
  induction aux with
  | nil => intro st; exact ⟨[], .nil, rfl⟩
  | cons p aux ih =>
    intro st
    have hnone : p.data = [] → match extensionEntries parse n aux st with
        | none => False
        | some (.inl st') => ∃ recs, EntriesHold n 100 recs (p :: aux) ∧
            st'.foundCount = st.foundCount + recs.length
        | some (.inr _) => True := by
      intro hp
      have haux := ih st
      split at haux
      · exact haux.elim
      · obtain ⟨recs, hrecs, hfound⟩ := haux
        exact ⟨recs, .cons (show HoldsRecords n 100 [] p.data by rw [hp]; exact .nil) hrecs, hfound⟩
      · trivial
    cases p with
    | null => exact hnone rfl
    | extension e => exact hnone rfl
    | unknown data =>
      rw [extensionEntries]
      cases hrecords : extensionRecords stream parse data.length n st (.init 0 data) with
      | error e =>
        have hcode := extensionRecords_ne_outOfFuel hrecords
        cases e <;> first | exact absurd rfl hcode | exact trivial
      | ok q =>
        obtain ⟨res, r⟩ := q
        cases res with
        | inr status => exact trivial
        | inl st₁ =>
          obtain ⟨recs, hrecs, hfound⟩ :=
            holdsRecords_of_loop (show (init 0 data).rest.length ≤ data.length from le_rfl) hrecords
          have haux := ih st₁
          dsimp only
          split at haux
          · exact haux.elim
          · obtain ⟨recs', hrecs', hfound'⟩ := haux
            exact ⟨recs ++ recs', .cons hrecs hrecs', by rw [List.length_append]; omega⟩
          · trivial

end Records

/-- Every record that was decoded is found again and deleted. -/
theorem deleteRecords_isSome {n : ℕ} {split : ℕ → Bool} :
    ∀ {recs : List (List UInt8)} {aux : List AuxPtr}, EntriesHold n 100 recs aux →
      (deleteRecords n split recs.length aux).isSome := by
  intro recs
  induction recs with
  | nil => intro aux _; rfl
  | cons rec recs ih =>
    intro aux h
    obtain ⟨found, hfind, -, hdelete⟩ := h.findUnknown 0 rfl
    rw [List.length_cons, deleteRecords, hfind]
    dsimp only
    rcases hdelete (split recs.length) with ⟨hnone, -⟩ | ⟨aux', hsome, hrest⟩
    · rw [hnone]
      rfl
    · rw [hsome]
      exact ih hrest

/-- `upb_Message_GetOrPromoteExtension` returns. -/
theorem getOrPromoteExtension_isSome (cfg : DecodeConfig) (maxDepth : ℕ) (e : ExtId) (t : TableId)
    (env : ℕ → RoundEvent) (create : Bool) (msg : Message) (aux : List AuxPtr) :
    (getOrPromoteExtension cfg maxDepth e t env create msg aux).isSome := by
  rw [getOrPromoteExtension]
  dsimp only
  split
  · rfl
  have hspec := @extensionEntries_spec (fun k base rec => parseUnknownMessage cfg maxDepth t (env k) base rec)
    (cfg.schema.ext e).field.number aux ⟨0, none⟩
  split
  · next hnone =>
    rw [hnone] at hspec
    exact hspec.elim
  · rfl
  · rfl
  · next count m hsome =>
    rw [hsome] at hspec
    obtain ⟨recs, hrecs, hfound⟩ := hspec
    split
    · rfl
    · have hcount : count = recs.length := hfound.trans (Nat.zero_add _)
      have hext := hrecs.append (.singleton (p := .extension e) .nil)
      rw [List.append_nil] at hext
      rw [Option.isSome_map, hcount]
      exact deleteRecords_isSome hext

end Upb.Promote
