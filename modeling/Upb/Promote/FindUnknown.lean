import Upb.Promote.AuxData
import Upb.Wire.UnknownFields
import Upb.Wire.Progress

/-!
# Finding an unknown record

`upb_Message_FindUnknown` reads the entries of `aux_data` record by record, up to the first one with
the number. The entries are read by the checked reader: on records, the patch buffer stream reads what
it reads.
-/

namespace Upb.Promote

open Upb.Common Upb.Wire BoundedReader

section Program

variable {σ : Type} (S : Stream σ)

/-- `upb_EpsCopyInputStream_IsDone` of a stream without an error handler: an error looks like the end. -/
def isDoneOrFailed : Reading σ Bool := fun s =>
  match S.isDone s with
  | .ok r => .ok r
  | .error _ => .ok (true, s)

/-- Reads a record of an entry: its bytes, if it has the number. -/
def nextRecord (fuel depth number : ℕ) : Reading σ (Option (List UInt8)) := do
  S.mark
  let tag ← readTag S
  if getFieldNumber tag = number then do
    S.startCapture
    skipValue S (skipGroup S fuel depth) tag
    let data ← S.endCapture
    pure (some data)
  else do
    skipValue S (skipGroup S fuel depth) tag
    pure none

/-- One round of the loop over the records of an entry. -/
def findRecordRound (fuel depth number : ℕ) : Unit → Reading σ (Unit ⊕ Option (List UInt8)) := fun _ => do
  match ← nextRecord S fuel depth number with
  | some data => pure (.inr (some data))
  | none => pure (.inl ())

/-- The loop over the records of an entry. -/
def findRecord (fuel depth number : ℕ) : Reading σ (Option (List UInt8)) :=
  Prog.loop (isDoneOrFailed S) .outOfFuel (findRecordRound S fuel depth number) (fun _ => pure none)
    fuel ()

end Program

/-- The status of `upb_FindUnknownRet`; `none` is a loop of the model that ran out of rounds. -/
inductive FindUnknown where
  | ok (found : FindUnknownRet)
  | parseError
  | notPresent
  | outOfFuel
  deriving DecidableEq

/-- The loop of `upb_Message_FindUnknown` over the entries from a position on. -/
def findUnknownFrom (number depth : ℕ) : ℕ → List AuxPtr → FindUnknown
  | _, [] => .notPresent
  | i, .unknown data :: aux =>
    match findRecord stream data.length depth number (.init 0 data) with
    | .ok (some rec, r) => .ok ⟨i + 1, r.captureStart.1, rec.length⟩
    | .ok (none, _) => findUnknownFrom number depth (i + 1) aux
    | .error .outOfFuel => .outOfFuel
    | .error _ => .parseError
  | i, _ :: aux => findUnknownFrom number depth (i + 1) aux

/-- `upb_Message_FindUnknown`. -/
def findUnknown (aux : List AuxPtr) (number depthLimit : ℕ) : FindUnknown :=
  findUnknownFrom number (if depthLimit ≠ 0 then depthLimit else 100) 0 aux

/-- The value of a record that is skipped; groups nest at most so deep. -/
inductive IsSkipped (depth n : ℕ) : WireType → List UInt8 → Prop
  | value {w : WireType} {v : List UInt8} (hv : IsValue 5 w v) : IsSkipped depth n w v
  | group {d : ℕ} {body endTag : List UInt8} (hd : depth = d + 1)
      (hbody : Records 5 (fun _ => True) (fun _ => True) d body) (hend : IsTag n .endGroup endTag) :
      IsSkipped depth n .startGroup (body ++ endTag)

/-- Records, of which these have the number. -/
inductive HoldsRecords (n depth : ℕ) : List (List UInt8) → List UInt8 → Prop
  | nil : HoldsRecords n depth [] []
  | hit {recs : List (List UInt8)} {w : WireType} {tag v rest : List UInt8} (htag : IsTag n w tag)
      (hv : IsSkipped depth n w v) (hrest : HoldsRecords n depth recs rest) :
      HoldsRecords n depth ((tag ++ v) :: recs) (tag ++ v ++ rest)
  | miss {recs : List (List UInt8)} {k : ℕ} {w : WireType} {tag v rest : List UInt8} (hk : k ≠ n)
      (htag : IsTag k w tag) (hv : IsSkipped depth k w v) (hrest : HoldsRecords n depth recs rest) :
      HoldsRecords n depth recs (tag ++ v ++ rest)

section Skip

variable {fuel depth k : ℕ} {w : WireType} {tag : List UInt8} {r r' : BoundedReader}

/-- What skipping a value reads. -/
theorem isSkipped_of_skipValue (htag : IsTag k w tag)
    (h : skipValue stream (skipGroup stream fuel depth) (leb tag) r = .ok ((), r')) :
    ∃ v, IsSkipped depth k w v ∧ Reads r v r' := by
  by_cases hg : w = .startGroup
  · subst hg
    rw [skipValue, htag.getWireType] at h
    obtain ⟨d, body, endTag, hd, hbody, hend, hreads⟩ := records_of_skipGroup h
    rw [show leb tag / 8 = k from htag.getFieldNumber] at hend
    exact ⟨body ++ endTag, .group hd hbody hend, hreads⟩
  · obtain ⟨v, hv, hreads⟩ := (skipValue_eq_ok htag.getWireType hg).mp h
    exact ⟨v, .value hv, hreads⟩

theorem skipValue_of_isSkipped {v : List UInt8} (htag : IsTag k w tag) (hv : IsSkipped depth k w v)
    (hreads : Reads r v r') (hfuel : r.rest.length ≤ fuel) :
    skipValue stream (skipGroup stream fuel depth) (leb tag) r = .ok ((), r') := by
  cases hv with
  | value hv =>
    have hg : w ≠ .startGroup := by cases hv <;> decide
    exact (skipValue_eq_ok htag.getWireType hg).mpr ⟨v, hv, hreads⟩
  | @group d body endTag hd hbody hend =>
    subst hd
    have hlen := hreads.length_eq
    have hpos := hend.varint.length_pos
    rw [List.length_append] at hlen
    rw [skipValue, htag.getWireType]
    change skipGroup stream fuel (d + 1) (leb tag) r = _
    rw [skipGroup_succ]
    refine groupLoop_of_records hbody ?_ hreads (by omega) hfuel
    rw [show leb tag / 8 = k from htag.getFieldNumber]
    exact hend

end Skip

section Find

variable {fuel depth n k : ℕ} {w : WireType} {tag v rest pre post data : List UInt8}
  {r r' : BoundedReader}

theorem isDoneOrFailed_stream : isDoneOrFailed stream = stream.isDone := rfl

/-- A record of another number. -/
theorem nextRecord_miss (hk : k ≠ n) (htag : IsTag k w tag) (hv : IsSkipped depth k w v)
    (hr : r.rest = tag ++ v ++ rest) (hfuel : r.rest.length ≤ fuel) :
    ∃ r', nextRecord stream fuel depth n r = .ok (none, r') ∧ r'.rest = rest ∧
      r'.pos = r.pos + (tag ++ v).length := by
  let marked : BoundedReader := { r with start := (r.pos, r.rest) }
  rw [List.append_assoc] at hr
  have htagged : Reads marked tag (marked.advance tag.length) := reads_advance hr
  have hbehind : (marked.advance tag.length).rest = v ++ rest := rest_advance hr
  have hvalue : Reads (marked.advance tag.length) v ((marked.advance tag.length).advance v.length) :=
    reads_advance hbehind
  have hlen := htagged.length_eq
  change r.rest.length = _ at hlen
  refine ⟨(marked.advance tag.length).advance v.length, ?_, rest_advance hbehind, ?_⟩
  · rw [nextRecord, Prog.bind_of_ok (show stream.mark r = .ok ((), marked) from rfl),
      Prog.bind_of_ok (readTag_eq_ok.mpr ⟨tag, htag.varint, htag.lt, rfl, htagged⟩), htag.getFieldNumber,
      if_neg hk, Prog.bind_of_ok (skipValue_of_isSkipped htag hv hvalue (by omega))]
    rfl
  · change r.pos + tag.length + v.length = _
    rw [List.length_append, Nat.add_assoc]

/-- A record of the number. -/
theorem nextRecord_hit (htag : IsTag n w tag) (hv : IsSkipped depth n w v)
    (hr : r.rest = tag ++ v ++ rest) (hfuel : r.rest.length ≤ fuel) :
    ∃ r', nextRecord stream fuel depth n r = .ok (some (tag ++ v), r') ∧ r'.rest = rest ∧
      r'.captureStart.1 = r.pos := by
  let marked : BoundedReader := { r with start := (r.pos, r.rest) }
  rw [List.append_assoc] at hr
  have htagged : Reads marked tag (marked.advance tag.length) := reads_advance hr
  have hbehind : (marked.advance tag.length).rest = v ++ rest := rest_advance hr
  have hvalue : Reads (marked.advance tag.length) v ((marked.advance tag.length).advance v.length) :=
    reads_advance hbehind
  have hlen := htagged.length_eq
  change r.rest.length = _ at hlen
  have hskip := skipValue_of_isSkipped htag hv (hvalue.capture (r.pos, r.rest)) (by
    change (marked.advance tag.length).rest.length ≤ fuel
    omega)
  have hstart : stream.startCapture (marked.advance tag.length) =
      .ok ((), { marked.advance tag.length with captureStart := (r.pos, r.rest) }) := rfl
  have hend := endCapture_record ((htagged.trans hvalue).capture (r.pos, r.rest))
  refine ⟨afterUnknown r (tag ++ v).length, ?_, ?_, rfl⟩
  · rw [nextRecord, Prog.bind_of_ok (show stream.mark r = .ok ((), marked) from rfl),
      Prog.bind_of_ok (readTag_eq_ok.mpr ⟨tag, htag.varint, htag.lt, rfl, htagged⟩), htag.getFieldNumber,
      if_pos rfl, Prog.bind_of_ok hstart, Prog.bind_of_ok hskip, Prog.bind_of_ok hend]
    rfl
  · change r.rest.drop _ = rest
    rw [hr, ← List.append_assoc, List.drop_left]

/-- What is read is a record. -/
theorem record_of_nextRecord {res : Option (List UInt8)}
    (h : nextRecord stream fuel depth n r = .ok (res, r')) :
    ∃ k w tag v rest, IsTag k w tag ∧ IsSkipped depth k w v ∧ r.rest = tag ++ v ++ rest := by
  rw [nextRecord, Prog.bind_of_ok (show stream.mark r = .ok ((), _) from rfl)] at h
  obtain ⟨_, r₁, htag, h⟩ := Prog.bind_eq_ok.mp h
  obtain ⟨tag, hvarint, hlt, rfl, hreads⟩ := readTag_eq_ok.mp htag
  have hrest : r.rest = tag ++ r₁.rest := hreads.1
  have hskip : ∃ r₂ r₃, r₂.rest = r₁.rest ∧
      skipValue stream (skipGroup stream fuel depth) (leb tag) r₂ = .ok ((), r₃) := by
    split at h
    · rw [Prog.bind_of_ok (show stream.startCapture r₁ = .ok ((), _) from rfl)] at h
      obtain ⟨_, r₃, hskip, -⟩ := Prog.bind_eq_ok.mp h
      exact ⟨{ r₁ with captureStart := r₁.start }, r₃, rfl, hskip⟩
    · obtain ⟨_, r₃, hskip, -⟩ := Prog.bind_eq_ok.mp h
      exact ⟨r₁, r₃, rfl, hskip⟩
  obtain ⟨r₂, r₃, hsame, hskip⟩ := hskip
  cases hw : getWireType (leb tag) with
  | none =>
    rw [skipValue, hw] at hskip
    cases hskip
  | some w =>
    have htag := IsTag.of_getWireType hvarint hlt hw
    obtain ⟨v, hv, hreads'⟩ := isSkipped_of_skipValue htag hskip
    refine ⟨_, w, tag, v, r₃.rest, htag, hv, ?_⟩
    rw [hrest, ← hsame, hreads'.1, List.append_assoc]

/-- Reading a record consumes its bytes. -/
theorem nextRecord_consumes {i : ℕ} (hi : i + 1 ≤ fuel) :
    Consumes (i + 1) (nextRecord stream fuel depth n) i fun _ => True := by
  refine consumes_mark.bind fun _ _ => (consumes_readLong (by decide) _).bind fun tag _ => ?_
  have hskip : Consumes i (skipValue stream (skipGroup stream fuel depth) tag) i fun _ => True :=
    skipValue_consumes (fun tag => skipGroup_consumes (by omega) depth tag) tag
  split
  · exact consumes_startCapture.bind fun _ _ => hskip.bind fun _ _ =>
      consumes_endCapture.bind fun _ _ => .pure trivial
  · exact hskip.bind fun _ _ => .pure trivial

/-- An entry without records of the number. -/
theorem findRecord_none (h : HoldsRecords n depth [] data) :
    ∀ (rounds : ℕ) (r : BoundedReader), r.rest = data → data.length ≤ rounds → data.length ≤ fuel →
      ∃ r', Prog.loop stream.isDone .outOfFuel (findRecordRound stream fuel depth n) (fun _ => pure none)
        rounds () r = .ok (none, r') := by
  generalize hc : ([] : List (List UInt8)) = recs at h
  induction h with
  | nil =>
    intro rounds r hr _ _
    exact ⟨r, Prog.loop_of_done (isDone_of_eq_nil hr)⟩
  | hit => cases hc
  | @miss recs k w tag v rest hk htag hv _ ih =>
    intro rounds r hr hrounds hfuel
    have hpos := htag.varint.length_pos
    have hfuel' : r.rest.length ≤ fuel := by rw [hr]; exact hfuel
    obtain ⟨r₁, hround, hrest, -⟩ := nextRecord_miss hk htag hv hr hfuel'
    simp only [List.length_append] at hrounds hfuel
    obtain ⟨rounds, rfl⟩ : ∃ i, rounds = i + 1 := ⟨rounds - 1, by omega⟩
    have hne : r.rest ≠ [] := by
      rw [hr]
      simp [htag.varint.ne_nil]
    obtain ⟨r', hloop⟩ := ih hc rounds r₁ hrest (by omega) (by omega)
    refine ⟨r', ?_⟩
    rw [Prog.loop_of_not_done (isDone_of_ne_nil hne), findRecordRound, bind_assoc, Prog.bind_of_ok hround]
    exact hloop

/-- An entry whose first record of the number stands behind `pre`. -/
theorem findRecord_some (h : HoldsRecords n depth [] pre) (htag : IsTag n w tag) (hv : IsSkipped depth n w v) :
    ∀ (rounds : ℕ) (r : BoundedReader), r.rest = pre ++ (tag ++ v) ++ post →
      (pre ++ (tag ++ v) ++ post).length ≤ rounds → (pre ++ (tag ++ v) ++ post).length ≤ fuel →
      ∃ r', Prog.loop stream.isDone .outOfFuel (findRecordRound stream fuel depth n) (fun _ => pure none)
        rounds () r = .ok (some (tag ++ v), r') ∧ r'.captureStart.1 = r.pos + pre.length := by
  generalize hc : ([] : List (List UInt8)) = recs at h
  induction h with
  | nil =>
    intro rounds r hr hrounds hfuel
    have hpos := htag.varint.length_pos
    have hfuel' : r.rest.length ≤ fuel := by rw [hr]; exact hfuel
    obtain ⟨r', hround, -, hstart⟩ := nextRecord_hit htag hv hr hfuel'
    simp only [List.length_append] at hrounds
    obtain ⟨rounds, rfl⟩ : ∃ i, rounds = i + 1 := ⟨rounds - 1, by omega⟩
    have hne : r.rest ≠ [] := by
      rw [hr]
      simp [htag.varint.ne_nil]
    refine ⟨r', ?_, hstart⟩
    rw [Prog.loop_of_not_done (isDone_of_ne_nil hne), findRecordRound, bind_assoc, Prog.bind_of_ok hround]
    rfl
  | hit => cases hc
  | @miss recs k w' tag' v' rest hk htag' hv' _ ih =>
    intro rounds r hr hrounds hfuel
    have hpos := htag'.varint.length_pos
    have hr' : r.rest = tag' ++ v' ++ (rest ++ (tag ++ v) ++ post) := by
      rw [hr]
      simp only [List.append_assoc]
    have hfuel' : r.rest.length ≤ fuel := by rw [hr]; exact hfuel
    obtain ⟨r₁, hround, hrest, hmoved⟩ := nextRecord_miss hk htag' hv' hr' hfuel'
    simp only [List.length_append] at hrounds hfuel hmoved ih
    obtain ⟨rounds, rfl⟩ : ∃ i, rounds = i + 1 := ⟨rounds - 1, by omega⟩
    have hne : r.rest ≠ [] := by
      rw [hr]
      simp [htag'.varint.ne_nil]
    obtain ⟨r', hloop, hstart⟩ := ih hc rounds r₁ hrest (by omega) (by omega)
    refine ⟨r', ?_, ?_⟩
    · rw [Prog.loop_of_not_done (isDone_of_ne_nil hne), findRecordRound, bind_assoc, Prog.bind_of_ok hround]
      exact hloop
    · rw [hstart, hmoved]
      simp only [List.length_append]
      omega

/-- What the loop over the records of an entry finds, and where. -/
inductive FindsRecord (n depth : ℕ) (data : List UInt8) (start : ℕ) : Option (List UInt8) → Prop
  | none (h : HoldsRecords n depth [] data) : FindsRecord n depth data start none
  | some {w : WireType} {pre tag v post : List UInt8} (hpre : HoldsRecords n depth [] pre)
      (htag : IsTag n w tag) (hv : IsSkipped depth n w v) (hdata : data = pre ++ (tag ++ v) ++ post)
      (hstart : start = pre.length) : FindsRecord n depth data start (some (tag ++ v))

theorem FindsRecord.cons {start : ℕ} {res : Option (List UInt8)} (hk : k ≠ n) (htag : IsTag k w tag)
    (hv : IsSkipped depth k w v) (h : FindsRecord n depth data start res) :
    FindsRecord n depth (tag ++ v ++ data) ((tag ++ v).length + start) res := by
  cases h with
  | none h => exact .none (.miss hk htag hv h)
  | @some w' pre tag' v' post hpre htag' hv' hdata hstart =>
    have hdata' : tag ++ v ++ data = (tag ++ v ++ pre) ++ (tag' ++ v') ++ post := by
      rw [hdata]
      simp only [List.append_assoc]
    refine .some (.miss hk htag hv hpre) htag' hv' hdata' ?_
    simp only [hstart, List.length_append]

/-- The loop finds the first record of the number. -/
theorem findsRecord_of_loop :
    ∀ {rounds : ℕ} {r r' : BoundedReader} {res : Option (List UInt8)}, r.rest.length ≤ fuel →
      Prog.loop stream.isDone .outOfFuel (findRecordRound stream fuel depth n) (fun _ => pure none)
        rounds () r = .ok (res, r') →
      ∃ start, (res ≠ none → r'.captureStart.1 = r.pos + start) ∧ FindsRecord n depth r.rest start res := by
  intro rounds
  induction rounds with
  | zero =>
    intro r r' res _ h
    by_cases hr : r.rest = []
    · rw [Prog.loop_of_done (isDone_of_eq_nil hr)] at h
      cases h
      exact ⟨0, nofun, .none (by rw [hr]; exact .nil)⟩
    · obtain ⟨_, _, _, hk, -⟩ := Prog.loop_eq_ok (isDone_of_ne_nil hr) h
      cases hk
  | succ rounds ih =>
    intro r r' res hfuel h
    by_cases hr : r.rest = []
    · rw [Prog.loop_of_done (isDone_of_eq_nil hr)] at h
      cases h
      exact ⟨0, nofun, .none (by rw [hr]; exact .nil)⟩
    obtain ⟨_, out, r₁, hk, hround, hres⟩ := Prog.loop_eq_ok (isDone_of_ne_nil hr) h
    cases hk
    obtain ⟨read, r₂, hread, hround⟩ := Prog.bind_eq_ok.mp hround
    obtain ⟨k, w, tag, v, rest, htag, hv, hrest⟩ := record_of_nextRecord hread
    by_cases hn : k = n
    · subst hn
      obtain ⟨r₃, hhit, -, hstart⟩ := nextRecord_hit htag hv hrest hfuel
      rw [hhit] at hread
      cases hread
      cases hround
      rcases hres with ⟨_, hres, -⟩ | ⟨hres, rfl⟩
      · cases hres
      · cases hres
        refine ⟨0, fun _ => hstart, ?_⟩
        exact .some .nil htag hv hrest rfl
    · obtain ⟨r₃, hmiss, hbehind, hmoved⟩ := nextRecord_miss hn htag hv hrest hfuel
      rw [hmiss] at hread
      cases hread
      cases hround
      rcases hres with ⟨_, hres, hloop⟩ | ⟨hres, -⟩
      swap
      · cases hres
      have hlen : r.rest.length = (tag ++ v).length + rest.length := by
        rw [hrest, List.length_append]
      obtain ⟨start, hstart, hfinds⟩ := ih (by rw [hbehind]; omega) hloop
      refine ⟨(tag ++ v).length + start, fun hsome => ?_, ?_⟩
      · rw [hstart hsome, hmoved, Nat.add_assoc]
      · rw [hrest, ← hbehind]
        exact .cons hn htag hv hfinds

theorem findsRecord_of_findRecord {res : Option (List UInt8)}
    (h : findRecord stream data.length depth n (.init 0 data) = .ok (res, r)) :
    ∃ start, (res ≠ none → r.captureStart.1 = start) ∧ FindsRecord n depth data start res := by
  have hloop : Prog.loop stream.isDone .outOfFuel (findRecordRound stream data.length depth n)
      (fun _ => pure none) data.length () (.init 0 data) = .ok (res, r) := h
  obtain ⟨start, hstart, hfinds⟩ :=
    findsRecord_of_loop (show (init 0 data).rest.length ≤ data.length from le_rfl) hloop
  exact ⟨start, fun hsome => (hstart hsome).trans (Nat.zero_add start), hfinds⟩

/-- The loop does not run out of rounds. -/
theorem findRecord_ne_outOfFuel {e : DecodeError} {data : List UInt8}
    (h : findRecord stream data.length depth n (.init 0 data) = .error e) : e ≠ .outOfFuel := by
  have hsafe : Consumes data.length (findRecord stream data.length depth n) data.length fun _ => True := by
    refine Consumes.loop (fun _ => True) (fun _ => True) le_rfl (fun _ _ _ => .pure trivial)
      (fun i _ hi _ => ?_) trivial
    refine (nextRecord_consumes hi).bind fun read _ => ?_
    cases read with
    | none => exact .pure trivial
    | some rec => exact .pure trivial
  have hout := hsafe (.init 0 data) le_rfl
  rw [h] at hout
  exact hout.2

end Find

section Entries

variable {n depth : ℕ}

/-- The first record of the number among the entries from the position `i` on. -/
structure FoundAt (n depth i : ℕ) (aux : List AuxPtr) (found : FindUnknownRet)
    (before after : List AuxPtr) (pre rec post : List UInt8) : Prop where
  entries : aux = before ++ .unknown (pre ++ rec ++ post) :: after
  noneBefore : ∀ p ∈ before, HoldsRecords n depth [] p.data
  nonePre : HoldsRecords n depth [] pre
  isRecord : ∃ w tag v, rec = tag ++ v ∧ IsTag n w tag ∧ IsSkipped depth n w v
  iter : found.iter = i + before.length + 1
  offset : found.offset = pre.length
  len : found.len = rec.length

/-- What `upb_Message_FindUnknown` finds. -/
theorem findUnknownFrom_ok {found : FindUnknownRet} :
    ∀ {aux : List AuxPtr} {i : ℕ}, findUnknownFrom n depth i aux = .ok found →
      ∃ before after pre rec post, FoundAt n depth i aux found before after pre rec post := by
  intro aux
  induction aux with
  | nil => intro i h; cases h
  | cons p aux ih =>
    intro i h
    -- the entries behind one without a record
    have hbehind : HoldsRecords n depth [] p.data → findUnknownFrom n depth (i + 1) aux = .ok found →
        ∃ before after pre rec post, FoundAt n depth i (p :: aux) found before after pre rec post := by
      intro hp hrest
      obtain ⟨before, after, pre, rec, post, hfound⟩ := ih hrest
      refine ⟨p :: before, after, pre, rec, post, ?_, ?_, hfound.nonePre, hfound.isRecord, ?_, hfound.offset,
        hfound.len⟩
      · rw [hfound.entries, List.cons_append]
      · intro q hq
        rcases List.mem_cons.mp hq with rfl | hq
        · exact hp
        · exact hfound.noneBefore q hq
      · rw [hfound.iter, List.length_cons]
        omega
    cases p with
    | null => exact hbehind .nil h
    | extension e => exact hbehind .nil h
    | unknown data =>
      rw [findUnknownFrom] at h
      split at h
      · next rec r hrec =>
        cases h
        obtain ⟨start, hstart, hfinds⟩ := findsRecord_of_findRecord hrec
        cases hfinds with
        | @some w pre tag v post hpre htag hv hdata hpos =>
          refine ⟨[], aux, pre, tag ++ v, post, ?_, nofun, hpre, ⟨w, tag, v, rfl, htag, hv⟩, rfl, ?_, rfl⟩
          · rw [← hdata]
            rfl
          · exact (hstart nofun).trans hpos
      · next r hrec =>
        obtain ⟨_, -, hfinds⟩ := findsRecord_of_findRecord hrec
        cases hfinds with
        | none hrecs => exact hbehind hrecs h
      · cases h
      · cases h

/-- `upb_Message_FindUnknown` does not run out of rounds. -/
theorem findUnknownFrom_ne_outOfFuel :
    ∀ {aux : List AuxPtr} {i : ℕ}, findUnknownFrom n depth i aux ≠ .outOfFuel := by
  intro aux
  induction aux with
  | nil => intro i h; cases h
  | cons p aux ih =>
    intro i h
    cases p with
    | null => exact ih h
    | extension e => exact ih h
    | unknown data =>
      rw [findUnknownFrom] at h
      split at h
      · cases h
      · exact ih h
      · next hrec => exact findRecord_ne_outOfFuel hrec rfl
      · cases h

/-- The first record of the number is found. -/
theorem findUnknownFrom_of_foundAt {w : WireType} {pre tag v post : List UInt8} {after : List AuxPtr}
    (hpre : HoldsRecords n depth [] pre) (htag : IsTag n w tag) (hv : IsSkipped depth n w v) :
    ∀ {before : List AuxPtr} {i : ℕ}, (∀ p ∈ before, HoldsRecords n depth [] p.data) →
      findUnknownFrom n depth i (before ++ .unknown (pre ++ (tag ++ v) ++ post) :: after) =
        .ok ⟨i + before.length + 1, pre.length, (tag ++ v).length⟩ := by
  intro before
  induction before with
  | nil =>
    intro i _
    obtain ⟨r', hloop, hstart⟩ := findRecord_some hpre htag hv
      (pre ++ (tag ++ v) ++ post).length (.init 0 (pre ++ (tag ++ v) ++ post)) rfl le_rfl le_rfl
    have hrec : findRecord stream (pre ++ (tag ++ v) ++ post).length depth n
        (.init 0 (pre ++ (tag ++ v) ++ post)) = .ok (some (tag ++ v), r') := hloop
    have hstart : r'.captureStart.1 = 0 + pre.length := hstart
    rw [List.nil_append, findUnknownFrom, hrec]
    simp only [hstart, Nat.zero_add]
    rfl
  | cons p before ih =>
    intro i hbefore
    have hp := hbefore p (List.mem_cons_self ..)
    have hrest := ih (i := i + 1) fun q hq => hbefore q (List.mem_cons_of_mem _ hq)
    have hrecs : i + 1 + before.length + 1 = i + (p :: before).length + 1 := by
      rw [List.length_cons]
      omega
    rw [hrecs] at hrest
    cases p with
    | null => exact hrest
    | extension e => exact hrest
    | unknown data =>
      obtain ⟨r', hloop⟩ := findRecord_none hp data.length (.init 0 data) rfl le_rfl le_rfl
      have hrec : findRecord stream data.length depth n (.init 0 data) = .ok (none, r') := hloop
      rw [List.cons_append, findUnknownFrom, hrec]
      exact hrest

end Entries

end Upb.Promote
