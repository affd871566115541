import Upb.Wire.BoundedReader
import Upb.Wire.StreamInvariant

/-!
# The patch buffer stream refines the checked reader

While the checked reader goes on, both streams stand at the same position under the same limit. Where
the checked reader fails because a read would cross the limit, the patch buffer stream may go on for
a while beyond the limit; it then fails at its next check, and it never reads outside of its buffers
on the way.
-/

namespace Upb.Wire

open Upb.Common EpsCopyInputStream

namespace LazyChecks

/-- What stays fixed under one limit: the input, where it starts in the outermost input, and the
limit. -/
structure Ghost where
  buffer : List UInt8
  bufferStart : ℕ
  limit : ℕ

/-- The patch buffer stream over the ghost's input and limit, with `n` more bytes to read. -/
structure Core (N : ℕ) (g : Ghost) (n : ℕ) (e : EpsCopyInputStream) : Prop where
  wf : Wf e
  buffer : e.buffer = g.buffer
  bufferStart : e.bufferStart = g.bufferStart
  limitPos : e.limitPos = g.limit
  room : e.ptr + n ≤ e.stop + 16
  inside : g.bufferStart + g.buffer.length ≤ N

/-- The bytes between an offset and the limit. -/
def Ghost.visible (g : Ghost) (pos : ℤ) : List UInt8 := (g.buffer.take g.limit).drop pos.toNat

/-- What the phases add to the relation. -/
def PhaseRel (g : Ghost) (e : EpsCopyInputStream) (r : BoundedReader) : Phase → Prop
  | .plain => True
  | .marked => 0 ≤ e.start ∧ e.start ≤ e.ptr ∧
      (r.start.1 : ℤ) = g.bufferStart + (e.start + e.inputDelta) ∧
      r.start.2 = g.visible (e.start + e.inputDelta)
  | .capturing => 0 ≤ e.captureStart ∧ e.captureStart ≤ e.pos ∧
      (r.captureStart.1 : ℤ) = g.bufferStart + e.captureStart ∧
      r.captureStart.2 = g.visible e.captureStart
  | .done => e.pos = g.limit

/-- Both streams stand at the same position under the same limit. -/
structure Rel (N : ℕ) (g : Ghost) (l : Level) (e : EpsCopyInputStream) (r : BoundedReader) :
    Prop where
  core : Core N g l.bytes e
  pos_le : e.pos ≤ g.limit
  pos_eq : (r.pos : ℤ) = g.bufferStart + e.pos
  rest_eq : r.rest = g.visible e.pos
  log_eq : e.log = r.log
  log_inside : ∀ x ∈ r.log, x.Inside N
  phase : PhaseRel g e r l.phase

/-- The patch buffer stream stands beyond its limit. -/
structure Ahead (N : ℕ) (g : Ghost) (l : Level) (e : EpsCopyInputStream) : Prop where
  core : Core N g l.bytes e
  lt_pos : g.limit < e.pos
  checked : l.checked = false
  phase : l.phase ≠ .done

variable {N : ℕ} {g : Ghost} {l l' : Level} {e : EpsCopyInputStream} {r : BoundedReader}

theorem Core.mono {n m : ℕ} (h : Core N g n e) (hm : m ≤ n) : Core N g m e :=
  { h with room := by have := h.room; omega }

/-- The limit lies inside the input. -/
theorem Core.limit_le {n : ℕ} (h : Core N g n e) : g.limit ≤ g.buffer.length := by
  have h₁ := h.wf.limitPos_le
  rw [h.limitPos, h.buffer] at h₁
  omega

/-- Moving on within the readable bytes. -/
theorem Core.advance {n m k : ℕ} (h : Core N g n e) (hk : e.ptr + k + m ≤ e.stop + 16) :
    Core N g m { e with ptr := e.ptr + k } :=
  { h with wf := h.wf.advance (by omega), room := hk }

/-- The simulation; the codes of the decoder may end a doomed run. -/
def lazySimulation (N : ℕ) : Simulation DecodeError EpsCopyInputStream BoundedReader Level where
  Ghost := Ghost
  rel := Rel N
  ahead := Ahead N
  past _ _ _ := False
  lax e := e = .malformed
  allowed e := e ≠ .outOfBounds ∧ e ≠ .outOfFuel
  free _ := False
  rel_anti := by
    intro g l l' e r hl h
    refine { h with core := h.core.mono hl.1, phase := ?_ }
    rcases hl.2.1 with heq | ⟨heq, -⟩
    · exact heq ▸ h.phase
    · rw [heq]
      trivial
  ahead_anti := by
    intro g l l' e hl h
    refine ⟨h.core.mono hl.1, h.lt_pos, ?_, ?_⟩
    · by_contra hc
      have := hl.2.2 (by simpa using hc)
      rw [h.checked] at this
      cases this
    · rcases hl.2.1 with heq | ⟨heq, -⟩
      · exact heq ▸ h.phase
      · rw [heq]
        decide
  past_anti _ h := h
  past_free h := h.elim

/-- An operation of the patch buffer stream that fails with `malformed` in a doomed state may do so. -/
theorem allowed_malformed : (lazySimulation N).allowed .malformed := ⟨by decide, by decide⟩

/-- The checked reader sees the bytes up to the limit. -/
theorem Rel.length_rest (h : Rel N g l e r) : (r.rest.length : ℤ) = g.limit - e.pos := by
  have hnonneg := h.core.wf.pos_nonneg
  have hpos := h.pos_le
  rw [h.rest_eq, Ghost.visible, List.length_drop, List.length_take,
    Nat.min_eq_left h.core.limit_le]
  omega

/-- Moving on within the limit. -/
theorem Rel.advance {k : ℕ} (h : Rel N g l e r) (hk : k ≤ r.rest.length)
    (hphase : l'.phase = l.phase) (hl : l.phase ≠ .done)
    (hroom : e.ptr + k + l'.bytes ≤ e.stop + 16) :
    Rel N g l' { e with ptr := e.ptr + k } (r.advance k) := by
  have hnonneg := h.core.wf.pos_nonneg
  have hlen := h.length_rest
  have hpos : ({ e with ptr := e.ptr + k } : EpsCopyInputStream).pos = e.pos + k := by
    simp only [pos]
    omega
  refine ⟨h.core.advance hroom, ?_, ?_, ?_, h.log_eq, h.log_inside, ?_⟩
  · rw [hpos]
    omega
  · rw [hpos]
    simp only [BoundedReader.advance, Nat.cast_add, h.pos_eq]
    omega
  · rw [hpos]
    simp only [BoundedReader.advance, h.rest_eq, Ghost.visible, List.drop_drop]
    congr 1
    omega
  · rw [hphase]
    have hp := h.phase
    cases hph : l.phase with
    | plain => trivial
    | marked =>
      rw [hph] at hp
      exact ⟨hp.1, by have := hp.2.1; simp only; omega, hp.2.2⟩
    | capturing =>
      rw [hph] at hp
      refine ⟨hp.1, ?_, hp.2.2⟩
      rw [hpos]
      have := hp.2.1
      simp only
      omega
    | done => exact absurd hph hl

/-- Moving on beyond the limit. -/
theorem ahead_advance {k : ℕ} (hcore : Core N g l.bytes e) (hk : g.limit < e.pos + k)
    (hchecked : l'.checked = false) (hl : l'.phase ≠ .done)
    (hroom : e.ptr + k + l'.bytes ≤ e.stop + 16) :
    Ahead N g l' { e with ptr := e.ptr + k } := by
  refine ⟨hcore.advance hroom, ?_, hchecked, hl⟩
  simp only [pos] at *
  omega

/-- The bytes in front of the patch buffer stream start with those that the checked reader sees. -/
theorem Rel.bytes_eq (h : Rel N g l e r) : ∃ w, e.bytes = r.rest ++ w := by
  have hnonneg := h.core.wf.pos_nonneg
  have hpos := h.pos_le
  have hlimit := h.core.limit_le
  have hb := h.core.wf.bytes_eq (by rw [h.core.buffer]; omega)
  rw [h.core.buffer] at hb
  have hsplit : g.buffer.drop e.pos.toNat = r.rest ++ g.buffer.drop g.limit := by
    rw [h.rest_eq, Ghost.visible, ← List.drop_append_of_le_length, List.take_append_drop]
    rw [List.length_take]
    omega
  exact ⟨_, by rw [hb, hsplit, List.append_assoc]⟩

/-- `IsDone` of both streams. -/
theorem isDone_triple (hl : l.phase ≠ .done) (hm : l.phase ≠ .marked) :
    (lazySimulation N).Triple Eq l EpsCopyInputStream.stream.isDone BoundedReader.stream.isDone
      fun d => if d then .atLimit else .fresh l.phase where
  rel g e r h := by
    have hlen := h.length_rest
    have hroom := h.core.room
    rcases isDone_cases h.core.wf (by omega) with ⟨hpos, hd⟩ | ⟨hpos, hd⟩ |
      ⟨hpos, e', hd, hsame, hwf, hpos', hlimit', hroom'⟩
    · rw [h.core.limitPos] at hpos
      have hrest : r.rest = [] := List.eq_nil_of_length_eq_zero (by omega)
      refine .inl ⟨true, e, hd, by simp [hrest], ?_⟩
      simp only [hrest, List.isEmpty_nil, if_true]
      exact { h with core := h.core.mono (Nat.zero_le _), phase := hpos }
    · rw [h.core.limitPos] at hpos
      have := h.pos_le
      omega
    · rw [h.core.limitPos] at hpos hlimit'
      have hrest : r.rest.isEmpty = false := by
        rw [List.isEmpty_eq_false_iff, ← List.length_pos_iff]
        omega
      refine .inl ⟨false, e', hd, by simp [hrest], ?_⟩
      simp only [hrest]
      refine ⟨⟨hwf, hsame.buffer.trans h.core.buffer, hsame.bufferStart.trans h.core.bufferStart,
        hlimit', ?_, h.core.inside⟩, ?_, ?_, ?_, hsame.log.trans h.log_eq, h.log_inside, ?_⟩
      · change e'.ptr + (16 : ℕ) ≤ e'.stop + 16
        omega
      · rw [hpos']
        exact h.pos_le
      · rw [hpos']
        exact h.pos_eq
      · rw [hpos']
        exact h.rest_eq
      · have hp := h.phase
        change PhaseRel g e' r l.phase
        cases hph : l.phase with
        | plain => trivial
        | marked => exact absurd hph hm
        | capturing =>
          rw [hph] at hp
          simp only [PhaseRel, hpos', hsame.captureStart]
          exact hp
        | done => exact absurd hph hl
  ahead g e h := by
    have hroom := h.core.room
    rcases isDone_cases h.core.wf (by omega) with ⟨hpos, -⟩ | ⟨-, hd⟩ | ⟨hpos, -⟩
    · have := h.lt_pos
      rw [hpos, h.core.limitPos] at this
      omega
    · change (lazySimulation N).AheadOut _ _ _ (EpsCopyInputStream.isDone e)
      rw [hd]
      exact allowed_malformed
    · have := h.lt_pos
      rw [h.core.limitPos] at hpos
      omega
  past _ _ h := h.elim

/-- Varints. -/
theorem readLong_triple {n : ℕ} (max : ℕ) (hl : l.phase ≠ .done) (hn : 0 < n) (hbytes : n ≤ l.bytes) :
    (lazySimulation N).Triple Eq l (EpsCopyInputStream.stream.readLong n max)
      (BoundedReader.stream.readLong n max) fun _ => l.consume n := by
  have hread : ∀ {g : Ghost} {e : EpsCopyInputStream}, Core N g l.bytes e →
      Wire.readLong DecodeError.outOfBounds .malformed e.bytes n max =
        readOutcome DecodeError.malformed max (splitVarint n e.bytes) := by
    intro g e hcore
    have hlen := hcore.wf.length_bytes
    have hroom := hcore.room
    rw [readLong_missing _ _ _ hn (by omega), readLong_eq _ _ hn]
  -- a varint that ends beyond the limit
  have hbeyond : ∀ {g : Ghost} {e : EpsCopyInputStream}, Core N g l.bytes e →
      (∀ p rest, splitVarint n e.bytes = some (p, rest) → (g.limit : ℤ) < e.pos + p.length) →
      (lazySimulation N).AheadOut Eq g (fun _ => l.consume n)
        (EpsCopyInputStream.readLong n max e) := by
    intro g e hcore hlt
    have hroom := hcore.room
    rw [EpsCopyInputStream.readLong, hread hcore]
    cases hs : splitVarint n e.bytes with
    | none => exact allowed_malformed
    | some q =>
      obtain ⟨p, rest⟩ := q
      have hp := splitVarint_length hs
      simp only [readOutcome]
      split
      · refine ⟨_, rfl, ahead_advance hcore (hlt p rest hs) rfl hl ?_⟩
        simp only [Level.consume]
        omega
      · exact allowed_malformed
  refine ⟨fun g e r h => ?_, fun g e h => ?_, fun _ _ h => h.elim⟩
  · obtain ⟨w, hw⟩ := h.bytes_eq
    have hroom := h.core.room
    have hlen := h.length_rest
    change (lazySimulation N).Out _ _ _ _ (BoundedReader.readLong n max r)
    rw [BoundedReader.readLong, readLong_eq _ _ hn]
    cases hs : splitVarint n r.rest with
    | none =>
      refine .inr (.inl ⟨rfl, hbeyond h.core fun p rest hp => ?_⟩)
      rw [hw] at hp
      have := splitVarint_none hs hp
      omega
    | some q =>
      obtain ⟨p, rest⟩ := q
      have hp := splitVarint_length hs
      have hpl : p.length ≤ r.rest.length := by
        rw [splitVarint_append hs, List.length_append]
        omega
      change (lazySimulation N).Out _ _ _ (EpsCopyInputStream.readLong n max e) _
      rw [EpsCopyInputStream.readLong, hread h.core, hw, splitVarint_frame w hs]
      simp only [readOutcome]
      split
      · refine .inl ⟨_, _, rfl, rfl, h.advance hpl rfl hl ?_⟩
        simp only [Level.consume]
        omega
      · exact .inl rfl
  · exact hbeyond h.core fun p rest _ => by have := h.lt_pos; omega

/-- Taking bytes that are there. -/
theorem takeBytes_of_le {n : ℕ} {l : List UInt8} (h : n ≤ l.length) :
    takeBytes n l = .ok (l.take n) := by
  rw [takeBytes, if_pos ⟨by omega, by omega⟩, Int.toNat_natCast]

theorem take_of_le {n : ℕ} (h : n ≤ r.rest.length) :
    BoundedReader.take n r = .ok (r.rest.take n, r.advance n) := if_pos h

theorem take_of_lt {n : ℕ} (h : r.rest.length < n) :
    BoundedReader.take n r = .error .malformed := if_neg (by omega)

/-- The bytes that the checked reader takes are those in front of the patch buffer stream. -/
theorem Rel.take_bytes (h : Rel N g l e r) {n : ℕ} (hn : n ≤ r.rest.length) :
    e.bytes.take n = r.rest.take n := by
  obtain ⟨w, hw⟩ := h.bytes_eq
  rw [hw, List.take_append_of_le_length hn]

/-- Fixed width numbers. -/
theorem readFixed_triple {n : ℕ} (hl : l.phase ≠ .done) (hbytes : n ≤ l.bytes) :
    (lazySimulation N).Triple Eq l (EpsCopyInputStream.stream.readFixed n)
      (BoundedReader.stream.readFixed n) fun _ => l.consume n := by
  have hread : ∀ {g : Ghost} {e : EpsCopyInputStream}, Core N g l.bytes e →
      EpsCopyInputStream.stream.readFixed n e =
        .ok (littleEndian (e.bytes.take n), { e with ptr := e.ptr + n }) := by
    intro g e hcore
    have hlen := hcore.wf.length_bytes
    have hroom := hcore.room
    change EpsCopyInputStream.readFixed n e = _
    rw [EpsCopyInputStream.readFixed, takeBytes_of_le (by omega)]
    rfl
  refine ⟨fun g e r h => ?_, fun g e h => ?_, fun _ _ h => h.elim⟩
  · have hlen := h.length_rest
    have hroom := h.core.room
    rw [hread h.core]
    change (lazySimulation N).Out _ _ _ _ ((BoundedReader.take n >>= fun b => pure _) r)
    by_cases hn : n ≤ r.rest.length
    · rw [Prog.bind_of_ok (take_of_le hn)]
      refine .inl ⟨_, _, rfl, by rw [h.take_bytes hn], h.advance hn rfl hl ?_⟩
      simp only [Level.consume]
      omega
    · rw [Prog.bind_of_error (take_of_lt (by omega))]
      refine .inr (.inl ⟨rfl, _, rfl, ahead_advance h.core (by omega) rfl hl ?_⟩)
      simp only [Level.consume]
      omega
  · have hroom := h.core.room
    have := h.lt_pos
    rw [hread h.core]
    refine ⟨_, rfl, ahead_advance h.core (by omega) rfl hl ?_⟩
    simp only [Level.consume]
    omega

/-- Unchecked skips. -/
theorem skip_triple {n : ℕ} (hl : l.phase ≠ .done) (hbytes : n ≤ l.bytes) :
    (lazySimulation N).Triple Eq l (EpsCopyInputStream.stream.skip n)
      (BoundedReader.stream.skip n) fun _ => l.consume n := by
  refine ⟨fun g e r h => ?_, fun g e h => ?_, fun _ _ h => h.elim⟩
  · have hlen := h.length_rest
    have hroom := h.core.room
    change (lazySimulation N).Out _ _ _ (.ok ((), { e with ptr := e.ptr + n }))
      ((BoundedReader.take n >>= fun _ => pure ()) r)
    by_cases hn : n ≤ r.rest.length
    · rw [Prog.bind_of_ok (take_of_le hn)]
      refine .inl ⟨_, _, rfl, rfl, h.advance hn rfl hl ?_⟩
      simp only [Level.consume]
      omega
    · rw [Prog.bind_of_error (take_of_lt (by omega))]
      refine .inr (.inl ⟨rfl, (), rfl, ahead_advance h.core (by omega) rfl hl ?_⟩)
      simp only [Level.consume]
      omega
  · have hroom := h.core.room
    have := h.lt_pos
    refine ⟨(), rfl, ahead_advance h.core (by omega) rfl hl ?_⟩
    simp only [Level.consume]
    omega

theorem tailBytes_le (e : EpsCopyInputStream) : e.tailBytes ≤ 16 := by
  rw [tailBytes]
  split <;> simp [slopBytes]

/-- Checked skips. -/
theorem skipDelimited_triple {n : ℕ} (hl : l.phase ≠ .done) :
    (lazySimulation N).Triple Eq l (EpsCopyInputStream.stream.skipDelimited n)
      (BoundedReader.stream.skipDelimited n) fun _ => l.hit := by
  have hcheck : ∀ {g : Ghost} {e : EpsCopyInputStream}, Core N g l.bytes e →
      e.checkSize n = decide ((n : ℤ) ≤ g.limit - e.pos) := by
    intro g e hcore
    have := hcore.limitPos
    rw [limitPos] at this
    rw [checkSize, pos]
    congr 2
    omega
  refine ⟨fun g e r h => ?_, fun g e h => ?_, fun _ _ h => h.elim⟩
  · have hlen := h.length_rest
    have hlimit := h.core.wf.limit_le
    have hlp := h.core.limitPos
    change (lazySimulation N).Out _ _ _ (EpsCopyInputStream.skipDelimited n e)
      ((BoundedReader.take n >>= fun _ => pure ()) r)
    rw [EpsCopyInputStream.skipDelimited, hcheck h.core, ← hlen]
    by_cases hn : n ≤ r.rest.length
    · rw [Prog.bind_of_ok (take_of_le hn), if_pos (by simpa using hn)]
      refine .inl ⟨_, _, rfl, rfl, h.advance hn rfl hl ?_⟩
      have htail := tailBytes_le e
      simp only [Level.hit, limitPos, pos] at *
      omega
    · rw [Prog.bind_of_error (take_of_lt (by omega)), if_neg (by simpa using hn)]
      exact .inl rfl
  · have := h.lt_pos
    change (lazySimulation N).AheadOut _ _ _ (EpsCopyInputStream.skipDelimited n e)
    rw [EpsCopyInputStream.skipDelimited, hcheck h.core, if_neg (by simp; omega)]
    exact allowed_malformed

/-- Strings that are only looked at. -/
theorem readStringEphemeral_triple {n : ℕ} (hl : l.phase ≠ .done) :
    (lazySimulation N).Triple Eq l (EpsCopyInputStream.stream.readStringEphemeral n)
      (BoundedReader.stream.readStringEphemeral n) fun _ => l.hit := by
  have hread : ∀ {g : Ghost} {e : EpsCopyInputStream}, Core N g l.bytes e →
      e.ptr + n ≤ e.stop + 16 → EpsCopyInputStream.stream.readStringEphemeral n e =
        .ok (e.bytes.take n, { e with ptr := e.ptr + n }) := by
    intro g e hcore hn
    have hlen := hcore.wf.length_bytes
    change EpsCopyInputStream.readStringEphemeral n e = _
    rw [EpsCopyInputStream.readStringEphemeral, if_neg (by simp only [slopBytes]; omega),
      takeBytes_of_le (by omega)]
    rfl
  -- a string that ends beyond the limit
  have hbeyond : ∀ {g : Ghost} {e : EpsCopyInputStream}, Core N g l.bytes e →
      (g.limit : ℤ) < e.pos + n → (lazySimulation N).AheadOut Eq g (fun _ => l.hit)
        (EpsCopyInputStream.stream.readStringEphemeral n e) := by
    intro g e hcore hlt
    by_cases hn : e.ptr + n ≤ e.stop + 16
    · rw [hread hcore hn]
      exact ⟨_, rfl, ahead_advance hcore hlt rfl hl (by simpa [Level.hit] using hn)⟩
    · change (lazySimulation N).AheadOut _ _ _ (EpsCopyInputStream.readStringEphemeral n e)
      rw [EpsCopyInputStream.readStringEphemeral, if_pos (by simp only [slopBytes]; omega)]
      exact allowed_malformed
  refine ⟨fun g e r h => ?_, fun g e h => ?_, fun _ _ h => h.elim⟩
  · have hlen := h.length_rest
    have hlimit := h.core.wf.limit_le
    have hlp := h.core.limitPos
    have htail := tailBytes_le e
    change (lazySimulation N).Out _ _ _ _ (BoundedReader.take n r)
    by_cases hn : n ≤ r.rest.length
    · have hroom : e.ptr + n ≤ e.stop + 16 := by
        simp only [limitPos, pos] at *
        omega
      rw [take_of_le hn, hread h.core hroom]
      exact .inl ⟨_, _, rfl, h.take_bytes hn, h.advance hn rfl hl (by simpa [Level.hit] using hroom)⟩
    · rw [take_of_lt (by omega)]
      exact .inr (.inl ⟨rfl, hbeyond h.core (by omega)⟩)
  · have := h.lt_pos
    exact hbeyond h.core (by omega)

/-- Aliased strings inside an input of `N` bytes. -/
def ViewRel (N : ℕ) (v₁ v₂ : View) : Prop :=
  v₁ = v₂ ∧ 0 ≤ v₁.start ∧ v₁.start + v₁.data.length ≤ N

/-- Strings that alias the input. -/
theorem readStringAlwaysAlias_triple {n : ℕ} (hl : l.phase ≠ .done) :
    (lazySimulation N).Triple (ViewRel N) l (EpsCopyInputStream.stream.readStringAlwaysAlias n)
      (BoundedReader.stream.readStringAlwaysAlias n) fun _ => l.hit := by
  have hread : ∀ {g : Ghost} {e : EpsCopyInputStream}, Core N g l.bytes e →
      e.ptr + n ≤ e.stop + e.tailBytes → EpsCopyInputStream.stream.readStringAlwaysAlias n e =
        .ok (⟨g.bufferStart + e.pos, (g.buffer.drop e.pos.toNat).take n⟩,
          { e with ptr := e.ptr + n, log := e.log ++ [⟨g.bufferStart + e.pos, n⟩] }) := by
    intro g e hcore hn
    have hpos := hcore.wf.pos_nonneg
    have htotal := hcore.wf.total
    have hlen : n ≤ (g.buffer.drop e.pos.toNat).length := by
      rw [List.length_drop]
      simp only [pos, hcore.buffer] at *
      omega
    have hbytes : bytesFrom e.buffer (e.getInputPtr e.ptr) = g.buffer.drop e.pos.toNat := by
      rw [hcore.buffer]
      exact if_pos hpos
    change EpsCopyInputStream.readStringAlwaysAlias n e = _
    rw [tailBytes] at hn
    rw [EpsCopyInputStream.readStringAlwaysAlias, if_neg (by omega)]
    dsimp only
    rw [hbytes, takeBytes_of_le hlen, hcore.bufferStart]
    rfl
  have hview : ∀ {g : Ghost} {e : EpsCopyInputStream}, Core N g l.bytes e →
      e.ptr + n ≤ e.stop + e.tailBytes →
      0 ≤ (g.bufferStart : ℤ) + e.pos ∧ g.bufferStart + e.pos + n ≤ N := by
    intro g e hcore hn
    have hpos := hcore.wf.pos_nonneg
    have htotal := hcore.wf.total
    have hinside := hcore.inside
    simp only [pos, hcore.buffer] at *
    omega
  -- a string that ends beyond the limit
  have hbeyond : ∀ {g : Ghost} {e : EpsCopyInputStream}, Core N g l.bytes e →
      (g.limit : ℤ) < e.pos + n → (lazySimulation N).AheadOut (ViewRel N) g (fun _ => l.hit)
        (EpsCopyInputStream.stream.readStringAlwaysAlias n e) := by
    intro g e hcore hlt
    by_cases hn : e.ptr + n ≤ e.stop + e.tailBytes
    · have htail := tailBytes_le e
      rw [hread hcore hn]
      refine ⟨_, ⟨rfl, (hview hcore hn).1, ?_⟩, ?_⟩
      · refine le_trans (Int.add_le_add_left ?_ _) (hview hcore hn).2
        exact_mod_cast List.length_take_le _ _
      · have hadv : Ahead N g l.hit { e with ptr := e.ptr + n } :=
          ahead_advance hcore hlt rfl hl (by simp only [Level.hit]; omega)
        exact ⟨{ hadv.core with wf := { hadv.core.wf with } }, hadv.lt_pos, rfl, hl⟩
    · change (lazySimulation N).AheadOut _ _ _ (EpsCopyInputStream.readStringAlwaysAlias n e)
      rw [tailBytes] at hn
      rw [EpsCopyInputStream.readStringAlwaysAlias, if_pos (by omega)]
      exact allowed_malformed
  refine ⟨fun g e r h => ?_, fun g e h => ?_, fun _ _ h => h.elim⟩
  · have hlen := h.length_rest
    have hlimit := h.core.wf.limit_le
    have hlp := h.core.limitPos
    have htail := tailBytes_le e
    have hpos := h.core.wf.pos_nonneg
    change (lazySimulation N).Out _ _ _ _ (BoundedReader.readStringAlwaysAlias n r)
    rw [BoundedReader.readStringAlwaysAlias]
    by_cases hn : n ≤ r.rest.length
    · have hroom : e.ptr + n ≤ e.stop + e.tailBytes := by
        simp only [limitPos, pos] at *
        omega
      have hdata : (g.buffer.drop e.pos.toNat).take n = r.rest.take n := by
        rw [h.rest_eq]
        simp only [Ghost.visible, List.drop_take, List.take_take]
        rw [Nat.min_eq_left (by omega)]
      have hin := hview h.core hroom
      rw [if_pos hn, hread h.core hroom, hdata]
      refine .inl ⟨_, _, rfl, ⟨by rw [h.pos_eq], hin.1, ?_⟩, ?_⟩
      · rw [List.length_take, Nat.min_eq_left hn]
        exact hin.2
      · have hadv : Rel N g l.hit { e with ptr := e.ptr + n } (r.advance n) :=
          h.advance hn rfl hl (by simp only [Level.hit]; omega)
        refine ⟨{ hadv.core with wf := { hadv.core.wf with } }, hadv.pos_le, hadv.pos_eq,
          hadv.rest_eq, ?_, ?_, ?_⟩
        · rw [h.log_eq, h.pos_eq]
        · intro x hx
          rcases List.mem_append.mp hx with hx | hx
          · exact h.log_inside x hx
          · rw [List.mem_singleton] at hx
            subst hx
            rw [h.pos_eq]
            exact ⟨hin.1, by simp, hin.2⟩
        · have hp := hadv.phase
          revert hp
          change PhaseRel _ _ _ l.phase → PhaseRel _ _ _ l.phase
          cases l.phase <;> exact id
    · rw [if_neg hn]
      exact .inr (.inl ⟨rfl, hbeyond h.core (by omega)⟩)
  · have := h.lt_pos
    exact hbeyond h.core (by omega)

/-- The start of a field. -/
theorem mark_triple :
    (lazySimulation N).Triple Eq l EpsCopyInputStream.stream.mark BoundedReader.stream.mark
      fun _ => { l with phase := .marked } where
  rel _ _ _ h := .inl ⟨(), _, rfl, rfl, { h.core with wf := { h.core.wf with } }, h.pos_le, h.pos_eq,
    h.rest_eq, h.log_eq, h.log_inside, h.core.wf.ptr_nonneg, le_rfl, h.pos_eq, h.rest_eq⟩
  ahead _ _ h :=
    ⟨(), rfl, { h.core with wf := { h.core.wf with } }, h.lt_pos, h.checked, Phase.noConfusion⟩
  past _ _ h := h.elim

/-- The start of a capture. -/
theorem startCapture_triple (hl : l.phase = .marked) :
    (lazySimulation N).Triple Eq l EpsCopyInputStream.stream.startCapture
      BoundedReader.stream.startCapture fun _ => { l with phase := .capturing } where
  rel g e r h := by
    have hp := h.phase
    rw [hl] at hp
    obtain ⟨hnonneg, hle, hpos, hrest⟩ := hp
    have hdelta := h.core.wf.delta_nonneg
    refine .inl ⟨(), _, rfl, rfl, { h.core with wf := { h.core.wf with } }, h.pos_le, h.pos_eq,
      h.rest_eq, h.log_eq, h.log_inside, ?_, ?_, hpos, hrest⟩
    · simp only [getInputPtr]
      omega
    · simp only [getInputPtr, pos]
      omega
  ahead _ _ h :=
    ⟨(), rfl, { h.core with wf := { h.core.wf with } }, h.lt_pos, h.checked, Phase.noConfusion⟩
  past _ _ h := h.elim

/-- The end of a capture. -/
theorem endCapture_triple (hl : l.phase = .capturing) :
    (lazySimulation N).Triple Eq l EpsCopyInputStream.stream.endCapture
      BoundedReader.stream.endCapture fun _ => .base where
  rel g e r h := by
    have hp := h.phase
    rw [hl] at hp
    obtain ⟨hnonneg, hle, hcpos, hcrest⟩ := hp
    have hposle := h.pos_le
    have hlp := h.core.limitPos
    have hlimit := h.core.limit_le
    have hpos := h.pos_eq
    obtain ⟨k, hk⟩ : ∃ k : ℕ, e.pos - e.captureStart = k := ⟨_, (Int.toNat_of_nonneg (by omega)).symm⟩
    have hsize : r.pos - r.captureStart.1 = k := by omega
    have hinside := h.core.inside
    have hlen : k ≤ (g.buffer.drop e.captureStart.toNat).length := by
      rw [List.length_drop]
      omega
    have hcheck : ¬ e.ptr - e.stop > e.limit := by
      simp only [limitPos, pos] at *
      omega
    have hdata : r.captureStart.2.take k = (g.buffer.drop e.captureStart.toNat).take k := by
      rw [hcrest]
      simp only [Ghost.visible, List.drop_take, List.take_take]
      rw [Nat.min_eq_left (by omega)]
    have hleft : EpsCopyInputStream.stream.endCapture e =
        .ok ((g.buffer.drop e.captureStart.toNat).take k,
          { e with log := e.log ++ [⟨g.bufferStart + e.captureStart, k⟩] }) := by
      have hbytes : bytesFrom e.buffer e.captureStart = g.buffer.drop e.captureStart.toNat := by
        rw [h.core.buffer]
        exact if_pos hnonneg
      have hsz : e.getInputPtr e.ptr - e.captureStart = k := hk
      change EpsCopyInputStream.endCapture e = _
      rw [EpsCopyInputStream.endCapture, if_neg hcheck]
      dsimp only
      rw [hbytes, hsz, takeBytes_of_le hlen, h.core.bufferStart]
      rfl
    have hright : BoundedReader.stream.endCapture r =
        .ok (r.captureStart.2.take k, { r with log := r.log ++ [⟨r.captureStart.1, k⟩] }) := by
      change BoundedReader.endCapture r = _
      rw [BoundedReader.endCapture, hsize]
    rw [hleft, hright]
    refine .inl ⟨_, _, rfl, hdata.symm, { (h.core.mono (Nat.zero_le _)) with
      wf := { h.core.wf with } }, h.pos_le, h.pos_eq, h.rest_eq, ?_, ?_, trivial⟩
    · rw [h.log_eq, hcpos]
    · intro x hx
      rcases List.mem_append.mp hx with hx | hx
      · exact h.log_inside x hx
      · rw [List.mem_singleton] at hx
        subst hx
        rw [hcpos]
        refine ⟨by simp only; omega, by simp, ?_⟩
        simp only
        omega
  ahead g e h := by
    have hlp := h.core.limitPos
    have := h.lt_pos
    change (lazySimulation N).AheadOut _ _ _ (EpsCopyInputStream.endCapture e)
    rw [EpsCopyInputStream.endCapture, if_pos (by simp only [limitPos, pos] at *; omega)]
    exact allowed_malformed
  past _ _ h := h.elim

/-- A program that ends at the limit is not doomed when it returns. -/
theorem aheadOut_atLimit {α₁ α₂ : Type} {R : α₁ → α₂ → Prop} {g : Ghost}
    {o : Except DecodeError (α₁ × EpsCopyInputStream)}
    (h : (lazySimulation N).AheadOut R g (fun _ => .atLimit) o) :
    ∃ e, o = .error e ∧ (lazySimulation N).allowed e := by
  cases o with
  | error e => exact ⟨e, rfl, h⟩
  | ok p =>
    obtain ⟨_, -, h⟩ := h
    exact absurd rfl h.phase

/-- Programs under a limit. -/
theorem withLimit_triple {α₁ α₂ : Type} {R : α₁ → α₂ → Prop} {n : ℕ}
    {x : Reading EpsCopyInputStream α₁} {y : Reading BoundedReader α₂}
    (hxy : (lazySimulation N).Triple R .base x y fun _ => .atLimit) :
    (lazySimulation N).Triple R l (EpsCopyInputStream.stream.withLimit n x)
      (BoundedReader.stream.withLimit n y) fun _ => .base where
  rel g e r h := by
    have hlen := h.length_rest
    have hlp := h.core.limitPos
    have hpos := h.core.wf.pos_nonneg
    have hlimit := h.core.wf.limit_le
    have hll := h.core.limit_le
    have hroom := h.core.room
    rw [Stream.withLimit, Stream.withLimit]
    by_cases hn : n ≤ r.rest.length
    · -- the inner limit is `n` bytes ahead
      let e₁ : EpsCopyInputStream := { e with
        limit := (n : ℤ) + (e.ptr - e.stop)
        limitPtr := e.stop + min 0 ((n : ℤ) + (e.ptr - e.stop)) }
      let r₁ : BoundedReader := { r with rest := r.rest.take n }
      have hpush₁ : EpsCopyInputStream.stream.pushLimit n e =
          .ok (e.limit - ((n : ℤ) + (e.ptr - e.stop)), e₁) := by
        refine if_neg ?_
        simp only [limitPos, pos] at *
        omega
      have hpush₂ : BoundedReader.stream.pushLimit n r = .ok (r.rest.drop n, r₁) := if_pos hn
      rw [Prog.bind_of_ok hpush₁, Prog.bind_of_ok hpush₂]
      let g₁ : Ghost := { g with limit := e.pos.toNat + n }
      have hrel₁ : Rel N g₁ .base e₁ r₁ := by
        refine ⟨⟨h.core.wf.setLimit ?_, h.core.buffer, h.core.bufferStart, ?_, ?_, h.core.inside⟩,
          ?_, h.pos_eq, ?_, h.log_eq, h.log_inside, trivial⟩
        · simp only [limitPos, pos] at *
          omega
        · simp only [g₁, e₁, limitPos, pos] at *
          omega
        · simp only [e₁, Level.base]
          omega
        · simp only [g₁, e₁, pos] at *
          omega
        · simp only [r₁, h.rest_eq, g₁, Ghost.visible, List.drop_take, List.take_take]
          congr 1
          change _ = e.pos.toNat + n - e.pos.toNat
          omega
      have hout := hxy.rel g₁ e₁ r₁ hrel₁
      rw [Prog.bind_apply x, Prog.bind_apply y]
      cases hy : y r₁ with
      | error d =>
        rw [hy] at hout
        rcases hout with hx | ⟨hlax, ha⟩ | hfree
        · rw [hx]
          exact .inl rfl
        · obtain ⟨d', hx, ha⟩ := aheadOut_atLimit ha
          rw [hx]
          exact .inr (.inl ⟨hlax, ha⟩)
        · exact hfree.elim
      | ok q =>
        obtain ⟨a₂, r₂⟩ := q
        rw [hy] at hout
        rcases hout with ⟨a₁, e₂, hx, hR, hrel⟩ | ⟨-, hpast⟩
        · rw [hx]
          have hdone : e₂.pos = g₁.limit := hrel.phase
          have hlp₂ := hrel.core.limitPos
          have htotal₂ := hrel.core.wf.total
          have hbuf₂ : e₂.buffer.length = g.buffer.length := congrArg List.length hrel.core.buffer
          refine .inl ⟨a₁, _, rfl, hR, ⟨hrel.core.wf.setLimit ?_, hrel.core.buffer,
            hrel.core.bufferStart, ?_, hrel.core.room, h.core.inside⟩, ?_, hrel.pos_eq, ?_,
            hrel.log_eq, hrel.log_inside, trivial⟩
          · simp only [g₁, limitPos, pos] at *
            omega
          · simp only [g₁, limitPos, pos] at *
            omega
          · change e₂.pos ≤ g.limit
            simp only [g₁] at hdone
            omega
          · have hnil : r₂.rest = [] := by
              refine List.eq_nil_of_length_eq_zero ?_
              have := hrel.length_rest
              omega
            change r₂.rest ++ r.rest.drop n = g.visible e₂.pos
            rw [hnil, List.nil_append, h.rest_eq, hdone]
            simp only [Ghost.visible, List.drop_drop, Int.toNat_natCast, g₁]
        · exact hpast.elim
    · have hpush₁ : EpsCopyInputStream.stream.pushLimit n e = .error .malformed := by
        refine if_pos ?_
        simp only [limitPos, pos] at *
        omega
      have hpush₂ : BoundedReader.stream.pushLimit n r = .error .malformed := if_neg hn
      rw [Prog.bind_of_error hpush₁, Prog.bind_of_error hpush₂]
      exact .inl rfl
  ahead g e h := by
    have hlp := h.core.limitPos
    have := h.lt_pos
    have hpush₁ : EpsCopyInputStream.stream.pushLimit n e = .error .malformed := by
      refine if_pos ?_
      simp only [limitPos, pos] at *
      omega
    rw [Stream.withLimit, Prog.bind_of_error hpush₁]
    exact allowed_malformed
  past _ _ h := h.elim

/-- Both streams over a fresh input. -/
theorem rel_init {v : View} (hN : N ≤ int32Max) (hstart : 0 ≤ v.start)
    (hsize : v.start + v.data.length ≤ N) :
    Rel N ⟨v.data, v.start.toNat, v.data.length⟩ (.fresh .plain)
      (EpsCopyInputStream.stream.enter v) (BoundedReader.stream.enter v) := by
  obtain ⟨hwf, hpos, hlimit, hroom⟩ := wf_init v.start (show v.data.length ≤ int32Max by omega)
  have hbuffer : (init v.start v.data).buffer = v.data := by
    rw [init]
    split <;> rfl
  have hbstart : (init v.start v.data).bufferStart = v.start := by
    rw [init]
    split <;> rfl
  have hlog : (init v.start v.data).log = [] := by
    rw [init]
    split <;> rfl
  refine ⟨⟨hwf, hbuffer, ?_, hlimit, hroom, ?_⟩, ?_, ?_, ?_, hlog, by simp [BoundedReader.stream,
    BoundedReader.init], trivial⟩
  · rw [Int.toNat_of_nonneg hstart]
    exact hbstart
  · simp only
    omega
  · change (init v.start v.data).pos ≤ _
    rw [hpos]
    simp
  · change (_ : ℤ) = _ + (init v.start v.data).pos
    rw [hpos]
    simp [BoundedReader.stream, BoundedReader.init]
  · change v.data = Ghost.visible _ (init v.start v.data).pos
    rw [hpos]
    simp [Ghost.visible]

/-- Programs on a fresh stream over an aliased string. -/
theorem nested_triple {α₁ α₂ : Type} {R : α₁ → α₂ → Prop} {v₁ v₂ : View}
    {x : Reading EpsCopyInputStream α₁} {y : Reading BoundedReader α₂} (hN : N ≤ int32Max)
    (hv : ViewRel N v₁ v₂)
    (hgood : ∀ d, y (BoundedReader.stream.enter v₂) = .error d → (lazySimulation N).allowed d)
    (hxy : (lazySimulation N).Triple R .base x y fun _ => .atLimit) :
    (lazySimulation N).Triple R l (EpsCopyInputStream.stream.nested v₁ x)
      (BoundedReader.stream.nested v₂ y) fun _ => l := by
  obtain ⟨rfl, hstart, hsize⟩ := hv
  have hinit := (lazySimulation N).rel_anti (Level.base_le (by decide)) (rel_init hN hstart hsize)
  have hout := hxy.rel _ _ _ hinit
  refine ⟨fun g e r h => ?_, fun g e h => ?_, fun _ _ h => h.elim⟩
  · rw [Stream.nested, Stream.nested]
    cases hy : y (BoundedReader.stream.enter v₁) with
    | error d =>
      rw [hy] at hout
      rcases hout with hx | ⟨hlax, ha⟩ | hfree
      · rw [hx]
        exact .inl rfl
      · obtain ⟨d', hx, ha⟩ := aheadOut_atLimit ha
        rw [hx]
        exact .inr (.inl ⟨hlax, ha⟩)
      · exact hfree.elim
    | ok q =>
      rw [hy] at hout
      rcases hout with ⟨a₁, e₂, hx, hR, hrel⟩ | ⟨-, hpast⟩
      · rw [hx]
        refine .inl ⟨a₁, _, rfl, hR, { h.core with wf := { h.core.wf with } }, h.pos_le, h.pos_eq,
          h.rest_eq, ?_, ?_, ?_⟩
        · change e.log ++ e₂.log = r.log ++ q.2.log
          rw [h.log_eq, hrel.log_eq]
        · intro z hz
          rcases List.mem_append.mp hz with hz | hz
          · exact h.log_inside z hz
          · exact hrel.log_inside z hz
        · have hp := h.phase
          revert hp
          cases l.phase <;> exact id
      · exact hpast.elim
  · rw [Stream.nested]
    cases hy : y (BoundedReader.stream.enter v₁) with
    | error d =>
      rw [hy] at hout
      rcases hout with hx | ⟨-, ha⟩ | hfree
      · rw [hx]
        exact hgood d hy
      · obtain ⟨d', hx, ha⟩ := aheadOut_atLimit ha
        rw [hx]
        exact ha
      · exact hfree.elim
    | ok q =>
      rw [hy] at hout
      rcases hout with ⟨a₁, e₂, hx, hR, -⟩ | ⟨-, hpast⟩
      · rw [hx]
        exact ⟨q.1, hR, { h.core with wf := { h.core.wf with } }, h.lt_pos, h.checked, h.phase⟩
      · exact hpast.elim

end LazyChecks

open LazyChecks in
/-- The patch buffer stream simulates the checked reader on inputs of at most `N` bytes. -/
def lazySim (N : ℕ) (hN : N ≤ int32Max) :
    StreamSim EpsCopyInputStream.stream BoundedReader.stream where
  toSimulation := lazySimulation N
  viewRel := ViewRel N
  view_data h := congrArg View.data h.1
  allowed_status h h' := ⟨h, h'⟩
  ahead_checked hl h := by
    rw [h.checked] at hl
    cases hl
  isDone := isDone_triple
  readLong := readLong_triple
  readFixed := readFixed_triple
  skip := skip_triple
  skipDelimited := skipDelimited_triple
  readStringAlwaysAlias := readStringAlwaysAlias_triple
  readStringEphemeral := readStringEphemeral_triple
  withLimit := fun _ => withLimit_triple
  mark := fun _ => mark_triple
  startCapture := startCapture_triple
  endCapture := endCapture_triple
  nested := fun _ => nested_triple hN

end Upb.Wire
