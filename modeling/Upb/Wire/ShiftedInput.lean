import Upb.Wire.LazyChecks

/-!
# The patch buffer stream on the rest of an input

Two patch buffer streams, one on an input and one on a rest of it, do the same from the same distance
to the end on: they see the same bytes, make the same checks and fail with the same codes.
-/

namespace Upb.Wire

open Upb.Common EpsCopyInputStream

namespace ShiftedInput

/-- What stays fixed under one limit: the input of the right stream, the bytes in front of it, and the
offset of its limit. -/
structure Ghost where
  pre : List UInt8
  buffer : List UInt8
  limit : ℤ

/-- What the phases add to the relation. -/
def PhaseRel (g : Ghost) (e₁ e₂ : EpsCopyInputStream) : Phase → Prop
  | .plain => True
  | .marked => 0 ≤ e₂.start + e₂.inputDelta ∧
      e₁.start + e₁.inputDelta = g.pre.length + (e₂.start + e₂.inputDelta)
  | .capturing => 0 ≤ e₂.captureStart ∧ e₁.captureStart = g.pre.length + e₂.captureStart
  | .done => e₂.pos = g.limit

/-- Both streams stand at the same distance to the end. -/
structure Rel (g : Ghost) (l : Level) (e₁ e₂ : EpsCopyInputStream) : Prop where
  wf₁ : Wf e₁
  wf₂ : Wf e₂
  buffer₁ : e₁.buffer = g.pre ++ g.buffer
  buffer₂ : e₂.buffer = g.buffer
  inPatch : e₁.inPatch = e₂.inPatch
  overrun : e₁.ptr - e₁.stop = e₂.ptr - e₂.stop
  limit : e₁.limit = e₂.limit
  limitPos : e₂.limitPos = g.limit
  room : e₂.ptr + l.bytes ≤ e₂.stop + 16
  phase : PhaseRel g e₁ e₂ l.phase

/-- The simulation. Running out of rounds says nothing about a stream with more of them. -/
def shiftedSimulation : Simulation DecodeError EpsCopyInputStream EpsCopyInputStream Level where
  Ghost := Ghost
  rel := Rel
  ahead _ _ _ := False
  past _ _ _ := False
  lax _ := False
  allowed _ := True
  free e := e = .outOfFuel
  rel_anti := by
    intro g l l' e₁ e₂ hl h
    refine { h with room := by have := h.room; have := hl.1; omega, phase := ?_ }
    rcases hl.2.1 with heq | ⟨heq, -⟩
    · exact heq ▸ h.phase
    · rw [heq]
      trivial
  ahead_anti _ h := h
  past_anti _ h := h
  past_free h := h.elim

variable {g : Ghost} {l l' : Level} {e₁ e₂ : EpsCopyInputStream}

theorem Rel.tailBytes (h : Rel g l e₁ e₂) : e₁.tailBytes = e₂.tailBytes := by
  rw [EpsCopyInputStream.tailBytes, EpsCopyInputStream.tailBytes, h.inPatch]

/-- The positions differ by the bytes in front. -/
theorem Rel.pos (h : Rel g l e₁ e₂) : e₁.pos = g.pre.length + e₂.pos := by
  have h₁ := h.wf₁.total
  have h₂ := h.wf₂.total
  have hover := h.overrun
  rw [h.buffer₁, List.length_append, h.tailBytes] at h₁
  rw [h.buffer₂] at h₂
  rw [EpsCopyInputStream.pos, EpsCopyInputStream.pos]
  omega

/-- The rest of both inputs is the same. -/
theorem Rel.drop_buffer (h : Rel g l e₁ e₂) {i₁ i₂ : ℤ} (hi : 0 ≤ i₂)
    (heq : i₁ = g.pre.length + i₂) : e₁.buffer.drop i₁.toNat = e₂.buffer.drop i₂.toNat := by
  have hnat : i₁.toNat = g.pre.length + i₂.toNat := by omega
  rw [h.buffer₁, h.buffer₂, hnat, ← List.drop_drop, List.drop_left]

theorem Rel.bytesFrom_buffer (h : Rel g l e₁ e₂) {i₁ i₂ : ℤ} (hi : 0 ≤ i₂)
    (heq : i₁ = g.pre.length + i₂) : bytesFrom e₁.buffer i₁ = bytesFrom e₂.buffer i₂ := by
  rw [bytesFrom, bytesFrom, if_pos hi, if_pos (by omega), h.drop_buffer hi heq]

/-- Both see the same bytes. -/
theorem Rel.take_bytes (h : Rel g l e₁ e₂) {n : ℕ} (hn : e₂.ptr + n ≤ e₂.stop + 16) :
    e₁.bytes.take n = e₂.bytes.take n := by
  have hover := h.overrun
  rw [h.wf₁.take_bytes (by omega), h.wf₂.take_bytes hn, h.drop_buffer h.wf₂.pos_nonneg h.pos]

/-- Both move on. -/
theorem Rel.advance {k : ℕ} (h : Rel g l e₁ e₂) (hl : l.phase ≠ .done) (hl' : l'.phase = l.phase)
    (hroom : e₂.ptr + k + l'.bytes ≤ e₂.stop + 16) :
    Rel g l' { e₁ with ptr := e₁.ptr + k } { e₂ with ptr := e₂.ptr + k } := by
  refine ⟨h.wf₁.advance (by omega), h.wf₂.advance (by omega), h.buffer₁, h.buffer₂, h.inPatch, ?_, h.limit,
    h.limitPos, hroom, ?_⟩
  · have := h.overrun
    simp only
    omega
  · have hp := h.phase
    rw [hl']
    cases hph : l.phase with
    | plain => trivial
    | marked => rw [hph] at hp; exact hp
    | capturing => rw [hph] at hp; exact hp
    | done => exact absurd hph hl

/-- An operation that behaves alike on related streams. -/
theorem triple_of_rel {α₁ α₂ : Type} {R : α₁ → α₂ → Prop} {x : Reading EpsCopyInputStream α₁}
    {y : Reading EpsCopyInputStream α₂} {lvl : α₂ → Level}
    (h : ∀ g e₁ e₂, Rel g l e₁ e₂ → shiftedSimulation.Out R g lvl (x e₁) (y e₂)) :
    shiftedSimulation.Triple R l x y lvl :=
  ⟨h, fun _ _ h => h.elim, fun _ _ h => h.elim⟩

theorem isDone_triple (hl : l.phase ≠ .done) (hm : l.phase ≠ .marked) :
    shiftedSimulation.Triple Eq l stream.isDone stream.isDone
      fun d => if d then .atLimit else .fresh l.phase := by
  refine triple_of_rel fun g e₁ e₂ h => ?_
  have hover := h.overrun
  have hroom := h.room
  have hlimit := h.limit
  have hlp₁ := h.wf₁.limitPtr_eq
  have hlp₂ := h.wf₂.limitPtr_eq
  have hphase : ∀ e₁' e₂' : EpsCopyInputStream, e₁'.captureStart = e₁.captureStart →
      e₂'.captureStart = e₂.captureStart → PhaseRel g e₁' e₂' l.phase := by
    intro e₁' e₂' h₁ h₂
    have hp := h.phase
    cases hph : l.phase with
    | plain => trivial
    | marked => exact absurd hph hm
    | capturing =>
      rw [hph] at hp
      simp only [PhaseRel, h₁, h₂]
      exact hp
    | done => exact absurd hph hl
  change shiftedSimulation.Out _ _ _ (isDone e₁) (isDone e₂)
  rw [h.wf₁.isDone_eq (by omega), h.wf₂.isDone_eq (by omega)]
  by_cases hlt : e₂.ptr < e₂.limitPtr
  · rw [if_pos (by omega), if_pos hlt]
    refine .inl ⟨false, e₁, rfl, rfl, { h with room := ?_, phase := hphase _ _ rfl rfl }⟩
    change e₂.ptr + (16 : ℕ) ≤ _
    omega
  rw [if_neg (by omega), if_neg hlt]
  by_cases heq : e₂.ptr - e₂.stop = e₂.limit
  · rw [if_pos (by omega), if_pos heq]
    refine .inl ⟨true, e₁, rfl, rfl, { h with room := ?_, phase := ?_ }⟩
    · change e₂.ptr + (0 : ℕ) ≤ _
      omega
    · change e₂.pos = g.limit
      rw [← h.limitPos, pos, limitPos]
      omega
  rw [if_neg (by omega), if_neg heq]
  by_cases hflip : e₂.ptr - e₂.stop < e₂.limit
  · rw [if_pos (by omega), if_pos hflip]
    obtain ⟨hp₁, hge₁⟩ := h.wf₁.unpatched_of_lt (by omega) (by omega)
    obtain ⟨hp₂, hge₂⟩ := h.wf₂.unpatched_of_lt hlt hflip
    obtain ⟨hwf₁, -, -, -⟩ := h.wf₁.flip hp₁ (by omega) hge₁
    obtain ⟨hwf₂, -, hlimit₂, hstop₂⟩ := h.wf₂.flip hp₂ hflip hge₂
    refine .inl ⟨false, _, rfl, rfl, hwf₁, hwf₂, h.buffer₁, h.buffer₂, rfl, ?_, ?_, hlimit₂.trans h.limitPos, ?_,
      hphase _ _ rfl rfl⟩
    · simp only [EpsCopyInputStream.flip]
      omega
    · simp only [EpsCopyInputStream.flip]
      omega
    · exact Int.add_le_add_right hstop₂ 16
  · rw [if_neg (by omega), if_neg hflip]
    exact .inl rfl

/-- A varint is read from the first bytes. -/
theorem readLong_congr {n max : ℕ} {b₁ b₂ : List UInt8} (hn : 0 < n) (h₁ : n ≤ b₁.length)
    (h₂ : n ≤ b₂.length) (h : b₁.take n = b₂.take n) :
    Wire.readLong DecodeError.outOfBounds .malformed b₁ n max =
      Wire.readLong DecodeError.outOfBounds .malformed b₂ n max := by
  have hsplit : ∀ b : List UInt8, n ≤ b.length →
      Wire.readLong DecodeError.outOfBounds .malformed b n max =
        readOutcome DecodeError.malformed max (splitVarint n (b.take n)) := by
    intro b hb
    rw [readLong_missing _ _ _ hn hb, readLong_eq _ _ hn]
    conv_lhs => rw [← List.take_append_drop n b]
    cases hs : splitVarint n (b.take n) with
    | some q =>
      rw [splitVarint_frame _ hs]
      rfl
    | none =>
      cases hs' : splitVarint n (b.take n ++ b.drop n) with
      | none => rfl
      | some q =>
        have hlt := splitVarint_none hs hs'
        have hle := (splitVarint_length hs').2
        rw [List.length_take, Nat.min_eq_left hb] at hlt
        omega
  rw [hsplit b₁ h₁, hsplit b₂ h₂, h]

theorem readLong_triple {n : ℕ} (max : ℕ) (hl : l.phase ≠ .done) (hn : 0 < n)
    (hbytes : n ≤ l.bytes) :
    shiftedSimulation.Triple Eq l (stream.readLong n max) (stream.readLong n max)
      fun _ => l.consume n := by
  refine triple_of_rel fun g e₁ e₂ h => ?_
  have hover := h.overrun
  have hroom := h.room
  have hlen₁ := h.wf₁.length_bytes
  have hlen₂ := h.wf₂.length_bytes
  change shiftedSimulation.Out _ _ _ (EpsCopyInputStream.readLong n max e₁)
    (EpsCopyInputStream.readLong n max e₂)
  rw [EpsCopyInputStream.readLong, EpsCopyInputStream.readLong,
    readLong_congr hn (by omega) (by omega) (h.take_bytes (n := n) (by omega))]
  cases hread : Wire.readLong DecodeError.outOfBounds .malformed e₂.bytes n max with
  | error e => exact .inl rfl
  | ok q =>
    have hk : q.1 ≤ n := by
      rw [readLong_missing _ _ _ hn (by omega), readLong_eq _ _ hn] at hread
      cases hs : splitVarint n e₂.bytes with
      | none => rw [hs] at hread; cases hread
      | some p =>
        rw [hs, readOutcome] at hread
        split at hread
        · cases hread
          exact (splitVarint_length hs).2
        · cases hread
    refine .inl ⟨_, _, rfl, rfl, h.advance hl rfl ?_⟩
    simp only [Level.consume]
    omega

theorem readFixed_triple {n : ℕ} (hl : l.phase ≠ .done) (hbytes : n ≤ l.bytes) :
    shiftedSimulation.Triple Eq l (stream.readFixed n) (stream.readFixed n)
      fun _ => l.consume n := by
  refine triple_of_rel fun g e₁ e₂ h => ?_
  have hover := h.overrun
  have hroom := h.room
  have hlen₁ := h.wf₁.length_bytes
  have hlen₂ := h.wf₂.length_bytes
  change shiftedSimulation.Out _ _ _ (EpsCopyInputStream.readFixed n e₁)
    (EpsCopyInputStream.readFixed n e₂)
  rw [EpsCopyInputStream.readFixed, EpsCopyInputStream.readFixed,
    LazyChecks.takeBytes_of_le (by omega), LazyChecks.takeBytes_of_le (by omega),
    h.take_bytes (n := n) (by omega)]
  refine .inl ⟨_, _, rfl, rfl, h.advance hl rfl ?_⟩
  simp only [Level.consume]
  omega

theorem skip_triple {n : ℕ} (hl : l.phase ≠ .done) (hbytes : n ≤ l.bytes) :
    shiftedSimulation.Triple Eq l (stream.skip n) (stream.skip n) fun _ => l.consume n := by
  refine triple_of_rel fun g e₁ e₂ h => ?_
  have hroom := h.room
  refine .inl ⟨_, _, rfl, rfl, h.advance hl rfl ?_⟩
  simp only [Level.consume]
  omega

theorem skipDelimited_triple {n : ℕ} (hl : l.phase ≠ .done) :
    shiftedSimulation.Triple Eq l (stream.skipDelimited n) (stream.skipDelimited n)
      fun _ => l.hit := by
  refine triple_of_rel fun g e₁ e₂ h => ?_
  have hover := h.overrun
  have hlimit := h.limit
  have hle := h.wf₂.limit_le
  have htail := LazyChecks.tailBytes_le e₂
  change shiftedSimulation.Out _ _ _ (EpsCopyInputStream.skipDelimited n e₁)
    (EpsCopyInputStream.skipDelimited n e₂)
  have hcheck : e₁.checkSize n = e₂.checkSize n := by rw [checkSize, checkSize, hover, hlimit]
  rw [EpsCopyInputStream.skipDelimited, EpsCopyInputStream.skipDelimited, hcheck]
  by_cases hn : e₂.checkSize n = true
  · rw [if_pos hn, if_pos hn]
    rw [checkSize, decide_eq_true_eq] at hn
    refine .inl ⟨_, _, rfl, rfl, h.advance hl rfl ?_⟩
    simp only [Level.hit]
    omega
  · rw [if_neg hn, if_neg hn]
    exact .inl rfl

theorem readStringEphemeral_triple {n : ℕ} (hl : l.phase ≠ .done) :
    shiftedSimulation.Triple Eq l (stream.readStringEphemeral n) (stream.readStringEphemeral n)
      fun _ => l.hit := by
  refine triple_of_rel fun g e₁ e₂ h => ?_
  have hover := h.overrun
  have hlen₁ := h.wf₁.length_bytes
  have hlen₂ := h.wf₂.length_bytes
  change shiftedSimulation.Out _ _ _ (EpsCopyInputStream.readStringEphemeral n e₁)
    (EpsCopyInputStream.readStringEphemeral n e₂)
  rw [EpsCopyInputStream.readStringEphemeral, EpsCopyInputStream.readStringEphemeral]
  by_cases hn : (n : ℤ) > e₂.stop + slopBytes - e₂.ptr
  · have hn₁ : (n : ℤ) > e₁.stop + slopBytes - e₁.ptr := by omega
    rw [if_pos hn₁, if_pos hn]
    exact .inl rfl
  · have hn₁ : ¬ (n : ℤ) > e₁.stop + slopBytes - e₁.ptr := by omega
    rw [if_neg hn₁, if_neg hn]
    rw [slopBytes] at hn
    rw [LazyChecks.takeBytes_of_le (by omega),
      LazyChecks.takeBytes_of_le (by omega), h.take_bytes (n := n) (by omega)]
    refine .inl ⟨_, _, rfl, rfl, h.advance hl rfl ?_⟩
    simp only [Level.hit]
    omega

theorem readStringAlwaysAlias_triple {n : ℕ} (hl : l.phase ≠ .done) :
    shiftedSimulation.Triple (fun v₁ v₂ => v₁.data = v₂.data ∧ v₁.data.length ≤ int32Max) l
      (stream.readStringAlwaysAlias n) (stream.readStringAlwaysAlias n) fun _ => l.hit := by
  refine triple_of_rel fun g e₁ e₂ h => ?_
  have hover := h.overrun
  have htail := h.tailBytes
  have htail₂ := LazyChecks.tailBytes_le e₂
  have htotal := h.wf₂.total
  have hpos := h.wf₂.pos_nonneg
  have hsize := h.wf₂.size_le
  have hcheck : ∀ e : EpsCopyInputStream, stream.readStringAlwaysAlias n e =
      if (n : ℤ) > e.stop + e.tailBytes - e.ptr then .error .malformed
      else (takeBytes n (bytesFrom e.buffer e.pos)).map fun data => (⟨e.bufferStart + e.pos, data⟩,
        { e with ptr := e.ptr + n, log := e.log ++ [⟨e.bufferStart + e.pos, n⟩] }) := fun _ => rfl
  rw [hcheck, hcheck, h.bytesFrom_buffer hpos h.pos]
  by_cases hn : (n : ℤ) > e₂.stop + e₂.tailBytes - e₂.ptr
  · rw [if_pos (by omega), if_pos hn]
    exact .inl rfl
  · have hlen : n ≤ (e₂.buffer.drop e₂.pos.toNat).length := by
      rw [List.length_drop]
      rw [pos] at *
      omega
    have hbytes : bytesFrom e₂.buffer e₂.pos = e₂.buffer.drop e₂.pos.toNat := if_pos hpos
    rw [if_neg (by omega), if_neg hn, hbytes, LazyChecks.takeBytes_of_le hlen]
    have hadv : Rel g l.hit { e₁ with ptr := e₁.ptr + n } { e₂ with ptr := e₂.ptr + n } := by
      refine h.advance hl rfl ?_
      simp only [Level.hit]
      omega
    refine .inl ⟨_, _, rfl, ⟨rfl, ?_⟩, { hadv.wf₁ with }, { hadv.wf₂ with }, hadv.buffer₁, hadv.buffer₂, hadv.inPatch,
      hadv.overrun, hadv.limit, hadv.limitPos, hadv.room, ?_⟩
    · simp only [List.length_take, List.length_drop]
      omega
    · have hp := hadv.phase
      revert hp
      change PhaseRel _ _ _ l.phase → PhaseRel _ _ _ l.phase
      cases l.phase <;> exact id

theorem mark_triple :
    shiftedSimulation.Triple Eq l stream.mark stream.mark fun _ => { l with phase := .marked } := by
  refine triple_of_rel fun g e₁ e₂ h => ?_
  exact .inl ⟨(), _, rfl, rfl, { h.wf₁ with }, { h.wf₂ with }, h.buffer₁, h.buffer₂, h.inPatch, h.overrun, h.limit,
    h.limitPos, h.room, h.wf₂.pos_nonneg, h.pos⟩

theorem startCapture_triple (hl : l.phase = .marked) :
    shiftedSimulation.Triple Eq l stream.startCapture stream.startCapture
      fun _ => { l with phase := .capturing } := by
  refine triple_of_rel fun g e₁ e₂ h => ?_
  have hp := h.phase
  rw [hl] at hp
  exact .inl ⟨(), _, rfl, rfl, { h.wf₁ with }, { h.wf₂ with }, h.buffer₁, h.buffer₂, h.inPatch, h.overrun, h.limit,
    h.limitPos, h.room, hp⟩

theorem endCapture_triple (hl : l.phase = .capturing) :
    shiftedSimulation.Triple Eq l stream.endCapture stream.endCapture fun _ => .base := by
  refine triple_of_rel fun g e₁ e₂ h => ?_
  have hp := h.phase
  rw [hl] at hp
  obtain ⟨hnonneg, hstart⟩ := hp
  have hpos := h.pos
  have hover := h.overrun
  have hlimit := h.limit
  have hroom := h.room
  have hend : ∀ e : EpsCopyInputStream, stream.endCapture e =
      if e.ptr - e.stop > e.limit then .error .malformed
      else (takeBytes (e.pos - e.captureStart) (bytesFrom e.buffer e.captureStart)).map fun data =>
        (data, { e with log := e.log ++ [⟨e.bufferStart + e.captureStart, e.pos - e.captureStart⟩] }) :=
    fun _ => rfl
  have hsize : e₁.pos - e₁.captureStart = e₂.pos - e₂.captureStart := by omega
  rw [hend, hend, h.bytesFrom_buffer hnonneg hstart, hsize]
  by_cases hcheck : e₂.ptr - e₂.stop > e₂.limit
  · rw [if_pos (by omega), if_pos hcheck]
    exact .inl rfl
  · rw [if_neg (by omega), if_neg hcheck]
    cases takeBytes (e₂.pos - e₂.captureStart) (bytesFrom e₂.buffer e₂.captureStart) with
    | error e => exact .inl rfl
    | ok data =>
      refine .inl ⟨_, _, rfl, rfl, { h.wf₁ with }, { h.wf₂ with }, h.buffer₁, h.buffer₂, h.inPatch, h.overrun,
        h.limit, h.limitPos, ?_, trivial⟩
      simp only [Level.base]
      omega

/-- A limit of both streams. -/
theorem Rel.setLimit (h : Rel g l e₁ e₂) (limit : ℤ) {limit₁ : ℤ} (heq : limit₁ = limit)
    (hlimit : limit ≤ e₂.tailBytes) :
    Rel ⟨g.pre, g.buffer, e₂.stop + limit + e₂.inputDelta⟩ .base
      { e₁ with limit := limit₁, limitPtr := e₁.stop + min 0 limit₁ }
      { e₂ with limit := limit, limitPtr := e₂.stop + min 0 limit } := by
  have hroom := h.room
  subst heq
  refine ⟨h.wf₁.setLimit (by rw [h.tailBytes]; exact hlimit), h.wf₂.setLimit hlimit, h.buffer₁,
    h.buffer₂, h.inPatch, h.overrun, rfl, rfl, ?_, trivial⟩
  simp only [Level.base]
  omega

/-- Programs under a limit. -/
theorem withLimit_triple {α₁ α₂ : Type} {R : α₁ → α₂ → Prop} {n : ℕ}
    {x : Reading EpsCopyInputStream α₁} {y : Reading EpsCopyInputStream α₂}
    (hxy : shiftedSimulation.Triple R .base x y fun _ => .atLimit) :
    shiftedSimulation.Triple R l (stream.withLimit n x) (stream.withLimit n y) fun _ => .base := by
  refine triple_of_rel fun g e₁ e₂ h => ?_
  have hover := h.overrun
  have hle := h.wf₂.limit_le
  rw [Stream.withLimit, Stream.withLimit]
  have hpush : ∀ e : EpsCopyInputStream, stream.pushLimit n e =
      if e.limit - ((n : ℤ) + (e.ptr - e.stop)) < 0 then .error .malformed
      else .ok (e.limit - ((n : ℤ) + (e.ptr - e.stop)), { e with
        limit := (n : ℤ) + (e.ptr - e.stop)
        limitPtr := e.stop + min 0 ((n : ℤ) + (e.ptr - e.stop)) }) :=
    fun _ => rfl
  by_cases hn : e₂.limit - (n + (e₂.ptr - e₂.stop)) < 0
  · have hlimit := h.limit
    have h₁ : stream.pushLimit n e₁ = .error .malformed := by rw [hpush, if_pos (by omega)]
    have h₂ : stream.pushLimit n e₂ = .error .malformed := by rw [hpush, if_pos hn]
    rw [Prog.bind_of_error h₁, Prog.bind_of_error h₂]
    exact .inl rfl
  · have h₁ := hpush e₁
    have h₂ := hpush e₂
    rw [if_neg hn] at h₂
    rw [hover, h.limit, if_neg hn] at h₁
    rw [Prog.bind_of_ok h₁, Prog.bind_of_ok h₂]
    have hout := hxy.rel _ _ _ (h.setLimit (n + (e₂.ptr - e₂.stop)) rfl (by omega))
    rw [Prog.bind_apply x, Prog.bind_apply y]
    cases hy : y _ with
    | error e =>
      rw [hy] at hout
      rcases hout with hx | ⟨hlax, -⟩ | hfree
      · rw [hx]
        exact .inl rfl
      · exact hlax.elim
      · exact .inr (.inr hfree)
    | ok q =>
      rw [hy] at hout
      rcases hout with ⟨a₁, e₁', hx, hR, hrel⟩ | ⟨-, hpast⟩
      · rw [hx]
        -- the old limit, relative to the new `end`
        have hlp := hrel.limitPos
        have hlp' := h.limitPos
        have htotal := h.wf₂.total
        have htotal' := hrel.wf₂.total
        rw [hrel.buffer₂] at htotal'
        rw [h.buffer₂] at htotal
        simp only [limitPos] at hlp hlp'
        have hpop := hrel.setLimit (q.2.limit + (e₂.limit - (n + (e₂.ptr - e₂.stop))))
          (congrArg (· + (e₂.limit - (n + (e₂.ptr - e₂.stop)))) hrel.limit)
          (by simp only at htotal'; omega)
        have hghost : (⟨g.pre, g.buffer, q.2.stop + (q.2.limit + (e₂.limit - (n +
            (e₂.ptr - e₂.stop)))) + q.2.inputDelta⟩ : Ghost) = g := by
          obtain ⟨pre, buffer, limit⟩ := g
          simp only [Ghost.mk.injEq, true_and]
          simp only at hlp hlp'
          omega
        rw [hghost] at hpop
        exact .inl ⟨a₁, _, rfl, hR, hpop⟩
      · exact hpast.elim

/-- Two fresh streams over the same bytes. -/
theorem rel_init {v₁ v₂ : View} (hv : v₁.data = v₂.data) (hlen : v₁.data.length ≤ int32Max) :
    Rel ⟨[], v₂.data, v₂.data.length⟩ .base (stream.enter v₁) (stream.enter v₂) := by
  obtain ⟨hwf₁, -, -, -⟩ := wf_init v₁.start hlen
  obtain ⟨hwf₂, -, hlimit, hroom⟩ := wf_init v₂.start (hv ▸ hlen)
  have hinit : (init v₁.start v₁.data).buffer = v₂.data ∧ (init v₂.start v₂.data).buffer = v₂.data ∧
      (init v₁.start v₁.data).inPatch = (init v₂.start v₂.data).inPatch ∧
      (init v₁.start v₁.data).ptr = (init v₂.start v₂.data).ptr ∧
      (init v₁.start v₁.data).stop = (init v₂.start v₂.data).stop ∧
      (init v₁.start v₁.data).limit = (init v₂.start v₂.data).limit := by
    rw [hv, init, init]
    split
    · exact ⟨rfl, rfl, rfl, rfl, rfl, rfl⟩
    · exact ⟨rfl, rfl, rfl, rfl, rfl, rfl⟩
  obtain ⟨hbuffer₁, hbuffer₂, hpatch, hptr, hstop, hlim⟩ := hinit
  refine ⟨hwf₁, hwf₂, hbuffer₁, hbuffer₂, hpatch, ?_, hlim, hlimit, ?_, trivial⟩
  · change (init v₁.start v₁.data).ptr - (init v₁.start v₁.data).stop = _
    rw [hptr, hstop]
    rfl
  · change (init v₂.start v₂.data).ptr + ((0 : ℕ) : ℤ) ≤ (init v₂.start v₂.data).stop + 16
    omega

/-- Programs on fresh streams over the same bytes. -/
theorem nested_triple {α₁ α₂ : Type} {R : α₁ → α₂ → Prop} {v₁ v₂ : View}
    {x : Reading EpsCopyInputStream α₁} {y : Reading EpsCopyInputStream α₂}
    (hv : v₁.data = v₂.data ∧ v₁.data.length ≤ int32Max)
    (hxy : shiftedSimulation.Triple R .base x y fun _ => .atLimit) :
    shiftedSimulation.Triple R l (stream.nested v₁ x) (stream.nested v₂ y) fun _ => l := by
  refine triple_of_rel fun g e₁ e₂ h => ?_
  have hout := hxy.rel _ _ _ (rel_init hv.1 hv.2)
  rw [Stream.nested, Stream.nested]
  cases hy : y (stream.enter v₂) with
  | error e =>
    rw [hy] at hout
    rcases hout with hx | ⟨hlax, -⟩ | hfree
    · rw [hx]
      exact .inl rfl
    · exact hlax.elim
    · exact .inr (.inr hfree)
  | ok q =>
    rw [hy] at hout
    rcases hout with ⟨a₁, e₁', hx, hR, -⟩ | ⟨-, hpast⟩
    · rw [hx]
      refine .inl ⟨a₁, _, rfl, hR, { h.wf₁ with }, { h.wf₂ with }, h.buffer₁, h.buffer₂, h.inPatch,
        h.overrun, h.limit, h.limitPos, h.room, ?_⟩
      have hp := h.phase
      revert hp
      cases l.phase <;> exact id
    · exact hpast.elim

end ShiftedInput

open ShiftedInput in
/-- The patch buffer stream on an input simulates the one on a rest of it. -/
def shiftedSim : StreamSim EpsCopyInputStream.stream EpsCopyInputStream.stream where
  toSimulation := shiftedSimulation
  viewRel v₁ v₂ := v₁.data = v₂.data ∧ v₁.data.length ≤ int32Max
  view_data h := h.1
  allowed_status _ _ := trivial
  ahead_checked _ h := h
  isDone := isDone_triple
  readLong := readLong_triple
  readFixed := readFixed_triple
  skip := skip_triple
  skipDelimited := skipDelimited_triple
  readStringAlwaysAlias := readStringAlwaysAlias_triple
  readStringEphemeral := readStringEphemeral_triple
  withLimit := fun _ => withLimit_triple
  mark := fun _ => mark_triple
  startCapture := startCapture_triple
  endCapture := endCapture_triple
  nested := fun _ hv _ => nested_triple hv

end Upb.Wire
