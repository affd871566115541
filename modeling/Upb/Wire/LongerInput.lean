import Upb.Wire.BoundedReader
import Upb.Wire.Reads

/-!
# Reading a longer input

A program that reads a part of an input does the same when more bytes follow, until it comes to the
end of that part. The positions in the input and the log do not matter to it.
-/

namespace Upb.Wire

open Upb.Common BoundedReader

namespace LongerInput

/-- `r'` is the reader `r` behind `k` bytes, but for its log. -/
structure Moved (r : BoundedReader) (k : ℕ) (r' : BoundedReader) : Prop where
  rest : r'.rest = r.rest.drop k
  pos : r'.pos = r.pos + k
  start : r'.start = r.start
  captureStart : r'.captureStart = r.captureStart

theorem moved_advance (r : BoundedReader) (k : ℕ) : Moved r k (r.advance k) := ⟨rfl, rfl, rfl, rfl⟩

/-- Both readers have moved on by the same number of bytes from the remembered places. -/
def Tracked (more : List UInt8) (r₁ r₂ : BoundedReader) (c₁ c₂ : ℕ × List UInt8) : Prop :=
  ∃ k, r₁.pos = c₁.1 + k ∧ r₂.pos = c₂.1 + k ∧ k ≤ c₂.2.length ∧ r₂.rest = c₂.2.drop k ∧
    c₁.2 = c₂.2 ++ more

/-- What the phases add to the relation. -/
def PhaseRel (more : List UInt8) (r₁ r₂ : BoundedReader) : Phase → Prop
  | .plain => True
  | .marked => Tracked more r₁ r₂ r₁.start r₂.start
  | .capturing => Tracked more r₁ r₂ r₁.captureStart r₂.captureStart
  | .done => r₁.rest = []

/-- The left reader sees more bytes behind those of the right one; none, unless `P` holds. -/
structure Rel (P : Prop) (more : List UInt8) (l : Level) (r₁ r₂ : BoundedReader) : Prop where
  rest : r₁.rest = r₂.rest ++ more
  free : more ≠ [] → P
  phase : PhaseRel more r₁ r₂ l.phase

variable {P : Prop}

/-- The simulation. If `P` does not hold, both inputs are the same. Running out of rounds says nothing
about a reader with more of them. -/
def longerSimulation (P : Prop) : Simulation DecodeError BoundedReader BoundedReader Level where
  Ghost := List UInt8
  rel := Rel P
  ahead _ _ _ := False
  past more l _ := P ∧ more ≠ [] ∧ l.phase = .done
  lax _ := False
  allowed _ := True
  free e := P ∨ e = .outOfFuel
  rel_anti := by
    intro more l l' r₁ r₂ hl h
    refine { h with phase := ?_ }
    rcases hl.2.1 with heq | ⟨heq, -⟩
    · exact heq ▸ h.phase
    · rw [heq]
      trivial
  ahead_anti _ h := h
  past_anti := by
    intro more l l' r₂ hl h
    refine ⟨h.1, h.2.1, ?_⟩
    rcases hl.2.1 with heq | ⟨-, hne⟩
    · rw [heq, h.2.2]
    · exact absurd h.2.2 hne
  past_free h _ := .inl h.1

variable {more : List UInt8} {l l' : Level} {r₁ r₂ r₁' r₂' : BoundedReader}

theorem Tracked.moved {k : ℕ} {c₁ c₂ : ℕ × List UInt8} (h : Tracked more r₁ r₂ c₁ c₂)
    (hk : k ≤ r₂.rest.length) (h₁ : Moved r₁ k r₁') (h₂ : Moved r₂ k r₂') :
    Tracked more r₁' r₂' c₁ c₂ := by
  obtain ⟨n, hpos₁, hpos₂, hn, hrest, hmore⟩ := h
  rw [hrest, List.length_drop] at hk
  refine ⟨n + k, ?_, ?_, by omega, ?_, hmore⟩
  · rw [h₁.pos, hpos₁, Nat.add_assoc]
  · rw [h₂.pos, hpos₂, Nat.add_assoc]
  · rw [h₂.rest, hrest, List.drop_drop]

/-- Both readers move on. -/
theorem Rel.moved {k : ℕ} (h : Rel P more l r₁ r₂) (hk : k ≤ r₂.rest.length) (h₁ : Moved r₁ k r₁')
    (h₂ : Moved r₂ k r₂') (hl : l.phase ≠ .done) (hl' : l'.phase = l.phase) :
    Rel P more l' r₁' r₂' := by
  refine ⟨?_, h.free, ?_⟩
  · rw [h₁.rest, h₂.rest, h.rest, List.drop_append_of_le_length hk]
  · rw [hl']
    have hp := h.phase
    cases hph : l.phase with
    | plain => trivial
    | marked =>
      rw [hph] at hp
      simp only [PhaseRel, h₁.start, h₂.start]
      exact hp.moved hk h₁ h₂
    | capturing =>
      rw [hph] at hp
      simp only [PhaseRel, h₁.captureStart, h₂.captureStart]
      exact hp.moved hk h₁ h₂
    | done => exact absurd hph hl

/-- An operation that reads from the front of the rest. -/
theorem triple_of_frame {α : Type} {R : α → α → Prop} {x : Reading BoundedReader α}
    (h : ∀ r₁ r₂ more, r₁.rest = r₂.rest ++ more → match x r₂ with
      | .ok (a₂, r₂') => ∃ k a₁ r₁', k ≤ r₂.rest.length ∧ x r₁ = .ok (a₁, r₁') ∧ R a₁ a₂ ∧
          Moved r₁ k r₁' ∧ Moved r₂ k r₂'
      | .error e => more = [] → x r₁ = .error e)
    (hl : l.phase ≠ .done) (hl' : l'.phase = l.phase) :
    (longerSimulation P).Triple R l x x fun _ => l' where
  rel more r₁ r₂ hrel := by
    have hx := h r₁ r₂ more hrel.rest
    cases hr : x r₂ with
    | error e =>
      rw [hr] at hx
      by_cases hmore : more = []
      · exact .inl (hx hmore)
      · exact .inr (.inr (.inl (hrel.free hmore)))
    | ok q =>
      rw [hr] at hx
      obtain ⟨k, a₁, r₁', hk, hx₁, hR, h₁, h₂⟩ := hx
      exact .inl ⟨a₁, r₁', hx₁, hR, hrel.moved hk h₁ h₂ hl hl'⟩
  ahead _ _ h := h.elim
  past _ _ h := absurd h.2.2 hl

theorem isDone_triple (hl : l.phase ≠ .done) (_ : l.phase ≠ .marked) :
    (longerSimulation P).Triple Eq l stream.isDone stream.isDone
      fun d => if d then .atLimit else .fresh l.phase where
  rel more r₁ r₂ h := by
    have h₁ : stream.isDone r₁ = .ok (r₁.rest.isEmpty, r₁) := rfl
    have h₂ : stream.isDone r₂ = .ok (r₂.rest.isEmpty, r₂) := rfl
    rw [h₁, h₂]
    cases hr : r₂.rest with
    | cons b bs =>
      have hne : r₁.rest.isEmpty = false := by rw [h.rest, hr]; rfl
      exact .inl ⟨_, r₁, rfl, hne, h.rest, h.free, h.phase⟩
    | nil =>
      by_cases hmore : more = []
      · have hnil : r₁.rest = [] := by rw [h.rest, hr, hmore]; rfl
        exact .inl ⟨_, r₁, rfl, by rw [hnil], h.rest, h.free, hnil⟩
      · exact .inr ⟨⟨true, rfl⟩, h.free hmore, hmore, rfl⟩
  ahead _ _ h := h.elim
  past _ _ h := absurd h.2.2 hl

theorem readLong_triple {n : ℕ} (max : ℕ) (hl : l.phase ≠ .done) (hn : 0 < n)
    (_ : n ≤ l.bytes) :
    (longerSimulation P).Triple Eq l (stream.readLong n max) (stream.readLong n max)
      fun _ => l.consume n := by
  refine triple_of_frame (fun r₁ r₂ more hrest => ?_) hl rfl
  cases hr : stream.readLong n max r₂ with
  | ok q =>
    obtain ⟨val, r₂'⟩ := q
    obtain ⟨p, hp, hmax, rfl, hreads⟩ := (readLong_eq_ok hn).mp hr
    have hlen : p.length ≤ r₂.rest.length := by rw [hreads.1, List.length_append]; omega
    have hread₁ : Reads r₁ p (r₁.advance p.length) := by
      refine reads_advance (w := r₂'.rest ++ more) ?_
      rw [hrest, hreads.1, List.append_assoc]
    refine ⟨p.length, _, _, hlen, (readLong_eq_ok hn).mpr ⟨p, hp, hmax, rfl, hread₁⟩, rfl,
      moved_advance _ _, ?_⟩
    rw [hreads.2]
    exact moved_advance _ _
  | error e =>
    rintro rfl
    rw [List.append_nil] at hrest
    rw [stream_readLong hn] at hr ⊢
    rw [hrest]
    cases hw : readOutcome DecodeError.malformed max (splitVarint n r₂.rest) with
    | ok v =>
      rw [hw] at hr
      cases hr
    | error e' =>
      rw [hw] at hr
      cases hr
      rfl

/-- What taking bytes does on both. -/
theorem take_frame {n : ℕ} {α : Type} (f : List UInt8 → α) (r₁ r₂ : BoundedReader)
    (more : List UInt8) (hrest : r₁.rest = r₂.rest ++ more) :
    match (take n >>= fun b => pure (f b)) r₂ with
      | .ok (a₂, r₂') => ∃ k a₁ r₁', k ≤ r₂.rest.length ∧
          (take n >>= fun b => pure (f b)) r₁ = .ok (a₁, r₁') ∧ a₁ = a₂ ∧ Moved r₁ k r₁' ∧
            Moved r₂ k r₂'
      | .error e => more = [] → (take n >>= fun b => pure (f b)) r₁ = .error e := by
  by_cases hn : n ≤ r₂.rest.length
  · have hn₁ : n ≤ r₁.rest.length := by rw [hrest, List.length_append]; omega
    have htake₁ : take n r₁ = .ok (r₁.rest.take n, r₁.advance n) := if_pos hn₁
    have htake₂ : take n r₂ = .ok (r₂.rest.take n, r₂.advance n) := if_pos hn
    rw [Prog.bind_of_ok htake₁, Prog.bind_of_ok htake₂]
    refine ⟨n, _, _, hn, rfl, ?_, moved_advance _ _, moved_advance _ _⟩
    rw [hrest, List.take_append_of_le_length hn]
  · have htake₂ : take n r₂ = .error .malformed := if_neg hn
    rw [Prog.bind_of_error htake₂]
    rintro rfl
    rw [List.append_nil] at hrest
    have htake₁ : take n r₁ = .error .malformed := if_neg (by rwa [hrest])
    rw [Prog.bind_of_error htake₁]

theorem readFixed_triple {n : ℕ} (hl : l.phase ≠ .done) (_ : n ≤ l.bytes) :
    (longerSimulation P).Triple Eq l (stream.readFixed n) (stream.readFixed n)
      fun _ => l.consume n :=
  triple_of_frame (take_frame littleEndian) hl rfl

theorem skip_triple {n : ℕ} (hl : l.phase ≠ .done) (hl' : l'.phase = l.phase) :
    (longerSimulation P).Triple Eq l (stream.skip n) (stream.skip n) fun _ => l' :=
  triple_of_frame (take_frame fun _ => ()) hl hl'

theorem readStringEphemeral_triple {n : ℕ} (hl : l.phase ≠ .done) :
    (longerSimulation P).Triple Eq l (stream.readStringEphemeral n) (stream.readStringEphemeral n)
      fun _ => l.hit := by
  have htake : stream.readStringEphemeral n = take n >>= fun b => pure (id b) := by
    funext r
    change take n r = _
    rw [Prog.bind_apply]
    cases take n r <;> rfl
  rw [htake]
  exact triple_of_frame (take_frame id) hl rfl

theorem readStringAlwaysAlias_triple {n : ℕ} (hl : l.phase ≠ .done) :
    (longerSimulation P).Triple (fun v₁ v₂ => v₁.data = v₂.data) l (stream.readStringAlwaysAlias n)
      (stream.readStringAlwaysAlias n) fun _ => l.hit := by
  refine triple_of_frame (fun r₁ r₂ more hrest => ?_) hl rfl
  by_cases hn : n ≤ r₂.rest.length
  · have hn₁ : n ≤ r₁.rest.length := by rw [hrest, List.length_append]; omega
    have hread : ∀ r : BoundedReader, n ≤ r.rest.length → stream.readStringAlwaysAlias n r =
        .ok (⟨r.pos, r.rest.take n⟩, { r.advance n with log := r.log ++ [⟨r.pos, n⟩] }) :=
      fun r h => if_pos h
    rw [hread r₂ hn]
    refine ⟨n, _, _, hn, hread r₁ hn₁, ?_, ⟨rfl, rfl, rfl, rfl⟩, ⟨rfl, rfl, rfl, rfl⟩⟩
    simp only
    rw [hrest, List.take_append_of_le_length hn]
  · have hread : ∀ r : BoundedReader, ¬ n ≤ r.rest.length →
        stream.readStringAlwaysAlias n r = .error .malformed := fun r h => if_neg h
    rw [hread r₂ hn]
    rintro rfl
    rw [List.append_nil] at hrest
    exact hread r₁ (by rwa [hrest])

theorem mark_triple (hl : l.phase ≠ .done) :
    (longerSimulation P).Triple Eq l stream.mark stream.mark fun _ => { l with phase := .marked } where
  rel _ _ _ h := .inl ⟨(), _, rfl, rfl, h.rest, h.free, 0, rfl, rfl, Nat.zero_le _, rfl, h.rest⟩
  ahead _ _ h := h.elim
  past _ _ h := absurd h.2.2 hl

theorem startCapture_triple (hl : l.phase = .marked) :
    (longerSimulation P).Triple Eq l stream.startCapture stream.startCapture
      fun _ => { l with phase := .capturing } where
  rel _ r₁ r₂ h := by
    have hp := h.phase
    rw [hl] at hp
    exact .inl ⟨(), _, rfl, rfl, h.rest, h.free, hp⟩
  ahead _ _ h := h.elim
  past _ _ h := absurd (hl.symm.trans h.2.2) (by decide)

theorem endCapture_triple (hl : l.phase = .capturing) :
    (longerSimulation P).Triple Eq l stream.endCapture stream.endCapture fun _ => .base where
  rel (more : List UInt8) r₁ r₂ h := by
    have hp := h.phase
    rw [hl] at hp
    obtain ⟨k, hpos₁, hpos₂, hk, -, hmore⟩ := hp
    have hend : ∀ r : BoundedReader, r.pos = r.captureStart.1 + k → stream.endCapture r =
        .ok (r.captureStart.2.take k, { r with log := r.log ++ [⟨r.captureStart.1, k⟩] }) := by
      intro r hr
      change BoundedReader.endCapture r = _
      rw [BoundedReader.endCapture, hr, Nat.add_sub_cancel_left]
    rw [hend r₁ hpos₁, hend r₂ hpos₂, hmore, List.take_append_of_le_length hk]
    exact .inl ⟨_, _, rfl, rfl, h.rest, h.free, trivial⟩
  ahead _ _ h := h.elim
  past _ _ h := absurd (hl.symm.trans h.2.2) (by decide)

/-- Programs under a limit see the same bytes. -/
theorem withLimit_triple {α₁ α₂ : Type} {R : α₁ → α₂ → Prop} {n : ℕ}
    {x : Reading BoundedReader α₁} {y : Reading BoundedReader α₂} (hl : l.phase ≠ .done)
    (hxy : (longerSimulation P).Triple R .base x y fun _ => .atLimit) :
    (longerSimulation P).Triple R l (stream.withLimit n x) (stream.withLimit n y)
      fun _ => .base := by
  have hpush : ∀ r : BoundedReader, n ≤ r.rest.length →
      stream.pushLimit n r = .ok (r.rest.drop n, { r with rest := r.rest.take n }) :=
    fun r h => if_pos h
  have hpush' : ∀ r : BoundedReader, ¬ n ≤ r.rest.length →
      stream.pushLimit n r = .error .malformed := fun r h => if_neg h
  -- the inner run, for two readers with the same bytes up to the limit
  have hinner : ∀ r₁ r₂ : BoundedReader, r₁.rest = r₂.rest →
      (longerSimulation P).Out R ([] : List UInt8) (fun _ => .atLimit) (x r₁) (y r₂) :=
    fun r₁ r₂ h => hxy.rel [] r₁ r₂ ⟨by rw [h, List.append_nil], fun h => absurd rfl h, trivial⟩
  refine ⟨fun (more : List UInt8) r₁ r₂ h => ?_, fun _ _ h => h.elim, fun _ _ h => absurd h.2.2 hl⟩
  rw [Stream.withLimit, Stream.withLimit]
  by_cases hn : n ≤ r₂.rest.length
  · have hn₁ : n ≤ r₁.rest.length := by rw [h.rest, List.length_append]; omega
    rw [Prog.bind_of_ok (hpush r₁ hn₁), Prog.bind_of_ok (hpush r₂ hn)]
    have hout := hinner { r₁ with rest := r₁.rest.take n } { r₂ with rest := r₂.rest.take n }
      (by simp only [h.rest, List.take_append_of_le_length hn])
    rw [Prog.bind_apply x, Prog.bind_apply y]
    cases hy : y { r₂ with rest := r₂.rest.take n } with
    | error e =>
      rw [hy] at hout
      rcases hout with hx | ⟨hlax, -⟩ | hfree
      · rw [hx]
        exact .inl rfl
      · exact hlax.elim
      · exact .inr (.inr hfree)
    | ok q =>
      rw [hy] at hout
      rcases hout with ⟨a₁, r₁', hx, hR, hrel⟩ | ⟨-, hpast⟩
      · rw [hx]
        have hnil₁ : r₁'.rest = [] := hrel.phase
        have hnil₂ : q.2.rest = [] := by
          have := hrel.rest
          rw [hnil₁] at this
          exact (List.append_eq_nil_iff.mp this.symm).1
        refine .inl ⟨a₁, _, rfl, hR, ?_, h.free, trivial⟩
        change r₁'.rest ++ r₁.rest.drop n = q.2.rest ++ r₂.rest.drop n ++ more
        rw [hnil₁, hnil₂, h.rest, List.drop_append_of_le_length hn]
        rfl
      · exact absurd rfl hpast.2.1
  · rw [Prog.bind_of_error (hpush' r₂ hn)]
    by_cases hmore : more = []
    · have hrest := h.rest
      rw [hmore, List.append_nil] at hrest
      rw [Prog.bind_of_error (hpush' r₁ (by rwa [hrest]))]
      exact .inl rfl
    · exact .inr (.inr (.inl (h.free hmore)))

/-- Programs on a fresh reader over the same bytes. -/
theorem nested_triple {α₁ α₂ : Type} {R : α₁ → α₂ → Prop} {v₁ v₂ : View}
    {x : Reading BoundedReader α₁} {y : Reading BoundedReader α₂} (hl : l.phase ≠ .done)
    (hv : v₁.data = v₂.data)
    (hxy : (longerSimulation P).Triple R .base x y fun _ => .atLimit) :
    (longerSimulation P).Triple R l (stream.nested v₁ x) (stream.nested v₂ y) fun _ => l := by
  have hout := hxy.rel ([] : List UInt8) (stream.enter v₁) (stream.enter v₂)
    ⟨by rw [List.append_nil]; exact hv, fun h => absurd rfl h, trivial⟩
  refine ⟨fun (more : List UInt8) r₁ r₂ h => ?_, fun _ _ h => h.elim, fun _ _ h => absurd h.2.2 hl⟩
  rw [Stream.nested, Stream.nested]
  cases hy : y (stream.enter v₂) with
  | error e =>
    rw [hy] at hout
    rcases hout with hx | ⟨hlax, -⟩ | hfree
    · rw [hx]
      exact .inl rfl
    · exact hlax.elim
    · exact .inr (.inr hfree)
  | ok q =>
    rw [hy] at hout
    rcases hout with ⟨a₁, r₁', hx, hR, -⟩ | ⟨-, hpast⟩
    · rw [hx]
      refine .inl ⟨a₁, _, rfl, hR, h.rest, h.free, ?_⟩
      have hp := h.phase
      revert hp
      cases l.phase <;> exact id
    · exact absurd rfl hpast.2.1

end LongerInput

open LongerInput in
/-- The checked reader on a longer input simulates the one on a part of it; if `P` does not hold, both
see the same bytes. -/
def longerSim (P : Prop) : StreamSim BoundedReader.stream BoundedReader.stream where
  toSimulation := longerSimulation P
  viewRel v₁ v₂ := v₁.data = v₂.data
  view_data h := h
  allowed_status _ _ := trivial
  ahead_checked _ h := h
  isDone := isDone_triple
  readLong := readLong_triple
  readFixed := readFixed_triple
  skip := fun hl _ => skip_triple hl rfl
  skipDelimited := fun hl => skip_triple hl rfl
  readStringAlwaysAlias := readStringAlwaysAlias_triple
  readStringEphemeral := readStringEphemeral_triple
  withLimit := withLimit_triple
  mark := mark_triple
  startCapture := startCapture_triple
  endCapture := endCapture_triple
  nested := fun hl hv _ => nested_triple hl hv

end Upb.Wire
