import Mathlib.Data.Int.Notation
import Upb.Common.Simulation
import Upb.Wire.Varint

/-!
# Input streams

The operations that the wire format reader and the decoder use of a stream of bytes, over any type
of stream states. `upb_EpsCopyInputStream` is one stream; a reader that checks every byte against
the innermost limit is another. A simulation of streams is a simulation between their operations:
every program over the operations then simulates itself.
-/

namespace Upb.Wire

open Upb.Common (Prog)

/-- The codes of `upb_DecodeStatus` other than `Ok`, and three outcomes of the model: a null pointer
where the code asserts that there is none, a read outside of the buffers, and a loop that used up the
rounds it was given. -/
inductive DecodeError where
  | outOfMemory | malformed | badUtf8 | maxDepthExceeded | missingRequired
  | nullPointer | outOfBounds | outOfFuel
  deriving DecidableEq

/-- Programs over the stream states `σ`. -/
abbrev Reading (σ α : Type) := Prog DecodeError σ α

/-- A range of input bytes, given by offsets into the outermost input buffer. -/
structure Range where
  start : ℤ
  size : ℤ
  deriving DecidableEq

/-- The range lies inside a buffer of `n` bytes. -/
def Range.Inside (n : ℕ) (r : Range) : Prop := 0 ≤ r.start ∧ 0 ≤ r.size ∧ r.start + r.size ≤ n

/-- A string that aliases the input: where it starts and its bytes. -/
structure View where
  start : ℤ
  data : List UInt8
  deriving DecidableEq

/-- The number that bytes stand for, the least significant byte first. -/
def littleEndian : List UInt8 → ℕ
  | [] => 0
  | b :: bs => b.toNat + 256 * littleEndian bs

/-- The operations of a stream. -/
structure Stream (σ : Type) where
  /-- What `push` saves for `pop`. -/
  Saved : Type
  /-- `upb_EpsCopyInputStream_IsDone`. -/
  isDone : Reading σ Bool
  /-- A varint of at most so many bytes and so large a value. -/
  readLong : ℕ → ℕ → Reading σ ℕ
  /-- `upb_WireReader_ReadFixed32` and `upb_WireReader_ReadFixed64`. -/
  readFixed : ℕ → Reading σ ℕ
  /-- Moves on over a few bytes, unchecked. -/
  skip : ℕ → Reading σ Unit
  /-- Moves on after `upb_EpsCopyInputStream_CheckSize`. -/
  skipDelimited : ℕ → Reading σ Unit
  /-- `upb_EpsCopyInputStream_ReadStringAlwaysAlias`. -/
  readStringAlwaysAlias : ℕ → Reading σ View
  /-- `upb_EpsCopyInputStream_ReadStringEphemeral`. -/
  readStringEphemeral : ℕ → Reading σ (List UInt8)
  /-- `upb_EpsCopyInputStream_PushLimit`. -/
  pushLimit : ℕ → Reading σ Saved
  /-- `upb_EpsCopyInputStream_PopLimit`. -/
  popLimit : Saved → Reading σ Unit
  /-- Remembers where a field starts. -/
  mark : Reading σ Unit
  /-- `upb_EpsCopyInputStream_StartCapture` at the start of the field. -/
  startCapture : Reading σ Unit
  /-- `upb_EpsCopyInputStream_EndCapture`: the captured bytes. -/
  endCapture : Reading σ (List UInt8)
  /-- A fresh stream over an aliased string. -/
  enter : View → σ
  /-- The outer stream after a fresh stream is used up. -/
  leave : σ → σ → σ

namespace Stream

variable {σ : Type} (S : Stream σ) {α : Type}

/-- Runs a program under a limit. -/
def withLimit (n : ℕ) (x : Reading σ α) : Reading σ α := do
  let saved ← S.pushLimit n
  let a ← x
  S.popLimit saved
  pure a

/-- Runs a program on a fresh stream over an aliased string. -/
def nested (v : View) (x : Reading σ α) : Reading σ α := fun s =>
  match x (S.enter v) with
  | .ok (a, s') => .ok (a, S.leave s s')
  | .error e => .error e

end Stream

/-- What the decoder is about to do with its stream. -/
inductive Phase where
  /-- Nothing in particular. -/
  | plain
  /-- The start of a field is remembered. -/
  | marked
  /-- A capture has started. -/
  | capturing
  /-- The limit has been reached. -/
  | done
  deriving DecidableEq

/-- What is known of a stream: how many bytes may be read without another check, the phase, and
whether the last operation was the check itself. -/
structure Level where
  bytes : ℕ
  phase : Phase
  checked : Bool

namespace Level

/-- A level is lower than another if less is known of the stream. -/
protected def le (l l' : Level) : Prop :=
  l.bytes ≤ l'.bytes ∧ (l.phase = l'.phase ∨ (l.phase = .plain ∧ l'.phase ≠ .done)) ∧
    (l.checked = true → l'.checked = true)

instance : Preorder Level where
  le := Level.le
  le_refl l := ⟨Nat.le_refl _, .inl rfl, id⟩
  le_trans a b c hab hbc := by
    refine ⟨hab.1.trans hbc.1, ?_, hbc.2.2 ∘ hab.2.2⟩
    rcases hab.2.1 with h | h <;> rcases hbc.2.1 with h' | h'
    · exact .inl (h.trans h')
    · exact .inr ⟨h.trans h'.1, h'.2⟩
    · exact .inr ⟨h.1, h' ▸ h.2⟩
    · exact .inr ⟨h.1, h'.2⟩

theorem le_iff {l l' : Level} : l ≤ l' ↔ l.bytes ≤ l'.bytes ∧
    (l.phase = l'.phase ∨ (l.phase = .plain ∧ l'.phase ≠ .done)) ∧
      (l.checked = true → l'.checked = true) := Iff.rfl

/-- Nothing is known but that the limit is not reached. -/
def base : Level := ⟨0, .plain, false⟩

/-- The limit has been reached. -/
def atLimit : Level := ⟨0, .done, false⟩

/-- After a successful check. -/
def fresh (phase : Phase) : Level := ⟨16, phase, true⟩

/-- After an operation that reads at most `n` bytes. -/
def consume (l : Level) (n : ℕ) : Level := ⟨l.bytes - n, l.phase, false⟩

/-- After an operation that may use up the readable bytes. -/
def hit (l : Level) : Level := ⟨0, l.phase, false⟩

theorem hit_le (l : Level) : l.hit ≤ l := ⟨Nat.zero_le _, .inl rfl, fun h => by cases h⟩

theorem hit_le_consume (l : Level) (n : ℕ) : l.hit ≤ l.consume n :=
  ⟨Nat.zero_le _, .inl rfl, id⟩

theorem base_le {l : Level} (h : l.phase ≠ .done) : base ≤ l :=
  ⟨Nat.zero_le _, .inr ⟨rfl, h⟩, fun h => by cases h⟩

theorem consume_le (l : Level) (n : ℕ) : l.consume n ≤ l :=
  ⟨Nat.sub_le _ _, .inl rfl, fun h => by cases h⟩

end Level

/-- A simulation between two streams: their operations simulate each other. -/
structure StreamSim {σ₁ σ₂ : Type} (S₁ : Stream σ₁) (S₂ : Stream σ₂) extends
    Common.Simulation DecodeError σ₁ σ₂ Level where
  /-- Related aliased strings. -/
  viewRel : View → View → Prop
  view_data : ∀ {v₁ v₂}, viewRel v₁ v₂ → v₁.data = v₂.data
  /-- The codes of the decoder may end a doomed run. -/
  allowed_status : ∀ {e}, e ≠ .outOfBounds → e ≠ .outOfFuel → allowed e
  /-- A doomed stream does not pass its check. -/
  ahead_checked : ∀ {g l s₁}, l.checked = true → ¬ ahead g l s₁
  isDone : ∀ {l : Level}, l.phase ≠ .done → l.phase ≠ .marked →
    toSimulation.Triple Eq l S₁.isDone S₂.isDone
      fun d => if d then .atLimit else .fresh l.phase
  readLong : ∀ {l : Level} {n : ℕ} (max : ℕ), l.phase ≠ .done → 0 < n → n ≤ l.bytes →
    toSimulation.Triple Eq l (S₁.readLong n max) (S₂.readLong n max) fun _ => l.consume n
  readFixed : ∀ {l : Level} {n : ℕ}, l.phase ≠ .done → n ≤ l.bytes →
    toSimulation.Triple Eq l (S₁.readFixed n) (S₂.readFixed n) fun _ => l.consume n
  skip : ∀ {l : Level} {n : ℕ}, l.phase ≠ .done → n ≤ l.bytes →
    toSimulation.Triple Eq l (S₁.skip n) (S₂.skip n) fun _ => l.consume n
  skipDelimited : ∀ {l : Level} {n : ℕ}, l.phase ≠ .done →
    toSimulation.Triple Eq l (S₁.skipDelimited n) (S₂.skipDelimited n) fun _ => l.hit
  readStringAlwaysAlias : ∀ {l : Level} {n : ℕ}, l.phase ≠ .done →
    toSimulation.Triple viewRel l (S₁.readStringAlwaysAlias n) (S₂.readStringAlwaysAlias n)
      fun _ => l.hit
  readStringEphemeral : ∀ {l : Level} {n : ℕ}, l.phase ≠ .done →
    toSimulation.Triple Eq l (S₁.readStringEphemeral n) (S₂.readStringEphemeral n) fun _ => l.hit
  withLimit : ∀ {α₁ α₂ : Type} {R : α₁ → α₂ → Prop} {l : Level} {n : ℕ} {x : Reading σ₁ α₁}
    {y : Reading σ₂ α₂}, l.phase ≠ .done → toSimulation.Triple R .base x y (fun _ => .atLimit) →
    toSimulation.Triple R l (S₁.withLimit n x) (S₂.withLimit n y) fun _ => .base
  mark : ∀ {l : Level}, l.phase ≠ .done → toSimulation.Triple Eq l S₁.mark S₂.mark
    fun _ => { l with phase := .marked }
  startCapture : ∀ {l : Level}, l.phase = .marked →
    toSimulation.Triple Eq l S₁.startCapture S₂.startCapture
      fun _ => { l with phase := .capturing }
  endCapture : ∀ {l : Level}, l.phase = .capturing →
    toSimulation.Triple Eq l S₁.endCapture S₂.endCapture fun _ => .base
  nested : ∀ {α₁ α₂ : Type} {R : α₁ → α₂ → Prop} {l : Level} {v₁ v₂ : View} {x : Reading σ₁ α₁}
    {y : Reading σ₂ α₂}, l.phase ≠ .done → viewRel v₁ v₂ →
    (∀ e, y (S₂.enter v₂) = .error e → allowed e) →
    toSimulation.Triple R .base x y (fun _ => .atLimit) →
    toSimulation.Triple R l (S₁.nested v₁ x) (S₂.nested v₂ y) fun _ => l

end Upb.Wire
