import Upb.Wire.InputStream

/-!
# The checked reader

A reader that checks every byte it reads against the innermost limit: its state holds the bytes up to
that limit. This is the reference that the patch buffer stream refines.
-/

namespace Upb.Wire

/-- The bytes up to the innermost limit, with the position of the first of them. -/
structure BoundedReader where
  pos : ℕ
  rest : List UInt8
  /-- The position and the bytes at the start of the current field. -/
  start : ℕ × List UInt8
  /-- The position and the bytes at the start of the capture. -/
  captureStart : ℕ × List UInt8
  log : List Range

namespace BoundedReader

/-- A reader at the start of its input. -/
def init (pos : ℕ) (input : List UInt8) : BoundedReader :=
  ⟨pos, input, (pos, input), (pos, input), []⟩

/-- The reader after `n` bytes. -/
def advance (r : BoundedReader) (n : ℕ) : BoundedReader :=
  { r with pos := r.pos + n, rest := r.rest.drop n }

/-- Takes `n` bytes, if there are so many before the limit. -/
def take (n : ℕ) : Reading BoundedReader (List UInt8) := fun r =>
  if n ≤ r.rest.length then .ok (r.rest.take n, r.advance n) else .error .malformed

def isDone : Reading BoundedReader Bool := fun r => .ok (r.rest.isEmpty, r)

def readLong (n max : ℕ) : Reading BoundedReader ℕ := fun r =>
  (Wire.readLong .malformed .malformed r.rest n max).map fun (k, val) => (val, r.advance k)

def readFixed (n : ℕ) : Reading BoundedReader ℕ := do
  let b ← take n
  pure (littleEndian b)

def skip (n : ℕ) : Reading BoundedReader Unit := do
  let _ ← take n

def readStringAlwaysAlias (n : ℕ) : Reading BoundedReader View := fun r =>
  if n ≤ r.rest.length then
    .ok (⟨r.pos, r.rest.take n⟩, { r.advance n with log := r.log ++ [⟨r.pos, n⟩] })
  else .error .malformed

def pushLimit (n : ℕ) : Reading BoundedReader (List UInt8) := fun r =>
  if n ≤ r.rest.length then .ok (r.rest.drop n, { r with rest := r.rest.take n })
  else .error .malformed

def popLimit (saved : List UInt8) : Reading BoundedReader Unit := fun r =>
  .ok ((), { r with rest := r.rest ++ saved })

def mark : Reading BoundedReader Unit := fun r => .ok ((), { r with start := (r.pos, r.rest) })

def startCapture : Reading BoundedReader Unit := fun r => .ok ((), { r with captureStart := r.start })

def endCapture : Reading BoundedReader (List UInt8) := fun r =>
  let size := r.pos - r.captureStart.1
  .ok (r.captureStart.2.take size, { r with log := r.log ++ [⟨r.captureStart.1, size⟩] })

/-- The checked reader as a stream. -/
def stream : Stream BoundedReader where
  Saved := List UInt8
  isDone := isDone
  readLong := readLong
  readFixed := readFixed
  skip := skip
  skipDelimited := skip
  readStringAlwaysAlias := readStringAlwaysAlias
  readStringEphemeral := take
  pushLimit := pushLimit
  popLimit := popLimit
  mark := mark
  startCapture := startCapture
  endCapture := endCapture
  enter v := init v.start.toNat v.data
  leave r r' := { r with log := r.log ++ r'.log }

/-- The reader of a varint, by the varint at the start of what is left. -/
theorem stream_readLong {n : ℕ} (hn : 0 < n) (max : ℕ) (r : BoundedReader) :
    stream.readLong n max r = (readOutcome .malformed max (splitVarint n r.rest)).map
      fun (k, val) => (val, r.advance k) := congrArg (Except.map _) (readLong_eq _ _ hn max)

end BoundedReader

end Upb.Wire
