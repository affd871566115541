import Upb.Wire.InputStream

/-!
# The patch buffer stream

`upb_EpsCopyInputStream` reads from the input buffer up to sixteen bytes before its end and then, or
from the start on if the input is no longer than that, from a patch buffer that holds the last bytes
followed by zeros. The limit is kept relative to `end`; only `IsDone`, the string reads, the end of a
capture and `PushLimit` check it.

A pointer is an offset into the buffer it points into: the patch buffer if `inPatch`, which stands
for `input_delta != 0`, and else the input. A read outside of that buffer is the model's error
`outOfBounds`. The pointer that the C functions pass along is the member `ptr`; `start` is the start
of the current field. `log` lists the ranges that were captured or aliased.
-/

namespace Upb.Wire

/-- `kUpb_EpsCopyInputStream_SlopBytes`. -/
def slopBytes : ℕ := 16

/-- `upb_EpsCopyInputStream`. -/
structure EpsCopyInputStream where
  buffer : List UInt8
  /-- The offset of the buffer in the outermost input. -/
  bufferStart : ℤ
  patch : List UInt8
  inPatch : Bool
  ptr : ℤ
  stop : ℤ
  limitPtr : ℤ
  limit : ℤ
  inputDelta : ℤ
  start : ℤ
  captureStart : ℤ
  log : List Range

namespace EpsCopyInputStream

/-- `upb_EpsCopyInputStream_InitWithErrorHandler`. -/
def init (bufferStart : ℤ) (buffer : List UInt8) : EpsCopyInputStream :=
  if buffer.length ≤ slopBytes then
    { buffer, bufferStart, patch := buffer ++ List.replicate (32 - buffer.length) 0, inPatch := true
      ptr := 0, stop := buffer.length, limitPtr := buffer.length, limit := 0, inputDelta := 0
      start := 0, captureStart := 0, log := [] }
  else
    { buffer, bufferStart, patch := List.replicate 32 0, inPatch := false
      ptr := 0, stop := (buffer.length : ℤ) - slopBytes
      limitPtr := (buffer.length : ℤ) - slopBytes, limit := slopBytes, inputDelta := 0
      start := 0, captureStart := 0, log := [] }

/-- The bytes of `l` from an offset on. -/
def bytesFrom (l : List UInt8) (i : ℤ) : List UInt8 := if 0 ≤ i then l.drop i.toNat else []

/-- The bytes from `ptr` to the end of the buffer it points into. -/
def bytes (e : EpsCopyInputStream) : List UInt8 :=
  bytesFrom (if e.inPatch then e.patch else e.buffer) e.ptr

/-- `upb_EpsCopyInputStream_GetInputPtr`: the offset into the input that belongs to a pointer. -/
def getInputPtr (e : EpsCopyInputStream) (ptr : ℤ) : ℤ := ptr + e.inputDelta

/-- The first `n` of the given bytes. -/
def takeBytes (n : ℤ) (l : List UInt8) : Except DecodeError (List UInt8) :=
  if 0 ≤ n ∧ n ≤ l.length then .ok (l.take n.toNat) else .error .outOfBounds

/-- The flip into a patch buffer that starts with the given bytes. -/
def flip (e : EpsCopyInputStream) (overrun : ℤ) (tail : List UInt8) : EpsCopyInputStream :=
  { e with
    patch := tail ++ List.replicate slopBytes 0
    inPatch := true
    ptr := overrun
    stop := slopBytes
    limit := e.limit - slopBytes
    limitPtr := slopBytes + (e.limit - slopBytes)
    -- the old pointer less the new one
    inputDelta := e.ptr - overrun }

/-- `upb_EpsCopyInputStream_IsDoneFallback`. -/
def isDoneFallback (e : EpsCopyInputStream) (overrun : ℤ) :
    Except DecodeError EpsCopyInputStream :=
  if overrun < e.limit then
    (takeBytes slopBytes (bytesFrom (if e.inPatch then e.patch else e.buffer) e.stop)).map
      (e.flip overrun)
  else .error .malformed

/-- `upb_EpsCopyInputStream_IsDone`; `overrun` is a 32-bit integer. -/
def isDone : Reading EpsCopyInputStream Bool := fun e =>
  let overrun := Int.bmod (e.ptr - e.stop) (2 ^ 32)
  if e.ptr < e.limitPtr then .ok (false, e)
  else if overrun = e.limit then .ok (true, e)
  else (e.isDoneFallback overrun).map fun e => (false, e)

/-- `upb_WireReader_ReadVarint` and its relatives. -/
def readLong (n max : ℕ) : Reading EpsCopyInputStream ℕ := fun e =>
  (Wire.readLong .outOfBounds .malformed e.bytes n max).map fun (k, val) =>
    (val, { e with ptr := e.ptr + k })

/-- `upb_WireReader_ReadFixed32` and `upb_WireReader_ReadFixed64`. -/
def readFixed (n : ℕ) : Reading EpsCopyInputStream ℕ := fun e =>
  (takeBytes n e.bytes).map fun b => (littleEndian b, { e with ptr := e.ptr + n })

/-- `ptr + n`. -/
def skip (n : ℕ) : Reading EpsCopyInputStream Unit := fun e => .ok ((), { e with ptr := e.ptr + n })

/-- `upb_EpsCopyInputStream_CheckSize`. -/
def checkSize (e : EpsCopyInputStream) (size : ℕ) : Bool := size ≤ e.limit - (e.ptr - e.stop)

/-- `ptr += size` after `upb_EpsCopyInputStream_CheckSize`. -/
def skipDelimited (size : ℕ) : Reading EpsCopyInputStream Unit := fun e =>
  if e.checkSize size then .ok ((), { e with ptr := e.ptr + size }) else .error .malformed

/-- `upb_EpsCopyInputStream_ReadStringAlwaysAlias`. -/
def readStringAlwaysAlias (size : ℕ) : Reading EpsCopyInputStream View := fun e =>
  let limit := e.stop + if e.inPatch then 0 else (slopBytes : ℤ)
  if size > limit - e.ptr then .error .malformed
  else
    let input := e.getInputPtr e.ptr
    (takeBytes size (bytesFrom e.buffer input)).map fun data =>
      (⟨e.bufferStart + input, data⟩,
        { e with ptr := e.ptr + size, log := e.log ++ [⟨e.bufferStart + input, size⟩] })

/-- `upb_EpsCopyInputStream_ReadStringEphemeral`. -/
def readStringEphemeral (size : ℕ) : Reading EpsCopyInputStream (List UInt8) := fun e =>
  let limit := e.stop + slopBytes
  if size > limit - e.ptr then .error .malformed
  else (takeBytes size e.bytes).map fun data => (data, { e with ptr := e.ptr + size })

/-- `upb_EpsCopyInputStream_PushLimit`: the saved delta. -/
def pushLimit (size : ℕ) : Reading EpsCopyInputStream ℤ := fun e =>
  let limit := size + (e.ptr - e.stop)
  let delta := e.limit - limit
  if delta < 0 then .error .malformed
  else .ok (delta, { e with limit, limitPtr := e.stop + min 0 limit })

/-- `upb_EpsCopyInputStream_PopLimit`. -/
def popLimit (savedDelta : ℤ) : Reading EpsCopyInputStream Unit := fun e =>
  let limit := e.limit + savedDelta
  .ok ((), { e with limit, limitPtr := e.stop + min 0 limit })

/-- The start of a field. -/
def mark : Reading EpsCopyInputStream Unit := fun e => .ok ((), { e with start := e.ptr })

/-- `upb_EpsCopyInputStream_StartCapture` at the start of the field. -/
def startCapture : Reading EpsCopyInputStream Unit := fun e =>
  .ok ((), { e with captureStart := e.getInputPtr e.start })

/-- `upb_EpsCopyInputStream_EndCapture`. -/
def endCapture : Reading EpsCopyInputStream (List UInt8) := fun e =>
  if e.ptr - e.stop > e.limit then .error .malformed
  else
    let size := e.getInputPtr e.ptr - e.captureStart
    (takeBytes size (bytesFrom e.buffer e.captureStart)).map fun data =>
      (data, { e with log := e.log ++ [⟨e.bufferStart + e.captureStart, size⟩] })

/-- The patch buffer stream as a stream. -/
def stream : Stream EpsCopyInputStream where
  Saved := ℤ
  isDone := isDone
  readLong := readLong
  readFixed := readFixed
  skip := skip
  skipDelimited := skipDelimited
  readStringAlwaysAlias := readStringAlwaysAlias
  readStringEphemeral := readStringEphemeral
  pushLimit := pushLimit
  popLimit := popLimit
  mark := mark
  startCapture := startCapture
  endCapture := endCapture
  enter v := init v.start v.data
  leave e e' := { e with log := e.log ++ e'.log }

end EpsCopyInputStream

end Upb.Wire
