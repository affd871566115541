import Mathlib.Algebra.Order.Ring.Int
import Upb.Wire.EpsCopyInputStream
import Upb.Wire.Reader

/-!
# The invariant of the patch buffer stream

The buffer that is being read agrees with the input up to the end of the input, and it always holds
sixteen bytes beyond `end`. Whether the stream has flipped into the patch buffer or not, its position
and its limit are the same offsets into the input.
-/

namespace Upb.Wire.EpsCopyInputStream

/-- The bytes between `end` and the end of the input. -/
def tailBytes (e : EpsCopyInputStream) : ℤ := if e.inPatch then 0 else slopBytes

/-- The invariant of the stream. -/
structure Wf (e : EpsCopyInputStream) : Prop where
  ptr_nonneg : 0 ≤ e.ptr
  stop_nonneg : 0 ≤ e.stop
  delta_nonneg : 0 ≤ e.inputDelta
  size_le : e.buffer.length ≤ int32Max
  total : e.stop + e.inputDelta + e.tailBytes = e.buffer.length
  limit_le : e.limit ≤ e.tailBytes
  limitPtr_eq : e.limitPtr = e.stop + min 0 e.limit
  patched : e.inPatch = true → e.stop ≤ 16 ∧
    e.patch = e.buffer.drop e.inputDelta.toNat ++ List.replicate (32 - e.stop.toNat) 0
  unpatched : e.inPatch = false → e.inputDelta = 0

/-- The offset of the stream position in the input. -/
def pos (e : EpsCopyInputStream) : ℤ := e.ptr + e.inputDelta

/-- The offset of the limit in the input. -/
def limitPos (e : EpsCopyInputStream) : ℤ := e.stop + e.limit + e.inputDelta

variable {e : EpsCopyInputStream}

theorem tailBytes_of_patched (h : e.inPatch = true) : e.tailBytes = 0 := by simp [tailBytes, h]

theorem tailBytes_of_unpatched (h : e.inPatch = false) : e.tailBytes = 16 := by
  simp [tailBytes, h, slopBytes]

theorem Wf.pos_nonneg (h : Wf e) : 0 ≤ e.pos := Int.add_nonneg h.ptr_nonneg h.delta_nonneg

/-- The limit lies inside the input. -/
theorem Wf.limitPos_le (h : Wf e) : e.limitPos ≤ e.buffer.length := by
  have := h.total
  have := h.limit_le
  rw [limitPos]
  omega

/-- From a position inside the input, the readable bytes are those of the input, followed by the
zeros of the patch buffer. -/
theorem Wf.bytes_eq (h : Wf e) (hpos : e.pos ≤ e.buffer.length) :
    e.bytes = e.buffer.drop e.pos.toNat ++
      if e.inPatch then List.replicate (32 - e.stop.toNat) 0 else [] := by
  have hptr := h.ptr_nonneg
  have hdelta := h.delta_nonneg
  have htotal := h.total
  rw [bytes, bytesFrom, if_pos hptr]
  cases hp : e.inPatch with
  | false =>
    have hd := h.unpatched hp
    simp [pos, hd]
  | true =>
    have ht := tailBytes_of_patched hp
    rw [pos] at hpos
    rw [if_pos rfl, if_pos rfl, (h.patched hp).2, List.drop_append_of_le_length, List.drop_drop, pos]
    · congr 2
      omega
    · rw [List.length_drop]
      omega

/-- The stream can read sixteen bytes beyond `end`. -/
theorem Wf.length_bytes (h : Wf e) : e.stop + 16 - e.ptr ≤ e.bytes.length := by
  have hptr := h.ptr_nonneg
  have htotal := h.total
  rw [bytes, bytesFrom, if_pos hptr]
  cases hp : e.inPatch with
  | false =>
    have hd := h.unpatched hp
    have ht := tailBytes_of_unpatched hp
    simp only [Bool.false_eq_true, if_false, List.length_drop]
    omega
  | true =>
    have ht := tailBytes_of_patched hp
    have hstop := h.stop_nonneg
    have hdelta := h.delta_nonneg
    rw [if_pos rfl, (h.patched hp).2]
    have := (h.patched hp).1
    simp only [List.length_drop, List.length_append, List.length_replicate]
    omega

/-- The sixteen bytes beyond `end` continue the input with zeros. -/
theorem Wf.take_bytes (h : Wf e) {n : ℕ} (hn : e.ptr + n ≤ e.stop + 16) :
    e.bytes.take n = (e.buffer.drop e.pos.toNat ++ List.replicate 16 0).take n := by
  have hptr := h.ptr_nonneg
  have htotal := h.total
  rw [bytes, bytesFrom, if_pos hptr]
  cases hp : e.inPatch with
  | false =>
    have hd := h.unpatched hp
    have ht := tailBytes_of_unpatched hp
    have hpos : e.pos = e.ptr := by rw [pos, hd, Int.add_zero]
    rw [if_neg (by decide), hpos, List.take_append_of_le_length (by rw [List.length_drop]; omega)]
  | true =>
    have ht := tailBytes_of_patched hp
    have hdelta := h.delta_nonneg
    have hstop := h.stop_nonneg
    have hle := (h.patched hp).1
    have hpos : e.inputDelta.toNat + e.ptr.toNat = e.pos.toNat := by rw [pos]; omega
    have hlen : (e.buffer.drop e.pos.toNat).length = e.stop.toNat - e.ptr.toNat := by
      rw [List.length_drop, pos]
      omega
    rw [if_pos rfl, (h.patched hp).2, List.drop_append, List.drop_drop, hpos, List.drop_replicate,
      List.take_append, List.take_append, List.take_replicate, List.take_replicate, hlen,
      List.length_drop]
    congr 2
    omega

/-- The overrun fits into 32 bits. -/
theorem Wf.overrun_eq (h : Wf e) (hptr : e.ptr ≤ e.stop + 16) :
    Int.bmod (e.ptr - e.stop) (2 ^ 32) = e.ptr - e.stop := by
  have := h.ptr_nonneg
  have := h.stop_nonneg
  have := h.delta_nonneg
  have := h.total
  have := h.size_le
  have htail : 0 ≤ e.tailBytes := by
    cases hp : e.inPatch
    · rw [tailBytes_of_unpatched hp]; omega
    · rw [tailBytes_of_patched hp]
  rw [int32Max] at *
  exact Int.bmod_eq_of_le (by omega) (by omega)

/-- The stream starts at offset 0 with its limit at the end of the input. -/
theorem wf_init (start : ℤ) {input : List UInt8} (h : input.length ≤ int32Max) :
    Wf (init start input) ∧ (init start input).pos = 0 ∧
      (init start input).limitPos = input.length ∧
      (init start input).ptr + 16 ≤ (init start input).stop + 16 := by
  rw [init, slopBytes]
  split
  · next hsmall =>
    refine ⟨⟨?_, ?_, ?_, h, ?_, ?_, ?_, ?_, ?_⟩, ?_, ?_, ?_⟩
    all_goals simp [pos, limitPos, tailBytes]
    omega
  · next hlarge =>
    refine ⟨⟨?_, ?_, ?_, h, ?_, ?_, ?_, ?_, ?_⟩, ?_, ?_, ?_⟩ <;>
      simp [pos, limitPos, tailBytes, slopBytes] <;> omega

/-- Moving on keeps the invariant. -/
theorem Wf.advance (h : Wf e) {ptr : ℤ} (hptr : e.ptr ≤ ptr) : Wf { e with ptr := ptr } :=
  { h with ptr_nonneg := h.ptr_nonneg.trans hptr }

/-- A limit inside the input keeps the invariant. -/
theorem Wf.setLimit (h : Wf e) {limit : ℤ} (hlimit : limit ≤ e.tailBytes) :
    Wf { e with limit := limit, limitPtr := e.stop + min 0 limit } :=
  { h with limit_le := hlimit, limitPtr_eq := rfl }

/-- The flip keeps the invariant, the position and the limit. -/
theorem Wf.flip (h : Wf e) (hp : e.inPatch = false) (hlt : e.ptr - e.stop < e.limit)
    (hge : e.stop ≤ e.ptr) :
    let e' := e.flip (e.ptr - e.stop) (e.buffer.drop e.stop.toNat)
    Wf e' ∧ e'.pos = e.pos ∧ e'.limitPos = e.limitPos ∧ e'.ptr ≤ e'.stop := by
  have ht := tailBytes_of_unpatched hp
  have hd := h.unpatched hp
  have htotal := h.total
  have hstop := h.stop_nonneg
  have hll := h.limit_le
  refine ⟨⟨?_, ?_, ?_, h.size_le, ?_, ?_, ?_, fun _ => ⟨?_, ?_⟩, ?_⟩, ?_, ?_, ?_⟩
  all_goals simp only [EpsCopyInputStream.flip, pos, limitPos, tailBytes, slopBytes, if_true] at *
  · omega
  · decide
  · omega
  · push_cast
    omega
  · omega
  · push_cast
    omega
  · decide
  · have hdelta : e.ptr - (e.ptr - e.stop) = e.stop := by omega
    rw [hdelta]
    rfl
  · exact fun h => absurd h (by simp)
  · omega
  · push_cast
    omega
  · push_cast
    omega

/-- Two states of the stream over the same input, with the same capture and log. -/
structure SameInput (e e' : EpsCopyInputStream) : Prop where
  buffer : e'.buffer = e.buffer
  bufferStart : e'.bufferStart = e.bufferStart
  captureStart : e'.captureStart = e.captureStart
  log : e'.log = e.log

/-- The limit lies beyond `end` only before the flip. -/
theorem Wf.unpatched_of_lt (h : Wf e) (hge : ¬ e.ptr < e.limitPtr) (hlt : e.ptr - e.stop < e.limit) :
    e.inPatch = false ∧ e.stop ≤ e.ptr := by
  have hlp := h.limitPtr_eq
  have hll := h.limit_le
  constructor
  · by_contra hp
    have := tailBytes_of_patched (by simpa using hp)
    omega
  · omega

/-- `IsDone` flips into the patch buffer if need be. -/
theorem Wf.isDone_eq (h : Wf e) (hptr : e.ptr ≤ e.stop + 16) :
    isDone e =
      if e.ptr < e.limitPtr then .ok (false, e)
      else if e.ptr - e.stop = e.limit then .ok (true, e)
      else if e.ptr - e.stop < e.limit then
        .ok (false, e.flip (e.ptr - e.stop) (e.buffer.drop e.stop.toNat))
      else .error .malformed := by
  rw [isDone, h.overrun_eq hptr]
  by_cases hlt : e.ptr < e.limitPtr
  · rw [if_pos hlt, if_pos hlt]
  rw [if_neg hlt, if_neg hlt]
  by_cases heq : e.ptr - e.stop = e.limit
  · rw [if_pos heq, if_pos heq]
  rw [if_neg heq, if_neg heq, isDoneFallback]
  by_cases hover : e.ptr - e.stop < e.limit
  · obtain ⟨hp, -⟩ := h.unpatched_of_lt hlt hover
    have ht := tailBytes_of_unpatched hp
    have hd := h.unpatched hp
    have hstop := h.stop_nonneg
    have htotal := h.total
    have hlen : (e.buffer.drop e.stop.toNat).length = 16 := by
      rw [List.length_drop]
      omega
    have htail : takeBytes slopBytes (bytesFrom e.buffer e.stop) =
        .ok (e.buffer.drop e.stop.toNat) := by
      rw [bytesFrom, if_pos hstop, takeBytes, hlen, slopBytes, if_pos (by decide)]
      exact congrArg Except.ok (List.take_of_length_le (by rw [hlen]; decide))
    rw [if_pos hover, if_pos hover, hp, if_neg (by decide), htail]
    rfl
  · rw [if_neg hover, if_neg hover]
    rfl

/-- What `IsDone` does: it says whether the position is at the limit, fails if the position is beyond
it, and otherwise gives a stream with sixteen readable bytes, at the same position with the same
limit, flipped into the patch buffer if need be. -/
theorem isDone_cases (h : Wf e) (hptr : e.ptr ≤ e.stop + 16) :
    (e.pos = e.limitPos ∧ isDone e = .ok (true, e)) ∨
    (e.limitPos < e.pos ∧ isDone e = .error .malformed) ∨
    (e.pos < e.limitPos ∧ ∃ e', isDone e = .ok (false, e') ∧ SameInput e e' ∧ Wf e' ∧
      e'.pos = e.pos ∧ e'.limitPos = e.limitPos ∧ e'.ptr ≤ e'.stop) := by
  have hlp := h.limitPtr_eq
  rw [h.isDone_eq hptr, pos, limitPos]
  by_cases hlt : e.ptr < e.limitPtr
  · rw [if_pos hlt]
    exact .inr (.inr ⟨by omega, e, rfl, ⟨rfl, rfl, rfl, rfl⟩, h, rfl, rfl, by omega⟩)
  rw [if_neg hlt]
  by_cases heq : e.ptr - e.stop = e.limit
  · rw [if_pos heq]
    exact .inl ⟨by omega, rfl⟩
  rw [if_neg heq]
  by_cases hover : e.ptr - e.stop < e.limit
  · obtain ⟨hp, hge⟩ := h.unpatched_of_lt hlt hover
    obtain ⟨hwf, hpos, hlimit, hstart⟩ := h.flip hp hover hge
    rw [if_pos hover]
    exact .inr (.inr ⟨by omega, _, rfl, ⟨rfl, rfl, rfl, rfl⟩, hwf, hpos, hlimit, hstart⟩)
  · rw [if_neg hover]
    exact .inr (.inl ⟨by omega, rfl⟩)

end Upb.Wire.EpsCopyInputStream
