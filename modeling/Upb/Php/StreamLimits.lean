import Upb.Php.StreamTakes

/-!
# Limits of the input stream

A pushed limit and the limit on all bytes together end the buffer, and popping a limit uncovers the
bytes behind it again. Before the first limit is pushed, the buffer ends where its bytes end, however
many there are.
-/

namespace Upb.Php.CodedInputStream

variable {s s' s'' : CodedInputStream} {p q : List UInt8} {limit oldLimit : ℕ} {size : ℤ}

/-- The bytes before the end of the buffer and those behind it are all bytes, and the limit is among
them. -/
structure Held (s : CodedInputStream) : Prop where
  size : s.bufferEnd + s.bufferSizeAfterLimit = s.buffer.length
  limit_le : s.currentLimit ≤ s.buffer.length

/-- The stream with another limit. -/
def relimited (s : CodedInputStream) (limit : ℕ) : CodedInputStream :=
  { s with
    currentLimit := limit
    bufferEnd := min limit totalBytesLimit
    bufferSizeAfterLimit := s.buffer.length - min limit totalBytesLimit }

/-- The stream moved forward in the same bytes, under the same limit. -/
structure Moves (s s' : CodedInputStream) : Prop extends Held s' where
  buffer : s'.buffer = s.buffer
  forward : s.current ≤ s'.current
  limit : s'.currentLimit = s.currentLimit

/-- A stream inside of its limits, before the end of its message. -/
structure Sane (s : CodedInputStream) : Prop extends InBuffer s, Held s where
  closest : s.bufferEnd = min s.currentLimit totalBytesLimit ∨ s.bufferEnd = s.currentLimit
  flag : s.legitimateMessageEnd = false
  addressable : s.buffer.length < phpIntMax

/-- The stream went over the bytes `p`. -/
structure Passed (s : CodedInputStream) (p : List UInt8) (s' : CodedInputStream) : Prop extends Moves s s' where
  current : s'.current = s.current + p.length
  bytes : ∃ tail, s.buffer.drop s.current = p ++ tail
  closed : s.bufferEnd ≤ totalBytesLimit → s'.bufferEnd ≤ totalBytesLimit

theorem sane_new {buffer : List UInt8} (h : buffer.length < phpIntMax) : (new buffer).Sane :=
  ⟨inBuffer_new buffer, le_rfl, .inr rfl, rfl, h⟩

section Limits

theorem Held.position (h : s.Held) : s.position = s.current := by
  have := h.size
  rw [CodedInputStream.position, totalBytesRead]
  omega

theorem held_relimited (h : limit ≤ s.buffer.length) : (s.relimited limit).Held := by
  refine ⟨?_, h⟩
  simp only [relimited]
  omega

theorem recomputeBufferLimits_eq (hs : s.Held) (h : limit ≤ s.buffer.length) :
    { s with currentLimit := limit }.recomputeBufferLimits = s.relimited limit := by
  simp only [recomputeBufferLimits, totalBytesRead, relimited, hs.size]
  split
  · next hlt => rw [Nat.sub_sub_self hlt.le]
  · next hle =>
    have hlimit : min limit totalBytesLimit = s.buffer.length := by omega
    rw [hlimit, Nat.sub_self]

/-- A limit that can be pushed is inside of the old one. -/
theorem pushLimit_eq_some (hs : s.Held) :
    s.pushLimit size = some (oldLimit, s') ↔
      (0 ≤ size ∧ s.current + size ≤ phpIntMax ∧ s.current + size ≤ s.currentLimit) ∧
        oldLimit = s.currentLimit ∧ s' = s.relimited (s.current + size.toNat) := by
  have hlimit := hs.limit_le
  rw [pushLimit, hs.position]
  split
  next h =>
    have hnat : ((s.current : ℤ) + size).toNat = s.current + size.toNat := by omega
    rw [hnat, recomputeBufferLimits_eq hs (by omega), Option.some.injEq, Prod.mk.injEq]
    constructor
    · rintro ⟨rfl, rfl⟩
      exact ⟨by omega, rfl, rfl⟩
    · rintro ⟨-, rfl, rfl⟩
      exact ⟨rfl, rfl⟩
  next h =>
    simp only [reduceCtorEq, false_iff]
    rintro ⟨hsize, -⟩
    exact h (by omega)

theorem pushLimit_held (hs : s.Held) (hpush : s.pushLimit size = some (oldLimit, s')) : s'.Held := by
  obtain ⟨hsize, -, rfl⟩ := (pushLimit_eq_some hs).mp hpush
  have := hs.limit_le
  exact held_relimited (by omega)

theorem popLimit_eq (hs : s.Held) (h : limit ≤ s.buffer.length) :
    s.popLimit limit = { s.relimited limit with legitimateMessageEnd := false } := by
  rw [popLimit, recomputeBufferLimits_eq hs h]

theorem popLimit_bufferEnd_le (hs : s.Held) (h : limit ≤ s.buffer.length) :
    (s.popLimit limit).bufferEnd ≤ totalBytesLimit := by
  rw [popLimit_eq hs h]
  exact min_le_right _ _

theorem Sane.bufferEnd_le (hs : s.Sane) : s.bufferEnd ≤ s.currentLimit := by
  rcases hs.closest with h | h <;> omega

end Limits

section Moves

theorem Moves.refl (hs : s.Held) : s.Moves s := ⟨hs, rfl, le_rfl, rfl⟩

theorem Moves.trans (h : s.Moves s') (h' : s'.Moves s'') : s.Moves s'' where
  toHeld := h'.toHeld
  buffer := h'.buffer.trans h.buffer
  forward := h.forward.trans h'.forward
  limit := h'.limit.trans h.limit

theorem Advances.moves (h : s.Advances s') (hs : s.Held) : s.Moves s' := by
  obtain ⟨k, rfl⟩ := h
  exact ⟨⟨hs.size, hs.limit_le⟩, rfl, Nat.le_add_right _ _, rfl⟩

theorem readTag_moves {tag : PhpInt} (hs : s.Held) (h : s.readTag = (tag, s')) : s.Moves s' := by
  rw [readTag] at h
  split at h
  · dsimp only at h
    split at h
    all_goals
      cases h
      exact ⟨⟨hs.size, hs.limit_le⟩, rfl, le_rfl, rfl⟩
  · split at h
    next result t hread =>
      cases h
      exact (readVarint32_advances hread).moves hs
    next t hread =>
      cases h
      rw [readVarint32] at hread
      split at hread
      next => cases hread
      next t' hvar =>
        cases hread
        exact (readVarint64_advances hvar).moves hs

variable {t u : CodedInputStream}

/-- A limit is pushed, the stream moves on, and the limit is popped. -/
theorem Moves.popLimit (hs : s.Held) (hpush : s.pushLimit size = some (oldLimit, t)) (h : t.Moves u) :
    s.Moves (u.popLimit oldLimit) := by
  obtain ⟨-, rfl, rfl⟩ := (pushLimit_eq_some hs).mp hpush
  have hle : s.currentLimit ≤ u.buffer.length := by
    rw [h.buffer]
    exact hs.limit_le
  rw [popLimit_eq h.toHeld hle]
  have hheld := held_relimited hle
  exact ⟨⟨hheld.size, hheld.limit_le⟩, h.buffer, h.forward, rfl⟩

end Moves

section Passed

theorem Passed.nil (hs : s.Held) : s.Passed [] s := ⟨.refl hs, rfl, ⟨_, rfl⟩, id⟩

theorem Passed.trans (h : s.Passed p s') (h' : s'.Passed q s'') : s.Passed (p ++ q) s'' := by
  refine ⟨h.toMoves.trans h'.toMoves, ?_, ?_, fun hle => h'.closed (h.closed hle)⟩
  · rw [h'.current, h.current, List.length_append, Nat.add_assoc]
  · obtain ⟨tail, htail⟩ := h.bytes
    obtain ⟨tail', htail'⟩ := h'.bytes
    have hdrop : (s.buffer.drop s.current).drop p.length = tail := by rw [htail, List.drop_left]
    rw [h.buffer, h.current, ← List.drop_drop, hdrop] at htail'
    exact ⟨tail', by rw [htail, htail', List.append_assoc]⟩

/-- Reading over bytes keeps the stream inside of its limits. -/
theorem Took.passed (h : s.Took p s') (hs : s.Sane) : s.Passed p s' ∧ s'.Sane := by
  have hbuffer := h.inBuffer hs.toInBuffer
  have hmoves := h.advances.moves hs.toHeld
  obtain ⟨rfl, tail, hrest⟩ := h
  refine ⟨⟨hmoves, rfl, ?_, id⟩, ⟨hbuffer, hs.limit_le, hs.closest, hs.flag, hs.addressable⟩⟩
  rw [rest] at hrest
  refine ⟨tail ++ (s.buffer.drop s.current).drop (s.bufferEnd - s.current), ?_⟩
  rw [← List.append_assoc, ← hrest, List.take_append_drop]

variable {t u : CodedInputStream}

/-- A limit is pushed before the limit on all bytes. -/
theorem Sane.pushLimit (hs : s.Sane) (htotal : s.current ≤ totalBytesLimit)
    (hpush : s.pushLimit size = some (oldLimit, t)) : t.Sane ∧ t.bufferEnd ≤ totalBytesLimit := by
  obtain ⟨hsize, rfl, rfl⟩ := (pushLimit_eq_some hs.toHeld).mp hpush
  have hlimit := hs.limit_le
  have hheld : (s.relimited (s.current + size.toNat)).Held := held_relimited (by omega)
  refine ⟨⟨⟨?_, hheld.size⟩, hheld.limit_le, .inl rfl, hs.flag, hs.addressable⟩, min_le_right _ _⟩
  exact le_min (Nat.le_add_right _ _) htotal

/-- A message or a packed field between its limits. -/
theorem Passed.popLimit (hs : s.Sane) (hpush : s.pushLimit size = some (oldLimit, t)) (h : t.Passed p u)
    (hu : u.current ≤ u.bufferEnd) (hend : u.current = t.currentLimit) (ht : t.bufferEnd ≤ totalBytesLimit) :
    size = p.length ∧ s.Passed p (u.popLimit oldLimit) ∧ (u.popLimit oldLimit).Sane := by
  have hmoves := Moves.popLimit hs.toHeld hpush h.toMoves
  have htotal := h.closed ht
  obtain ⟨hsize, rfl, rfl⟩ := (pushLimit_eq_some hs.toHeld).mp hpush
  have hle : s.currentLimit ≤ u.buffer.length := by
    rw [h.buffer]
    exact hs.limit_le
  have hcurrent := h.current
  simp only [relimited] at hcurrent hend
  rw [popLimit_eq h.toHeld hle] at hmoves ⊢
  refine ⟨by omega, ⟨hmoves, hcurrent, h.bytes, fun _ => min_le_right _ _⟩, ?_⟩
  have haddressable : (u.buffer.length : ℤ) < phpIntMax := by
    rw [h.buffer]
    exact hs.addressable
  refine ⟨⟨le_min ?_ ?_, hmoves.size⟩, hle, .inl rfl, rfl, haddressable⟩
  · show u.current ≤ s.currentLimit
    omega
  · exact hu.trans htotal

end Passed

end Upb.Php.CodedInputStream
