import Upb.Wire.Rounds

/-!
# Decoding a concatenation

Having come to the end of a first part of its input, the decoder goes on as a new call of `upb_Decode`
on the rest does: it reads the same bytes, although the two streams flip into their patch buffers at
different places.
-/

namespace Upb.Wire

open Upb.Common EpsCopyInputStream

section Resume

variable {e : EpsCopyInputStream}

/-- Under the outermost limit, `IsDone` leaves the stream in the patch buffer if and only if no more
than sixteen bytes are left. -/
theorem EpsCopyInputStream.Wf.isDone_outermost (h : Wf e) (hroom : e.ptr ≤ e.stop + 16)
    (hlimit : e.limitPos = e.buffer.length) (hlt : e.pos < e.buffer.length) :
    ∃ e', isDone e = .ok (false, e') ∧ Wf e' ∧ e'.buffer = e.buffer ∧ e'.pos = e.pos ∧
      e'.limitPos = e.limitPos ∧ e'.ptr ≤ e'.stop ∧
      e'.inPatch = decide (e.buffer.length - e.pos ≤ 16) := by
  have htotal := h.total
  have hlp := h.limitPtr_eq
  have hptr := h.ptr_nonneg
  rw [limitPos] at hlimit
  rw [pos] at hlt
  rw [h.isDone_eq hroom]
  cases hp : e.inPatch with
  | true =>
    have htail := tailBytes_of_patched hp
    have hstop := (h.patched hp).1
    rw [if_pos (by omega)]
    refine ⟨e, rfl, h, rfl, rfl, rfl, by omega, ?_⟩
    rw [hp, pos]
    exact (decide_eq_true (by omega)).symm
  | false =>
    have htail := tailBytes_of_unpatched hp
    have hdelta := h.unpatched hp
    by_cases hfar : e.ptr < e.limitPtr
    · rw [if_pos hfar]
      refine ⟨e, rfl, h, rfl, rfl, rfl, by omega, ?_⟩
      rw [hp, pos]
      exact (decide_eq_false (by omega)).symm
    · have hover : e.ptr - e.stop < e.limit := by omega
      obtain ⟨hwf, hpos, hlimit', hstop⟩ := h.flip hp hover (by omega)
      rw [if_neg hfar, if_neg (by omega), if_pos hover]
      refine ⟨_, rfl, hwf, rfl, hpos, hlimit', hstop, ?_⟩
      rw [pos]
      exact (decide_eq_true (by omega)).symm

/-- The stream in the middle of an input, and a new one on the rest. -/
theorem ShiftedInput.rel_rest {a b : List UInt8} {e₁ e₂ : EpsCopyInputStream} (h₁ : Wf e₁) (h₂ : Wf e₂)
    (hbuffer₁ : e₁.buffer = a ++ b) (hbuffer₂ : e₂.buffer = b) (hpos₁ : e₁.pos = a.length)
    (hpos₂ : e₂.pos = 0) (hlimit₁ : e₁.limitPos = (a ++ b).length) (hlimit₂ : e₂.limitPos = b.length)
    (hpatch : e₁.inPatch = e₂.inPatch) (hroom : e₂.ptr ≤ e₂.stop) :
    ShiftedInput.Rel ⟨a, b, b.length⟩ (.fresh .plain) e₁ e₂ := by
  have htail : e₁.tailBytes = e₂.tailBytes := by rw [tailBytes, tailBytes, hpatch]
  have htotal₁ := h₁.total
  have htotal₂ := h₂.total
  rw [hbuffer₁, List.length_append] at htotal₁
  rw [List.length_append] at hlimit₁
  rw [hbuffer₂] at htotal₂
  simp only [pos, limitPos] at hpos₁ hpos₂ hlimit₁ hlimit₂
  refine ⟨h₁, h₂, hbuffer₁, hbuffer₂, hpatch, by omega, by omega, ?_, ?_, trivial⟩
  · simp only [limitPos]
    omega
  · change e₂.ptr + (16 : ℕ) ≤ _
    omega

end Resume

section Loop

variable (cfg : DecodeConfig) (calls depth : ℕ) (t : TableId) (d : Decoding) {fuel₁ fuel₂ n₁ n₂ : ℕ}

/-- The loop over the rest of an input and the loop over a new stream on that rest: the same message
or the same error, unless the second one runs out of rounds. -/
theorem messageLoop_rest {a b : List UInt8} {e : EpsCopyInputStream} (hfuel : fuel₂ ≤ fuel₁)
    (hn : n₂ ≤ n₁) (hwf : Wf e) (hroom : e.ptr ≤ e.stop + 16) (hbuffer : e.buffer = a ++ b)
    (hpos : e.pos = a.length) (hlimit : e.limitPos = (a ++ b).length) :
    match messageLoop stream cfg fuel₂ (decodeMessage stream cfg fuel₂ calls) depth t n₂ d (.init 0 b)
      with
    | .ok (v, _) => ∃ e', messageLoop stream cfg fuel₁ (decodeMessage stream cfg fuel₁ calls) depth t
        n₁ d e = .ok (v, e')
    | .error x => x = .outOfFuel ∨ messageLoop stream cfg fuel₁
        (decodeMessage stream cfg fuel₁ calls) depth t n₁ d e = .error x := by
  have hsize : b.length ≤ int32Max := by
    have := hwf.size_le
    rw [hbuffer, List.length_append] at this
    omega
  obtain ⟨hwf₂, hpos₂, hlimit₂, hroom₂⟩ := wf_init 0 hsize
  have hbuffer₂ : (init 0 b).buffer = b := by
    rw [init]
    split <;> rfl
  rcases eq_or_ne b [] with rfl | hb
  · -- both are done
    have hdone : ∀ e' : EpsCopyInputStream, Wf e' → e'.ptr ≤ e'.stop + 16 → e'.pos = e'.limitPos →
        stream.isDone e' = .ok (true, e') := by
      intro e' hwf' hroom' hend
      rcases isDone_cases hwf' hroom' with ⟨-, h⟩ | ⟨h, -⟩ | ⟨h, -⟩
      · exact h
      · omega
      · omega
    rw [List.append_nil] at hlimit
    rw [messageLoop, messageLoop, Prog.loop_of_done (hdone _ hwf₂ (by omega) (by rw [hpos₂, hlimit₂]; rfl)),
      Prog.loop_of_done (hdone e hwf hroom (by omega))]
    exact ⟨e, rfl⟩
  · have hlen : 0 < b.length := List.length_pos_iff.mpr hb
    obtain ⟨e₁, hdone₁, hwf₁', hbuffer₁', hpos₁', hlimit₁', -, hpatch₁⟩ :=
      hwf.isDone_outermost hroom (by rw [hlimit, hbuffer])
        (by rw [hpos, hbuffer, List.length_append]; omega)
    obtain ⟨e₂, hdone₂, hwf₂', hbuffer₂', hpos₂', hlimit₂', hroom₂', hpatch₂⟩ :=
      hwf₂.isDone_outermost (by omega) (by rw [hlimit₂, hbuffer₂]) (by rw [hpos₂, hbuffer₂]; omega)
    have hrel : ShiftedInput.Rel ⟨a, b, b.length⟩ (.fresh .plain) e₁ e₂ := by
      refine ShiftedInput.rel_rest hwf₁' hwf₂' (hbuffer₁'.trans hbuffer) (hbuffer₂'.trans hbuffer₂)
        (hpos₁'.trans hpos) (hpos₂'.trans hpos₂) (hlimit₁'.trans hlimit) (hlimit₂'.trans hlimit₂) ?_
        hroom₂'
      rw [hpatch₁, hpatch₂, hbuffer, hbuffer₂, hpos, hpos₂, List.length_append]
      exact decide_eq_decide.mpr (by push_cast; omega)
    have hfuel' : fuel₁ = fuel₂ ∨ (fuel₂ ≤ fuel₁ ∧ shiftedSim.free .outOfFuel) := .inr ⟨hfuel, rfl⟩
    have hgood : ∀ calls, shiftedSim.GoodItems (decodeMessage stream cfg fuel₂ calls) :=
      fun _ => goodItems_shifted _
    have hsub := decodeMessage_subSim shiftedSim hfuel' hgood calls
    have hout : shiftedSim.Out Eq ⟨a, b, b.length⟩ StreamSim.endLevel
        (messageLoop stream cfg fuel₁ (decodeMessage stream cfg fuel₁ calls) depth t n₁ d e)
        (messageLoop stream cfg fuel₂ (decodeMessage stream cfg fuel₂ calls) depth t n₂ d (.init 0 b)) :=
      Simulation.Triple.loop_of_not_done Eq (shiftedSim.isDone (l := .base) (by decide) (by decide))
        (fun _ _ h => h.elim) (fun _ _ h => .pure (congrArg (fun d => (d, none)) h) le_rfl)
        (fieldRound_triple shiftedSim hfuel' hsub (hgood calls) depth t) ⟨hn, rfl⟩ rfl hdone₁ hdone₂ hrel
    cases hright : messageLoop stream cfg fuel₂ (decodeMessage stream cfg fuel₂ calls) depth t n₂ d
      (.init 0 b) with
    | error x =>
      rw [hright] at hout
      rcases hout with h | ⟨h, -⟩ | h
      · exact .inr h
      · exact h.elim
      · exact .inl h
    | ok q =>
      rw [hright] at hout
      rcases hout with ⟨_, e', h, rfl, -⟩ | ⟨-, h⟩
      · exact ⟨e', h⟩
      · exact h.elim

end Loop

section Decode

variable {σ : Type} {S : Stream σ} {cfg : DecodeConfig} {maxDepth : ℕ} {t : TableId} {m m' : Message}

/-- What `upb_Decode` makes of the end of its loop. -/
def decodeEnd (cfg : DecodeConfig) (t : TableId) : Decoding × Option ℕ → Except DecodeError Message
  | (_, some _) => .error .malformed
  | (d, none) =>
    if checkRequired cfg t d.msg d.missingRequired then .error .missingRequired else .ok d.msg

/-- A call of `upb_Decode` is one loop. -/
theorem decode_eq_messageLoop (fuel : ℕ) (s : σ) :
    (decode S cfg fuel maxDepth t m s).map Prod.fst =
      (messageLoop S cfg fuel (decodeMessage S cfg fuel (effectiveMaxDepth maxDepth))
        (effectiveMaxDepth maxDepth) t fuel ⟨m, false⟩ s).map Prod.fst >>= decodeEnd cfg t := by
  rw [decode, decodeTop, Prog.bind_apply, decodeMessage_succ, Prog.bind_apply]
  cases messageLoop S cfg fuel (decodeMessage S cfg fuel (effectiveMaxDepth maxDepth))
    (effectiveMaxDepth maxDepth) t fuel ⟨m, false⟩ s with
  | error e => rfl
  | ok q =>
    obtain ⟨⟨d, endGroup⟩, s'⟩ := q
    cases endGroup with
    | some number => rfl
    | none =>
      by_cases h : checkRequired cfg t d.msg d.missingRequired = true
      · simp [decodeEnd, messageEnd, h, Except.map, Bind.bind, Except.bind]
      · simp [decodeEnd, messageEnd, h, Except.map, Bind.bind, Except.bind]

/-- A message whose required fields were missing in a part is not accepted. -/
theorem decodeEnd_eq_ok {r : Decoding × Option ℕ} (h : decodeEnd cfg t r = .ok m') :
    r = (⟨m', false⟩, none) := by
  obtain ⟨⟨msg, missing⟩, endGroup⟩ := r
  cases endGroup with
  | some number => cases h
  | none =>
    rw [decodeEnd] at h
    split at h
    · cases h
    · next hreq =>
      cases h
      rw [checkRequired] at hreq
      cases missing with
      | false => rfl
      | true =>
        exfalso
        revert hreq
        split <;> simp

theorem upbDecode_map_msg (cfg : DecodeConfig) (maxDepth : ℕ) (t : TableId) (m : Message)
    (a : List UInt8) :
    (upbDecode cfg maxDepth t m a).map Decoded.msg =
      (messageLoop stream cfg a.length (decodeMessage stream cfg a.length (effectiveMaxDepth maxDepth))
        (effectiveMaxDepth maxDepth) t a.length ⟨m, false⟩ (.init 0 a)).map Prod.fst >>=
          decodeEnd cfg t := by
  rw [← decode_eq_messageLoop, upbDecode]
  cases decode stream cfg a.length maxDepth t m (.init 0 a) <;> rfl

theorem checkedDecode_map_msg (cfg : DecodeConfig) (maxDepth : ℕ) (t : TableId) (m : Message)
    (a : List UInt8) :
    (checkedDecode cfg maxDepth t m a).map Decoded.msg =
      (messageLoop BoundedReader.stream cfg a.length
        (decodeMessage BoundedReader.stream cfg a.length (effectiveMaxDepth maxDepth))
        (effectiveMaxDepth maxDepth) t a.length ⟨m, false⟩ (.init 0 a)).map Prod.fst >>=
          decodeEnd cfg t := by
  rw [← decode_eq_messageLoop, checkedDecode]
  cases decode BoundedReader.stream cfg a.length maxDepth t m (.init 0 a) <;> rfl

/-- The rounds of a call of `upb_Decode` that accepts its input. -/
theorem exists_rounds_of_upbDecode {a : List UInt8} {d : Decoded} (ha : a.length ≤ int32Max)
    (h : upbDecode cfg maxDepth t m a = .ok d) :
    ∃ k r, k ≤ a.length ∧ r.rest = [] ∧ Rounds BoundedReader.stream cfg a.length
      (decodeMessage BoundedReader.stream cfg a.length (effectiveMaxDepth maxDepth))
      (effectiveMaxDepth maxDepth) t k ⟨m, false⟩ (.init 0 a) ⟨d.msg, false⟩ r := by
  rw [upbDecode_eq_ok_iff cfg maxDepth t m ha] at h
  have hmap := checkedDecode_map_msg cfg maxDepth t m a
  rw [h] at hmap
  cases hloop : messageLoop BoundedReader.stream cfg a.length
      (decodeMessage BoundedReader.stream cfg a.length (effectiveMaxDepth maxDepth))
      (effectiveMaxDepth maxDepth) t a.length ⟨m, false⟩ (.init 0 a) with
  | error e =>
    rw [hloop] at hmap
    cases hmap
  | ok q =>
    rw [hloop] at hmap
    obtain ⟨res, r'⟩ := q
    obtain rfl := decodeEnd_eq_ok hmap.symm
    obtain ⟨k, r, hk, hrounds, hdone⟩ := exists_rounds hloop
    refine ⟨k, r, hk, ?_, hrounds⟩
    have hempty : BoundedReader.stream.isDone r = .ok (r.rest.isEmpty, r) := rfl
    rw [hempty] at hdone
    exact List.isEmpty_iff.mp (congrArg Prod.fst (Except.ok.inj hdone))

/-- Decoding a concatenation is decoding the second part into the message of the first. -/
theorem upbDecode_append {a b : List UInt8} {d : Decoded} (hab : (a ++ b).length ≤ int32Max)
    (h : upbDecode cfg maxDepth t m a = .ok d) :
    (upbDecode cfg maxDepth t m (a ++ b)).map Decoded.msg =
      (upbDecode cfg maxDepth t d.msg b).map Decoded.msg := by
  have hlen : (a ++ b).length = a.length + b.length := List.length_append
  obtain ⟨k, r, hk, hnil, hrounds⟩ := exists_rounds_of_upbDecode (by omega) h
  -- the rounds over the first part, on the whole input and over the patch buffer stream
  obtain ⟨r', hrounds', hrest⟩ := hrounds.longer (show a.length ≤ (a ++ b).length by omega)
    (show (BoundedReader.init 0 (a ++ b)).rest = (BoundedReader.init 0 a).rest ++ b from rfl)
  rw [hnil, List.nil_append] at hrest
  have hinit : LazyChecks.Rel (a ++ b).length ⟨a ++ b, 0, (a ++ b).length⟩ .base (.init 0 (a ++ b))
      (.init 0 (a ++ b)) :=
    (lazySim (a ++ b).length hab).rel_anti (Level.base_le (by decide))
      (LazyChecks.rel_init hab (v := ⟨0, a ++ b⟩) le_rfl (by simp))
  obtain ⟨e, hlazy, hrel⟩ := hrounds'.lazy hab le_rfl hinit
  have hpos : e.pos = a.length := by
    have := hrel.length_rest
    rw [hrest] at this
    simp only at this
    omega
  -- the rest of the loop
  obtain ⟨n, hn⟩ := Nat.exists_eq_add_of_le (show k ≤ (a ++ b).length by omega)
  have hloop : messageLoop stream cfg (a ++ b).length
      (decodeMessage stream cfg (a ++ b).length (effectiveMaxDepth maxDepth))
      (effectiveMaxDepth maxDepth) t (a ++ b).length ⟨m, false⟩ (.init 0 (a ++ b)) =
        messageLoop stream cfg (a ++ b).length
          (decodeMessage stream cfg (a ++ b).length (effectiveMaxDepth maxDepth))
          (effectiveMaxDepth maxDepth) t n ⟨d.msg, false⟩ e := by
    rw [← hlazy.messageLoop_eq n, ← hn]
  have hroom := hrel.core.room
  rw [Level.base, Nat.cast_zero, Int.add_zero] at hroom
  have hright := messageLoop_rest cfg (effectiveMaxDepth maxDepth) (effectiveMaxDepth maxDepth) t
    ⟨d.msg, false⟩ (show b.length ≤ (a ++ b).length by omega) (show b.length ≤ n by omega)
    hrel.core.wf hroom hrel.core.buffer hpos hrel.core.limitPos
  rw [upbDecode_map_msg, upbDecode_map_msg, hloop]
  cases hres : messageLoop stream cfg b.length
      (decodeMessage stream cfg b.length (effectiveMaxDepth maxDepth)) (effectiveMaxDepth maxDepth) t
      b.length ⟨d.msg, false⟩ (.init 0 b) with
  | ok q =>
    rw [hres] at hright
    obtain ⟨e', hleft⟩ := hright
    rw [hleft]
    rfl
  | error x =>
    rw [hres] at hright
    rcases hright with rfl | hleft
    · -- a call of `upb_Decode` does not run out of rounds
      exfalso
      have hmap := upbDecode_map_msg cfg maxDepth t d.msg b
      rw [hres] at hmap
      cases hb : upbDecode cfg maxDepth t d.msg b with
      | ok d' =>
        rw [hb] at hmap
        cases hmap
      | error x =>
        rw [hb] at hmap
        cases hmap
        exact (upbDecode_isCode (show b.length ≤ int32Max by omega) hb).2 rfl
    · rw [hleft]

end Decode

end Upb.Wire
