import Upb.Wire.DecodeSim
import Upb.Wire.LazyChecks
import Upb.Wire.Progress

/-!
# The patch buffer decoder refines the checked decoder

The decoder over `upb_EpsCopyInputStream` accepts what the decoder over the checked reader accepts,
builds the same message and captures the same ranges of the input.
-/

namespace Upb.Wire

open Upb.Common

/-- What a call of `upb_Decode` shows: the message and the ranges of the input that it captured or
aliased. -/
structure Decoded where
  msg : Message
  ranges : List Range

/-- `upb_Decode` on the patch buffer stream; its loops have a round for every input byte. -/
def upbDecode (cfg : DecodeConfig) (maxDepth : ℕ) (t : TableId) (m : Message)
    (input : List UInt8) : Except DecodeError Decoded :=
  (decode EpsCopyInputStream.stream cfg input.length maxDepth t m (.init 0 input)).map
    fun (m, e) => ⟨m, e.log⟩

/-- `upb_Decode` on the checked reader. -/
def checkedDecode (cfg : DecodeConfig) (maxDepth : ℕ) (t : TableId) (m : Message)
    (input : List UInt8) : Except DecodeError Decoded :=
  (decode BoundedReader.stream cfg input.length maxDepth t m (.init 0 input)).map
    fun (m, r) => ⟨m, r.log⟩

/-- The decoder of message set items over the checked reader fails with codes only. -/
theorem goodItems_checked (cfg : DecodeConfig) {N fuel : ℕ} (hN : N ≤ int32Max) (hfuel : N ≤ fuel)
    (calls : ℕ) :
    (lazySim N hN).GoodItems (decodeMessage BoundedReader.stream cfg fuel calls) := by
  intro depth t m v₁ v₂ e hv he
  obtain ⟨rfl, hstart, hsize⟩ := hv
  have hlen : v₁.data.length ≤ fuel := by omega
  have hd := decodeTop_consumes (decodeMessage_consumes cfg calls) hlen depth t m
    (BoundedReader.stream.enter v₁) le_rfl
  rw [he] at hd
  exact hd

/-- A round of the field loop of both decoders, at the same place of an input. -/
theorem decodeField_lazy (cfg : DecodeConfig) {N fuel : ℕ} (hN : N ≤ int32Max) (hfuel : N ≤ fuel)
    (calls depth : ℕ) (t : TableId) (d : Decoding) {g : LazyChecks.Ghost} {e : EpsCopyInputStream}
    {r : BoundedReader} (hrel : LazyChecks.Rel N g (.fresh .plain) e r) :
    (lazySim N hN).Out Eq g (Simulation.roundLevel .base StreamSim.endLevel)
      (decodeField EpsCopyInputStream.stream cfg fuel
        (decodeMessage EpsCopyInputStream.stream cfg fuel calls) depth t d e)
      (decodeField BoundedReader.stream cfg fuel
        (decodeMessage BoundedReader.stream cfg fuel calls) depth t d r) := by
  have hgood := goodItems_checked cfg hN hfuel
  have hsub := decodeMessage_subSim (lazySim N hN) (.inl rfl) hgood calls
  have htriple : (lazySim N hN).Triple Eq (.fresh .plain)
      (decodeField EpsCopyInputStream.stream cfg fuel
        (decodeMessage EpsCopyInputStream.stream cfg fuel calls) depth t d)
      (decodeField BoundedReader.stream cfg fuel
        (decodeMessage BoundedReader.stream cfg fuel calls) depth t d)
      (Simulation.roundLevel .base StreamSim.endLevel) :=
    decodeField_triple (lazySim N hN) (.inl rfl) hsub (hgood calls) depth t d
  exact htriple.rel g e r hrel

/-- Both decoders on one input, with enough rounds: they accept with the same message and the same
ranges, all of them inside the input, or both fail with a code. -/
theorem decode_lazy (cfg : DecodeConfig) (maxDepth : ℕ) (t : TableId) (m : Message)
    {input : List UInt8} (hinput : input.length ≤ int32Max) {fuel : ℕ} (hfuel : input.length ≤ fuel) :
    match decode EpsCopyInputStream.stream cfg fuel maxDepth t m (.init 0 input),
      decode BoundedReader.stream cfg fuel maxDepth t m (.init 0 input) with
    | .ok (m₁, e), .ok (m₂, r) => m₁ = m₂ ∧ e.log = r.log ∧ ∀ x ∈ r.log, x.Inside input.length
    | .error d₁, .error d₂ => IsCode d₁ ∧ IsCode d₂
    | _, _ => False := by
  have htriple := decode_triple (lazySim input.length hinput) (.inl rfl)
    (goodItems_checked cfg hinput hfuel) maxDepth t m
  have hinit := (lazySim input.length hinput).rel_anti (Level.base_le (by decide))
    (LazyChecks.rel_init hinput (v := ⟨0, input⟩) le_rfl (by simp))
  have hout := htriple.rel _ _ _ hinit
  have hcode : ∀ d, decode BoundedReader.stream cfg fuel maxDepth t m (.init 0 input) = .error d →
      IsCode d := fun d hd => decode_isCode hfuel hd
  change (lazySim input.length hinput).Out _ _ _
    (decode EpsCopyInputStream.stream cfg fuel maxDepth t m (.init 0 input))
    (decode BoundedReader.stream cfg fuel maxDepth t m (.init 0 input)) at hout
  cases hr : decode BoundedReader.stream cfg fuel maxDepth t m (.init 0 input) with
  | error d =>
    rw [hr] at hout
    rcases hout with he | ⟨-, ha⟩ | hfree
    · rw [he]
      exact ⟨hcode d hr, hcode d hr⟩
    · obtain ⟨d', he, hd'⟩ := LazyChecks.aheadOut_atLimit ha
      rw [he]
      exact ⟨hd', hcode d hr⟩
    · exact hfree.elim
  | ok q =>
    rw [hr] at hout
    rcases hout with ⟨m₁, e, he, hm, hrel⟩ | ⟨-, hpast⟩
    · rw [he]
      exact ⟨hm, hrel.log_eq, hrel.log_inside⟩
    · exact hpast.elim

/-- The patch buffer decoder accepts exactly what the checked decoder accepts, with the same
result. -/
theorem upbDecode_eq_ok_iff (cfg : DecodeConfig) (maxDepth : ℕ) (t : TableId) (m : Message)
    {input : List UInt8} (hinput : input.length ≤ int32Max) {d : Decoded} :
    upbDecode cfg maxDepth t m input = .ok d ↔ checkedDecode cfg maxDepth t m input = .ok d := by
  have h := decode_lazy cfg maxDepth t m hinput le_rfl
  rw [upbDecode, checkedDecode]
  revert h
  cases decode EpsCopyInputStream.stream cfg input.length maxDepth t m (.init 0 input) with
  | error d₁ =>
    cases decode BoundedReader.stream cfg input.length maxDepth t m (.init 0 input) with
    | error d₂ => exact fun _ => ⟨nofun, nofun⟩
    | ok q => exact fun h => h.elim
  | ok p =>
    cases decode BoundedReader.stream cfg input.length maxDepth t m (.init 0 input) with
    | error d₂ => exact fun h => h.elim
    | ok q =>
      rintro ⟨hmsg, hlog, -⟩
      have heq : (⟨p.1, p.2.log⟩ : Decoded) = ⟨q.1, q.2.log⟩ := by rw [hmsg, hlog]
      change Except.ok (⟨p.1, p.2.log⟩ : Decoded) = _ ↔ Except.ok (⟨q.1, q.2.log⟩ : Decoded) = _
      rw [heq]

/-- The captured and aliased ranges lie inside the input. -/
theorem upbDecode_ranges_inside {cfg : DecodeConfig} {maxDepth : ℕ} {t : TableId} {m : Message}
    {input : List UInt8} (hinput : input.length ≤ int32Max) {d : Decoded}
    (hd : upbDecode cfg maxDepth t m input = .ok d) : ∀ x ∈ d.ranges, x.Inside input.length := by
  have h := decode_lazy cfg maxDepth t m hinput le_rfl
  rw [upbDecode_eq_ok_iff cfg maxDepth t m hinput, checkedDecode] at hd
  revert h hd
  cases decode EpsCopyInputStream.stream cfg input.length maxDepth t m (.init 0 input) <;>
    cases decode BoundedReader.stream cfg input.length maxDepth t m (.init 0 input)
  · exact nofun
  · exact fun _ h => h.elim
  · exact fun _ h => h.elim
  · rintro hd ⟨-, -, hinside⟩
    cases hd
    exact hinside

/-- The decoder does not read out of bounds. -/
theorem upbDecode_isCode {cfg : DecodeConfig} {maxDepth : ℕ} {t : TableId} {m : Message}
    {input : List UInt8} (hinput : input.length ≤ int32Max) {e : DecodeError}
    (he : upbDecode cfg maxDepth t m input = .error e) : IsCode e := by
  have h := decode_lazy cfg maxDepth t m hinput le_rfl
  rw [upbDecode] at he
  revert h he
  cases decode EpsCopyInputStream.stream cfg input.length maxDepth t m (.init 0 input) <;>
    cases decode BoundedReader.stream cfg input.length maxDepth t m (.init 0 input)
  · rintro he ⟨h, -⟩
    cases he
    exact h
  · exact fun _ h => h.elim
  · exact fun _ h => h.elim
  · exact nofun

/-- The patch buffer decoder accepts exactly what the checked decoder accepts, with the same message
and the same captured and aliased ranges, which lie inside the input; and otherwise it fails with a
code: it never reads out of bounds. -/
theorem upbDecode_refines_checkedDecode (cfg : DecodeConfig) (maxDepth : ℕ) (t : TableId) (m : Message)
    (input : List UInt8) (hinput : input.length ≤ int32Max) :
    (∀ d, upbDecode cfg maxDepth t m input = .ok d ↔ checkedDecode cfg maxDepth t m input = .ok d) ∧
      (∀ d, upbDecode cfg maxDepth t m input = .ok d → ∀ x ∈ d.ranges, x.Inside input.length) ∧
      ∀ e, upbDecode cfg maxDepth t m input = .error e → IsCode e :=
  ⟨fun _ => upbDecode_eq_ok_iff cfg maxDepth t m hinput, fun _ => upbDecode_ranges_inside hinput,
    fun _ => upbDecode_isCode hinput⟩

/-- A table with a message field of its own type and a bytes field, on a 64-bit platform. -/
def nestedConfig : DecodeConfig where
  schema :=
    { table := fun _ => ⟨[⟨1, 16, 64, 0, .message, ⟨.scalar, false, false, false, .rep8Byte⟩⟩,
        ⟨2, 24, 65, noSub, .bytes, ⟨.scalar, false, false, false, .repStringView⟩⟩], 2, 40,
        ⟨false, false, false⟩, 2, 0⟩
      sub := fun _ i => if i = 0 then .submsg 0 else .null
      ext := fun _ => ⟨⟨1, 0, 0, 0, .int32, ⟨.scalar, false, true, false, .rep4Byte⟩⟩, .null⟩
      extreg := none }
  hash := ⟨fun _ => 0, fun _ => 0⟩
  validUtf8 := fun _ => true
  checkRequired := false
  alwaysValidateUtf8 := false

/-- A sub-message of 18 bytes, in the middle of which the stream flips to its patch buffer. -/
theorem upbDecode_refines_checkedDecode_nested :
    (upbDecode nestedConfig 0 0 .new ([10, 18, 18, 16] ++ List.replicate 16 7)).toOption.map
        Decoded.ranges = some [⟨4, 16⟩] ∧
      ∀ d, upbDecode nestedConfig 0 0 .new ([10, 18, 18, 16] ++ List.replicate 16 7) = .ok d ↔
        checkedDecode nestedConfig 0 0 .new ([10, 18, 18, 16] ++ List.replicate 16 7) = .ok d :=
  ⟨by decide +kernel, (upbDecode_refines_checkedDecode nestedConfig 0 0 .new
    ([10, 18, 18, 16] ++ List.replicate 16 7) (by decide)).1⟩

end Upb.Wire
