import Upb.Wire.DecodeSim
import Upb.Wire.LongerInput
import Upb.Wire.Refinement
import Upb.Wire.ShiftedInput

/-!
# Rounds of the field loop

A run of the decoder over an input is a sequence of rounds, one for each record. The rounds over the
first part of an input are the same whatever follows.
-/

namespace Upb.Wire

open Upb.Common

section Rounds

variable {σ : Type} (S : Stream σ) (cfg : DecodeConfig) (fuel : ℕ) (sub : SubDecoder σ) (depth : ℕ)
  (t : TableId)

/-- So many rounds of the loop, from a message and a stream to others. -/
inductive Rounds : ℕ → Decoding → σ → Decoding → σ → Prop
  | refl (d : Decoding) (s : σ) : Rounds 0 d s d s
  | step {k : ℕ} {d d₁ d' : Decoding} {s s₁ s₂ s' : σ} (hdone : S.isDone s = .ok (false, s₁))
      (hfield : decodeField S cfg fuel sub depth t d s₁ = .ok (.inl d₁, s₂))
      (hrest : Rounds k d₁ s₂ d' s') : Rounds (k + 1) d s d' s'

variable {S cfg fuel sub depth t}

theorem Rounds.trans {k k' : ℕ} {d d' d'' : Decoding} {s s' s'' : σ}
    (h : Rounds S cfg fuel sub depth t k d s d' s')
    (h' : Rounds S cfg fuel sub depth t k' d' s' d'' s'') :
    Rounds S cfg fuel sub depth t (k + k') d s d'' s'' := by
  induction h with
  | refl d s => rwa [Nat.zero_add]
  | step hdone hfield _ ih =>
    rw [Nat.add_right_comm]
    exact .step hdone hfield (ih h')

/-- The loop makes its rounds. -/
theorem Rounds.messageLoop_eq {k : ℕ} {d d' : Decoding} {s s' : σ}
    (h : Rounds S cfg fuel sub depth t k d s d' s') (n : ℕ) :
    messageLoop S cfg fuel sub depth t (k + n) d s = messageLoop S cfg fuel sub depth t n d' s' := by
  induction h with
  | refl d s => rw [Nat.zero_add]
  | step hdone hfield _ ih =>
    rw [Nat.add_right_comm, messageLoop, Prog.loop_of_not_done hdone, Prog.bind_of_ok hfield]
    exact ih

/-- A loop that comes to the end of its input is done after its rounds. -/
theorem exists_rounds {n : ℕ} {d d' : Decoding} {s s' : σ}
    (h : messageLoop S cfg fuel sub depth t n d s = .ok ((d', none), s')) :
    ∃ k s₁, k ≤ n ∧ Rounds S cfg fuel sub depth t k d s d' s₁ ∧ S.isDone s₁ = .ok (true, s') := by
  induction n generalizing d s with
  | zero =>
    rw [messageLoop, Prog.loop, Prog.bind_eq_ok] at h
    obtain ⟨done, s₁, hdone, h⟩ := h
    cases done with
    | false => cases h
    | true =>
      cases h
      exact ⟨0, s, le_rfl, .refl _ s, hdone⟩
  | succ n ih =>
    cases hd : S.isDone s with
    | error e =>
      rw [messageLoop, Prog.loop, Prog.bind_of_error hd] at h
      cases h
    | ok q =>
      obtain ⟨done, s₁⟩ := q
      cases done with
      | true =>
        rw [messageLoop, Prog.loop_of_done hd] at h
        cases h
        exact ⟨0, s, Nat.zero_le _, .refl _ s, hd⟩
      | false =>
        obtain ⟨k, res, s₂, hk, hfield, hres⟩ := Prog.loop_eq_ok hd h
        obtain rfl : n = k := by omega
        rcases hres with ⟨d₁, rfl, hloop⟩ | ⟨rfl, rfl⟩
        · obtain ⟨k, s₃, hk, hrounds, hdone⟩ := ih hloop
          exact ⟨k + 1, s₃, by omega, .step hd hfield hrounds, hdone⟩
        · -- a record that ends the loop leaves the number of its group
          rw [decodeField, Prog.bind_eq_ok] at hfield
          obtain ⟨_, _, -, hfield⟩ := hfield
          rw [Prog.bind_eq_ok] at hfield
          obtain ⟨tag, _, -, hfield⟩ := hfield
          split at hfield
          · cases hfield
          · rw [Prog.bind_eq_ok] at hfield
            obtain ⟨_, _, -, hfield⟩ := hfield
            cases hfield

end Rounds

section Simulation

variable {σ₁ σ₂ : Type} {S₁ : Stream σ₁} {S₂ : Stream σ₂} (sim : StreamSim S₁ S₂) {cfg : DecodeConfig}

/-- The rounds of a run are made by a run that simulates it. -/
theorem Rounds.simulated {fuel₁ fuel₂ calls depth k : ℕ} {t : TableId} {d d' : Decoding} {g : sim.Ghost}
    {s₁ : σ₁} {s₂ s₂' : σ₂} (hpast : ∀ g l s, l.phase ≠ .done → ¬ sim.past g l s)
    (hfuel : fuel₁ = fuel₂ ∨ (fuel₂ ≤ fuel₁ ∧ sim.free .outOfFuel))
    (hgood : ∀ calls, sim.GoodItems (decodeMessage S₂ cfg fuel₂ calls))
    (h : Rounds S₂ cfg fuel₂ (decodeMessage S₂ cfg fuel₂ calls) depth t k d s₂ d' s₂')
    (hrel : sim.rel g .base s₁ s₂) :
    ∃ s₁', Rounds S₁ cfg fuel₁ (decodeMessage S₁ cfg fuel₁ calls) depth t k d s₁ d' s₁' ∧
      sim.rel g .base s₁' s₂' := by
  induction h generalizing s₁ with
  | refl d s => exact ⟨s₁, .refl d s₁, hrel⟩
  | @step _ d _ _ _ s' _ _ hdone hfield _ ih =>
    have hout := (sim.isDone (l := .base) (by decide) (by decide)).rel _ _ _ hrel
    rw [hdone] at hout
    rcases hout with ⟨_, s₁', hdone', rfl, hrel'⟩ | ⟨-, h⟩
    swap
    · exact absurd h (hpast _ _ _ (by decide))
    have hround : sim.Triple Eq (.fresh .plain)
        (decodeField S₁ cfg fuel₁ (decodeMessage S₁ cfg fuel₁ calls) depth t d)
        (decodeField S₂ cfg fuel₂ (decodeMessage S₂ cfg fuel₂ calls) depth t d)
        (Simulation.roundLevel .base StreamSim.endLevel) :=
      decodeField_triple sim hfuel (decodeMessage_subSim sim hfuel hgood calls) (hgood calls) depth t d
    have hout := hround.rel g s₁' s' hrel'
    rw [hfield] at hout
    rcases hout with ⟨_, s₁'', hfield', rfl, hrel''⟩ | ⟨-, h⟩
    · obtain ⟨t₁, hrounds, hend⟩ := ih hrel''
      exact ⟨t₁, .step hdone' hfield' hrounds, hend⟩
    · exact absurd h (hpast _ _ _ nofun)

end Simulation

section Concat

variable {cfg : DecodeConfig} {fuel fuel' calls depth k : ℕ} {t : TableId} {d d' : Decoding}

theorem goodItems_longer (P : Prop) (sub : SubDecoder BoundedReader) : (longerSim P).GoodItems sub :=
  fun _ _ _ _ _ _ _ _ => trivial

theorem goodItems_shifted (sub : SubDecoder EpsCopyInputStream) : shiftedSim.GoodItems sub :=
  fun _ _ _ _ _ _ _ _ => trivial

/-- The rounds of the checked decoder are the same when more bytes follow. -/
theorem Rounds.longer {r₁ r₂ r₂' : BoundedReader} {more : List UInt8} (hfuel : fuel' ≤ fuel)
    (h : Rounds BoundedReader.stream cfg fuel' (decodeMessage BoundedReader.stream cfg fuel' calls)
      depth t k d r₂ d' r₂') (hrest : r₁.rest = r₂.rest ++ more) :
    ∃ r₁', Rounds BoundedReader.stream cfg fuel (decodeMessage BoundedReader.stream cfg fuel calls)
      depth t k d r₁ d' r₁' ∧ r₁'.rest = r₂'.rest ++ more := by
  have hrel : (longerSim True).rel more .base r₁ r₂ := ⟨hrest, fun _ => trivial, trivial⟩
  obtain ⟨r₁', hrounds, hrel'⟩ := h.simulated (longerSim True) (fun _ _ _ hl h => hl h.2.2)
    (.inr ⟨hfuel, .inr rfl⟩) (fun _ => goodItems_longer _ _) hrel
  exact ⟨r₁', hrounds, hrel'.rest⟩

/-- The rounds of the patch buffer decoder are those of the checked decoder. -/
theorem Rounds.lazy {N : ℕ} (hN : N ≤ int32Max) (hfuel : N ≤ fuel) {g : LazyChecks.Ghost}
    {e : EpsCopyInputStream} {r r' : BoundedReader}
    (h : Rounds BoundedReader.stream cfg fuel (decodeMessage BoundedReader.stream cfg fuel calls)
      depth t k d r d' r') (hrel : LazyChecks.Rel N g .base e r) :
    ∃ e', Rounds EpsCopyInputStream.stream cfg fuel
      (decodeMessage EpsCopyInputStream.stream cfg fuel calls) depth t k d e d' e' ∧
      LazyChecks.Rel N g .base e' r' :=
  h.simulated (lazySim N hN) (fun _ _ _ _ h => h) (.inl rfl) (goodItems_checked cfg hN hfuel) hrel

end Concat

end Upb.Wire
