import Upb.Hash.ExtTable
import Upb.Hash.IntTableInvariant
import Upb.Hash.StrTable

/-!
# The hash tables are finite maps

Every run of commands on a string, integer or extension table, from a fresh table on, keeps the
chained scatter invariant and answers every command as a finite map would, for every hash function.
The commands only abort, at the assertion in `emptyent`, after a caller has resized a table below
its load factor.
-/

namespace Upb

open Upb.Common (MapCmd MapOut LegalRun runCmds MeetsAll)

/-- What holds of every run of a table from its initial states. -/
structure FiniteMapRuns {σ ℓ ν : Type} [DecidableEq ℓ] (isInit : σ → Prop)
    (step : σ → MapCmd ℓ ν → Option (MapOut ℓ ν × σ)) (legal roomy : σ → MapCmd ℓ ν → Prop)
    (Inv : σ → Prop) (lookup : σ → ℓ → Option ν) (atLimit : σ → ℓ → Prop) : Prop where
  /-- A legal run that returns keeps the invariant and meets the finite map. -/
  meets : ∀ s₀ cs os s, isInit s₀ → LegalRun step legal s₀ cs → runCmds step s₀ cs = some (os, s) →
    Inv s ∧ MeetsAll (fun _ => none) cs os (lookup s)
  /-- After such a run a legal insertion refuses only at a size limit. -/
  refuses : ∀ s₀ cs os s l v s', isInit s₀ → LegalRun step legal s₀ cs →
    runCmds step s₀ cs = some (os, s) → legal s (.insert l v) →
    step s (.insert l v) = some (.flag false, s') → atLimit s l
  /-- A run whose resizes leave room returns. -/
  returns : ∀ s₀ cs, isInit s₀ → LegalRun step roomy s₀ cs → (runCmds step s₀ cs).isSome

/-- Runs of a table inherit what holds of its initial states and of its steps. -/
private theorem FiniteMapRuns.of_step {σ ℓ ν : Type} [DecidableEq ℓ] {isInit : σ → Prop}
    {step : σ → MapCmd ℓ ν → Option (MapOut ℓ ν × σ)} {legal roomy : σ → MapCmd ℓ ν → Prop}
    {Inv Loaded : σ → Prop} {lookup : σ → ℓ → Option ν} {atLimit : σ → ℓ → Prop}
    (hinit : ∀ s, isInit s → Inv s ∧ Loaded s ∧ lookup s = fun _ => none)
    (hmeets : ∀ s c o s', Inv s → legal s c → step s c = some (o, s') →
      Inv s' ∧ c.Meets (lookup s) o (lookup s'))
    (hrefuses : ∀ s l v s', Inv s → legal s (.insert l v) →
      step s (.insert l v) = some (.flag false, s') → atLimit s l)
    (hreturns : ∀ s c, Inv s ∧ Loaded s → roomy s c →
      ∃ o s', step s c = some (o, s') ∧ Inv s' ∧ Loaded s') :
    FiniteMapRuns isInit step legal roomy Inv lookup atLimit where
  meets s₀ cs os s h₀ hlegal hrun := by
    obtain ⟨hinv, -, hempty⟩ := hinit s₀ h₀
    rw [← hempty]
    exact Common.meetsAll_of_step hmeets hinv hlegal hrun
  refuses s₀ cs os s l v s' h₀ hlegal hrun hins hstep :=
    hrefuses s l v s' (Common.meetsAll_of_step hmeets (hinit s₀ h₀).1 hlegal hrun).1 hins hstep
  returns s₀ cs h₀ hroomy := by
    obtain ⟨hinv, hload, -⟩ := hinit s₀ h₀
    exact Common.runCmds_isSome hreturns ⟨hinv, hload⟩ hroomy

end Upb
