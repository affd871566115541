import Mathlib.Data.Nat.Notation
import Mathlib.Logic.Function.Basic

/-!
# Runs of commands on a finite map

A finite map from `ℓ` to `ν` is a function `ℓ → Option ν`. `MapCmd.Meets m c out m'` is what the
command `c` on the map `m` may return and leave behind. An implementation executes one command by a
step function that may abort; if every step meets the command on the map that the state stands for,
then so does every run.
-/

namespace Upb.Common

variable {ℓ ν σ : Type}

/-- A command on a finite map. -/
inductive MapCmd (ℓ ν : Type) where
  | insert (l : ℓ) (v : ν)
  | remove (l : ℓ)
  | lookup (l : ℓ)
  | replace (l : ℓ) (v : ν)
  | resize (n : ℕ)
  | clear
  | iterate

/-- What a command returns. -/
inductive MapOut (ℓ ν : Type) where
  | flag (ok : Bool)
  | value (v : Option ν)
  | pairs (es : List (ℓ × ν))

/-- The command `c` on `m` may return `out` and leave `m'`. An insertion may refuse, and then changes
nothing; an iteration lists every key exactly once. -/
def MapCmd.Meets [DecidableEq ℓ] (m : ℓ → Option ν) (c : MapCmd ℓ ν) (out : MapOut ℓ ν)
    (m' : ℓ → Option ν) : Prop :=
  match c, out with
  | .insert l v, .flag ok => m' = if ok then Function.update m l (some v) else m
  | .remove l, .value o => o = m l ∧ m' = Function.update m l none
  | .lookup l, .value o => o = m l ∧ m' = m
  | .replace l v, .flag ok =>
    ok = (m l).isSome ∧ m' = if ok then Function.update m l (some v) else m
  | .resize _, .flag _ => m' = m
  | .clear, .flag ok => ok = true ∧ m' = fun _ => none
  | .iterate, .pairs es =>
    (es.map Prod.fst).Nodup ∧ (∀ l v, (l, v) ∈ es ↔ m l = some v) ∧ m' = m
  | _, _ => False

/-- Every command of a run meets its map. -/
def MeetsAll [DecidableEq ℓ] (m : ℓ → Option ν) :
    List (MapCmd ℓ ν) → List (MapOut ℓ ν) → (ℓ → Option ν) → Prop
  | [], [], m' => m' = m
  | c :: cs, o :: os, m'' => ∃ m', c.Meets m o m' ∧ MeetsAll m' cs os m''
  | _, _, _ => False

/-- The run of a list of commands; `none` when one of them aborts. -/
def runCmds (step : σ → MapCmd ℓ ν → Option (MapOut ℓ ν × σ)) :
    σ → List (MapCmd ℓ ν) → Option (List (MapOut ℓ ν) × σ)
  | s, [] => some ([], s)
  | s, c :: cs => (step s c).bind fun (o, s') => (runCmds step s' cs).map fun (os, s'') => (o :: os, s'')

/-- Every command of a run is legal in the state that it is executed in. -/
def LegalRun (step : σ → MapCmd ℓ ν → Option (MapOut ℓ ν × σ)) (legal : σ → MapCmd ℓ ν → Prop) :
    σ → List (MapCmd ℓ ν) → Prop
  | _, [] => True
  | s, c :: cs => legal s c ∧ ∀ o s', step s c = some (o, s') → LegalRun step legal s' cs

section Run

variable {step : σ → MapCmd ℓ ν → Option (MapOut ℓ ν × σ)} {legal : σ → MapCmd ℓ ν → Prop}
  {Inv : σ → Prop} {abs : σ → ℓ → Option ν}

/-- A run whose steps keep the invariant and meet their commands does so as a whole. -/
theorem meetsAll_of_step [DecidableEq ℓ]
    (hstep : ∀ s c o s', Inv s → legal s c → step s c = some (o, s') →
      Inv s' ∧ c.Meets (abs s) o (abs s'))
    {s s' : σ} {cs : List (MapCmd ℓ ν)} {os : List (MapOut ℓ ν)} (hinv : Inv s)
    (hlegal : LegalRun step legal s cs) (hrun : runCmds step s cs = some (os, s')) :
    Inv s' ∧ MeetsAll (abs s) cs os (abs s') := by
  induction cs generalizing s os with
  | nil =>
    cases hrun
    exact ⟨hinv, rfl⟩
  | cons c cs ih =>
    obtain ⟨⟨o, s₁⟩, hs₁, hrest⟩ := Option.bind_eq_some_iff.mp hrun
    obtain ⟨⟨os', s₂⟩, hrun', heq⟩ := Option.map_eq_some_iff.mp hrest
    cases heq
    obtain ⟨hinv₁, hmeets⟩ := hstep s c o s₁ hinv hlegal.1 hs₁
    obtain ⟨hinv', hall⟩ := ih hinv₁ (hlegal.2 o s₁ hs₁) hrun'
    exact ⟨hinv', abs s₁, hmeets, hall⟩

/-- A run whose steps return, and keep what they need to return, returns. -/
theorem runCmds_isSome
    (hstep : ∀ s c, Inv s → legal s c → ∃ o s', step s c = some (o, s') ∧ Inv s')
    {s : σ} {cs : List (MapCmd ℓ ν)} (hinv : Inv s) (hlegal : LegalRun step legal s cs) :
    (runCmds step s cs).isSome := by
  induction cs generalizing s with
  | nil => rfl
  | cons c cs ih =>
    obtain ⟨o, s₁, hs₁, hinv₁⟩ := hstep s c hinv hlegal.1
    obtain ⟨⟨os, s₂⟩, hrun⟩ := Option.isSome_iff_exists.mp (ih hinv₁ (hlegal.2 o s₁ hs₁))
    simp [runCmds, hs₁, hrun]

end Run

end Upb.Common
