import Upb.Wire.InputStream

/-!
# The wire format reader

`upb/wire/reader.h` and `upb/wire/reader.c`: tags, varints, sizes, and the recursive skipping of
values and groups, over any stream.
-/

namespace Upb.Wire

open Upb.Common (Prog)

/-- `upb_WireType`. -/
inductive WireType where
  | varint | bit64 | delimited | startGroup | endGroup | bit32
  deriving DecidableEq

/-- The three bits of a wire type in a tag. -/
def WireType.toNat : WireType → ℕ
  | .varint => 0
  | .bit64 => 1
  | .delimited => 2
  | .startGroup => 3
  | .endGroup => 4
  | .bit32 => 5

/-- `upb_WireReader_GetWireType`; two of the eight values are no wire type. -/
def getWireType (tag : ℕ) : Option WireType :=
  match tag % 8 with
  | 0 => some .varint
  | 1 => some .bit64
  | 2 => some .delimited
  | 3 => some .startGroup
  | 4 => some .endGroup
  | 5 => some .bit32
  | _ => none

/-- `upb_WireReader_GetFieldNumber`. -/
def getFieldNumber (tag : ℕ) : ℕ := tag / 8

/-- A tag, a 32-bit value. -/
def makeTag (number : ℕ) (wireType : WireType) : ℕ := number * 8 % 2 ^ 32 + wireType.toNat

/-- `INT32_MAX`. -/
def int32Max : ℕ := 2 ^ 31 - 1

section

variable {σ : Type} (S : Stream σ)

/-- `upb_WireReader_ReadVarint`. -/
def readVarint : Reading σ ℕ := S.readLong 10 (2 ^ 64 - 1)

/-- `upb_WireReader_ReadTag`. -/
def readTag : Reading σ ℕ := S.readLong 5 (2 ^ 32 - 1)

/-- `upb_WireReader_ReadSize`. -/
def readSize : Reading σ ℕ := S.readLong 5 int32Max

/-- `_upb_WireReader_SkipValue`, with the function that skips a group. -/
def skipValue (skipGroup : ℕ → Reading σ Unit) (tag : ℕ) : Reading σ Unit :=
  match getWireType tag with
  | some .varint => do let _ ← readVarint S
  | some .bit32 => S.skip 4
  | some .bit64 => S.skip 8
  | some .delimited => do
    let size ← readSize S
    S.skipDelimited size
  | some .startGroup => skipGroup tag
  | some .endGroup => throw .malformed
  | none => throw .malformed

/-- `_upb_WireReader_SkipGroup`; each of its loops has `fuel` rounds. -/
def skipGroup (fuel : ℕ) : (depthLimit : ℕ) → (tag : ℕ) → Reading σ Unit
  | 0, _ => throw .malformed
  | depthLimit + 1, tag =>
    let endGroupTag := tag / 8 * 8 + WireType.endGroup.toNat
    Prog.loop S.isDone .outOfFuel
      (fun _ => do
        let tag ← readTag S
        if tag = endGroupTag then pure (.inr ())
        else
          skipValue S (skipGroup fuel depthLimit) tag
          pure (.inl ()))
      -- the limit comes before the end group tag
      (fun _ => throw .malformed) fuel ()

end

section Simulation

variable {σ₁ σ₂ : Type} {S₁ : Stream σ₁} {S₂ : Stream σ₂} (sim : StreamSim S₁ S₂)

/-- Skipping a value simulates itself if skipping a group does. -/
theorem skipValue_triple {skip₁ : ℕ → Reading σ₁ Unit} {skip₂ : ℕ → Reading σ₂ Unit} {l : Level}
    (hl : l.phase ≠ .done) (hbytes : 10 ≤ l.bytes)
    (hskip : ∀ tag, sim.Triple Eq l.hit (skip₁ tag) (skip₂ tag) fun _ => l.hit) (tag : ℕ) :
    sim.Triple Eq l (skipValue S₁ skip₁ tag) (skipValue S₂ skip₂ tag) fun _ => l.hit := by
  have hmalformed : ∀ {l' : Level} {α : Type} {lvl : α → Level},
      sim.Triple Eq l' (throw .malformed) (throw .malformed) lvl :=
    .throw fun _ _ _ => sim.allowed_status (by decide) (by decide)
  rw [skipValue, skipValue]
  split
  · exact (sim.readLong _ hl (by decide) hbytes).bind fun _ _ _ => .pure rfl (l.hit_le_consume 10)
  · exact (sim.skip hl (by omega)).mono le_rfl fun _ => l.hit_le_consume 4
  · exact (sim.skip hl (by omega)).mono le_rfl fun _ => l.hit_le_consume 8
  · refine (sim.readLong _ hl (by decide) (by omega)).bind fun n _ hn => ?_
    subst hn
    exact (sim.skipDelimited (l := l.consume 5) hl).mono le_rfl fun _ => le_rfl
  · exact (hskip tag).mono l.hit_le fun _ => le_rfl
  · exact hmalformed
  · exact hmalformed

/-- Skipping a group simulates itself, also during a capture. -/
theorem skipGroup_triple {n₁ n₂ : ℕ} (hn : n₁ = n₂ ∨ (n₂ ≤ n₁ ∧ sim.free .outOfFuel))
    (depthLimit tag : ℕ) {l : Level} (hl : l.phase ≠ .done) (hm : l.phase ≠ .marked) :
    sim.Triple Eq l.hit (skipGroup S₁ n₁ depthLimit tag) (skipGroup S₂ n₂ depthLimit tag)
      fun _ => l.hit := by
  induction depthLimit generalizing tag with
  | zero => exact .throw fun _ _ _ => sim.allowed_status (by decide) (by decide)
  | succ depthLimit ih =>
    refine Common.Simulation.Triple.loop (fun _ _ => True) (sim.isDone (l := l.hit) hl hm)
      (fun _ _ h => absurd h (sim.ahead_checked rfl))
      (fun _ _ _ => .throw fun _ _ _ => sim.allowed_status (by decide) (by decide))
      (fun _ _ _ => ?_) hn trivial
    refine (sim.readLong (l := .fresh l.phase) _ hl (by decide) (by simp [Level.fresh])).bind fun t _ ht => ?_
    subst ht
    split
    · exact .pure (by trivial) ⟨Nat.zero_le _, .inl rfl, id⟩
    · refine (skipValue_triple sim (l := (Level.fresh l.phase).consume 5) hl
        (by simp [Level.fresh, Level.consume]) (fun tag => ih tag) t).bind fun _ _ _ => .pure (by trivial) le_rfl

end Simulation

end Upb.Wire
