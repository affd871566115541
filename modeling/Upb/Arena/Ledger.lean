import Mathlib.Algebra.BigOperators.Group.Finset.Basic
import Mathlib.Logic.Relation
import Upb.Arena.System

/-!
# What calls made one after the other amount to

A ledger is what the clients of the arenas can know: which arenas are alive, how many references on
each are outstanding, which pairs were fused, the blocks each arena has, and the blocks that were
freed. It knows nothing of parents, counts or lists: two arenas are in one group when the fused pairs
connect them, and a group is freed when the last reference on any of its arenas goes.
-/

namespace Upb.Arena

/-- The account of the clients. -/
@[ext]
structure Ledger where
  live : Finset ℕ
  refs : ℕ → ℕ
  fused : List (ℕ × ℕ)
  blocks : ℕ → List ℕ
  freed : Multiset ℕ
  nextBlock : ℕ
  returned : List (Call × Bool)

/-- What clients do, one after the other. -/
inductive Op where
  | new (a : ℕ)
  | addBlock (a : ℕ)
  | call (c : Call)
  deriving DecidableEq, Repr

namespace Ledger

/-- Nothing has happened yet. -/
def empty : Ledger :=
  ⟨∅, fun _ => 0, [], fun _ => [], 0, 0, []⟩

variable (g : Ledger)

/-- The fused pairs connect the two arenas. -/
def SameGroup : ℕ → ℕ → Prop :=
  Relation.EqvGen fun x y => (x, y) ∈ g.fused

open Classical in
/-- The arenas that the fused pairs connect to `a`. -/
noncomputable def group (a : ℕ) : Finset ℕ :=
  g.live.filter (g.SameGroup a)

theorem mem_group {a x : ℕ} : x ∈ g.group a ↔ x ∈ g.live ∧ g.SameGroup a x := by
  simp [group]

/-- References are needed on the arguments of a call, and `upb_Arena_New` returns an unused address. -/
def Legal : Op → Prop
  | .new a => a ∉ g.live
  | .addBlock a | .call (.incRefFor a) | .call (.free a) => 0 < g.refs a
  | .call (.fuse a b) | .call (.isFused a b) => 0 < g.refs a ∧ 0 < g.refs b

/-- The group of `a` is gone, and its blocks are freed. -/
noncomputable def freeGroup (a : ℕ) : Ledger :=
  { g with
    live := g.live \ g.group a
    fused := g.fused.filter fun p => p.1 ∈ g.live \ g.group a
    blocks := fun x => if x ∈ g.group a then [] else g.blocks x
    freed := g.freed + ∑ x ∈ g.group a, (g.blocks x : Multiset ℕ) }

/-- One reference on `a` less. -/
def decRef (a : ℕ) : Ledger :=
  { g with refs := Function.update g.refs a (g.refs a - 1) }

/-- One reference on `a` less; with the last one of its group, the group goes. -/
noncomputable def release (a : ℕ) : Ledger :=
  if ∑ x ∈ g.group a, (g.decRef a).refs x = 0 then (g.decRef a).freeGroup a else g.decRef a

theorem release_returned (a : ℕ) : (g.release a).returned = g.returned := by
  unfold release
  split <;> rfl

open Classical in
/-- The answer to a call. -/
noncomputable def answer : Call → Bool
  | .isFused a b => g.SameGroup a b
  | _ => true

/-- The effect of a call. -/
noncomputable def effect : Call → Ledger
  | .fuse a b => { g with fused := (a, b) :: g.fused }
  | .isFused _ _ => g
  | .incRefFor a => { g with refs := Function.update g.refs a (g.refs a + 1) }
  | .free a => g.release a

/-- The ledger after one operation. -/
noncomputable def step : Op → Ledger
  | .new a => { g with
      live := insert a g.live
      refs := Function.update g.refs a 1
      blocks := Function.update g.blocks a [g.nextBlock]
      nextBlock := g.nextBlock + 1 }
  | .addBlock a => { g with
      blocks := Function.update g.blocks a (g.nextBlock :: g.blocks a)
      nextBlock := g.nextBlock + 1 }
  | .call c => { g.effect c with returned := (c, g.answer c) :: g.returned }

/-- Every operation is legal when its turn comes. -/
def LegalRun : Ledger → List Op → Prop
  | _, [] => True
  | g, op :: ops => g.Legal op ∧ LegalRun (g.step op) ops

/-- The ledger after a sequence of operations. -/
noncomputable def run (ops : List Op) : Ledger :=
  ops.foldl step g

end Ledger

namespace System

variable (σ : System)

/-- The account of a system. Blocks of an arena that a running `_upb_Arena_DoFree` has still to free
count as freed. -/
def ledger : Ledger where
  live := σ.live
  refs := σ.refs
  fused := σ.fused
  blocks x := if x ∈ σ.live then σ.memory.blocks x else []
  freed := (σ.memory.freed : Multiset ℕ) +
    ∑ x ∈ σ.memory.allocated \ σ.live, (σ.memory.blocks x : Multiset ℕ)
  nextBlock := σ.memory.nextBlock
  returned := σ.returned

/-- One operation, by a client that is alone: a call runs until it returns. -/
def Executes (σ' : System) : Op → Prop
  | .new a => σ.step (.new a) = .ok σ'
  | .addBlock a => σ.step (.addBlock a) = .ok σ'
  | .call c => ∃ spurious : List Bool, σ.run (.start c :: spurious.map (.resume 0)) = .ok σ' ∧ σ'.Quiescent

/-- One operation after the other. -/
def ExecutesAll : System → List Op → System → Prop
  | σ, [], σ' => σ' = σ
  | σ, op :: ops, σ' => ∃ τ, σ.Executes τ op ∧ ExecutesAll τ ops σ'

end System

end Upb.Arena
