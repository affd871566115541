import Mathlib.Data.Nat.Init
import Mathlib.Logic.Relation
import Mathlib.Order.Basic
import Mathlib.Order.Nat
import Mathlib.Data.Set.Defs

/-!
# Forests whose parents have lower addresses

A forest is given by `parent : ℕ → Option ℕ`, with `none` at the roots. When every parent has a
lower address than its child the walk to the root ends, and no cycle of parents exists. Two changes
are described: moving a node below another node of its own tree, which changes no root, and hanging
a whole tree below a node of another one.
-/

namespace Upb.Common

variable {parent parent' : ℕ → Option ℕ} {a b c p : ℕ}

/-- Every parent has a lower address than its child. -/
def Descending (parent : ℕ → Option ℕ) : Prop :=
  ∀ a p, parent a = some p → p < a

/-- Follow the parents for a bounded number of steps. -/
def ancestor (parent : ℕ → Option ℕ) : ℕ → ℕ → ℕ
  | 0, a => a
  | steps + 1, a =>
    match parent a with
    | none => a
    | some p => ancestor parent steps p

/-- The node reached by following the parents; in a descending forest `a` steps are enough. -/
def root (parent : ℕ → Option ℕ) (a : ℕ) : ℕ :=
  ancestor parent a a

/-- More steps than the address of the node do not lead any further. -/
theorem ancestor_eq_root (hd : Descending parent) {steps : ℕ} (h : a ≤ steps) :
    ancestor parent steps a = root parent a := by
  induction a using Nat.strong_induction_on generalizing steps with
  | _ a ih =>
    cases hp : parent a with
    | none =>
      have hstop (n : ℕ) : ancestor parent n a = a := by cases n <;> simp [ancestor, hp]
      rw [root, hstop, hstop]
    | some p =>
      have hlt := hd a p hp
      obtain ⟨k, rfl⟩ := Nat.exists_eq_add_one_of_ne_zero (by omega : a ≠ 0)
      obtain ⟨n, rfl⟩ := Nat.exists_eq_add_one_of_ne_zero (by omega : steps ≠ 0)
      rw [root, ancestor, ancestor, hp]
      dsimp only
      rw [ih p hlt (by omega : p ≤ n), ih p hlt (by omega : p ≤ k)]

/-- A node without a parent is its own root. -/
theorem root_of_none (h : parent a = none) : root parent a = a := by
  cases a <;> simp [root, ancestor, h]

/-- A node has the root of its parent. -/
theorem root_of_some (hd : Descending parent) (h : parent a = some p) :
    root parent a = root parent p := by
  have hlt := hd a p h
  obtain ⟨k, rfl⟩ := Nat.exists_eq_add_one_of_ne_zero (by omega : a ≠ 0)
  rw [root, ancestor, h]
  exact ancestor_eq_root hd (by omega)

/-- A property of nodes that passes from the parent to the child holds everywhere. -/
theorem Descending.induct {P : ℕ → Prop} (hd : Descending parent)
    (hroot : ∀ a, parent a = none → P a) (hchild : ∀ a p, parent a = some p → P p → P a) (a : ℕ) :
    P a := by
  induction a using Nat.strong_induction_on with
  | _ a ih =>
    cases hp : parent a with
    | none => exact hroot a hp
    | some p => exact hchild a p hp (ih p (hd a p hp))

/-- The root has no parent. -/
theorem parent_root (hd : Descending parent) (a : ℕ) : parent (root parent a) = none := by
  induction a using hd.induct with
  | hroot a h => rwa [root_of_none h]
  | hchild a p h ih => rwa [root_of_some hd h]

/-- The root is its own root. -/
theorem root_root (hd : Descending parent) (a : ℕ) :
    root parent (root parent a) = root parent a :=
  root_of_none (parent_root hd a)

/-- The root has the lowest address of its tree. -/
theorem root_le (hd : Descending parent) (a : ℕ) : root parent a ≤ a := by
  induction a using hd.induct with
  | hroot a h => rw [root_of_none h]
  | hchild a p h ih =>
    rw [root_of_some hd h]
    exact le_trans ih (hd a p h).le

/-- The roots are the nodes without a parent. -/
theorem root_eq_self_iff (hd : Descending parent) : root parent a = a ↔ parent a = none := by
  constructor
  · intro h
    rw [← h]
    exact parent_root hd a
  · exact root_of_none

/-- A set of nodes that holds the parents of its members holds their roots. -/
theorem root_mem {s : Set ℕ} (hd : Descending parent) (hs : ∀ a ∈ s, ∀ p, parent a = some p → p ∈ s) :
    a ∈ s → root parent a ∈ s := by
  induction a using hd.induct with
  | hroot a h => rw [root_of_none h]; exact id
  | hchild a p h ih =>
    intro ha
    rw [root_of_some hd h]
    exact ih (hs a ha p h)

/-- Along the parents no node is met twice. -/
theorem Descending.acyclic (hd : Descending parent) (a : ℕ) :
    ¬ Relation.TransGen (fun x y => parent x = some y) a a := by
  have hlt : ∀ {x y}, Relation.TransGen (fun x y => parent x = some y) x y → y < x := by
    intro x y h
    induction h with
    | single h => exact hd _ _ h
    | tail _ h ih => exact lt_trans (hd _ _ h) ih
  exact fun h => lt_irrefl a (hlt h)

/-- On a set that holds the parents of its members, the roots depend only on the parents there. -/
theorem root_congr {s : Set ℕ} (hd : Descending parent) (hd' : Descending parent')
    (hs : ∀ a ∈ s, ∀ p, parent a = some p → p ∈ s) (heq : ∀ a ∈ s, parent' a = parent a) :
    a ∈ s → root parent' a = root parent a := by
  induction a using hd.induct with
  | hroot a h =>
    intro ha
    rw [root_of_none h, root_of_none ((heq a ha).trans h)]
  | hchild a p h ih =>
    intro ha
    rw [root_of_some hd h, root_of_some hd' ((heq a ha).trans h)]
    exact ih (hs a ha p h)

/-- Changing one parent keeps the forest descending when the new one is lower. -/
theorem Descending.update (hd : Descending parent) (h : p < c) :
    Descending (Function.update parent c (some p)) := by
  intro a q hq
  rcases eq_or_ne a c with rfl | hne
  · rw [Function.update_self] at hq
    cases hq
    exact h
  · rw [Function.update_of_ne hne] at hq
    exact hd a q hq

/-- Moving a node that is no root below another node of its tree changes no root. -/
theorem root_update_of_same (hd : Descending parent) (hlt : p < c) (hc : parent c ≠ none)
    (hp : root parent p = root parent c) :
    root (Function.update parent c (some p)) a = root parent a := by
  have hd' := hd.update hlt
  induction a using Nat.strong_induction_on with
  | _ a ih =>
    rcases eq_or_ne a c with rfl | hne
    · rw [root_of_some hd' (Function.update_self ..), ih p hlt, hp]
    · have hpar : Function.update parent c (some p) a = parent a := Function.update_of_ne hne ..
      cases ha : parent a with
      | none => rw [root_of_none ha, root_of_none (hpar.trans ha)]
      | some q =>
        rw [root_of_some hd ha, root_of_some hd' (hpar.trans ha)]
        exact ih q (hd a q ha)

/-- Hanging a root below a node of another tree gives its tree the root of that node. -/
theorem root_update_of_root (hd : Descending parent) (hlt : p < c) (hc : parent c = none) :
    root (Function.update parent c (some p)) a =
      if root parent a = c then root parent p else root parent a := by
  have hd' := hd.update hlt
  induction a using Nat.strong_induction_on with
  | _ a ih =>
    rcases eq_or_ne a c with rfl | hne
    · have hp : root parent p ≠ a := by
        have := root_le hd p
        omega
      rw [root_of_some hd' (Function.update_self ..), ih p hlt, if_neg hp, if_pos (root_of_none hc)]
    · have hpar : Function.update parent c (some p) a = parent a := Function.update_of_ne hne ..
      cases ha : parent a with
      | none =>
        rw [root_of_none ha, root_of_none (hpar.trans ha), if_neg hne]
      | some q =>
        rw [root_of_some hd ha, root_of_some hd' (hpar.trans ha)]
        exact ih q (hd a q ha)

end Upb.Common
