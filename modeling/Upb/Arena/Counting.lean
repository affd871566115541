import Mathlib.Algebra.BigOperators.Ring.Finset
import Mathlib.Algebra.Order.BigOperators.Group.Finset
import Upb.Arena.Invariant

/-!
# Counting the references of a group

How the two sides of the counting invariant change: when one reference comes or goes, when a fuse adds
or takes back references, and when one group is hung below another.
-/

namespace Upb.Arena

open Upb.Common (root Descending root_update_of_root)

section Sums

variable {parent : ℕ → Option ℕ} {live : Finset ℕ} {refs : ℕ → ℕ} {a r : ℕ}

/-- A reference more on an arena is one more on its group. -/
theorem heldIn_acquire (ha : a ∈ live) :
    heldIn parent live (Function.update refs a (refs a + 1)) r =
      heldIn parent live refs r + if root parent a = r then 1 else 0 := by
  have hpoint (x : ℕ) : Function.update refs a (refs a + 1) x = refs x + if x = a then 1 else 0 := by
    rcases eq_or_ne x a with rfl | hne <;> simp [*]
  simp [heldIn, hpoint, Finset.sum_add_distrib, ha]

/-- A reference less on an arena is one less on its group. -/
theorem heldIn_release (ha : a ∈ live) (hpos : 0 < refs a) :
    heldIn parent live (Function.update refs a (refs a - 1)) r + (if root parent a = r then 1 else 0) =
      heldIn parent live refs r := by
  have hback : refs = Function.update (Function.update refs a (refs a - 1)) a
      (Function.update refs a (refs a - 1) a + 1) := by
    funext x
    rcases eq_or_ne x a with rfl | hne
    · simp only [Function.update_self]
      omega
    · simp [hne]
  conv_rhs => rw [hback]
  exact (heldIn_acquire ha).symm

/-- A referenced arena counts for its group. -/
theorem le_heldIn (ha : a ∈ live) : refs a ≤ heldIn parent live refs (root parent a) :=
  Finset.single_le_sum (fun _ _ => Nat.zero_le _) (by simp [ha])

/-- Two referenced arenas of one group both count for it. -/
theorem add_le_heldIn {b : ℕ} (ha : a ∈ live) (hb : b ∈ live) (hne : a ≠ b)
    (hab : root parent b = root parent a) :
    refs a + refs b ≤ heldIn parent live refs (root parent a) := by
  have hsub : ({a, b} : Finset ℕ) ⊆ live.filter fun x => root parent x = root parent a := by
    intro x hx
    rcases Finset.mem_insert.mp hx with rfl | hx
    · simp [ha]
    · rw [Finset.mem_singleton] at hx
      simp [hx, hb, hab]
  calc refs a + refs b = ∑ x ∈ {a, b}, refs x := (Finset.sum_pair hne).symm
    _ ≤ heldIn parent live refs (root parent a) :=
      Finset.sum_le_sum_of_subset hsub

@[simp] theorem excessIn_nil : excessIn parent [] r = 0 := rfl

@[simp] theorem excessIn_cons {e : ℕ × ℕ} {es : List (ℕ × ℕ)} :
    excessIn parent (e :: es) r = (if root parent e.1 = r then e.2 else 0) + excessIn parent es r := rfl

@[simp] theorem excessIn_append {es es' : List (ℕ × ℕ)} :
    excessIn parent (es ++ es') r = excessIn parent es r + excessIn parent es' r := by
  simp [excessIn]

/-- References that were all added to one group are the excess of that group. -/
theorem excessIn_of_forall {es : List (ℕ × ℕ)} (h : ∀ e ∈ es, root parent e.1 = a) :
    excessIn parent es r = if a = r then (es.map Prod.snd).sum else 0 := by
  induction es with
  | nil => simp
  | cons e es ih =>
    have he := h e List.mem_cons_self
    rw [excessIn_cons, he, ih fun e' he' => h e' (List.mem_cons_of_mem _ he')]
    split <;> simp

/-- Excess of no references is no excess. -/
theorem excessIn_of_sum_eq_zero {es : List (ℕ × ℕ)} (h : (es.map Prod.snd).sum = 0) :
    excessIn parent es r = 0 := by
  induction es with
  | nil => rfl
  | cons e es ih =>
    rw [List.map_cons, List.sum_cons] at h
    rw [excessIn_cons, ih (by omega)]
    split <;> omega

/-- Hanging the root `c` below an arena of the group `r` moves its references to `r`. -/
theorem heldIn_link {c p : ℕ} (hd : Descending parent) (hlt : p < c) (hc : parent c = none)
    (hr : r ≠ c) : heldIn (Function.update parent c (some p)) live refs r =
      heldIn parent live refs r + if root parent p = r then heldIn parent live refs c else 0 := by
  have hroot (x : ℕ) := root_update_of_root (a := x) hd hlt hc
  simp only [heldIn, hroot, Finset.sum_filter]
  split
  · rename_i hp
    rw [← Finset.sum_add_distrib]
    refine Finset.sum_congr rfl fun x _ => ?_
    rcases eq_or_ne (root parent x) c with hxc | hxc
    · simp [hxc, hp, Ne.symm hr]
    · simp [hxc]
  · rename_i hp
    rw [add_zero]
    refine Finset.sum_congr rfl fun x _ => ?_
    rcases eq_or_ne (root parent x) c with hxc | hxc
    · simp [hxc, hp, Ne.symm hr]
    · simp [hxc]

/-- Hanging the root `c` below an arena of the group `r` moves its excess to `r`. -/
theorem excessIn_link {c p : ℕ} {es : List (ℕ × ℕ)} (hd : Descending parent) (hlt : p < c)
    (hc : parent c = none) (hr : r ≠ c) : excessIn (Function.update parent c (some p)) es r =
      excessIn parent es r + if root parent p = r then excessIn parent es c else 0 := by
  induction es with
  | nil => simp
  | cons e es ih =>
    rw [excessIn_cons, excessIn_cons, excessIn_cons, ih, root_update_of_root hd hlt hc]
    rcases eq_or_ne (root parent e.1) c with hec | hec
    · have her : root parent e.1 ≠ r := by
        rw [hec]
        exact Ne.symm hr
      rw [if_pos hec, if_neg her, if_pos hec]
      split <;> omega
    · rw [if_neg hec, if_neg hec]
      split <;> split <;> omega

end Sums

end Upb.Arena
