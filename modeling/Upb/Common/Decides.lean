import Mathlib.Data.Nat.Notation

/-!
# Tests that need fuel

A test answers under every fuel from some amount on, and the answer says whether a property holds.
The rules follow the way such tests are put together: constants, conjunctions that stop at the first
failure, and conjunctions over a list.
-/

namespace Upb.Common

/-- With enough fuel the test answers, and it answers `true` exactly if the property holds. -/
def Decides (r : ℕ → Option Bool) (P : Prop) : Prop :=
  ∃ n, ∀ fuel, n ≤ fuel → ∃ b, r fuel = some b ∧ (b = true ↔ P)

/-- A second test, made if the first one succeeds. -/
def thenTest (r q : Option Bool) : Option Bool :=
  match r with
  | some true => q
  | r => r

/-- A test of each element of a list, up to the first one that fails. -/
def allTest {α : Type} (test : α → Option Bool) : List α → Option Bool
  | [] => some true
  | a :: as => thenTest (test a) (allTest test as)

namespace Decides

variable {r q : ℕ → Option Bool} {P Q : Prop}

theorem congr (h : Decides r P) (hPQ : P ↔ Q) : Decides r Q := by
  obtain ⟨n, hn⟩ := h
  refine ⟨n, fun fuel hfuel => ?_⟩
  obtain ⟨b, hb, hbP⟩ := hn fuel hfuel
  exact ⟨b, hb, hbP.trans hPQ⟩

theorem of_eq {r' : ℕ → Option Bool} (h : Decides r P) (hr : ∀ fuel, r' fuel = r fuel) :
    Decides r' P := by
  rwa [funext hr]

theorem const {b : Bool} (h : b = true ↔ P) : Decides (fun _ => some b) P :=
  ⟨0, fun _ _ => ⟨b, rfl, h⟩⟩

/-- One call deeper. -/
theorem succ {r' : ℕ → Option Bool} (h : Decides r P) (hr : ∀ fuel, r' (fuel + 1) = r fuel) :
    Decides r' P := by
  obtain ⟨n, hn⟩ := h
  refine ⟨n + 1, fun fuel hfuel => ?_⟩
  obtain ⟨fuel, rfl⟩ := Nat.exists_eq_succ_of_ne_zero (by omega : fuel ≠ 0)
  rw [hr]
  exact hn fuel (by omega)

/-- The second test is only needed if the first property holds. -/
theorem thenTest (hr : Decides r P) (hq : P → Decides q Q) :
    Decides (fun fuel => thenTest (r fuel) (q fuel)) (P ∧ Q) := by
  obtain ⟨n, hn⟩ := hr
  by_cases hP : P
  · obtain ⟨m, hm⟩ := hq hP
    refine ⟨max n m, fun fuel hfuel => ?_⟩
    obtain ⟨b, hb, hbP⟩ := hn fuel (Nat.le_trans (Nat.le_max_left n m) hfuel)
    obtain ⟨c, hc, hcQ⟩ := hm fuel (Nat.le_trans (Nat.le_max_right n m) hfuel)
    obtain rfl := hbP.mpr hP
    refine ⟨c, ?_, hcQ.trans ⟨fun hQ => ⟨hP, hQ⟩, And.right⟩⟩
    show Common.thenTest (r fuel) (q fuel) = some c
    rw [hb]
    exact hc
  · refine ⟨n, fun fuel hfuel => ⟨false, ?_, iff_of_false Bool.false_ne_true fun h => hP h.1⟩⟩
    obtain ⟨b, hb, hbP⟩ := hn fuel hfuel
    have hfalse : b = false := Bool.eq_false_iff.mpr fun hb => hP (hbP.mp hb)
    show Common.thenTest (r fuel) (q fuel) = some false
    rw [hb, hfalse]
    rfl

theorem allTest {α : Type} {test : ℕ → α → Option Bool} {p : α → Prop} {l : List α}
    (h : ∀ a ∈ l, Decides (fun fuel => test fuel a) (p a)) :
    Decides (fun fuel => allTest (test fuel) l) (∀ a ∈ l, p a) := by
  induction l with
  | nil => exact const (iff_of_true rfl fun a ha => absurd ha List.not_mem_nil)
  | cons a l ih =>
    have hrest := ih fun b hb => h b (List.mem_cons_of_mem a hb)
    exact ((h a List.mem_cons_self).thenTest fun _ => hrest).congr List.forall_mem_cons.symm

/-- Two tests of one property come to the same answer. -/
theorem agree (hr : Decides r P) (hq : Decides q P) :
    ∃ n, ∀ fuel, n ≤ fuel → (r fuel).isSome ∧ r fuel = q fuel := by
  obtain ⟨n, hn⟩ := hr
  obtain ⟨m, hm⟩ := hq
  refine ⟨max n m, fun fuel hfuel => ?_⟩
  obtain ⟨b, hb, hbP⟩ := hn fuel (Nat.le_trans (Nat.le_max_left n m) hfuel)
  obtain ⟨c, hc, hcP⟩ := hm fuel (Nat.le_trans (Nat.le_max_right n m) hfuel)
  rw [hb, hc, Bool.eq_iff_iff.mpr (hbP.trans hcP.symm)]
  exact ⟨rfl, rfl⟩

end Decides

end Upb.Common
