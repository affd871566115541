import Upb.Arena.Reachable

/-!
# Concurrent fuses keep the reference counts

What the invariant says of every system that calls in any interleaving can reach: the counts of the
roots add up to the outstanding references and the excess of the running fuses, a group is given up
only when no reference on any of its arenas is left, the parent pointers have no cycle, and once all
calls have returned each group has its exact count and its complete list.
-/

namespace Upb.Arena

open Upb.Common (root root_mem root_root parent_root root_of_none Seg)

/-- The references a running fuse has added to a root without having made its own root a child: those
of failed attempts, and those of an attempt between its two compare-exchanges. -/
def Pc.excessRefs : Pc → ℕ
  | .findRoot _ (.fuse1 f) | .findRoot _ (.fuse2 f _) | .addRefs f _ _ | .loadTail f _ _
  | .loadTailNext f _ _ _ | .linkForward f _ _ _ | .loadChildTail f _ _ _ | .loadParentTail f _ _ _ _
  | .updateParentTail f _ _ _ _ _ | .linkBackward f _ _ _ | .fixupLoad f _ | .fixupRefs f _ _ => f.refDelta
  | .install f _ r2 => f.refDelta + r2.count
  | _ => 0

/-- The reference count of a root. -/
def Memory.refCount (m : Memory) (a : ℕ) : ℕ :=
  match m.parentOrCount a with
  | .parent _ => 0
  | .count n => n

namespace System

variable (σ : System)

/-- The current roots. -/
def roots : Finset ℕ :=
  σ.live.filter fun a => σ.memory.parent a = none

/-- The group of an arena. -/
def group (a : ℕ) : Finset ℕ :=
  σ.live.filter fun x => σ.memory.rootOf x = σ.memory.rootOf a

/-- The counts of the roots are the outstanding references and the excess of the running fuses. -/
def CountsBalance : Prop :=
  ∑ r ∈ σ.roots, σ.memory.refCount r = ∑ a ∈ σ.live, σ.refs a + (σ.threads.map Pc.excessRefs).sum

/-- A referenced arena is live, live arenas are in memory, and whatever happens next: an arena is given
up or freed only when no arena of its group is referenced any more. -/
def KeepsReferenced : Prop :=
  (∀ a, 0 < σ.refs a → a ∈ σ.live) ∧ σ.live ⊆ σ.memory.allocated ∧
    ∀ e σ', σ.step e = .ok σ' → ∀ x ∈ σ.live, x ∉ σ'.live ∨ x ∉ σ'.memory.allocated →
      ∀ y ∈ σ.group x, σ'.refs y = 0

/-- No arena is its own ancestor. -/
def Acyclic : Prop :=
  ∀ a, ¬ Relation.TransGen (fun x y => σ.memory.parent x = some y) a a

/-- Fused arenas have one root, whose count is the number of references on the group and whose list
holds every arena of the group exactly once. -/
def GroupsComplete : Prop :=
  (∀ a b, (a, b) ∈ σ.fused → σ.memory.rootOf a = σ.memory.rootOf b) ∧
    ∀ a ∈ σ.live, σ.memory.parentOrCount (σ.memory.rootOf a) = .count (∑ x ∈ σ.group a, σ.refs x) ∧
      ∃ chain, Seg σ.memory.next (some (σ.memory.rootOf a)) chain none ∧ chain.Nodup ∧
        ∀ x, x ∈ chain ↔ x ∈ σ.group a

variable {σ}

/-- The excess of a running call, counted where it was added. -/
theorem sum_excess {parent : ℕ → Option ℕ} {live : Finset ℕ} {chains : ℕ → List ℕ} {pc : Pc}
    (h : pc.Ok parent live chains) : (pc.excess.map Prod.snd).sum = pc.excessRefs := by
  cases pc with
  | findRoot at_ caller =>
    cases caller with
    | fuse1 f => exact h.2.refDelta.symm
    | fuse2 f r1 => exact h.2.1.refDelta.symm
    | _ => rfl
  | install f r1 r2 =>
    have := h.1.refDelta
    simp only [Pc.excess, Pc.excessRefs, List.map_cons, List.sum_cons]
    omega
  | loadTail f p c | linkBackward f p c o => exact h.ok.refDelta.symm
  | addRefs f r1 r2 | fixupLoad f r | fixupRefs f r n => exact h.1.refDelta.symm
  | loadTailNext f p c t | linkForward f p c t | loadChildTail f p c t | loadParentTail f p c o t
  | updateParentTail f p c o t e => exact h.1.ok.refDelta.symm
  | _ => rfl

/-- The root of a live arena is a current root. -/
theorem Good.rootOf_mem {a : ℕ} (h : σ.Good) (ha : a ∈ σ.live) : σ.memory.rootOf a ∈ σ.roots := by
  obtain ⟨chains, hinv⟩ := h.inv
  have hmem : σ.memory.rootOf a ∈ σ.live :=
    root_mem (s := σ.live) hinv.trees.descending hinv.trees.parent_mem ha
  exact Finset.mem_filter.mpr ⟨hmem, parent_root hinv.trees.descending a⟩

theorem Good.countsBalance (h : σ.Good) : σ.CountsBalance := by
  obtain ⟨chains, hinv⟩ := h.inv
  have hcount : ∀ r ∈ σ.roots, σ.memory.refCount r =
      heldIn σ.memory.parent σ.live σ.refs r + excessIn σ.memory.parent (σ.threads.flatMap Pc.excess) r := by
    intro r hr
    obtain ⟨hr, hnone⟩ := Finset.mem_filter.mp hr
    obtain ⟨n, hn⟩ := Memory.parent_eq_none_iff.mp hnone
    rw [← hinv.counted r hr n hn, Memory.refCount, hn]
  have hheld : ∑ r ∈ σ.roots, heldIn σ.memory.parent σ.live σ.refs r = ∑ a ∈ σ.live, σ.refs a :=
    Finset.sum_fiberwise_of_maps_to (fun a ha => h.rootOf_mem ha) _
  have hexcess : ∀ es : List (ℕ × ℕ), (∀ e ∈ es, e.1 ∈ σ.live) →
      ∑ r ∈ σ.roots, excessIn σ.memory.parent es r = (es.map Prod.snd).sum := by
    intro es hes
    induction es with
    | nil => simp
    | cons e es ih =>
      have hmem : root σ.memory.parent e.1 ∈ σ.roots := h.rootOf_mem (hes e List.mem_cons_self)
      simp only [excessIn_cons, Finset.sum_add_distrib, Finset.sum_ite_eq, hmem, if_true, List.map_cons,
        List.sum_cons]
      rw [ih fun e' he' => hes e' (List.mem_cons_of_mem _ he')]
  have hsum : ∀ ts : List Pc, (∀ pc ∈ ts, pc.Ok σ.memory.parent σ.live chains) →
      ((ts.flatMap Pc.excess).map Prod.snd).sum = (ts.map Pc.excessRefs).sum := by
    intro ts hts
    induction ts with
    | nil => rfl
    | cons pc ts ih =>
      rw [List.flatMap_cons, List.map_append, List.sum_append, List.map_cons, List.sum_cons,
        sum_excess (hts pc List.mem_cons_self), ih fun q hq => hts q (List.mem_cons_of_mem _ hq)]
  have hlive : ∀ e ∈ σ.threads.flatMap Pc.excess, e.1 ∈ σ.live := by
    intro e he
    obtain ⟨pc, hpc, he⟩ := List.mem_flatMap.mp he
    exact (hinv.ok pc hpc).excess he
  rw [CountsBalance, Finset.sum_congr rfl hcount, Finset.sum_add_distrib, hheld, hexcess _ hlive,
    hsum _ hinv.ok]

theorem Good.groupsComplete (h : σ.Good) (hq : σ.Quiescent) : σ.GroupsComplete := by
  obtain ⟨chains, hinv⟩ := h.inv
  rw [hq] at hinv
  have hd := hinv.trees.descending
  refine ⟨fun a b hab => (h.groups.mem a b hab).2.2, fun a ha => ?_⟩
  obtain ⟨hr, hnone⟩ := Finset.mem_filter.mp (h.rootOf_mem ha)
  obtain ⟨n, hn⟩ := Memory.parent_eq_none_iff.mp hnone
  have hne : chains (σ.memory.rootOf a) ≠ [] := (hinv.listed.heads _).mpr (.inl ⟨hr, hnone⟩)
  refine ⟨?_, chains (σ.memory.rootOf a), hinv.listed.family.chain _ hne, hinv.listed.family.nodup _, ?_⟩
  · rw [hn, hinv.counted _ hr n hn]
    rfl
  · intro x
    rw [group, Finset.mem_filter]
    constructor
    · intro hx
      refine ⟨(hinv.listed.live_iff _ x hx).mpr hr, ?_⟩
      exact (hinv.listed.group _ hr x hx).2.trans (root_root hd a)
    · rintro ⟨hx, hxa⟩
      -- without running calls a chain starts at a root only
      obtain ⟨k, hk, hkl, -, hroot⟩ := hinv.exists_chain hx
      have hkr : σ.memory.parent k = none := by
        have := (hinv.listed.heads k).mp (List.ne_nil_of_mem hk)
        simpa [hkl] using this
      have hka : k = σ.memory.rootOf a := by
        rw [← hxa, ← root_of_none hkr]
        exact hroot.symm
      rwa [← hka]

theorem Good.keepsReferenced (h : σ.Good) : σ.KeepsReferenced := by
  obtain ⟨chains, hinv⟩ := h.inv
  refine ⟨hinv.contract.mem_live, hinv.trees.subset, fun e σ' hstep x hx hgone y hy => ?_⟩
  have hgood : σ'.Good := by
    rcases h.step e with ⟨τ, heq, hgood⟩ | heq
    · rw [hstep] at heq
      cases heq
      exact hgood
    · rw [hstep] at heq
      cases heq
  obtain ⟨chains', hinv'⟩ := hgood.inv
  have hxgone : x ∉ σ'.live := hgone.elim id fun hfreed hlive => hfreed (hinv'.trees.subset hlive)
  obtain ⟨hyl, hyx⟩ := Finset.mem_filter.mp hy
  have hygone : y ∉ σ'.live := by
    rcases h.live_step hstep with hsub | ⟨r, heq⟩
    · exact absurd (hsub hx) hxgone
    · rw [heq, Finset.mem_filter] at hxgone ⊢
      rw [hyx]
      exact fun hcon => hxgone ⟨hx, hcon.2⟩
  by_contra hpos
  exact hygone (hinv'.contract.mem_live y (by omega))

theorem Good.acyclic (h : σ.Good) : σ.Acyclic := by
  obtain ⟨chains, hinv⟩ := h.inv
  exact hinv.trees.descending.acyclic

/-- The count of arena 3 changes between the two compare-exchanges of a fuse, which has to try again and
to take back the reference it has added to arena 1. -/
def racingIncRef : List Event :=
  [.new 1, .new 3, .start (.fuse 1 3), .resume 0 false, .resume 0 false, .resume 0 false,
    .start (.incRefFor 3), .resume 0 false, .resume 0 false] ++ List.replicate 14 (.resume 0 false)

end System

end Upb.Arena
