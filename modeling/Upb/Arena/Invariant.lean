import Mathlib.Algebra.BigOperators.Group.Finset.Basic
import Mathlib.Algebra.GroupWithZero.Nat
import Upb.Arena.System
import Upb.Common.ChainFamily

/-!
# The invariant of interleaved runs

The groups are the trees of the parent pointers. The count of a root covers the outstanding
references of its group and the excess that running fuses have added to some arena of the group. The
`next` lists form a family of chains: one starts at every root, one at every child whose fuse has
installed the parent pointer but not yet appended it, and one at every arena that a running
`_upb_Arena_DoFree` is about to free. Every pointer a running call holds leads into the group of one
of its arguments, which is kept alive by the reference the client holds.
-/

namespace Upb.Arena

open Upb.Common (root Descending ChainFamily SameChain)

/-- References a running fuse has added to an arena and that do not belong there yet. -/
def Pc.excess : Pc → List (ℕ × ℕ)
  | .findRoot _ (.fuse1 f) | .findRoot _ (.fuse2 f _) | .addRefs f _ _ | .loadTail f _ _
  | .loadTailNext f _ _ _ | .linkForward f _ _ _ | .loadChildTail f _ _ _ | .loadParentTail f _ _ _ _
  | .updateParentTail f _ _ _ _ _ | .linkBackward f _ _ _ | .fixupLoad f _ | .fixupRefs f _ _ => f.added
  | .install f r1 r2 => (r1.root, r2.count) :: f.added
  | _ => []

/-- The child that a running fuse has installed and not yet finished linking. -/
def Pc.linking : Pc → Option ℕ
  | .loadTail _ _ child | .loadTailNext _ _ child _ | .linkForward _ _ child _
  | .loadChildTail _ _ child _ | .loadParentTail _ _ child _ _ | .updateParentTail _ _ child _ _ _
  | .linkBackward _ _ child _ => some child
  | _ => none

/-- The child that a running fuse has installed and not yet appended to the list. -/
def Pc.pending : Pc → Option ℕ
  | .loadTail _ _ child | .loadTailNext _ _ child _ | .linkForward _ _ child _ => some child
  | _ => none

/-- The arena that a running `_upb_Arena_DoFree` is about to free. -/
def Pc.dying : Pc → Option ℕ
  | .doFree _ ai => some ai
  | _ => none

/-- The arenas whose references keep the call's pointers alive. -/
def Pc.args (pc : Pc) : List ℕ :=
  pc.uses ++ pc.releasing.toList

section Groups

variable (parent : ℕ → Option ℕ) (live : Finset ℕ) (chains : ℕ → List ℕ)

/-- `x` is a live arena of the group of `a`. -/
def InGroup (a x : ℕ) : Prop :=
  x ∈ live ∧ root parent x = root parent a

/-- What a running `_upb_Arena_FindRoot` knows of its variables, in the group of `a`. -/
def FindRoot.Ok (a : ℕ) : FindRoot → Prop
  | .entry ai => InGroup parent live a ai
  | .reload ai => InGroup parent live a ai ∧ parent ai ≠ none
  | .loadParent ai next => InGroup parent live a ai ∧ parent ai ≠ none ∧ InGroup parent live a next ∧
      next < ai
  | .split ai next grand => InGroup parent live a ai ∧ parent ai ≠ none ∧ InGroup parent live a next ∧
      parent next ≠ none ∧ next < ai ∧ InGroup parent live a grand ∧ grand < next

/-- What a running fuse knows of its variables. -/
structure FuseState.Ok (f : FuseState) : Prop where
  ai1 : InGroup parent live f.a1 f.ai1
  ai2 : InGroup parent live f.a2 f.ai2
  added : ∀ e ∈ f.added, InGroup parent live f.a1 e.1 ∨ InGroup parent live f.a2 e.1
  refDelta : f.refDelta = (f.added.map Prod.snd).sum

/-- The argument whose group `_upb_Arena_FindRoot` searches. -/
def Caller.target : Caller → ℕ
  | .fuse1 f => f.a1
  | .fuse2 f _ => f.a2
  | .incRef a | .isFused1 a _ | .isFused3 a _ _ _ => a
  | .isFused2 _ b _ => b

/-- What the caller of `_upb_Arena_FindRoot` knows of its variables. -/
def Caller.Ok : Caller → Prop
  | .fuse1 f => f.Ok parent live
  | .fuse2 f r1 => f.Ok parent live ∧ InGroup parent live f.a1 r1.root
  | .incRef _ | .isFused1 _ _ => True
  | .isFused2 a _ ra => InGroup parent live a ra
  | .isFused3 a b ra rb => InGroup parent live a ra ∧ InGroup parent live b rb

/-- One of the two arenas is in the group of the first argument, the other in that of the second. -/
def FuseState.Sides (f : FuseState) (x y : ℕ) : Prop :=
  InGroup parent live f.a1 x ∧ InGroup parent live f.a2 y ∨
    InGroup parent live f.a2 x ∧ InGroup parent live f.a1 y

/-- A fuse has made `child` a child of `parent_`, so that both arguments are in one group. -/
structure FuseState.Linking (f : FuseState) (parent_ child : ℕ) : Prop where
  ok : f.Ok parent live
  joined : InGroup parent live f.a1 f.a2
  parent_mem : InGroup parent live f.a1 parent_
  child_mem : InGroup parent live f.a1 child
  lt : parent_ < child
  parented : parent child ≠ none

/-- What a running call knows of its variables. -/
def Pc.Ok : Pc → Prop
  | .findRoot at_ caller => at_.Ok parent live caller.target ∧ caller.Ok parent live
  | .addRefs f r1 r2 | .install f r1 r2 =>
    f.Ok parent live ∧ f.Sides parent live r1.root r2.root ∧ r1.root < r2.root
  | .loadTail f p c => f.Linking parent live p c
  | .loadTailNext f p c t | .linkForward f p c t => f.Linking parent live p c ∧ SameChain chains p t
  | .loadChildTail f p c _ => f.Linking parent live p c ∧ SameChain chains p c
  | .loadParentTail f p c _ t | .updateParentTail f p c _ t _ =>
    f.Linking parent live p c ∧ SameChain chains p t
  | .linkBackward f p c _ => f.Linking parent live p c
  | .fixupLoad f r | .fixupRefs f r _ =>
    f.Ok parent live ∧ InGroup parent live f.a1 f.a2 ∧ InGroup parent live f.a1 r
  | .incRef a r => InGroup parent live a r.root
  | .freeLoad a ai => InGroup parent live a ai
  | .decRef a ai n => InGroup parent live a ai ∧ n ≠ 1
  | .doFree _ _ => True

end Groups

/-- The live arenas form a descending forest in memory. -/
structure Trees (m : Memory) (live : Finset ℕ) : Prop where
  subset : live ⊆ m.allocated
  descending : Descending m.parent
  parent_mem : ∀ a ∈ live, ∀ p, m.parent a = some p → p ∈ live
  plain : ∀ a ∈ live, m.hasInitialBlock a = false

/-- The outstanding references on the group of a root. -/
def heldIn (parent : ℕ → Option ℕ) (live : Finset ℕ) (refs : ℕ → ℕ) (r : ℕ) : ℕ :=
  ∑ a ∈ live with root parent a = r, refs a

/-- The references that were added to the group of a root and do not belong there yet. -/
def excessIn (parent : ℕ → Option ℕ) (excess : List (ℕ × ℕ)) (r : ℕ) : ℕ :=
  (excess.map fun e => if root parent e.1 = r then e.2 else 0).sum

/-- The count of a root covers the references and the excess of its group. -/
def Counted (m : Memory) (live : Finset ℕ) (refs : ℕ → ℕ) (excess : List (ℕ × ℕ)) : Prop :=
  ∀ r ∈ live, ∀ n, m.parentOrCount r = .count n →
    n = heldIn m.parent live refs r + excessIn m.parent excess r

/-- The clients keep their contract: `releasing` are the references about to be released. -/
structure Contract (live : Finset ℕ) (refs : ℕ → ℕ) (ts : List Pc) : Prop where
  mem_live : ∀ a, 0 < refs a → a ∈ live
  releasing : ∀ a, (ts.filterMap Pc.releasing).count a ≤ refs a
  held : ∀ pc ∈ ts, ∀ a ∈ pc.uses, (ts.filterMap Pc.releasing).count a < refs a

/-- The `next` lists are a family of chains that holds every arena. -/
structure Listed (m : Memory) (live : Finset ℕ) (chains : ℕ → List ℕ) (pending dying : List ℕ) :
    Prop where
  family : ChainFamily m.next chains
  mem_iff : ∀ a, a ∈ m.allocated ↔ ∃ h, a ∈ chains h
  heads : ∀ h, chains h ≠ [] ↔ (h ∈ live ∧ m.parent h = none) ∨ h ∈ pending ∨ h ∈ dying
  live_iff : ∀ h, ∀ a ∈ chains h, (a ∈ live ↔ h ∈ live)
  group : ∀ h ∈ live, ∀ a ∈ chains h, h ≤ a ∧ root m.parent a = root m.parent h
  not_live : ∀ h ∈ dying, h ∉ live
  nodup_dying : dying.Nodup
  nodup_pending : pending.Nodup

/-- The tails: a root, and a child until it is linked backward, points into its own list. -/
structure Tails (m : Memory) (live : Finset ℕ) (chains : ℕ → List ℕ) (linking : List ℕ) : Prop where
  tagged : ∀ a ∈ live, m.parent a = none ∨ a ∈ linking → ∃ t, m.previousOrTail a = .tail t
  same : ∀ a ∈ live, ∀ t, m.previousOrTail a = .tail t → SameChain chains a t
  nodup : linking.Nodup

/-- The invariant of the memory and the running calls. -/
structure Inv (m : Memory) (live : Finset ℕ) (refs : ℕ → ℕ) (chains : ℕ → List ℕ) (ts : List Pc) :
    Prop where
  trees : Trees m live
  counted : Counted m live refs (ts.flatMap Pc.excess)
  contract : Contract live refs ts
  listed : Listed m live chains (ts.filterMap Pc.pending) (ts.filterMap Pc.dying)
  tails : Tails m live chains (ts.filterMap Pc.linking)
  ok : ∀ pc ∈ ts, pc.Ok m.parent live chains

/-- The order of the running calls does not matter. -/
theorem Inv.perm {m : Memory} {live : Finset ℕ} {refs : ℕ → ℕ} {chains : ℕ → List ℕ} {ts ts' : List Pc}
    (h : Inv m live refs chains ts) (hp : ts.Perm ts') : Inv m live refs chains ts' where
  trees := h.trees
  counted r hr n hn := by
    rw [h.counted r hr n hn, excessIn, excessIn, ((hp.flatMap_right _).map _).sum_eq]
  contract :=
    { mem_live := h.contract.mem_live
      releasing a := by
        rw [← (hp.filterMap _).count_eq]
        exact h.contract.releasing a
      held pc hpc a ha := by
        rw [← (hp.filterMap _).count_eq]
        exact h.contract.held pc (hp.mem_iff.mpr hpc) a ha }
  listed :=
    { h.listed with
      heads := by
        intro x
        rw [h.listed.heads x, (hp.filterMap _).mem_iff, (hp.filterMap Pc.dying).mem_iff]
      not_live := fun x hx => h.listed.not_live x ((hp.filterMap _).mem_iff.mpr hx)
      nodup_dying := (hp.filterMap _).nodup_iff.mp h.listed.nodup_dying
      nodup_pending := (hp.filterMap _).nodup_iff.mp h.listed.nodup_pending }
  tails :=
    { tagged := fun a ha hor => h.tails.tagged a ha (hor.imp_right (hp.filterMap _).mem_iff.mpr)
      same := h.tails.same
      nodup := (hp.filterMap _).nodup_iff.mp h.tails.nodup }
  ok pc hpc := h.ok pc (hp.mem_iff.mpr hpc)

/-- The arguments of a running call are live. -/
theorem Contract.args_mem {live : Finset ℕ} {refs : ℕ → ℕ} {ts : List Pc} {pc : Pc} {a : ℕ}
    (h : Contract live refs ts) (hpc : pc ∈ ts) (ha : a ∈ pc.args) : a ∈ live := by
  apply h.mem_live
  rcases List.mem_append.mp ha with hu | hr
  · exact lt_of_le_of_lt (Nat.zero_le _) (h.held pc hpc a hu)
  · have hmem : a ∈ ts.filterMap Pc.releasing :=
      List.mem_filterMap.mpr ⟨pc, hpc, Option.mem_toList.mp hr⟩
    exact lt_of_lt_of_le (List.count_pos_iff.mpr hmem) (h.releasing a)

section Evolution

variable {parent parent' : ℕ → Option ℕ} {live live' : Finset ℕ} {chains chains' : ℕ → List ℕ}
  {a b x y : ℕ}

/-- What a step of one call leaves true for the others: as far as the arenas stay live, groups and
lists only grow, and a child stays a child. -/
structure Evolves (parent : ℕ → Option ℕ) (live : Finset ℕ) (chains : ℕ → List ℕ)
    (parent' : ℕ → Option ℕ) (live' : Finset ℕ) (chains' : ℕ → List ℕ) : Prop where
  group : ∀ {a x}, a ∈ live → a ∈ live' → InGroup parent live a x → InGroup parent' live' a x
  parented : ∀ {x}, x ∈ live → x ∈ live' → parent x ≠ none → parent' x ≠ none
  same : ∀ {x y}, x ∈ live → x ∈ live' → SameChain chains x y → SameChain chains' x y

theorem Evolves.refl : Evolves parent live chains parent live chains :=
  ⟨fun _ _ h => h, fun _ _ h => h, fun _ _ h => h⟩

variable (he : Evolves parent live chains parent' live' chains')

include he

theorem FuseState.Ok.evolve {f : FuseState} (h : f.Ok parent live)
    (hargs : ∀ a ∈ [f.a1, f.a2], a ∈ live ∧ a ∈ live') : f.Ok parent' live' := by
  obtain ⟨h1, h1'⟩ := hargs f.a1 (by simp)
  obtain ⟨h2, h2'⟩ := hargs f.a2 (by simp)
  refine ⟨he.group h1 h1' h.ai1, he.group h2 h2' h.ai2, fun e hmem => ?_, h.refDelta⟩
  exact (h.added e hmem).imp (he.group h1 h1') (he.group h2 h2')

theorem FuseState.Sides.evolve {f : FuseState} (h : f.Sides parent live x y)
    (hargs : ∀ a ∈ [f.a1, f.a2], a ∈ live ∧ a ∈ live') : f.Sides parent' live' x y := by
  obtain ⟨h1, h1'⟩ := hargs f.a1 (by simp)
  obtain ⟨h2, h2'⟩ := hargs f.a2 (by simp)
  exact h.imp (And.imp (he.group h1 h1') (he.group h2 h2')) (And.imp (he.group h2 h2') (he.group h1 h1'))

theorem InGroup.evolve_parented (ha : a ∈ live) (ha' : a ∈ live') (h : InGroup parent live a x)
    (hx : parent x ≠ none) : parent' x ≠ none :=
  he.parented h.1 (he.group ha ha' h).1 hx

theorem FuseState.Linking.evolve {f : FuseState} (h : f.Linking parent live x y)
    (hargs : ∀ a ∈ [f.a1, f.a2], a ∈ live ∧ a ∈ live') : f.Linking parent' live' x y := by
  obtain ⟨h1, h1'⟩ := hargs f.a1 (by simp)
  exact ⟨h.ok.evolve he hargs, he.group h1 h1' h.joined, he.group h1 h1' h.parent_mem,
    he.group h1 h1' h.child_mem, h.lt, h.child_mem.evolve_parented he h1 h1' h.parented⟩

theorem FindRoot.Ok.evolve {at_ : FindRoot} (h : at_.Ok parent live a) (ha : a ∈ live)
    (ha' : a ∈ live') : at_.Ok parent' live' a := by
  cases at_ with
  | entry ai => exact he.group ha ha' h
  | reload ai => exact ⟨he.group ha ha' h.1, h.1.evolve_parented he ha ha' h.2⟩
  | loadParent ai next =>
    obtain ⟨hai, hpar, hnext, hlt⟩ := h
    exact ⟨he.group ha ha' hai, hai.evolve_parented he ha ha' hpar, he.group ha ha' hnext, hlt⟩
  | split ai next grand =>
    obtain ⟨hai, hpar, hnext, hpar', hlt, hgrand, hlt'⟩ := h
    exact ⟨he.group ha ha' hai, hai.evolve_parented he ha ha' hpar, he.group ha ha' hnext,
      hnext.evolve_parented he ha ha' hpar', hlt, he.group ha ha' hgrand, hlt'⟩

theorem Caller.Ok.evolve {caller : Caller} (h : caller.Ok parent live)
    (hargs : ∀ a ∈ caller.uses, a ∈ live ∧ a ∈ live') : caller.Ok parent' live' := by
  cases caller with
  | fuse1 f => exact FuseState.Ok.evolve he h hargs
  | fuse2 f r1 =>
    obtain ⟨h1, h1'⟩ := hargs f.a1 (by simp [Caller.uses])
    exact ⟨h.1.evolve he hargs, he.group h1 h1' h.2⟩
  | incRef a => trivial
  | isFused1 a b => trivial
  | isFused2 a b ra =>
    obtain ⟨h1, h1'⟩ := hargs a (by simp [Caller.uses])
    exact he.group h1 h1' h
  | isFused3 a b ra rb =>
    obtain ⟨h1, h1'⟩ := hargs a (by simp [Caller.uses])
    obtain ⟨h2, h2'⟩ := hargs b (by simp [Caller.uses])
    exact ⟨he.group h1 h1' h.1, he.group h2 h2' h.2⟩

/-- What a call knows of its variables stays true while others run. -/
theorem Pc.Ok.evolve {pc : Pc} (h : pc.Ok parent live chains)
    (hargs : ∀ a ∈ pc.args, a ∈ live ∧ a ∈ live') : pc.Ok parent' live' chains' := by
  cases pc with
  | findRoot at_ caller =>
    have hmem : caller.target ∈ caller.uses := by cases caller <;> simp [Caller.target, Caller.uses]
    obtain ⟨h1, h1'⟩ := hargs caller.target (List.mem_append_left _ hmem)
    exact ⟨h.1.evolve he h1 h1', h.2.evolve he fun a ha => hargs a (List.mem_append_left _ ha)⟩
  | addRefs f r1 r2 => exact ⟨h.1.evolve he hargs, h.2.1.evolve he hargs, h.2.2⟩
  | install f r1 r2 => exact ⟨h.1.evolve he hargs, h.2.1.evolve he hargs, h.2.2⟩
  | loadTail f p c => exact FuseState.Linking.evolve he h hargs
  | loadTailNext f p c t | linkForward f p c t | loadChildTail f p c t =>
    have h' := h.1.evolve he hargs
    exact ⟨h', he.same h.1.parent_mem.1 h'.parent_mem.1 h.2⟩
  | loadParentTail f p c o t =>
    have h' := h.1.evolve he hargs
    exact ⟨h', he.same h.1.parent_mem.1 h'.parent_mem.1 h.2⟩
  | updateParentTail f p c o t e =>
    have h' := h.1.evolve he hargs
    exact ⟨h', he.same h.1.parent_mem.1 h'.parent_mem.1 h.2⟩
  | linkBackward f p c o => exact FuseState.Linking.evolve he h hargs
  | fixupLoad f r =>
    obtain ⟨h1, h1'⟩ := hargs f.a1 (by simp [Pc.args, Pc.uses])
    exact ⟨h.1.evolve he hargs, he.group h1 h1' h.2.1, he.group h1 h1' h.2.2⟩
  | fixupRefs f r n =>
    obtain ⟨h1, h1'⟩ := hargs f.a1 (by simp [Pc.args, Pc.uses])
    exact ⟨h.1.evolve he hargs, he.group h1 h1' h.2.1, he.group h1 h1' h.2.2⟩
  | incRef a r =>
    obtain ⟨h1, h1'⟩ := hargs a (by simp [Pc.args, Pc.uses])
    exact he.group h1 h1' h
  | freeLoad a ai =>
    obtain ⟨h1, h1'⟩ := hargs a (by simp [Pc.args, Pc.releasing])
    exact he.group h1 h1' h
  | decRef a ai n =>
    obtain ⟨h1, h1'⟩ := hargs a (by simp [Pc.args, Pc.releasing])
    exact ⟨he.group h1 h1' h.1, h.2⟩
  | doFree a ai => trivial

end Evolution

end Upb.Arena
