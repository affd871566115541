import Upb.Arena.Counting

/-!
# Steps that keep the lists

The first lemmas replace or remove a running call that changes nothing in memory. The others are about
the words `parent_or_count` and `previous_or_tail`: splitting a path, changing the count of a root,
making one root the child of another, and moving a tail.
-/

namespace Upb.Arena

open Upb.Common (root Descending ChainFamily SameChain root_update_of_same root_update_of_root
  root_of_none root_le)

variable {m : Memory} {live : Finset ℕ} {refs refs' : ℕ → ℕ} {chains : ℕ → List ℕ} {ts rest : List Pc}
  {pc pc' : Pc} {a p c r t x : ℕ}

/-- A call that goes on with the same arguments keeps the contract. -/
theorem Contract.replace (h : Contract live refs (pc :: rest)) (huses : pc'.uses = pc.uses)
    (hreleasing : pc'.releasing = pc.releasing) : Contract live refs (pc' :: rest) where
  mem_live := h.mem_live
  releasing := by simpa [List.filterMap_cons, hreleasing] using h.releasing
  held := by simpa [List.filterMap_cons, hreleasing, huses] using h.held

/-- Two program points that the invariant of the memory does not tell apart. -/
structure Pc.SameDuties (pc pc' : Pc) : Prop where
  call : pc'.call = pc.call
  uses : pc'.uses = pc.uses
  releasing : pc'.releasing = pc.releasing
  excess : pc'.excess = pc.excess
  linking : pc'.linking = pc.linking
  pending : pc'.pending = pc.pending
  dying : pc'.dying = pc.dying

/-- A call that goes on without changing the memory. -/
theorem Inv.replace (h : Inv m live refs chains (pc :: rest)) (hs : pc.SameDuties pc')
    (hok : pc'.Ok m.parent live chains) : Inv m live refs chains (pc' :: rest) where
  trees := h.trees
  counted := by simpa [hs.excess] using h.counted
  contract := h.contract.replace hs.uses hs.releasing
  listed := by simpa [List.filterMap_cons, hs.pending, hs.dying] using h.listed
  tails := by simpa [List.filterMap_cons, hs.linking] using h.tails
  ok := by
    intro q hq
    rcases List.mem_cons.mp hq with rfl | hq
    · exact hok
    · exact h.ok q (List.mem_cons_of_mem _ hq)

/-- The call has no part in the lists at this point. -/
structure Pc.NoLists (pc : Pc) : Prop where
  linking : pc.linking = none
  pending : pc.pending = none
  dying : pc.dying = none

/-- A call that returns without changing the memory. -/
theorem Inv.finish (h : Inv m live refs chains (pc :: rest)) (hreleasing : pc.releasing = none)
    (hn : pc.NoLists) (hexcess : ∀ r, excessIn m.parent pc.excess r = 0) :
    Inv m live refs chains rest where
  trees := h.trees
  counted r hr n hc := by
    rw [h.counted r hr n hc, List.flatMap_cons, excessIn_append, hexcess, zero_add]
  contract :=
    { mem_live := h.contract.mem_live
      releasing := by simpa [List.filterMap_cons, hreleasing] using h.contract.releasing
      held := by
        have hheld := h.contract.held
        simp only [List.filterMap_cons, hreleasing] at hheld
        exact fun q hq => hheld q (List.mem_cons_of_mem _ hq) }
  listed := by simpa [List.filterMap_cons, hn.pending, hn.dying] using h.listed
  tails := by simpa [List.filterMap_cons, hn.linking] using h.tails
  ok q hq := h.ok q (List.mem_cons_of_mem _ hq)

/-- Moving a child below another arena of its group. -/
theorem Inv.split (h : Inv m live refs chains ts) (hc : c ∈ live) (hp : InGroup m.parent live c p)
    (hlt : p < c) (hpar : m.parent c ≠ none) :
    Inv (m.storeParentOrCount c (.parent p)) live refs chains ts := by
  have heq := m.parent_storeParent c p
  have hroot (x : ℕ) : root (Function.update m.parent c (some p)) x = root m.parent x :=
    root_update_of_same h.trees.descending hlt hpar hp.2
  have hnone (x : ℕ) : Function.update m.parent c (some p) x = none ↔ m.parent x = none := by
    rcases eq_or_ne x c with rfl | hne <;> simp [*]
  have he : Evolves m.parent live chains (Function.update m.parent c (some p)) live chains :=
    { group := fun _ _ hx => ⟨hx.1, by rw [hroot, hroot]; exact hx.2⟩
      parented := fun _ _ hx => by rwa [Ne, hnone]
      same := fun _ _ hx => hx }
  constructor
  · refine ⟨h.trees.subset, ?_, ?_, h.trees.plain⟩
    · rw [heq]
      exact h.trees.descending.update hlt
    · intro x hx q hq
      rw [heq] at hq
      rcases eq_or_ne x c with rfl | hne
      · rw [Function.update_self] at hq
        cases hq
        exact hp.1
      · rw [Function.update_of_ne hne] at hq
        exact h.trees.parent_mem x hx q hq
  · intro r hr n hn
    have hrc : r ≠ c := by
      rintro rfl
      simp [Memory.storeParentOrCount] at hn
    have hn' : m.parentOrCount r = .count n := by simpa [Memory.storeParentOrCount, hrc] using hn
    rw [heq, h.counted r hr n hn']
    simp [heldIn, excessIn, hroot]
  · exact h.contract
  · refine { h.listed with heads := ?_, group := ?_ }
    · intro x
      rw [heq, hnone]
      exact h.listed.heads x
    · intro x hx y hy
      rw [heq, hroot, hroot]
      exact h.listed.group x hx y hy
  · refine { h.tails with tagged := ?_ }
    intro x hx
    rw [heq, hnone]
    exact h.tails.tagged x hx
  · intro q hq
    rw [heq]
    exact (h.ok q hq).evolve he fun y hy => ⟨h.contract.args_mem hq hy, h.contract.args_mem hq hy⟩

/-- Storing another count at a root changes no parent. -/
theorem parent_storeCount_of_root {n : ℕ} (hr : m.parent r = none) :
    (m.storeParentOrCount r (.count n)).parent = m.parent := by
  rw [m.parent_storeCount, ← hr, Function.update_eq_self]

/-- Another count for a root. What replaces the call must balance the count again. -/
theorem Inv.storeCount {new : List Pc} {n n' : ℕ} (h : Inv m live refs chains (pc :: rest))
    (hcount : m.parentOrCount r = .count n) (hr : r ∈ live)
    (hold : pc.NoLists) (hnew : ∀ q ∈ new, q.NoLists ∧ q.Ok m.parent live chains)
    (hcontract : Contract live refs' (new ++ rest))
    (hbalance : n' + heldIn m.parent live refs r + excessIn m.parent pc.excess r =
      n + heldIn m.parent live refs' r + excessIn m.parent (new.flatMap Pc.excess) r)
    (hother : ∀ r' ∈ live, r' ≠ r → m.parent r' = none →
      heldIn m.parent live refs r' + excessIn m.parent pc.excess r' =
        heldIn m.parent live refs' r' + excessIn m.parent (new.flatMap Pc.excess) r') :
    Inv (m.storeParentOrCount r (.count n')) live refs' chains (new ++ rest) := by
  have hroot : m.parent r = none := Memory.parent_eq_none_iff.mpr ⟨n, hcount⟩
  have heq := parent_storeCount_of_root (n := n') hroot
  have hnil (g : Pc → Option ℕ) (hg : ∀ q ∈ new, g q = none) : new.filterMap g = [] :=
    List.filterMap_eq_nil_iff.mpr hg
  have hlists (g : Pc → Option ℕ) (hg : ∀ q ∈ new, g q = none) (hpc : g pc = none) :
      (new ++ rest).filterMap g = (pc :: rest).filterMap g := by
    rw [List.filterMap_append, hnil g hg, List.filterMap_cons, hpc, List.nil_append]
  constructor
  · refine ⟨h.trees.subset, ?_, ?_, h.trees.plain⟩ <;> rw [heq]
    · exact h.trees.descending
    · exact h.trees.parent_mem
  · intro r' hr' k hk
    have htotal := h.counted
    rw [heq, List.flatMap_append, excessIn_append]
    rcases eq_or_ne r' r with rfl | hne
    · have hk' : k = n' := by simpa [Memory.storeParentOrCount, eq_comm] using hk
      have hn := htotal r' hr' n hcount
      rw [List.flatMap_cons, excessIn_append] at hn
      omega
    · have hk' : m.parentOrCount r' = .count k := by simpa [Memory.storeParentOrCount, hne] using hk
      have hn := htotal r' hr' k hk'
      rw [List.flatMap_cons, excessIn_append] at hn
      have := hother r' hr' hne (Memory.parent_eq_none_iff.mpr ⟨k, hk'⟩)
      omega
  · exact hcontract
  · rw [hlists _ (fun q hq => (hnew q hq).1.pending) hold.pending,
      hlists _ (fun q hq => (hnew q hq).1.dying) hold.dying]
    refine { h.listed with heads := ?_, group := ?_ } <;> rw [heq]
    · exact h.listed.heads
    · exact h.listed.group
  · rw [hlists _ (fun q hq => (hnew q hq).1.linking) hold.linking]
    refine { h.tails with tagged := ?_ }
    rw [heq]
    exact h.tails.tagged
  · intro q hq
    rw [heq]
    rcases List.mem_append.mp hq with hq | hq
    · exact (hnew q hq).2
    · exact h.ok q (List.mem_cons_of_mem _ hq)

/-- A child that is being linked is a live child. -/
theorem Pc.Ok.linking {parent : ℕ → Option ℕ} (h : pc.Ok parent live chains)
    (hl : pc.linking = some c) : c ∈ live ∧ parent c ≠ none := by
  cases pc <;> simp only [Pc.linking, reduceCtorEq, Option.some.injEq] at hl
  case loadTail => exact hl ▸ ⟨h.child_mem.1, h.parented⟩
  case linkBackward => exact hl ▸ ⟨h.child_mem.1, h.parented⟩
  all_goals exact hl ▸ ⟨h.1.child_mem.1, h.1.parented⟩

/-- A child that is not yet appended is being linked. -/
theorem Pc.linking_of_pending (h : pc.pending = some c) : pc.linking = some c := by
  cases pc <;> first | exact h | simp [Pc.pending] at h

/-- The children that are being linked are live children. -/
theorem Inv.linking_mem (h : Inv m live refs chains ts) (hc : c ∈ ts.filterMap Pc.linking) :
    c ∈ live ∧ m.parent c ≠ none := by
  obtain ⟨q, hq, hl⟩ := List.mem_filterMap.mp hc
  exact (h.ok q hq).linking hl

/-- The children that are not yet appended are live children. -/
theorem Inv.pending_mem (h : Inv m live refs chains ts) (hc : c ∈ ts.filterMap Pc.pending) :
    c ∈ live ∧ m.parent c ≠ none := by
  obtain ⟨q, hq, hl⟩ := List.mem_filterMap.mp hc
  exact (h.ok q hq).linking (Pc.linking_of_pending hl)

/-- The second compare-exchange of a fuse: a root with an unchanged count becomes a child. -/
theorem Inv.install {f : FuseState} {r1 r2 : ArenaRoot}
    (h : Inv m live refs chains (.install f r1 r2 :: rest))
    (hcount : m.parentOrCount r2.root = .count r2.count) :
    Inv (m.storeParentOrCount r2.root (.parent r1.root)) live refs chains
      (.loadTail f r1.root r2.root :: rest) := by
  obtain ⟨hf, hsides, hlt⟩ := h.ok _ List.mem_cons_self
  have hd := h.trees.descending
  have hnone : m.parent r2.root = none := Memory.parent_eq_none_iff.mpr ⟨_, hcount⟩
  have heq := m.parent_storeParent r2.root r1.root
  have hroot (x : ℕ) := root_update_of_root (a := x) hd hlt hnone
  have hchild : root m.parent r2.root = r2.root := root_of_none hnone
  have hparent : root m.parent r1.root ≠ r2.root := by
    have := root_le hd r1.root
    omega
  have hlive : r1.root ∈ live ∧ r2.root ∈ live := by
    rcases hsides with ⟨h1, h2⟩ | ⟨h1, h2⟩ <;> exact ⟨h1.1, h2.1⟩
  have he : Evolves m.parent live chains (Function.update m.parent r2.root (some r1.root)) live chains :=
    { group := fun _ _ hx => ⟨hx.1, by rw [hroot, hroot, hx.2]⟩
      parented := fun {x} _ _ hx => by
        rcases eq_or_ne x r2.root with rfl | hne
        · simp
        · rwa [Function.update_of_ne hne]
      same := fun _ _ hx => hx }
  have hargs : ∀ q ∈ Pc.install f r1 r2 :: rest, ∀ y ∈ q.args, y ∈ live ∧ y ∈ live :=
    fun q hq y hy => ⟨h.contract.args_mem hq hy, h.contract.args_mem hq hy⟩
  have hrest (q : Pc) (hq : q ∈ rest) : q.Ok (Function.update m.parent r2.root (some r1.root)) live chains :=
    (h.ok q (List.mem_cons_of_mem _ hq)).evolve he (hargs q (List.mem_cons_of_mem _ hq))
  have hnew (g : Pc → Option ℕ) (hg : ∀ q ∈ rest, ∀ x, g q = some x → m.parent x ≠ none) :
      r2.root ∉ rest.filterMap g := by
    intro hmem
    obtain ⟨q, hq, hx⟩ := List.mem_filterMap.mp hmem
    exact hg q hq _ hx hnone
  constructor
  · refine ⟨h.trees.subset, ?_, ?_, h.trees.plain⟩
    · rw [heq]
      exact hd.update hlt
    · intro x hx q hq
      rw [heq] at hq
      rcases eq_or_ne x r2.root with rfl | hne
      · rw [Function.update_self] at hq
        cases hq
        exact hlive.1
      · rw [Function.update_of_ne hne] at hq
        exact h.trees.parent_mem x hx q hq
  · intro r hr n hn
    have hrc : r ≠ r2.root := by
      rintro rfl
      simp [Memory.storeParentOrCount] at hn
    have hn' : m.parentOrCount r = .count n := by simpa [Memory.storeParentOrCount, hrc] using hn
    have hr' := h.counted r hr n hn'
    have hc' := h.counted r2.root hlive.2 _ hcount
    rw [heq, heldIn_link hd hlt hnone hrc, excessIn_link hd hlt hnone hrc]
    simp only [List.flatMap_cons, Pc.excess, List.cons_append, excessIn_cons, hparent, if_false] at hr' hc' ⊢
    split at hr' <;> simp only [*, if_true, if_false] <;> omega
  · exact h.contract.replace rfl rfl
  · refine { h.listed with heads := ?_, group := ?_, nodup_pending := ?_ }
    · intro x
      rw [heq]
      rcases eq_or_ne x r2.root with rfl | hne
      · simp [List.filterMap_cons, Pc.pending, (h.listed.heads r2.root).mpr (.inl ⟨hlive.2, hnone⟩)]
      · rw [h.listed.heads x, Function.update_of_ne hne]
        simp [List.filterMap_cons, Pc.pending, Pc.dying, hne]
    · intro x hx y hy
      obtain ⟨hle, hxy⟩ := h.listed.group x hx y hy
      rw [heq, hroot, hroot, hxy]
      exact ⟨hle, rfl⟩
    · refine List.nodup_cons.mpr ⟨?_, h.listed.nodup_pending⟩
      exact hnew _ fun q hq x hx =>
        ((h.ok q (List.mem_cons_of_mem _ hq)).linking (Pc.linking_of_pending hx)).2
  · refine ⟨?_, h.tails.same, ?_⟩
    · intro x hx hor
      rw [heq] at hor
      rcases eq_or_ne x r2.root with rfl | hne
      · exact h.tails.tagged r2.root hx (.inl hnone)
      · rw [Function.update_of_ne hne] at hor
        refine h.tails.tagged x hx (hor.imp_right fun hmem => ?_)
        simpa [List.filterMap_cons, Pc.linking, hne] using hmem
    · refine List.nodup_cons.mpr ⟨?_, h.tails.nodup⟩
      exact hnew _ fun q hq x hx => ((h.ok q (List.mem_cons_of_mem _ hq)).linking hx).2
  · intro q hq
    rw [heq]
    rcases List.mem_cons.mp hq with rfl | hq
    · have hf' := hf.evolve he (hargs _ List.mem_cons_self)
      have hjoined : ∀ {x}, root m.parent x = root m.parent r1.root ∨ root m.parent x = r2.root →
          root (Function.update m.parent r2.root (some r1.root)) x = root m.parent r1.root := by
        rintro x (hx | hx) <;> rw [hroot, hx]
        · rw [if_neg hparent]
        · rw [if_pos rfl]
      have hp := hjoined (.inl rfl)
      have hc := hjoined (.inr hchild)
      have h12 : root (Function.update m.parent r2.root (some r1.root)) f.a1 = root m.parent r1.root ∧
          root (Function.update m.parent r2.root (some r1.root)) f.a2 = root m.parent r1.root := by
        rcases hsides with ⟨h1, h2⟩ | ⟨h1, h2⟩
        · exact ⟨hjoined (.inl h1.2.symm), hjoined (.inr (h2.2.symm.trans hchild))⟩
        · exact ⟨hjoined (.inr (h2.2.symm.trans hchild)), hjoined (.inl h1.2.symm)⟩
      have ha2 : f.a2 ∈ live := (hargs _ List.mem_cons_self f.a2 (by simp [Pc.args, Pc.uses])).1
      exact ⟨hf', ⟨ha2, h12.2.trans h12.1.symm⟩, ⟨hlive.1, hp.trans h12.1.symm⟩,
        ⟨hlive.2, hc.trans h12.1.symm⟩, hlt, by simp⟩
    · exact hrest q hq

/-- Another tail for an arena that has one, in the same list. -/
theorem Inv.storeTail (h : Inv m live refs chains ts) (ht : SameChain chains a t) :
    Inv (m.storePreviousOrTail a (.tail t)) live refs chains ts := by
  refine ⟨{ h.trees with }, h.counted, h.contract, { h.listed with }, ⟨?_, ?_, h.tails.nodup⟩, h.ok⟩
  · intro x hx hor
    rcases eq_or_ne x a with rfl | hne
    · exact ⟨t, by simp [Memory.storePreviousOrTail]⟩
    · simpa [Memory.storePreviousOrTail, hne] using h.tails.tagged x hx hor
  · intro x hx u hu
    rcases eq_or_ne x a with rfl | hne
    · have : u = t := by simpa [Memory.storePreviousOrTail, eq_comm] using hu
      rwa [this]
    · exact h.tails.same x hx u (by simpa [Memory.storePreviousOrTail, hne] using hu)

/-- The child is linked backward, which ends its linking. -/
theorem Inv.linkBackward {f : FuseState} {o : ℕ} (h : Inv m live refs chains (.linkBackward f p c o :: rest)) :
    Inv (m.storePreviousOrTail c (.previous o)) live refs chains (.fixupLoad f p :: rest) := by
  have hl : f.Linking m.parent live p c := h.ok _ List.mem_cons_self
  have hnodup := h.tails.nodup
  simp only [List.filterMap_cons, Pc.linking, List.nodup_cons] at hnodup
  refine ⟨{ h.trees with }, h.counted, h.contract.replace rfl rfl, { h.listed with },
    ⟨?_, ?_, hnodup.2⟩, ?_⟩
  · intro x hx hor
    have hne : x ≠ c := by
      rintro rfl
      rcases hor with hor | hor
      · exact hl.parented hor
      · exact hnodup.1 hor
    have := h.tails.tagged x hx (hor.imp_right fun hmem => List.mem_cons_of_mem _ hmem)
    simpa [Memory.storePreviousOrTail, hne] using this
  · intro x hx u hu
    rcases eq_or_ne x c with rfl | hne
    · simp [Memory.storePreviousOrTail] at hu
    · exact h.tails.same x hx u (by simpa [Memory.storePreviousOrTail, hne] using hu)
  · intro q hq
    rcases List.mem_cons.mp hq with rfl | hq
    · exact ⟨hl.ok, hl.joined, hl.parent_mem⟩
    · exact h.ok q (List.mem_cons_of_mem _ hq)

end Upb.Arena
