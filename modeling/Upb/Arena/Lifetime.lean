import Upb.Arena.Steps

/-!
# Steps that change the lists

Appending a child to the list of its new parent, handing a group to `_upb_Arena_DoFree`, freeing one
arena, and creating one.
-/

namespace Upb.Arena

open Upb.Common (root Descending ChainFamily SameChain splice mem_splice splice_ne_nil_iff behead
  root_of_none root_of_some root_le root_congr root_mem root_root)

variable {m : Memory} {live : Finset ℕ} {refs refs' : ℕ → ℕ} {chains : ℕ → List ℕ} {ts rest : List Pc}
  {pc pc' : Pc} {a p c r t x : ℕ}

/-- The chain that holds a live arena starts at a live arena with a lower address. -/
theorem Inv.exists_chain (h : Inv m live refs chains ts) (ha : a ∈ live) :
    ∃ k, a ∈ chains k ∧ k ∈ live ∧ k ≤ a ∧ root m.parent a = root m.parent k := by
  obtain ⟨k, hk⟩ := (h.listed.mem_iff a).mp (h.trees.subset ha)
  have hkl := (h.listed.live_iff k a hk).mp ha
  exact ⟨k, hk, hkl, h.listed.group k hkl a hk⟩

/-- The compare-exchange of `_upb_Arena_LinkForward` puts the child's list behind the parent's. -/
theorem Inv.linkForward {f : FuseState} (h : Inv m live refs chains (.linkForward f p c t :: rest))
    (hlast : m.next t = none) :
    ∃ chains', Inv (m.storeNext t (some c)) live refs chains' (.loadChildTail f p c t :: rest) := by
  obtain ⟨hl, hsame⟩ := h.ok _ List.mem_cons_self
  obtain ⟨k, hk, hkl, hkp, hroot⟩ := h.exists_chain hl.parent_mem.1
  have htk : t ∈ chains k := by
    obtain ⟨k', hk', ht⟩ := hsame
    rwa [h.listed.family.disjoint hk hk']
  have hkc : k ≠ c := by
    have := hl.lt
    omega
  have hcl : c ∈ live := hl.child_mem.1
  have hc : chains c ≠ [] := (h.listed.heads c).mpr (.inr (.inl (by simp [Pc.pending])))
  have hkne : chains k ≠ [] := List.ne_nil_of_mem hk
  have hnodup := h.listed.nodup_pending
  simp only [List.filterMap_cons, Pc.pending, List.nodup_cons] at hnodup
  have hmem {x y : ℕ} : x ∈ splice chains k c y ↔ y ≠ c ∧ (x ∈ chains y ∨ y = k ∧ x ∈ chains c) :=
    mem_splice hkc
  have he : Evolves m.parent live chains m.parent live (splice chains k c) :=
    ⟨fun _ _ hx => hx, fun _ _ hx => hx, fun _ _ hx => hx.splice hkc⟩
  refine ⟨splice chains k c, { h.trees with }, h.counted, h.contract.replace rfl rfl, ?_, ?_, ?_⟩
  · constructor
    · exact h.listed.family.splice htk hlast hkc hc
    · intro x
      rw [show (m.storeNext t (some c)).allocated = m.allocated from rfl, h.listed.mem_iff x]
      constructor
      · rintro ⟨y, hy⟩
        rcases eq_or_ne y c with rfl | hyc
        · exact ⟨k, hmem.mpr ⟨hkc, .inr ⟨rfl, hy⟩⟩⟩
        · exact ⟨y, hmem.mpr ⟨hyc, .inl hy⟩⟩
      · rintro ⟨y, hy⟩
        rcases (hmem.mp hy).2 with hy | ⟨-, hy⟩
        · exact ⟨y, hy⟩
        · exact ⟨c, hy⟩
    · intro x
      rw [splice_ne_nil_iff hkc hkne, h.listed.heads x]
      rcases eq_or_ne x c with rfl | hxc
      · have hdying : x ∉ rest.filterMap Pc.dying := fun hx => h.listed.not_live x hx hcl
        have hpar : (m.storeNext t (some x)).parent x ≠ none := hl.parented
        simp [List.filterMap_cons, Pc.pending, Pc.dying, hnodup.1, hdying, hpar]
      · have hpar : (m.storeNext t (some c)).parent x = m.parent x := rfl
        simp [List.filterMap_cons, Pc.pending, Pc.dying, hxc, hpar]
    · intro y x hx
      rcases (hmem.mp hx).2 with hxy | ⟨rfl, hxc⟩
      · exact h.listed.live_iff y x hxy
      · rw [h.listed.live_iff c x hxc]
        exact iff_of_true hcl hkl
    · intro y hy x hx
      rcases (hmem.mp hx).2 with hxy | ⟨rfl, hxc⟩
      · exact h.listed.group y hy x hxy
      · obtain ⟨hcx, hrx⟩ := h.listed.group c hcl x hxc
        refine ⟨by have := hl.lt; omega, hrx.trans ?_⟩
        exact hl.child_mem.2.trans (hl.parent_mem.2.symm.trans hroot)
    · exact h.listed.not_live
    · exact h.listed.nodup_dying
    · exact hnodup.2
  · exact ⟨h.tails.tagged, fun x hx u hu => (h.tails.same x hx u hu).splice hkc, h.tails.nodup⟩
  · intro q hq
    rcases List.mem_cons.mp hq with rfl | hq
    · refine ⟨hl, k, hmem.mpr ⟨hkc, .inl hk⟩, hmem.mpr ⟨hkc, .inr ⟨rfl, ?_⟩⟩⟩
      exact h.listed.family.head_mem hc
    · have hq' := List.mem_cons_of_mem (Pc.linkForward f p c t) hq
      exact (h.ok q hq').evolve he fun y hy => ⟨h.contract.args_mem hq' hy, h.contract.args_mem hq' hy⟩

/-- A call that is about to release a reference counts once. -/
theorem count_releasing_cons (hpc : pc.releasing = some a) (x : ℕ) :
    ((pc :: rest).filterMap Pc.releasing).count x =
      (rest.filterMap Pc.releasing).count x + if a = x then 1 else 0 := by
  rw [List.filterMap_cons, hpc, List.count_cons]
  simp

/-- When the count of a group is one and a call is about to release it, nothing else relies on the
group. -/
theorem Inv.last_reference (h : Inv m live refs chains (pc :: rest)) (hpc : pc.releasing = some a)
    (hr : InGroup m.parent live a r) (hcount : m.parentOrCount r = .count 1) :
    refs a = 1 ∧ (∀ x ∈ live, x ≠ a → root m.parent x = r → refs x = 0) ∧
      ∀ q ∈ rest, ∀ x ∈ q.args, root m.parent x ≠ r := by
  have hroot : root m.parent a = r := by
    rw [← hr.2]
    exact root_of_none (Memory.parent_eq_none_iff.mpr ⟨1, hcount⟩)
  have ha : a ∈ live :=
    h.contract.args_mem List.mem_cons_self (List.mem_append_right _ (by simp [hpc]))
  have htotal := h.counted r hr.1 1 hcount
  have hone : heldIn m.parent live refs (root m.parent a) ≤ 1 := by
    rw [hroot]
    omega
  have hcons (x : ℕ) : ((pc :: rest).filterMap Pc.releasing).count x = _ := count_releasing_cons hpc x
  have hrefs : refs a = 1 := by
    have hle : refs a ≤ heldIn m.parent live refs (root m.parent a) := le_heldIn ha
    have hrel := h.contract.releasing a
    rw [hcons, if_pos rfl] at hrel
    omega
  have hzero : ∀ x ∈ live, x ≠ a → root m.parent x = r → refs x = 0 := by
    intro x hx hne hxr
    have : refs a + refs x ≤ heldIn m.parent live refs (root m.parent a) :=
      add_le_heldIn ha hx (Ne.symm hne) (hxr.trans hroot.symm)
    omega
  refine ⟨hrefs, hzero, ?_⟩
  intro q hq x hx hxr
  have hq' : q ∈ pc :: rest := List.mem_cons_of_mem _ hq
  have hxl := h.contract.args_mem hq' hx
  rcases List.mem_append.mp hx with hu | hrel
  · have hheld := h.contract.held q hq' x hu
    rw [hcons] at hheld
    rcases eq_or_ne x a with rfl | hne
    · rw [if_pos rfl] at hheld
      omega
    · have := hzero x hxl hne hxr
      omega
  · have hmem : x ∈ rest.filterMap Pc.releasing :=
      List.mem_filterMap.mpr ⟨q, hq, Option.mem_toList.mp hrel⟩
    have hpos := List.count_pos_iff.mpr hmem
    have hle := h.contract.releasing x
    rw [hcons] at hle
    rcases eq_or_ne x a with rfl | hne
    · rw [if_pos rfl] at hle
      omega
    · have := hzero x hxl hne hxr
      omega

/-- A group whose last reference is released is handed to `_upb_Arena_DoFree`. -/
theorem Inv.retire (h : Inv m live refs chains (pc :: rest)) (hpc : pc.releasing = some a)
    (hlists : pc.NoLists) (hexcess : pc.excess = []) (hr : InGroup m.parent live a r)
    (hcount : m.parentOrCount r = .count 1) :
    Inv m (live.filter fun x => root m.parent x ≠ r) (Function.update refs a (refs a - 1)) chains
      (.doFree a r :: rest) := by
  obtain ⟨hrefs, hzero, hothers⟩ := h.last_reference hpc hr hcount
  have hd := h.trees.descending
  have hnone : m.parent r = none := Memory.parent_eq_none_iff.mpr ⟨1, hcount⟩
  have hself : root m.parent r = r := root_of_none hnone
  have hroot : root m.parent a = r := hr.2.symm.trans hself
  have hmem {x : ℕ} : x ∈ live.filter (fun x => root m.parent x ≠ r) ↔ x ∈ live ∧ root m.parent x ≠ r :=
    Finset.mem_filter
  have hupdate {x : ℕ} (hx : root m.parent x ≠ r) : Function.update refs a (refs a - 1) x = refs x :=
    Function.update_of_ne (by rintro rfl; exact hx hroot) ..
  have he : Evolves m.parent live chains m.parent (live.filter fun x => root m.parent x ≠ r) chains :=
    { group := fun _ ha' hx => ⟨hmem.mpr ⟨hx.1, by rw [hx.2]; exact (hmem.mp ha').2⟩, hx.2⟩
      parented := fun _ _ hx => hx
      same := fun _ _ hx => hx }
  constructor
  · refine ⟨fun x hx => h.trees.subset (hmem.mp hx).1, hd, ?_, fun x hx => h.trees.plain x (hmem.mp hx).1⟩
    intro x hx q hq
    refine hmem.mpr ⟨h.trees.parent_mem x (hmem.mp hx).1 q hq, ?_⟩
    rw [← root_of_some hd hq]
    exact (hmem.mp hx).2
  · intro r' hr' n hn
    obtain ⟨hr'l, hr'r⟩ := hmem.mp hr'
    have hself' : root m.parent r' = r' := root_of_none (Memory.parent_eq_none_iff.mpr ⟨n, hn⟩)
    have hne : r' ≠ r := by rwa [hself'] at hr'r
    have hheld : heldIn m.parent (live.filter fun x => root m.parent x ≠ r)
        (Function.update refs a (refs a - 1)) r' = heldIn m.parent live refs r' := by
      unfold heldIn
      rw [Finset.filter_filter]
      refine Finset.sum_congr ?_ fun x hx => ?_
      · refine Finset.filter_congr fun x _ => ?_
        constructor
        · exact fun hx => hx.2
        · exact fun hx => ⟨by rw [hx]; exact hne, hx⟩
      · refine hupdate ?_
        rw [(Finset.mem_filter.mp hx).2]
        exact hne
    have hn' := h.counted r' hr'l n hn
    simp only [List.flatMap_cons, hexcess] at hn'
    rw [hheld]
    exact hn'
  · constructor
    · intro x hx
      have hxl : x ∈ live := by
        apply h.contract.mem_live
        rcases eq_or_ne x a with rfl | hne
        · simp [hrefs] at hx
        · rwa [Function.update_of_ne hne] at hx
      refine hmem.mpr ⟨hxl, fun hxr => ?_⟩
      rcases eq_or_ne x a with rfl | hne
      · simp [hrefs] at hx
      · rw [Function.update_of_ne hne, hzero x hxl hne hxr] at hx
        omega
    · intro x
      have hle := h.contract.releasing x
      rw [count_releasing_cons hpc] at hle
      change (rest.filterMap Pc.releasing).count x ≤ _
      rcases eq_or_ne x a with rfl | hne
      · rw [if_pos rfl] at hle
        rw [Function.update_self]
        omega
      · rw [Function.update_of_ne hne]
        omega
    · intro q hq x hx
      rcases List.mem_cons.mp hq with rfl | hq
      · simp [Pc.uses] at hx
      · have hlt := h.contract.held q (List.mem_cons_of_mem _ hq) x hx
        rw [count_releasing_cons hpc] at hlt
        rw [hupdate (hothers q hq x (List.mem_append_left _ hx))]
        change (rest.filterMap Pc.releasing).count x < _
        omega
  · have hlisted := h.listed
    simp only [List.filterMap_cons, hlists.pending, hlists.dying] at hlisted
    refine { hlisted with heads := ?_, live_iff := ?_, group := ?_, not_live := ?_, nodup_dying := ?_ }
    · intro x
      rw [hlisted.heads x, hmem]
      simp only [List.filterMap_cons, Pc.pending, Pc.dying, List.mem_cons]
      constructor
      · rintro (⟨hx, hxn⟩ | hx | hx)
        · rcases eq_or_ne x r with rfl | hne
          · exact .inr (.inr (.inl rfl))
          · exact .inl ⟨⟨hx, by rwa [root_of_none hxn]⟩, hxn⟩
        · exact .inr (.inl hx)
        · exact .inr (.inr (.inr hx))
      · rintro (⟨⟨hx, -⟩, hxn⟩ | hx | rfl | hx)
        · exact .inl ⟨hx, hxn⟩
        · exact .inr (.inl hx)
        · exact .inl ⟨hr.1, hnone⟩
        · exact .inr (.inr hx)
    · intro y x hx
      rw [hmem, hmem, hlisted.live_iff y x hx]
      refine and_congr_right fun hy => ?_
      rw [(hlisted.group y hy x hx).2]
    · intro y hy x hx
      exact hlisted.group y (hmem.mp hy).1 x hx
    · intro x hx
      rw [hmem]
      rcases List.mem_cons.mp hx with rfl | hx
      · exact fun hcon => hcon.2 hself
      · exact fun hcon => hlisted.not_live x hx hcon.1
    · exact List.nodup_cons.mpr ⟨fun hmem => hlisted.not_live r hmem hr.1, hlisted.nodup_dying⟩
  · have htails := h.tails
    simp only [List.filterMap_cons, hlists.linking] at htails
    exact ⟨fun x hx => htails.tagged x (hmem.mp hx).1, fun x hx => htails.same x (hmem.mp hx).1, htails.nodup⟩
  · intro q hq
    rcases List.mem_cons.mp hq with rfl | hq
    · trivial
    · have hq' : q ∈ pc :: rest := List.mem_cons_of_mem _ hq
      refine (h.ok q hq').evolve he fun y hy => ⟨h.contract.args_mem hq' hy, hmem.mpr ⟨?_, ?_⟩⟩
      · exact h.contract.args_mem hq' hy
      · exact hothers q hq y hy

/-- Where chains start once the head of one has gone. -/
theorem Inv.behead_ne_nil_iff (h : Inv m live refs chains ts) (hc : chains c ≠ []) :
    behead m.next chains c x ≠ [] ↔ x ≠ c ∧ chains x ≠ [] ∨ m.next c = some x := by
  have hf := h.listed.family
  constructor
  · intro hne
    obtain ⟨y, hy⟩ := List.exists_mem_of_ne_nil _ hne
    obtain ⟨-, ⟨hxc, hyx⟩ | ⟨hnext, -⟩⟩ := (hf.mem_behead hc).mp hy
    · exact .inl ⟨hxc, List.ne_nil_of_mem hyx⟩
    · exact .inr hnext
  · rintro (⟨hxc, hx⟩ | hnext)
    · have hmem := hf.head_mem hx
      exact List.ne_nil_of_mem ((hf.mem_behead hc).mpr ⟨hxc, .inl ⟨hxc, hmem⟩⟩)
    · have hmem := hf.next_mem (hf.head_mem hc) hnext
      exact List.ne_nil_of_mem ((hf.mem_behead hc).mpr ⟨(hf.chains_next hc hnext).1, .inr ⟨hnext, hmem⟩⟩)

/-- One round of the loop of `_upb_Arena_DoFree`. -/
theorem Inv.freeBlocks {new : List Pc} (h : Inv m live refs chains (.doFree a c :: rest))
    (hnew : new = (m.next c).toList.map (Pc.doFree a)) :
    Inv (m.freeBlocks c) live refs (behead m.next chains c) (new ++ rest) := by
  have hf := h.listed.family
  have hdying : c ∈ (Pc.doFree a c :: rest).filterMap Pc.dying := by simp [Pc.dying]
  have hdead : c ∉ live := h.listed.not_live c hdying
  have hc : chains c ≠ [] := (h.listed.heads c).mpr (.inr (.inr hdying))
  have hnodup := h.listed.nodup_dying
  simp only [List.filterMap_cons, Pc.dying, List.nodup_cons] at hnodup
  have hnone (g : Pc → Option ℕ) (hg : ∀ x, g (.doFree a x) = none) :
      (new ++ rest).filterMap g = rest.filterMap g := by
    rw [hnew, List.filterMap_append]
    cases m.next c <;> simp [hg]
  have hdying' : (new ++ rest).filterMap Pc.dying = (m.next c).toList ++ rest.filterMap Pc.dying := by
    rw [hnew, List.filterMap_append]
    cases m.next c <;> simp [Pc.dying]
  have hexcess : (new ++ rest).flatMap Pc.excess = rest.flatMap Pc.excess := by
    rw [hnew, List.flatMap_append]
    cases m.next c <;> simp [Pc.excess]
  have hnextdead {x : ℕ} (hx : m.next c = some x) : x ∉ live := by
    have hmem := hf.next_mem (hf.head_mem hc) hx
    exact fun hxl => hdead ((h.listed.live_iff c x hmem).mp hxl)
  have hsame {x y : ℕ} (hx : x ∈ live) (hxy : SameChain chains x y) :
      SameChain (behead m.next chains c) x y := by
    obtain ⟨k, hxk, hyk⟩ := hxy
    have hkc : k ≠ c := by
      rintro rfl
      exact hdead ((h.listed.live_iff k x hxk).mp hx)
    have hnotc {z : ℕ} (hz : z ∈ chains k) : z ≠ c := by
      rintro rfl
      exact hkc (hf.disjoint hz (hf.head_mem hc))
    exact ⟨k, (hf.mem_behead hc).mpr ⟨hnotc hxk, .inl ⟨hkc, hxk⟩⟩,
      (hf.mem_behead hc).mpr ⟨hnotc hyk, .inl ⟨hkc, hyk⟩⟩⟩
  have he : Evolves m.parent live chains m.parent live (behead m.next chains c) :=
    ⟨fun _ _ hx => hx, fun _ _ hx => hx, fun hx _ hxy => hsame hx hxy⟩
  constructor
  · refine { h.trees with subset := fun x hx => Finset.mem_erase.mpr ⟨?_, h.trees.subset hx⟩ }
    rintro rfl
    exact hdead hx
  · rw [hexcess]
    exact h.counted
  · constructor
    · exact h.contract.mem_live
    · rw [hnone _ fun _ => rfl]
      exact h.contract.releasing
    · rw [hnone _ fun _ => rfl]
      intro q hq x hx
      rcases List.mem_append.mp hq with hq | hq
      · rw [hnew] at hq
        obtain ⟨y, -, rfl⟩ := List.mem_map.mp hq
        simp [Pc.uses] at hx
      · exact h.contract.held q (List.mem_cons_of_mem _ hq) x hx
  · rw [hnone _ fun _ => rfl, hdying']
    constructor
    · exact hf.behead hc fun _ _ => rfl
    · intro x
      change x ∈ m.allocated.erase c ↔ _
      rw [Finset.mem_erase, h.listed.mem_iff x]
      constructor
      · rintro ⟨hxc, k, hk⟩
        rcases eq_or_ne k c with rfl | hkc
        · -- the rest of a chain whose head goes is named by the head's successor
          obtain ⟨d, hd, hseg⟩ := hf.exists_cons hc
          rw [hd, List.mem_cons] at hk
          have hxd := hk.resolve_left hxc
          cases hnext : m.next k with
          | none =>
            rw [hnext] at hseg
            cases d with
            | nil => simp at hxd
            | cons y d => simp [Upb.Common.Seg] at hseg
          | some y =>
            exact ⟨y, (hf.mem_behead hc).mpr ⟨hxc, .inr ⟨hnext, by rw [hd]; exact List.mem_cons_of_mem _ hxd⟩⟩⟩
        · exact ⟨k, (hf.mem_behead hc).mpr ⟨hxc, .inl ⟨hkc, hk⟩⟩⟩
      · rintro ⟨k, hk⟩
        obtain ⟨hxc, ⟨-, hk⟩ | ⟨-, hk⟩⟩ := (hf.mem_behead hc).mp hk
        · exact ⟨hxc, k, hk⟩
        · exact ⟨hxc, c, hk⟩
    · intro x
      rw [h.behead_ne_nil_iff hc, h.listed.heads x]
      have hpending : c ∉ rest.filterMap Pc.pending := fun hmem =>
        hdead (h.pending_mem (by simpa [List.filterMap_cons, Pc.pending] using hmem)).1
      change _ ↔ (x ∈ live ∧ m.parent x = none) ∨ _
      simp only [List.filterMap_cons, Pc.pending, Pc.dying, List.mem_cons, List.mem_append,
        Option.mem_toList]
      rcases eq_or_ne x c with rfl | hxc
      · simp [hdead, hpending, hnodup.1]
      · simp only [ne_eq, hxc, not_false_eq_true, true_and, false_or]
        tauto
    · intro k x hx
      obtain ⟨-, ⟨-, hk⟩ | ⟨hnext, hk⟩⟩ := (hf.mem_behead hc).mp hx
      · exact h.listed.live_iff k x hk
      · rw [h.listed.live_iff c x hk]
        exact iff_of_false hdead (hnextdead hnext)
    · intro k hk x hx
      obtain ⟨-, ⟨-, hxk⟩ | ⟨hnext, -⟩⟩ := (hf.mem_behead hc).mp hx
      · exact h.listed.group k hk x hxk
      · exact absurd hk (hnextdead hnext)
    · intro x hx
      rcases List.mem_append.mp hx with hx | hx
      · exact hnextdead (Option.mem_toList.mp hx)
      · exact h.listed.not_live x (List.mem_cons_of_mem c hx)
    · cases hnext : m.next c with
      | none => simpa using hnodup.2
      | some y =>
        refine List.nodup_cons.mpr ⟨fun hy => ?_, hnodup.2⟩
        exact (h.listed.heads y).mpr (.inr (.inr (List.mem_cons_of_mem _ hy))) (hf.chains_next hc hnext).2
    · exact h.listed.nodup_pending
  · rw [hnone _ fun _ => rfl]
    exact ⟨h.tails.tagged, fun x hx t ht => hsame hx (h.tails.same x hx t ht), h.tails.nodup⟩
  · intro q hq
    rcases List.mem_append.mp hq with hq | hq
    · rw [hnew] at hq
      obtain ⟨y, -, rfl⟩ := List.mem_map.mp hq
      trivial
    · have hq' := List.mem_cons_of_mem (Pc.doFree a c) hq
      exact (h.ok q hq').evolve he fun y hy => ⟨h.contract.args_mem hq' hy, h.contract.args_mem hq' hy⟩

/-- References in excess were added to live arenas. -/
theorem Pc.Ok.excess {parent : ℕ → Option ℕ} {e : ℕ × ℕ} (h : pc.Ok parent live chains)
    (he : e ∈ pc.excess) : e.1 ∈ live := by
  have hadded {f : FuseState} (hf : f.Ok parent live) (hmem : e ∈ f.added) : e.1 ∈ live := by
    rcases hf.added e hmem with hmem | hmem <;> exact hmem.1
  cases pc with
  | findRoot at_ caller =>
    cases caller with
    | fuse1 f => exact hadded h.2 he
    | fuse2 f r1 => exact hadded h.2.1 he
    | _ => simp [Pc.excess] at he
  | install f r1 r2 =>
    rcases List.mem_cons.mp he with rfl | he
    · rcases h.2.1 with ⟨h1, -⟩ | ⟨h1, -⟩ <;> exact h1.1
    · exact hadded h.1 he
  | loadTail f p c | linkBackward f p c o => exact hadded h.ok he
  | addRefs f r1 r2 | fixupLoad f r | fixupRefs f r n => exact hadded h.1 he
  | loadTailNext f p c t | linkForward f p c t | loadChildTail f p c t | loadParentTail f p c o t
  | updateParentTail f p c o t e => exact hadded h.1.ok he
  | _ => simp [Pc.excess] at he

/-- A new arena is a group of its own, with one reference. -/
theorem Inv.new (h : Inv m live refs chains ts) (ha : a ∉ m.allocated) :
    Inv (m.initSlow a) (insert a live) (Function.update refs a 1) (Function.update chains a [a]) ts := by
  have hal : a ∉ live := fun hl => ha (h.trees.subset hl)
  have hd := h.trees.descending
  have hne {x : ℕ} (hx : x ∈ live) : x ≠ a := by
    rintro rfl
    exact hal hx
  have heq : (m.initSlow a).parent = Function.update m.parent a none := m.parent_storeCount a 1
  have hd' : Descending (Function.update m.parent a none) := by
    intro x q hq
    rcases eq_or_ne x a with rfl | hxa
    · simp at hq
    · exact hd x q (by rwa [Function.update_of_ne hxa] at hq)
  have hself : root (Function.update m.parent a none) a = a := root_of_none (Function.update_self ..)
  have hroot {x : ℕ} (hx : x ∈ live) : root (Function.update m.parent a none) x = root m.parent x :=
    root_congr (s := live) hd hd' h.trees.parent_mem (fun y hy => Function.update_of_ne (hne hy) ..) hx
  have hrootne {x : ℕ} (hx : x ∈ live) : root m.parent x ≠ a :=
    hne (root_mem (s := live) hd h.trees.parent_mem hx)
  have hchain (k : ℕ) : a ∉ chains k := fun hk => ha ((h.listed.mem_iff a).mpr ⟨k, hk⟩)
  have hmem {x k : ℕ} : x ∈ Function.update chains a [a] k ↔ x ∈ chains k ∧ k ≠ a ∨ x = a ∧ k = a := by
    rcases eq_or_ne k a with rfl | hk <;> simp [*]
  have hnil : chains a = [] := by
    by_contra hcon
    exact hchain a (h.listed.family.head_mem hcon)
  have he : Evolves m.parent live chains (Function.update m.parent a none) (insert a live)
      (Function.update chains a [a]) :=
    { group := fun {b x} hb _ hx => ⟨Finset.mem_insert_of_mem hx.1, by rw [hroot hx.1, hroot hb, hx.2]⟩
      parented := fun hx _ hpar => by rwa [Function.update_of_ne (hne hx)]
      same := fun {x y} hx _ hxy => by
        obtain ⟨k, hk, hk'⟩ := hxy
        have hka : k ≠ a := by
          rintro rfl
          simp [hnil] at hk
        exact ⟨k, hmem.mpr (.inl ⟨hk, hka⟩), hmem.mpr (.inl ⟨hk', hka⟩)⟩ }
  constructor
  · constructor
    · exact Finset.insert_subset_insert a h.trees.subset
    · rw [heq]
      exact hd'
    · intro x hx q hq
      rw [heq] at hq
      rcases eq_or_ne x a with rfl | hxa
      · simp at hq
      · rw [Function.update_of_ne hxa] at hq
        have hxl := Finset.mem_of_mem_insert_of_ne hx hxa
        exact Finset.mem_insert_of_mem (h.trees.parent_mem x hxl q hq)
    · intro x hx
      rcases eq_or_ne x a with rfl | hxa
      · simp [Memory.initSlow]
      · simpa [Memory.initSlow, hxa] using h.trees.plain x (Finset.mem_of_mem_insert_of_ne hx hxa)
  · intro r hr n hn
    have hexcess : excessIn (Function.update m.parent a none) (ts.flatMap Pc.excess) r =
        excessIn m.parent (ts.flatMap Pc.excess) r := by
      unfold excessIn
      congr 1
      refine List.map_congr_left fun e hmem => ?_
      obtain ⟨q, hq, heq'⟩ := List.mem_flatMap.mp hmem
      rw [hroot ((h.ok q hq).excess heq')]
    have hheld : heldIn (Function.update m.parent a none) (insert a live) (Function.update refs a 1) r =
        (if a = r then 1 else 0) + heldIn m.parent live refs r := by
      unfold heldIn
      rw [Finset.sum_filter, Finset.sum_insert hal, hself, Function.update_self, Finset.sum_filter]
      congr 1
      refine Finset.sum_congr rfl fun x hx => ?_
      rw [hroot hx, Function.update_of_ne (hne hx)]
    rw [heq, hexcess, hheld]
    rcases eq_or_ne r a with rfl | hra
    · have hn' : n = 1 := by simpa [Memory.initSlow, eq_comm] using hn
      have hzero : heldIn m.parent live refs r = 0 :=
        Finset.sum_eq_zero fun x hx =>
          absurd (Finset.mem_filter.mp hx).2 (hrootne (Finset.mem_filter.mp hx).1)
      have hzero' : excessIn m.parent (ts.flatMap Pc.excess) r = 0 := by
        refine List.sum_eq_zero fun k hk => ?_
        obtain ⟨e, hmem, rfl⟩ := List.mem_map.mp hk
        obtain ⟨q, hq, heq'⟩ := List.mem_flatMap.mp hmem
        exact if_neg (hrootne ((h.ok q hq).excess heq'))
      rw [hzero, hzero', if_pos rfl, hn']
    · have hrl := Finset.mem_of_mem_insert_of_ne hr hra
      have hn' : m.parentOrCount r = .count n := by simpa [Memory.initSlow, hra] using hn
      rw [if_neg (Ne.symm hra), zero_add]
      exact h.counted r hrl n hn'
  · have hzero : refs a = 0 := by
      by_contra hpos
      exact hal (h.contract.mem_live a (by omega))
    constructor
    · intro x hx
      rcases eq_or_ne x a with rfl | hxa
      · exact Finset.mem_insert_self ..
      · exact Finset.mem_insert_of_mem (h.contract.mem_live x (by rwa [Function.update_of_ne hxa] at hx))
    · intro x
      have hle := h.contract.releasing x
      rcases eq_or_ne x a with rfl | hxa
      · rw [Function.update_self]
        omega
      · rwa [Function.update_of_ne hxa]
    · intro q hq x hx
      have hxl := h.contract.args_mem hq (List.mem_append_left _ hx)
      rw [Function.update_of_ne (hne hxl)]
      exact h.contract.held q hq x hx
  · constructor
    · exact h.listed.family.insert hchain
    · intro x
      change x ∈ insert a m.allocated ↔ _
      rw [Finset.mem_insert, h.listed.mem_iff x]
      constructor
      · rintro (rfl | ⟨k, hk⟩)
        · exact ⟨x, hmem.mpr (.inr ⟨rfl, rfl⟩)⟩
        · refine ⟨k, hmem.mpr (.inl ⟨hk, ?_⟩)⟩
          rintro rfl
          simp [hnil] at hk
      · rintro ⟨k, hk⟩
        rcases hmem.mp hk with ⟨hk, -⟩ | ⟨rfl, -⟩
        · exact .inr ⟨k, hk⟩
        · exact .inl rfl
    · intro x
      rw [heq]
      rcases eq_or_ne x a with rfl | hxa
      · simp
      · rw [Function.update_of_ne hxa, Function.update_of_ne hxa, h.listed.heads x, Finset.mem_insert]
        simp [hxa]
    · intro k x hx
      rw [Finset.mem_insert, Finset.mem_insert]
      rcases hmem.mp hx with ⟨hxk, hk⟩ | ⟨rfl, rfl⟩
      · have hxa : x ≠ a := by
          rintro rfl
          exact hchain k hxk
        simpa [hxa, hk] using h.listed.live_iff k x hxk
      · exact Iff.rfl
    · intro k hk x hx
      rw [heq]
      rcases hmem.mp hx with ⟨hx, hka⟩ | ⟨rfl, rfl⟩
      · have hkl := Finset.mem_of_mem_insert_of_ne hk hka
        obtain ⟨hle, hxk⟩ := h.listed.group k hkl x hx
        refine ⟨hle, ?_⟩
        rw [hroot hkl, hroot ((h.listed.live_iff k x hx).mpr hkl), hxk]
      · exact ⟨le_rfl, rfl⟩
    · intro x hx hxl
      rcases Finset.mem_insert.mp hxl with rfl | hxl
      · exact (h.listed.heads x).mpr (.inr (.inr hx)) hnil
      · exact h.listed.not_live x hx hxl
    · exact h.listed.nodup_dying
    · exact h.listed.nodup_pending
  · refine ⟨?_, ?_, h.tails.nodup⟩
    · intro x hx hor
      rw [heq] at hor
      rcases eq_or_ne x a with rfl | hxa
      · exact ⟨x, by simp [Memory.initSlow]⟩
      · rw [Function.update_of_ne hxa] at hor
        simpa [Memory.initSlow, hxa] using h.tails.tagged x (Finset.mem_of_mem_insert_of_ne hx hxa) hor
    · intro x hx t ht
      rcases eq_or_ne x a with rfl | hxa
      · have : t = x := by simpa [Memory.initSlow, eq_comm] using ht
        exact ⟨x, by simp, by simp [this]⟩
      · have hxl := Finset.mem_of_mem_insert_of_ne hx hxa
        exact he.same hxl hx (h.tails.same x hxl t (by simpa [Memory.initSlow, hxa] using ht))
  · intro q hq
    rw [heq]
    refine (h.ok q hq).evolve he fun y hy => ⟨h.contract.args_mem hq hy, ?_⟩
    exact Finset.mem_insert_of_mem (h.contract.args_mem hq hy)

/-- A call that starts. -/
theorem Inv.start (h : Inv m live refs chains ts) (hlists : pc.NoLists) (hexcess : pc.excess = [])
    (hcontract : Contract live refs (pc :: ts)) (hok : pc.Ok m.parent live chains) :
    Inv m live refs chains (pc :: ts) where
  trees := h.trees
  counted := by simpa [hexcess] using h.counted
  contract := hcontract
  listed := by simpa [List.filterMap_cons, hlists.pending, hlists.dying] using h.listed
  tails := by simpa [List.filterMap_cons, hlists.linking] using h.tails
  ok q hq := by
    rcases List.mem_cons.mp hq with rfl | hq
    · exact hok
    · exact h.ok q hq

end Upb.Arena
