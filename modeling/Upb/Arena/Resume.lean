import Upb.Arena.Lifetime

/-!
# Every step of every call keeps the invariant

`Inv.resume_plain` covers the steps that change neither the references nor the live arenas: it says
that the step succeeds, that the invariant holds afterwards, and what happens to the groups. The steps
of `upb_Arena_IncRefFor` and `upb_Arena_Free` that take or release a reference follow one by one.
-/

namespace Upb.Arena

open Upb.Common (root Descending SameChain root_update_of_same root_update_of_root root_of_none
  root_of_some root_le)

variable {m m' : Memory} {live : Finset ℕ} {refs : ℕ → ℕ} {chains : ℕ → List ℕ} {rest : List Pc}
  {pc : Pc} {o : Outcome} {spurious : Bool} {a b p c r : ℕ}

/-- The running call after a step, if it has not returned. -/
def Outcome.threads : Outcome → List Pc
  | .run pc => [pc]
  | .ret _ _ => []

/-- The call an outcome belongs to. -/
def Outcome.call : Outcome → Call
  | .run pc => pc.call
  | .ret c _ => c

/-- The same arenas hold the same blocks. -/
structure SameBlocks (m m' : Memory) : Prop where
  allocated : m'.allocated = m.allocated
  blocks : m'.blocks = m.blocks
  freed : m'.freed = m.freed
  nextBlock : m'.nextBlock = m.nextBlock

theorem SameBlocks.refl : SameBlocks m m :=
  ⟨rfl, rfl, rfl, rfl⟩

/-- Groups are never split, two groups become one only by a fuse of their members, and no block comes
or goes. -/
structure Joins (m m' : Memory) (call : Call) : Prop where
  keep : ∀ x y, m.rootOf x = m.rootOf y → m'.rootOf x = m'.rootOf y
  only : ∀ x y, m'.rootOf x = m'.rootOf y → m.rootOf x = m.rootOf y ∨
    ∃ a b, call = .fuse a b ∧ (m.rootOf x = m.rootOf a ∧ m.rootOf y = m.rootOf b ∨
      m.rootOf x = m.rootOf b ∧ m.rootOf y = m.rootOf a)
  blocks : SameBlocks m m'

theorem Joins.of_eq {call : Call} (h : ∀ x, m'.rootOf x = m.rootOf x) (hb : SameBlocks m m') :
    Joins m m' call :=
  ⟨fun x y hxy => by rw [h, h, hxy], fun x y hxy => .inl (by rwa [h, h] at hxy), hb⟩

theorem Joins.refl {call : Call} : Joins m m call :=
  .of_eq (fun _ => rfl) .refl

/-- A fuse that returns has fused its arguments, and `upb_Arena_IsFused` answers yes only for arenas
of one group. -/
def Outcome.Joined (parent : ℕ → Option ℕ) : Outcome → Prop
  | .ret (.fuse a b) result => result = true ∧ root parent a = root parent b
  | .ret (.isFused a b) true => root parent a = root parent b
  | _ => True

/-- The outcome changes neither the references nor the live arenas. -/
def Outcome.Plain : Outcome → Prop
  | .run (.doFree _ _) | .ret (.incRefFor _) _ | .ret (.free _) _ => False
  | _ => True

/-- What a step of a call achieves that changes neither the references nor the live arenas. -/
structure PlainStep (m : Memory) (live : Finset ℕ) (refs : ℕ → ℕ) (rest : List Pc) (call : Call)
    (m' : Memory) (o : Outcome) : Prop where
  inv : ∃ chains', Inv m' live refs chains' (o.threads ++ rest)
  sameCall : o.call = call
  plain : o.Plain
  joins : Joins m m' call
  joined : o.Joined m'.parent

/-- A step that leaves the memory alone and goes on in the same call. -/
theorem Inv.goOn {pc' : Pc} (h : Inv m live refs chains (pc :: rest)) (hs : pc.SameDuties pc')
    (hok : pc'.Ok m.parent live chains) (hplain : Outcome.Plain (.run pc')) :
    PlainStep m live refs rest pc.call m (.run pc') where
  inv := ⟨chains, h.replace hs hok⟩
  sameCall := hs.call
  plain := hplain
  joins := .refl
  joined := trivial

/-- Another round of a fuse. -/
theorem Inv.doFuse {f : FuseState} (h : Inv m live refs chains (pc :: rest))
    (hs : pc.SameDuties (.findRoot (.entry f.ai1) (.fuse1 f))) (hf : f.Ok m.parent live) :
    PlainStep m live refs rest pc.call m (doFuse f) :=
  h.goOn hs ⟨hf.ai1, hf⟩ trivial

/-- A fuse that has nothing to take back returns. -/
theorem Inv.fixup {f : FuseState} (h : Inv m' live refs chains (.fixupLoad f r :: rest))
    (hj : Joins m m' (.fuse f.a1 f.a2)) :
    PlainStep m live refs rest (.fuse f.a1 f.a2) m' (fixup f r) := by
  obtain ⟨hf, hjoined, -⟩ := h.ok _ List.mem_cons_self
  unfold Arena.fixup
  split
  · rename_i hzero
    refine ⟨⟨chains, h.finish rfl ⟨rfl, rfl, rfl⟩ fun x => ?_⟩, rfl, trivial, hj, rfl, hjoined.2.symm⟩
    exact excessIn_of_sum_eq_zero (hf.refDelta.symm.trans hzero)
  · exact ⟨⟨chains, h⟩, rfl, trivial, hj, trivial⟩

/-- The parent of a live arena is a live arena of the same group. -/
theorem Inv.inGroup_parent {ts : List Pc} (h : Inv m live refs chains ts) (ha : InGroup m.parent live a b)
    (hp : m.parentOrCount b = .parent p) : InGroup m.parent live a p ∧ p < b ∧ m.parent b ≠ none := by
  have hpar := Memory.parent_eq_some_iff.mpr hp
  refine ⟨⟨h.trees.parent_mem b ha.1 p hpar, ?_⟩, h.trees.descending b p hpar, by simp [hpar]⟩
  rw [← root_of_some h.trees.descending hpar]
  exact ha.2

/-- A step of `_upb_Arena_FindRoot` changes no root and stays in the group it searches. -/
theorem Inv.findRoot {at_ : FindRoot} {caller : Caller}
    (h : Inv m live refs chains (.findRoot at_ caller :: rest)) :
    ∃ m' result, findRoot m at_ = .ok (m', result) ∧
      Inv m' live refs chains (.findRoot at_ caller :: rest) ∧
      (∀ x, root m'.parent x = root m.parent x) ∧ SameBlocks m m' ∧
      match result with
      | .inl at' => at'.Ok m'.parent live caller.target
      | .inr found => InGroup m'.parent live caller.target found.root := by
  obtain ⟨hat, -⟩ := h.ok _ List.mem_cons_self
  cases at_ with
  | entry ai =>
    rw [Arena.findRoot, Memory.load_bind (h.trees.subset hat.1)]
    cases hpoc : m.parentOrCount ai with
    | count n => exact ⟨m, .inr ⟨ai, n⟩, rfl, h, fun _ => rfl, .refl, hat⟩
    | parent p => exact ⟨m, .inl (.reload ai), rfl, h, fun _ => rfl, .refl, hat, (h.inGroup_parent hat hpoc).2.2⟩
  | reload ai =>
    obtain ⟨hai, hpar⟩ := hat
    rw [Arena.findRoot, Memory.load_bind (h.trees.subset hai.1)]
    cases hpoc : m.parentOrCount ai with
    | count n => exact absurd (Memory.parent_eq_none_iff.mpr ⟨n, hpoc⟩) hpar
    | parent p =>
      obtain ⟨hp, hlt, -⟩ := h.inGroup_parent hai hpoc
      refine ⟨m, .inl (.loadParent ai p), ?_, h, fun _ => rfl, .refl, hai, hpar, hp, hlt⟩
      simp only [if_neg hlt.ne']
      rfl
  | loadParent ai next =>
    obtain ⟨hai, hpar, hnext, hlt⟩ := hat
    rw [Arena.findRoot, Memory.load_bind (h.trees.subset hnext.1)]
    cases hpoc : m.parentOrCount next with
    | count n => exact ⟨m, .inr ⟨next, n⟩, rfl, h, fun _ => rfl, .refl, hnext⟩
    | parent g =>
      obtain ⟨hg, hlt', hpar'⟩ := h.inGroup_parent hnext hpoc
      refine ⟨m, .inl (.split ai next g), ?_, h, fun _ => rfl, .refl, hai, hpar, hnext, hpar', hlt, hg, hlt'⟩
      simp only [if_neg (hlt'.trans hlt).ne']
      rfl
  | split ai next grand =>
    obtain ⟨hai, hpar, hnext, hpar', hlt, hgrand, hlt'⟩ := hat
    have hsame : root m.parent grand = root m.parent ai := hgrand.2.trans hai.2.symm
    have hroot (x : ℕ) : root (m.storeParentOrCount ai (.parent grand)).parent x = root m.parent x := by
      rw [Memory.parent_storeParent]
      exact root_update_of_same h.trees.descending (hlt'.trans hlt) hpar hsame
    have h' := h.split hai.1 ⟨hgrand.1, hsame⟩ (hlt'.trans hlt) hpar
    have hgroup {x : ℕ} (hx : InGroup m.parent live caller.target x) :
        InGroup (m.storeParentOrCount ai (.parent grand)).parent live caller.target x :=
      ⟨hx.1, by rw [hroot, hroot]; exact hx.2⟩
    rw [Arena.findRoot, Memory.load_bind (h.trees.subset hai.1)]
    refine ⟨m.storeParentOrCount ai (.parent grand), .inl (.loadParent next grand), ?_, h', hroot,
      ⟨rfl, rfl, rfl, rfl⟩, hgroup hnext, ?_, hgroup hgrand, hlt'⟩
    · simp only [if_neg hlt'.ne']
      rfl
    · rw [Memory.parent_storeParent, Function.update_of_ne hlt.ne]
      exact hpar'

/-- What a caller of `_upb_Arena_FindRoot` does with the root it is given. -/
theorem Inv.found {at_ : FindRoot} {caller : Caller} {r : ArenaRoot}
    (h : Inv m' live refs chains (.findRoot at_ caller :: rest))
    (hr : InGroup m'.parent live caller.target r.root) (hj : Joins m m' caller.call) :
    PlainStep m live refs rest caller.call m' (found caller r) := by
  obtain ⟨-, hcaller⟩ := h.ok _ List.mem_cons_self
  have hgo {pc' : Pc} (hs : (Pc.findRoot at_ caller).SameDuties pc') (hok : pc'.Ok m'.parent live chains)
      (hplain : Outcome.Plain (.run pc')) : PlainStep m live refs rest caller.call m' (.run pc') :=
    ⟨⟨chains, h.replace hs hok⟩, hs.call, hplain, hj, trivial⟩
  cases caller with
  | fuse1 f => exact hgo ⟨rfl, rfl, rfl, rfl, rfl, rfl, rfl⟩ ⟨hcaller.ai2, hcaller, hr⟩ trivial
  | fuse2 f r1 =>
    obtain ⟨hf, hr1⟩ := hcaller
    simp only [Arena.found]
    split
    · rename_i heq
      have ha2 : f.a2 ∈ live :=
        h.contract.args_mem List.mem_cons_self (by simp [Pc.args, Pc.uses, Caller.uses])
      have hjoined : root m'.parent f.a2 = root m'.parent f.a1 := by
        rw [← hr1.2, heq]
        exact hr.2.symm
      have h' : Inv m' live refs chains (.fixupLoad f r1.root :: rest) :=
        h.replace ⟨rfl, rfl, rfl, rfl, rfl, rfl, rfl⟩ ⟨hf, ⟨ha2, hjoined⟩, hr1⟩
      exact h'.fixup hj
    · rename_i hne
      have hf' : FuseState.Ok m'.parent live { f with ai1 := r1.root, ai2 := r.root } :=
        ⟨hr1, hr, hf.added, hf.refDelta⟩
      split
      · rename_i hlt
        exact hgo ⟨rfl, rfl, rfl, rfl, rfl, rfl, rfl⟩ ⟨hf', .inr ⟨hr, hr1⟩, hlt⟩ trivial
      · exact hgo ⟨rfl, rfl, rfl, rfl, rfl, rfl, rfl⟩ ⟨hf', .inl ⟨hr1, hr⟩, by omega⟩ trivial
  | incRef a => exact hgo ⟨rfl, rfl, rfl, rfl, rfl, rfl, rfl⟩ hr trivial
  | isFused1 a b =>
    have hb : b ∈ live :=
      h.contract.args_mem List.mem_cons_self (by simp [Pc.args, Pc.uses, Caller.uses])
    exact hgo ⟨rfl, rfl, rfl, rfl, rfl, rfl, rfl⟩ ⟨⟨hb, rfl⟩, hr⟩ trivial
  | isFused2 a b ra =>
    simp only [Arena.found]
    split
    · rename_i heq
      have hjoined : root m'.parent a = root m'.parent b := by
        rw [← hcaller.2, heq]
        exact hr.2
      exact ⟨⟨chains, h.finish rfl ⟨rfl, rfl, rfl⟩ fun _ => rfl⟩, rfl, trivial, hj, hjoined⟩
    · exact hgo ⟨rfl, rfl, rfl, rfl, rfl, rfl, rfl⟩ ⟨hcaller, hcaller, hr⟩ trivial
  | isFused3 a b ra rb =>
    simp only [Arena.found]
    split
    · exact ⟨⟨chains, h.finish rfl ⟨rfl, rfl, rfl⟩ fun _ => rfl⟩, rfl, trivial, hj, trivial⟩
    · exact hgo ⟨rfl, rfl, rfl, rfl, rfl, rfl, rfl⟩ ⟨hcaller.2, hr⟩ trivial

/-- The first compare-exchange of a fuse: the references of one root are added to the other. -/
theorem Inv.addRefs {f : FuseState} {r1 r2 : ArenaRoot}
    (h : Inv m live refs chains (.addRefs f r1 r2 :: rest))
    (hcount : m.parentOrCount r1.root = .count r1.count) :
    Inv (m.storeParentOrCount r1.root (.count (r1.count + r2.count))) live refs chains
      (.install f r1 r2 :: rest) := by
  have hok := h.ok _ List.mem_cons_self
  have hr1 : r1.root ∈ live := by
    rcases hok.2.1 with ⟨h1, -⟩ | ⟨h1, -⟩ <;> exact h1.1
  have hself : root m.parent r1.root = r1.root :=
    root_of_none (Memory.parent_eq_none_iff.mpr ⟨_, hcount⟩)
  have hnew : ∀ q ∈ [Pc.install f r1 r2], q.NoLists ∧ q.Ok m.parent live chains := by
    intro q hq
    rw [List.mem_singleton.mp hq]
    exact ⟨⟨rfl, rfl, rfl⟩, hok⟩
  refine h.storeCount hcount hr1 ⟨rfl, rfl, rfl⟩ hnew (h.contract.replace rfl rfl) ?_ ?_
  · simp [Pc.excess, hself]
    omega
  · intro r' _ hne _
    simp [Pc.excess, hself, Ne.symm hne]

/-- `_upb_Arena_FixupRefs` takes back the references the fuse has added. -/
theorem Inv.fixupRefs {f : FuseState} {n : ℕ} (h : Inv m live refs chains (.fixupRefs f r n :: rest))
    (hcount : m.parentOrCount r = .count n) :
    f.refDelta ≤ n ∧ Inv (m.storeParentOrCount r (.count (n - f.refDelta))) live refs chains rest := by
  obtain ⟨hf, hjoined, hr⟩ := h.ok _ List.mem_cons_self
  have hself : root m.parent r = r := root_of_none (Memory.parent_eq_none_iff.mpr ⟨_, hcount⟩)
  have hadded : ∀ e ∈ f.added, root m.parent e.1 = r := by
    intro e he
    rw [← hself, hr.2]
    rcases hf.added e he with hmem | hmem
    · exact hmem.2
    · exact hmem.2.trans hjoined.2
  have hexcess (x : ℕ) : excessIn m.parent (Pc.fixupRefs f r n).excess x = if r = x then f.refDelta else 0 := by
    rw [hf.refDelta]
    exact excessIn_of_forall hadded
  have hle : f.refDelta ≤ n := by
    have := h.counted r hr.1 n hcount
    rw [List.flatMap_cons, excessIn_append, hexcess, if_pos rfl] at this
    omega
  have hcontract : Contract live refs ([] ++ rest) :=
    ⟨h.contract.mem_live, h.contract.releasing, fun q hq => h.contract.held q (List.mem_cons_of_mem _ hq)⟩
  refine ⟨hle, h.storeCount hcount hr.1 ⟨rfl, rfl, rfl⟩ (by simp) hcontract ?_ ?_⟩
  · rw [hexcess, if_pos rfl]
    simp
    omega
  · intro r' _ hne _
    rw [hexcess, if_neg (Ne.symm hne)]
    simp

/-- Every step of `upb_Arena_Fuse` and `upb_Arena_IsFused`, and the search for the root in
`upb_Arena_IncRefFor`. -/
theorem Inv.resume_plain (h : Inv m live refs chains (pc :: rest)) (spurious : Bool)
    (hfree : ∀ a, pc.call ≠ .free a) (hincRef : ∀ a r, pc ≠ .incRef a r) :
    ∃ m' o, resume m spurious pc = .ok (m', o) ∧ PlainStep m live refs rest pc.call m' o := by
  have hok := h.ok _ List.mem_cons_self
  cases pc with
  | findRoot at_ caller =>
    obtain ⟨m', result, heq, h', hroot, hblocks, hresult⟩ := h.findRoot
    rw [resume, heq]
    cases result with
    | inl at' =>
      refine ⟨m', .run (.findRoot at' caller), rfl, ⟨chains, h'.replace ?_ ?_⟩, rfl, trivial,
        .of_eq hroot hblocks, trivial⟩
      · exact ⟨rfl, rfl, rfl, by cases caller <;> rfl, rfl, rfl, rfl⟩
      · exact ⟨hresult, (h'.ok _ List.mem_cons_self).2⟩
    | inr r => exact ⟨m', _, rfl, h'.found hresult (.of_eq hroot hblocks)⟩
  | addRefs f r1 r2 =>
    obtain ⟨hf, hsides, -⟩ := hok
    have hr1 : r1.root ∈ live := by
      rcases hsides with ⟨h1, -⟩ | ⟨h1, -⟩ <;> exact h1.1
    rw [resume, Memory.load_bind (h.trees.subset hr1)]
    split
    · rename_i hcount
      refine ⟨_, _, rfl, ⟨chains, h.addRefs hcount⟩, rfl, trivial,
        .of_eq (fun x => ?_) ⟨rfl, rfl, rfl, rfl⟩, trivial⟩
      rw [Memory.rootOf, Memory.rootOf, parent_storeCount_of_root (Memory.parent_eq_none_iff.mpr ⟨_, hcount⟩)]
    · exact ⟨m, _, rfl, h.doFuse ⟨rfl, rfl, rfl, rfl, rfl, rfl, rfl⟩ hf⟩
  | install f r1 r2 =>
    obtain ⟨hf, hsides, hlt⟩ := hok
    have hlive : r1.root ∈ live ∧ r2.root ∈ live := by
      rcases hsides with ⟨h1, h2⟩ | ⟨h1, h2⟩ <;> exact ⟨h1.1, h2.1⟩
    rw [resume, Memory.load_bind (h.trees.subset hlive.2)]
    split
    · rename_i hcount
      refine ⟨_, _, rfl, ⟨chains, h.install hcount⟩, rfl, trivial, ?_, trivial⟩
      have hnone : m.parent r2.root = none := Memory.parent_eq_none_iff.mpr ⟨_, hcount⟩
      have hroot (x : ℕ) := root_update_of_root (a := x) h.trees.descending hlt hnone
      have hchild : root m.parent r2.root = r2.root := root_of_none hnone
      have hroot' (x : ℕ) : (m.storeParentOrCount r2.root (.parent r1.root)).rootOf x =
          if root m.parent x = r2.root then root m.parent r1.root else root m.parent x := by
        rw [Memory.rootOf, Memory.parent_storeParent, hroot]
      refine ⟨fun x y (hxy : root m.parent x = root m.parent y) => by rw [hroot', hroot', hxy],
        fun x y hxy => ?_, ⟨rfl, rfl, rfl, rfl⟩⟩
      rw [hroot', hroot'] at hxy
      split at hxy <;> split at hxy
      · rename_i hx hy
        exact .inl (hx.trans hy.symm)
      · rename_i hx hy
        refine .inr ⟨f.a1, f.a2, rfl, ?_⟩
        rcases hsides with ⟨h1, h2⟩ | ⟨h1, h2⟩
        · exact .inr ⟨hx.trans (hchild.symm.trans h2.2), hxy.symm.trans h1.2⟩
        · exact .inl ⟨hx.trans (hchild.symm.trans h2.2), hxy.symm.trans h1.2⟩
      · rename_i hx hy
        refine .inr ⟨f.a1, f.a2, rfl, ?_⟩
        rcases hsides with ⟨h1, h2⟩ | ⟨h1, h2⟩
        · exact .inl ⟨hxy.trans h1.2, hy.trans (hchild.symm.trans h2.2)⟩
        · exact .inr ⟨hxy.trans h1.2, hy.trans (hchild.symm.trans h2.2)⟩
      · exact .inl hxy
    · refine ⟨m, _, rfl, h.doFuse ⟨rfl, rfl, rfl, rfl, rfl, rfl, rfl⟩ ⟨hf.ai1, hf.ai2, ?_, ?_⟩⟩
      · intro e he
        rcases List.mem_cons.mp he with rfl | he
        · exact hsides.imp And.left And.left
        · exact hf.added e he
      · simp only [List.map_cons, List.sum_cons, hf.refDelta]
        omega
  | loadTail f p c =>
    rw [resume, Memory.load_bind (h.trees.subset hok.parent_mem.1)]
    cases hpot : m.previousOrTail p with
    | tail t =>
      exact ⟨m, _, rfl, h.goOn ⟨rfl, rfl, rfl, rfl, rfl, rfl, rfl⟩
        ⟨hok, h.tails.same p hok.parent_mem.1 t hpot⟩ trivial⟩
    | previous q =>
      obtain ⟨k, hk, -⟩ := h.exists_chain hok.parent_mem.1
      exact ⟨m, _, rfl, h.goOn ⟨rfl, rfl, rfl, rfl, rfl, rfl, rfl⟩ ⟨hok, k, hk, hk⟩ trivial⟩
  | loadTailNext f p c t =>
    obtain ⟨hl, k, hp, ht⟩ := hok
    rw [resume, Memory.load_bind ((h.listed.mem_iff t).mpr ⟨k, ht⟩)]
    cases hnext : m.next t with
    | some n =>
      exact ⟨m, _, rfl, h.goOn ⟨rfl, rfl, rfl, rfl, rfl, rfl, rfl⟩
        ⟨hl, k, hp, h.listed.family.next_mem ht hnext⟩ trivial⟩
    | none => exact ⟨m, _, rfl, h.goOn ⟨rfl, rfl, rfl, rfl, rfl, rfl, rfl⟩ ⟨hl, k, hp, ht⟩ trivial⟩
  | linkForward f p c t =>
    obtain ⟨hl, k, hp, ht⟩ := hok
    rw [resume, Memory.load_bind ((h.listed.mem_iff t).mpr ⟨k, ht⟩)]
    cases hnext : m.next t with
    | some n =>
      exact ⟨m, _, rfl, h.goOn ⟨rfl, rfl, rfl, rfl, rfl, rfl, rfl⟩
        ⟨hl, k, hp, h.listed.family.next_mem ht hnext⟩ trivial⟩
    | none =>
      cases spurious with
      | true => exact ⟨m, _, rfl, h.goOn ⟨rfl, rfl, rfl, rfl, rfl, rfl, rfl⟩ ⟨hl, k, hp, ht⟩ trivial⟩
      | false => exact ⟨_, _, rfl, h.linkForward hnext, rfl, trivial,
        .of_eq (fun _ => rfl) ⟨rfl, rfl, rfl, rfl⟩, trivial⟩
  | loadChildTail f p c t =>
    obtain ⟨hl, k, hp, hc⟩ := hok
    have hlinking : c ∈ (Pc.loadChildTail f p c t :: rest).filterMap Pc.linking := by simp [Pc.linking]
    obtain ⟨t', hpot⟩ := h.tails.tagged c hl.child_mem.1 (.inr hlinking)
    have hsame := h.listed.family.sameChain_trans ⟨k, hp, hc⟩ (h.tails.same c hl.child_mem.1 t' hpot)
    rw [resume, Memory.load_bind (h.trees.subset hl.child_mem.1), hpot]
    exact ⟨m, _, rfl, h.goOn ⟨rfl, rfl, rfl, rfl, rfl, rfl, rfl⟩ ⟨hl, hsame⟩ trivial⟩
  | loadParentTail f p c o t =>
    obtain ⟨hl, hsame⟩ := hok
    rw [resume, Memory.load_bind (h.trees.subset hl.parent_mem.1)]
    cases hpot : m.previousOrTail p with
    | tail t' => exact ⟨m, _, rfl, h.goOn ⟨rfl, rfl, rfl, rfl, rfl, rfl, rfl⟩ ⟨hl, hsame⟩ trivial⟩
    | previous q => exact ⟨m, _, rfl, h.goOn ⟨rfl, rfl, rfl, rfl, rfl, rfl, rfl⟩ hl trivial⟩
  | updateParentTail f p c o t e =>
    obtain ⟨hl, hsame⟩ := hok
    rw [resume, Memory.load_bind (h.trees.subset hl.parent_mem.1)]
    split
    · refine ⟨_, _, rfl, ⟨chains, (h.storeTail hsame).replace ?_ hl⟩, rfl, trivial,
        .of_eq (fun _ => rfl) ⟨rfl, rfl, rfl, rfl⟩, trivial⟩
      exact ⟨rfl, rfl, rfl, rfl, rfl, rfl, rfl⟩
    · exact ⟨m, _, rfl, h.goOn ⟨rfl, rfl, rfl, rfl, rfl, rfl, rfl⟩ hl trivial⟩
  | linkBackward f p c o =>
    rw [resume, Memory.load_bind (h.trees.subset hok.child_mem.1)]
    exact ⟨_, _, rfl, h.linkBackward.fixup (.of_eq (fun _ => rfl) ⟨rfl, rfl, rfl, rfl⟩)⟩
  | fixupLoad f r =>
    obtain ⟨hf, hjoined, hr⟩ := hok
    rw [resume, Memory.load_bind (h.trees.subset hr.1)]
    cases hpoc : m.parentOrCount r with
    | parent q => exact ⟨m, _, rfl, h.doFuse ⟨rfl, rfl, rfl, rfl, rfl, rfl, rfl⟩ hf⟩
    | count n => exact ⟨m, _, rfl, h.goOn ⟨rfl, rfl, rfl, rfl, rfl, rfl, rfl⟩ ⟨hf, hjoined, hr⟩ trivial⟩
  | fixupRefs f r n =>
    obtain ⟨hf, hjoined, hr⟩ := hok
    rw [resume, Memory.load_bind (h.trees.subset hr.1)]
    split
    · rename_i hcount
      obtain ⟨hle, h'⟩ := h.fixupRefs hcount
      rw [if_neg (by omega : ¬ n < f.refDelta)]
      have hpar : (m.storeParentOrCount r (.count (n - f.refDelta))).parent = m.parent :=
        parent_storeCount_of_root (Memory.parent_eq_none_iff.mpr ⟨_, hcount⟩)
      refine ⟨_, _, rfl, ⟨chains, h'⟩, rfl, trivial, .of_eq (fun x => ?_) ⟨rfl, rfl, rfl, rfl⟩, rfl, ?_⟩
      · rw [Memory.rootOf, Memory.rootOf, hpar]
      · rw [hpar]
        exact hjoined.2.symm
    · exact ⟨m, _, rfl, h.doFuse ⟨rfl, rfl, rfl, rfl, rfl, rfl, rfl⟩ hf⟩
  | incRef a r => exact absurd rfl (hincRef a r)
  | freeLoad a ai => exact absurd rfl (hfree a)
  | decRef a ai n => exact absurd rfl (hfree a)
  | doFree a ai => exact absurd rfl (hfree a)

/-- The compare-exchange of `upb_Arena_IncRefFor` takes a reference. -/
theorem Inv.acquire {n : ℕ} {r : ArenaRoot} (h : Inv m live refs chains (.incRef a r :: rest))
    (hcount : m.parentOrCount r.root = .count n) :
    Inv (m.storeParentOrCount r.root (.count (n + 1))) live (Function.update refs a (refs a + 1)) chains
      rest := by
  have hr : InGroup m.parent live a r.root := h.ok _ List.mem_cons_self
  have ha : a ∈ live := h.contract.args_mem List.mem_cons_self (by simp [Pc.args, Pc.uses])
  have hroot : root m.parent a = r.root :=
    hr.2.symm.trans (root_of_none (Memory.parent_eq_none_iff.mpr ⟨_, hcount⟩))
  have hge (x : ℕ) : refs x ≤ Function.update refs a (refs a + 1) x := by
    rcases eq_or_ne x a with rfl | hne <;> simp [*]
  have hcontract : Contract live (Function.update refs a (refs a + 1)) ([] ++ rest) :=
    { mem_live := fun x hx => by
        rcases eq_or_ne x a with rfl | hne
        · exact ha
        · exact h.contract.mem_live x (by rwa [Function.update_of_ne hne] at hx)
      releasing := fun x => le_trans (h.contract.releasing x) (hge x)
      held := fun q hq x hx =>
        lt_of_lt_of_le (h.contract.held q (List.mem_cons_of_mem _ hq) x hx) (hge x) }
  refine h.storeCount hcount hr.1 ⟨rfl, rfl, rfl⟩ (by simp) hcontract ?_ ?_
  · rw [heldIn_acquire ha, hroot, if_pos rfl]
    simp [Pc.excess]
    omega
  · intro r' _ hne _
    rw [heldIn_acquire ha, hroot, if_neg (Ne.symm hne)]
    simp [Pc.excess]

/-- The compare-exchange of `upb_Arena_Free` releases a reference that is not the last. -/
theorem Inv.release {ai n : ℕ} (h : Inv m live refs chains (.decRef a ai n :: rest))
    (hcount : m.parentOrCount ai = .count n) :
    n ≠ 0 ∧ Inv (m.storeParentOrCount ai (.count (n - 1))) live (Function.update refs a (refs a - 1))
      chains rest := by
  obtain ⟨hai, -⟩ := h.ok _ List.mem_cons_self
  have hcons (x : ℕ) : ((Pc.decRef a ai n :: rest).filterMap Pc.releasing).count x = _ :=
    count_releasing_cons rfl x
  have ha : a ∈ live := h.contract.args_mem List.mem_cons_self (by simp [Pc.args, Pc.releasing])
  have hpos : 0 < refs a := by
    have := h.contract.releasing a
    rw [hcons, if_pos rfl] at this
    omega
  have hroot : root m.parent a = ai :=
    hai.2.symm.trans (root_of_none (Memory.parent_eq_none_iff.mpr ⟨_, hcount⟩))
  have hn : n ≠ 0 := by
    have hle : refs a ≤ heldIn m.parent live refs (root m.parent a) := le_heldIn ha
    have := h.counted ai hai.1 n hcount
    rw [hroot] at hle
    omega
  have hcontract : Contract live (Function.update refs a (refs a - 1)) ([] ++ rest) := by
    constructor
    · intro x hx
      rcases eq_or_ne x a with rfl | hne
      · exact ha
      · exact h.contract.mem_live x (by rwa [Function.update_of_ne hne] at hx)
    · intro x
      have hle := h.contract.releasing x
      rw [hcons] at hle
      change (rest.filterMap Pc.releasing).count x ≤ _
      rcases eq_or_ne x a with rfl | hne
      · rw [if_pos rfl] at hle
        rw [Function.update_self]
        omega
      · rw [Function.update_of_ne hne]
        omega
    · intro q hq x hx
      have hlt := h.contract.held q (List.mem_cons_of_mem _ hq) x hx
      rw [hcons] at hlt
      change (rest.filterMap Pc.releasing).count x < _
      rcases eq_or_ne x a with rfl | hne
      · rw [if_pos rfl] at hlt
        rw [Function.update_self]
        omega
      · rw [Function.update_of_ne hne]
        omega
  refine ⟨hn, h.storeCount hcount hai.1 ⟨rfl, rfl, rfl⟩ (by simp) hcontract ?_ ?_⟩
  · have : heldIn m.parent live _ ai + _ = heldIn m.parent live refs ai := heldIn_release ha hpos
    rw [hroot, if_pos rfl] at this
    simp [Pc.excess]
    omega
  · intro r' _ hne _
    have : heldIn m.parent live _ r' + _ = heldIn m.parent live refs r' := heldIn_release ha hpos
    rw [hroot, if_neg (Ne.symm hne)] at this
    simp [Pc.excess]
    omega

/-- All that a step of a call can do. -/
inductive Effect (m : Memory) (live : Finset ℕ) (refs : ℕ → ℕ) (rest : List Pc) (pc : Pc) (m' : Memory) :
    Outcome → Prop
  | plain {o : Outcome} (h : PlainStep m live refs rest pc.call m' o) (hpc : pc.isDoFree = false) :
    Effect m live refs rest pc m' o
  | acquire {a : ℕ} (hcall : pc.call = .incRefFor a) (hparent : m'.parent = m.parent)
    (hblocks : SameBlocks m m') (ha : a ∈ live)
    (h : ∃ chains', Inv m' live (Function.update refs a (refs a + 1)) chains' rest) :
    Effect m live refs rest pc m' (.ret (.incRefFor a) true)
  | release {a : ℕ} (hpc : pc.releasing = some a) (hparent : m'.parent = m.parent)
    (hblocks : SameBlocks m m') (h : ∃ chains', Inv m' live (Function.update refs a (refs a - 1)) chains' rest) :
    Effect m live refs rest pc m' (.ret (.free a) true)
  | retire {a r : ℕ} (hpc : pc.releasing = some a) (hm : m' = m) (hr : InGroup m.parent live a r)
    (hroot : m.parent r = none) (hrefs : refs a = 1)
    (hzero : ∀ x ∈ live, x ≠ a → root m.parent x = r → refs x = 0)
    (hothers : ∀ q ∈ rest, ∀ x ∈ q.args, root m.parent x ≠ r)
    (h : ∃ chains', Inv m (live.filter fun x => root m.parent x ≠ r)
      (Function.update refs a (refs a - 1)) chains' (.doFree a r :: rest)) :
    Effect m live refs rest pc m' (.run (.doFree a r))
  | free {a ai : ℕ} {o : Outcome} (hpc : pc = .doFree a ai) (hm : m' = m.freeBlocks ai)
    (hmem : ai ∈ m.allocated) (hai : ai ∉ live)
    (ho : o = (m.next ai).elim (.ret (.free a) true) fun next => .run (.doFree a next))
    (h : ∃ chains', Inv m' live refs chains' (o.threads ++ rest)) : Effect m live refs rest pc m' o

/-- What `upb_Arena_Free` does with the word of an arena in the group of its argument. -/
theorem Inv.freeWord {ai : ℕ} (h : Inv m live refs chains (pc :: rest)) (hpc : pc.releasing = some a)
    (hdoFree : pc.isDoFree = false) (hcall : pc.call = .free a) (huses : pc.uses = [])
    (hlists : pc.NoLists) (hexcess : pc.excess = []) (hai : InGroup m.parent live a ai) :
    Effect m live refs rest pc m (freeWord a ai (m.parentOrCount ai)) := by
  have hsame {pc' : Pc} (hc : pc'.call = .free a) (hu : pc'.uses = []) (hr : pc'.releasing = some a)
      (he : pc'.excess = []) (hl : pc'.NoLists) : pc.SameDuties pc' :=
    ⟨hc.trans hcall.symm, hu.trans huses.symm, hr.trans hpc.symm, he.trans hexcess.symm,
      hl.linking.trans hlists.linking.symm, hl.pending.trans hlists.pending.symm,
      hl.dying.trans hlists.dying.symm⟩
  cases hpoc : m.parentOrCount ai with
  | parent p =>
    have hp := (h.inGroup_parent hai hpoc).1
    exact .plain (h.goOn (hsame rfl rfl rfl rfl ⟨rfl, rfl, rfl⟩) hp trivial) hdoFree
  | count n =>
    unfold Arena.freeWord
    dsimp only
    split
    · rename_i hone
      rw [hone] at hpoc
      obtain ⟨hrefs, hzero, hothers⟩ := h.last_reference hpc hai hpoc
      exact .retire hpc rfl hai (Memory.parent_eq_none_iff.mpr ⟨_, hpoc⟩) hrefs hzero hothers
        ⟨chains, h.retire hpc hlists hexcess hai hpoc⟩
    · rename_i hone
      exact .plain (h.goOn (hsame rfl rfl rfl rfl ⟨rfl, rfl, rfl⟩) ⟨hai, hone⟩ trivial) hdoFree

/-- Every step succeeds and does one of the things that keep the invariant. -/
theorem Inv.resume (h : Inv m live refs chains (pc :: rest)) (spurious : Bool) :
    ∃ m' o, resume m spurious pc = .ok (m', o) ∧ Effect m live refs rest pc m' o := by
  have hok := h.ok _ List.mem_cons_self
  cases pc with
  | incRef a r =>
    have ha : a ∈ live := h.contract.args_mem List.mem_cons_self (by simp [Pc.args, Pc.uses])
    rw [Arena.resume, Memory.load_bind (h.trees.subset hok.1)]
    split
    · rename_i hcas
      refine ⟨_, _, rfl, .acquire rfl ?_ ⟨rfl, rfl, rfl, rfl⟩ ha ⟨chains, h.acquire hcas.1⟩⟩
      exact parent_storeCount_of_root (Memory.parent_eq_none_iff.mpr ⟨_, hcas.1⟩)
    · exact ⟨m, _, rfl, .plain (h.goOn ⟨rfl, rfl, rfl, rfl, rfl, rfl, rfl⟩ ⟨hok, trivial⟩ trivial) rfl⟩
  | freeLoad a ai =>
    rw [Arena.resume, Memory.load_bind (h.trees.subset hok.1)]
    exact ⟨m, _, rfl, h.freeWord rfl rfl rfl rfl ⟨rfl, rfl, rfl⟩ rfl hok⟩
  | decRef a ai n =>
    rw [Arena.resume, Memory.load_bind (h.trees.subset hok.1.1)]
    split
    · rename_i hcas
      obtain ⟨hn, h'⟩ := h.release hcas.1
      rw [if_neg hn]
      refine ⟨_, _, rfl, .release rfl ?_ ⟨rfl, rfl, rfl, rfl⟩ ⟨chains, h'⟩⟩
      exact parent_storeCount_of_root (Memory.parent_eq_none_iff.mpr ⟨_, hcas.1⟩)
    · exact ⟨m, _, rfl, h.freeWord rfl rfl rfl rfl ⟨rfl, rfl, rfl⟩ rfl hok.1⟩
  | doFree a ai =>
    have hdying : ai ∈ (Pc.doFree a ai :: rest).filterMap Pc.dying := by simp [Pc.dying]
    have hchain : chains ai ≠ [] := (h.listed.heads ai).mpr (.inr (.inr hdying))
    have hmem := (h.listed.mem_iff ai).mpr ⟨ai, h.listed.family.head_mem hchain⟩
    rw [Arena.resume, Memory.load_bind hmem]
    refine ⟨m.freeBlocks ai, (m.next ai).elim (.ret (.free a) true) fun next => .run (.doFree a next), ?_,
      .free rfl rfl hmem (h.listed.not_live ai hdying) rfl ⟨_, h.freeBlocks ?_⟩⟩
    · cases m.next ai <;> rfl
    · cases m.next ai <;> rfl
  | findRoot at_ caller =>
    obtain ⟨m', o, heq, hstep⟩ := h.resume_plain spurious
      (fun a => by cases caller <;> simp [Pc.call, Caller.call]) (fun _ _ => by simp)
    exact ⟨m', o, heq, .plain hstep rfl⟩
  | _ =>
    obtain ⟨m', o, heq, hstep⟩ := h.resume_plain spurious (fun a => by simp [Pc.call])
      (fun _ _ => by simp)
    exact ⟨m', o, heq, .plain hstep rfl⟩

end Upb.Arena
