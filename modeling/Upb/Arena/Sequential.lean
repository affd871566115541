import Upb.Arena.Alone
import Upb.Arena.ConcurrentFuse
import Upb.Arena.Ledger
import Mathlib.Tactic.Abel

/-!
# Calls made one after the other refine the ledger

Every step of a call that runs alone either leaves the account of the system as it is or does to it
what the ledger says, so that a whole call does exactly that. Such a call ends, and between two calls
the groups of the ledger are the trees of the parents, with their counts and lists.
-/

namespace Upb.Arena

open Upb.Common (Seg)

open Relation (EqvGen)

namespace System

variable {σ σ' : System} {pc : Pc} {a b : ℕ} {o : Outcome} {g : Ledger}

/-- Fused arenas have one root. -/
theorem Good.rootOf_eq (h : σ.Good) (hsame : σ.ledger.SameGroup a b) :
    σ.memory.rootOf a = σ.memory.rootOf b := by
  induction hsame with
  | rel x y hxy => exact (h.groups.mem x y hxy).2.2
  | refl x => rfl
  | symm x y _ ih => exact ih.symm
  | trans x y z _ _ ih1 ih2 => exact ih1.trans ih2

/-- Without a running fuse the groups are those of the ledger. -/
theorem Good.rootOf_eq_iff (h : σ.Good) (hno : ∀ pc ∈ σ.threads, ∀ x y, pc.call ≠ .fuse x y)
    (ha : a ∈ σ.live) (hb : b ∈ σ.live) :
    σ.memory.rootOf a = σ.memory.rootOf b ↔ σ.ledger.SameGroup a b := by
  refine ⟨fun heq => ?_, h.rootOf_eq⟩
  refine (h.groups.connected a ha b hb heq).mono fun x y hl => ?_
  rcases hl with hl | ⟨pc, hpc, hcall⟩
  · exact hl
  · exact absurd hcall (hno pc hpc x y)

/-- Without a running fuse the group of an arena is that of the ledger. -/
theorem Good.group_eq (h : σ.Good) (hno : ∀ pc ∈ σ.threads, ∀ x y, pc.call ≠ .fuse x y) (ha : a ∈ σ.live) :
    σ.ledger.group a = σ.group a := by
  ext x
  rw [Ledger.mem_group, group, Finset.mem_filter]
  refine and_congr_right fun hx => ?_
  rw [← h.rootOf_eq_iff hno ha hx]
  exact eq_comm

/-- Between calls only live arenas are in memory. -/
theorem Good.allocated_eq (h : σ.Good) (hq : σ.Quiescent) : σ.memory.allocated = σ.live := by
  obtain ⟨chains, hinv⟩ := h.inv
  rw [hq] at hinv
  refine Finset.Subset.antisymm (fun x hx => ?_) hinv.trees.subset
  obtain ⟨k, hk⟩ := (hinv.listed.mem_iff x).mp hx
  rw [hinv.listed.live_iff k x hk]
  have := (hinv.listed.heads k).mp (List.ne_nil_of_mem hk)
  simp only [List.filterMap_nil, List.not_mem_nil, or_false] at this
  exact this.1

/-- Accounting changes neither the memory nor the running calls. -/
theorem account_threads (σ : System) (pc : Pc) (o : Outcome) :
    (σ.account pc o).threads = σ.threads ∧ (σ.account pc o).memory = σ.memory := by
  cases o with
  | run pc' => cases pc' <;> first | exact ⟨rfl, rfl⟩ | (rw [account]; split <;> exact ⟨rfl, rfl⟩)
  | ret c result =>
    rw [account]
    cases c <;> cases result <;> cases pc.isDoFree <;> exact ⟨rfl, rfl⟩

/-- Freeing an arena that is not live does not change the account. -/
theorem ledger_freeBlocks {ai : ℕ} (hmem : ai ∈ σ.memory.allocated) (hai : ai ∉ σ.live) (threads : List Pc) :
    { σ with memory := σ.memory.freeBlocks ai, threads := threads }.ledger = σ.ledger := by
  have herase : σ.memory.allocated.erase ai \ σ.live = (σ.memory.allocated \ σ.live).erase ai :=
    Finset.erase_sdiff_comm ..
  have hsum := Finset.add_sum_erase (σ.memory.allocated \ σ.live)
    (fun x => (σ.memory.blocks x : Multiset ℕ)) (Finset.mem_sdiff.mpr ⟨hmem, hai⟩)
  ext1
  case freed =>
    simp only [ledger, Memory.freeBlocks, herase]
    rw [← hsum, ← Multiset.coe_add]
    abel
  all_goals rfl

/-- How far a call that runs alone has come, compared with the ledger `g` from before it: it has done
nothing, or in `_upb_Arena_DoFree` everything except return. -/
def Phase (σ : System) (g : Ledger) (pc : Pc) : Prop :=
  if pc.isDoFree then
    { σ.ledger with returned := (pc.call, true) :: σ.ledger.returned } = g.step (.call pc.call)
  else σ.ledger = g

/-- Handing the group of `a` to `_upb_Arena_DoFree` frees it in the ledger. -/
theorem Good.ledger_retire {r : ℕ} (h : σ.Good) (threads : List Pc)
    (hno : ∀ pc ∈ σ.threads, ∀ x y, pc.call ≠ .fuse x y) (ha : a ∈ σ.live) (hr : σ.memory.rootOf a = r)
    (hrefs : σ.refs a = 1) (hzero : ∀ x ∈ σ.live, x ≠ a → σ.memory.rootOf x = r → σ.refs x = 0) :
    (({ σ with threads := threads }.release a).retire r).ledger = σ.ledger.release a := by
  obtain ⟨chains, hinv⟩ := h.inv
  have hgroup : σ.ledger.group a = σ.group a := h.group_eq hno ha
  have hmem {x : ℕ} : x ∈ σ.group a ↔ x ∈ σ.live ∧ σ.memory.rootOf x = r := by
    rw [group, Finset.mem_filter, hr]
  have hlive : σ.live.filter (fun x => σ.memory.rootOf x ≠ r) = σ.live \ σ.group a := by
    ext x
    rw [Finset.mem_filter, Finset.mem_sdiff, hmem]
    tauto
  have hsum : ∑ x ∈ σ.group a, Function.update σ.refs a (σ.refs a - 1) x = 0 := by
    refine Finset.sum_eq_zero fun x hx => ?_
    obtain ⟨hx, hxr⟩ := hmem.mp hx
    rcases eq_or_ne x a with rfl | hne
    · simp [hrefs]
    · rw [Function.update_of_ne hne]
      exact hzero x hx hne hxr
  have hsdiff : σ.memory.allocated \ (σ.live \ σ.group a) =
      (σ.memory.allocated \ σ.live) ∪ σ.group a := by
    ext x
    have hsub := @hinv.trees.subset x
    simp only [Finset.mem_sdiff, Finset.mem_union]
    have hx : x ∈ σ.group a → x ∈ σ.live := fun hx => (hmem.mp hx).1
    tauto
  have hdisjoint : Disjoint (σ.memory.allocated \ σ.live) (σ.group a) := by
    rw [Finset.disjoint_right]
    intro x hx hcon
    exact (Finset.mem_sdiff.mp hcon).2 (hmem.mp hx).1
  have hrelease : σ.ledger.release a = (σ.ledger.decRef a).freeGroup a := by
    rw [Ledger.release, hgroup]
    exact if_pos hsum
  have hgroup' : (σ.ledger.decRef a).group a = σ.group a := hgroup
  have hlive' : (({ σ with threads := threads }.release a).retire r).live = σ.live \ σ.group a := hlive
  rw [hrelease]
  ext1
  case live =>
    rw [Ledger.freeGroup, hgroup']
    exact hlive'
  case refs => rfl
  case fused =>
    rw [Ledger.freeGroup, hgroup']
    change σ.fused.filter (fun p => p.1 ∈ σ.live.filter fun x => σ.memory.rootOf x ≠ r) = _
    rw [hlive]
    rfl
  case blocks =>
    funext x
    rw [Ledger.freeGroup, hgroup']
    change (if x ∈ σ.live.filter (fun x => σ.memory.rootOf x ≠ r) then σ.memory.blocks x else []) =
      if x ∈ σ.group a then [] else if x ∈ σ.live then σ.memory.blocks x else []
    rw [hlive]
    by_cases hx : x ∈ σ.group a <;> simp [hx]
  case freed =>
    have hblocks : ∑ x ∈ σ.group a, (σ.memory.blocks x : Multiset ℕ) =
        ∑ x ∈ σ.group a, ((σ.ledger.decRef a).blocks x : Multiset ℕ) :=
      Finset.sum_congr rfl fun x hx => by simp [Ledger.decRef, ledger, (hmem.mp hx).1]
    simp only [Ledger.freeGroup, hgroup', ← hblocks]
    change (σ.memory.freed : Multiset ℕ) + ∑ x ∈ σ.memory.allocated \ σ.live.filter
      (fun x => σ.memory.rootOf x ≠ r), (σ.memory.blocks x : Multiset ℕ) = _ + _
    rw [hlive, hsdiff, Finset.sum_union hdisjoint, ← add_assoc]
    rfl
  case nextBlock => rfl
  case returned => rfl

/-- The arguments of a running `upb_Arena_IsFused` are used. -/
theorem mem_uses_of_isFused (h : pc.call = .isFused a b) : a ∈ pc.uses ∧ b ∈ pc.uses := by
  cases pc with
  | findRoot at_ caller => cases caller <;> simp_all [Pc.call, Caller.call, Pc.uses, Caller.uses]
  | _ => simp_all [Pc.call]

/-- The account after a step that changes neither the references nor the live arenas. -/
theorem ledger_plain {rest : List Pc} {m' : Memory} {i : ℕ}
    (hs : PlainStep σ.memory σ.live σ.refs rest pc.call m' o) : (σ.proceed i pc m' o).ledger =
      { σ.ledger with fused := o.pairs ++ σ.fused, returned := o.log ++ σ.returned } := by
  have hb := hs.joins.blocks
  rw [proceed_eq, account_plain _ pc hs.plain]
  ext1 <;> simp only [ledger, hb.allocated, hb.blocks, hb.freed, hb.nextBlock]

/-- The account after a call of `upb_Arena_Fuse` or `upb_Arena_IsFused` returns. -/
theorem Good.ledger_ret {rest : List Pc} {m' : Memory} {i : ℕ} {c : Call} {result : Bool} (h : σ.Good)
    (hpc : pc ∈ σ.threads) (hs : PlainStep σ.memory σ.live σ.refs rest pc.call m' (.ret c result))
    (hgood : (σ.proceed i pc m' (.ret c result)).Good)
    (hq : (σ.proceed i pc m' (.ret c result)).Quiescent)
    (hmemory : (σ.proceed i pc m' (.ret c result)).memory = m')
    (hanswer : ∀ a b, c = .isFused a b → (result = true ↔ m'.rootOf a = m'.rootOf b)) :
    (σ.proceed i pc m' (.ret c result)).ledger = σ.ledger.step (.call pc.call) := by
  have hcall : c = pc.call := hs.sameCall
  have hled := ledger_plain (i := i) hs
  have hplain := hs.plain
  have hjoined := hs.joined
  rw [← hcall]
  cases c with
  | fuse a b =>
    obtain rfl : result = true := hjoined.1
    exact hled
  | isFused a b =>
    obtain ⟨chains, hinv⟩ := h.inv
    have huses := mem_uses_of_isFused hcall.symm
    have hlive {x : ℕ} (hx : x ∈ pc.uses) : x ∈ (σ.proceed i pc m' (.ret (.isFused a b) result)).live := by
      rw [show (σ.proceed i pc m' (.ret (.isFused a b) result)).live = σ.live from by
        rw [proceed_eq, account, settle_live]]
      exact hinv.contract.args_mem hpc (List.mem_append_left _ hx)
    have hiff := hgood.rootOf_eq_iff (by rw [hq]; simp) (hlive huses.1) (hlive huses.2)
    rw [hmemory, hled] at hiff
    have hresult : result = σ.ledger.answer (.isFused a b) := by
      rw [Bool.eq_iff_iff, hanswer a b rfl, hiff]
      simp only [Ledger.answer, decide_eq_true_eq]
      rfl
    rw [hled, hresult]
    rfl
  | incRefFor a => exact hplain.elim
  | free a => exact hplain.elim

/-- The account after a reference that is not the last of its group is released. -/
theorem Good.ledger_release {ai n : ℕ} {m' : Memory} {i : ℕ} (h : σ.Good) (ht : σ.threads = [.decRef a ai n])
    (hcount : σ.memory.parentOrCount ai = .count n) (hb : SameBlocks σ.memory m') :
    (σ.proceed i (.decRef a ai n) m' (.ret (.free a) true)).ledger = σ.ledger.step (.call (.free a)) := by
  obtain ⟨chains, hinv⟩ := h.inv
  rw [ht] at hinv
  obtain ⟨hai, hone⟩ := hinv.ok _ List.mem_cons_self
  have ha : a ∈ σ.live := hinv.contract.args_mem List.mem_cons_self (by simp [Pc.args, Pc.releasing])
  have hgroup := h.group_eq (by rw [ht]; simp [Pc.call]) ha
  have hroot : σ.memory.rootOf a = ai :=
    hai.2.symm.trans (Upb.Common.root_of_none (Memory.parent_eq_none_iff.mpr ⟨_, hcount⟩))
  have hn := hinv.counted ai hai.1 n hcount
  have hpos : 0 < σ.refs a := by
    have := hinv.contract.releasing a
    rw [count_releasing_cons rfl, if_pos rfl] at this
    omega
  have hrel : heldIn σ.memory.parent σ.live (Function.update σ.refs a (σ.refs a - 1)) ai + _ =
      heldIn σ.memory.parent σ.live σ.refs ai := heldIn_release ha hpos
  rw [if_pos (show Upb.Common.root σ.memory.parent a = ai from hroot)] at hrel
  have hsum : ∑ x ∈ σ.ledger.group a, (σ.ledger.decRef a).refs x ≠ 0 := by
    have hheld : ∑ x ∈ σ.ledger.group a, (σ.ledger.decRef a).refs x =
        heldIn σ.memory.parent σ.live (Function.update σ.refs a (σ.refs a - 1)) ai := by
      rw [hgroup, group, hroot]
      rfl
    rw [hheld]
    have hzero : excessIn σ.memory.parent ([Pc.decRef a ai n].flatMap Pc.excess) ai = 0 := rfl
    omega
  have hrelease : σ.ledger.release a = σ.ledger.decRef a := by
    rw [Ledger.release]
    exact if_neg hsum
  rw [Ledger.step, Ledger.effect, hrelease, proceed_eq, account]
  ext1 <;> simp only [ledger, settle, Pc.isDoFree, System.release, Ledger.decRef, hb.allocated, hb.blocks,
    hb.freed, hb.nextBlock, Bool.false_eq_true, if_false, Ledger.answer]

/-- One step of a call that runs alone: it goes on, or returns having done what the ledger says. -/
theorem Good.alone_step (h : σ.Good) (ht : σ.threads = [pc]) (ha : pc.Alone σ.memory)
    (hphase : σ.Phase g pc) (spurious : Bool) :
    ∃ σ', σ.step (.resume 0 spurious) = .ok σ' ∧ σ'.Good ∧
      ((∃ pc', σ'.threads = [pc'] ∧ pc'.Alone σ'.memory ∧ pc'.call = pc.call ∧ σ'.Phase g pc' ∧
          (spurious = false → ∀ rank, Falls σ.memory rank → Progress σ.memory rank pc σ'.memory pc')) ∨
        σ'.Quiescent ∧ σ'.ledger = g.step (.call pc.call)) := by
  obtain ⟨chains, hinv⟩ := h.inv
  have hi : σ.threads[0]? = some pc := by simp [ht]
  obtain ⟨m', o, heq, hgood⟩ := h.proceed spurious hi
  rw [ht] at hinv
  obtain ⟨m₁, o₁, heq₁, heffect⟩ := hinv.resume spurious
  rw [heq] at heq₁
  cases heq₁
  have hafter (rank : ℕ → ℕ) (hrank : Falls σ.memory rank) := hinv.resume_alone hrank ha heq
  obtain ⟨rank₀, hrank₀⟩ := hinv.exists_falls
  have hstep : σ.step (.resume 0 spurious) = .ok (σ.proceed 0 pc m' o) := by
    simp only [System.step, hi, heq]
    rfl
  refine ⟨_, hstep, hgood, ?_⟩
  have hthreads : (σ.proceed 0 pc m' o).threads = o.threads := by
    rw [proceed_eq, (account_threads _ _ _).1]
    cases o <;> simp [threadsAfter, ht, Outcome.threads]
  have hmemory : (σ.proceed 0 pc m' o).memory = m' := by
    rw [proceed_eq, (account_threads _ _ _).2]
  have hgo {pc' : Pc} (ho : o = .run pc') (hcall : pc'.call = pc.call)
      (hphase' : (σ.proceed 0 pc m' o).Phase g pc') :
      ∃ pc', (σ.proceed 0 pc m' o).threads = [pc'] ∧ pc'.Alone (σ.proceed 0 pc m' o).memory ∧
        pc'.call = pc.call ∧ (σ.proceed 0 pc m' o).Phase g pc' ∧
          (spurious = false → ∀ rank, Falls σ.memory rank →
            Progress σ.memory rank pc (σ.proceed 0 pc m' o).memory pc') := by
    subst ho
    refine ⟨pc', hthreads, ?_, hcall, hphase', fun hs rank hrank => ?_⟩
    · rw [hmemory]
      exact (hafter rank₀ hrank₀).1
    · rw [hmemory]
      exact (hafter rank hrank).2 hs
  have hdone (hpc : pc.isDoFree = false) : σ.ledger = g := by rwa [Phase, hpc] at hphase
  cases heffect with
  | plain hs hpc =>
    cases o with
    | run pc' =>
      refine .inl (hgo rfl hs.sameCall ?_)
      have hpc' : pc'.isDoFree = false := by cases pc' <;> first | rfl | exact hs.plain.elim
      rw [Phase, hpc']
      exact (ledger_plain hs).trans (hdone hpc)
    | ret c result =>
      refine .inr ⟨hthreads, ?_⟩
      rw [← hdone hpc]
      refine h.ledger_ret (by simp [ht]) hs hgood hthreads hmemory ?_
      rintro a b rfl
      exact hafter rank₀ hrank₀
  | @acquire a hcall hparent hblocks ha hinv' =>
    refine .inr ⟨hthreads, ?_⟩
    have hpc : pc.isDoFree = false := by
      cases pc <;> first | rfl | cases hcall
    rw [← hdone hpc, hcall, Ledger.step, Ledger.effect, proceed_eq, account]
    ext1 <;> simp only [ledger, settle, acquire, hblocks.allocated, hblocks.blocks, hblocks.freed,
      hblocks.nextBlock, Ledger.answer]
  | @release a hpc hparent hblocks hinv' =>
    refine .inr ⟨hthreads, ?_⟩
    obtain ⟨hcall, hdoFree⟩ := Pc.call_of_releasing hpc
    rw [← hdone hdoFree, hcall]
    cases pc with
    | decRef a' ai n =>
      cases hpc
      exact h.ledger_release ht ha hblocks
    | freeLoad a' ai =>
      have hai := (hinv.ok _ List.mem_cons_self).1
      rw [Arena.resume, Memory.load_bind (hinv.trees.subset hai)] at heq
      cases hpoc : σ.memory.parentOrCount ai with
      | parent p => rw [hpoc] at heq; cases heq
      | count n =>
        rw [hpoc, freeWord] at heq
        split at heq <;> cases heq
    | _ => cases hpc
  | @retire a r hpc hm hr hroot hrefs hzero hothers hinv' =>
    subst hm
    obtain ⟨hcall, hdoFree⟩ := Pc.call_of_releasing hpc
    refine .inl (hgo rfl hcall.symm ?_)
    have ha' : a ∈ σ.live :=
      hinv.contract.args_mem List.mem_cons_self (List.mem_append_right _ (by simp [hpc]))
    have hroot' : σ.memory.rootOf a = r := hr.2.symm.trans (Upb.Common.root_of_none hroot)
    have hled := h.ledger_retire (σ.threadsAfter 0 (.run (.doFree a r))) (by rw [ht]; simp [hcall]) ha'
      hroot' hrefs hzero
    have hproceed : σ.proceed 0 pc σ.memory (.run (.doFree a r)) =
        ({ σ with threads := σ.threadsAfter 0 (.run (.doFree a r)) }.release a).retire r := by
      rw [proceed_eq, account, hdoFree]
      rfl
    rw [Phase, hproceed, hled, ← hdone hdoFree]
    simp only [Pc.isDoFree, if_true, Ledger.release_returned]
    rfl
  | @free a ai _ hpc hm hmem hai ho hinv' =>
    subst hpc hm
    have hled := ledger_freeBlocks hmem hai
    change { σ.ledger with returned := (.free a, true) :: σ.ledger.returned } = g.step _ at hphase
    cases hnext : σ.memory.next ai with
    | some next =>
      rw [hnext] at ho
      obtain rfl : o = .run (.doFree a next) := ho
      refine .inl (hgo rfl rfl ?_)
      have hled' : (σ.proceed 0 (.doFree a ai) (σ.memory.freeBlocks ai) (.run (.doFree a next))).ledger =
          σ.ledger := hled _
      rw [Phase, hled']
      exact hphase
    | none =>
      rw [hnext] at ho
      obtain rfl : o = .ret (.free a) true := ho
      refine .inr ⟨hthreads, ?_⟩
      rw [← hphase, ← hled (σ.threadsAfter 0 (.ret (.free a) true))]
      rfl

/-- A call that runs alone until it returns does what the ledger says. -/
theorem Good.alone_run {spurious : List Bool} (h : σ.Good) (ht : σ.threads = [pc])
    (ha : pc.Alone σ.memory) (hphase : σ.Phase g pc)
    (hrun : σ.run (spurious.map (.resume 0)) = .ok σ') (hq : σ'.Quiescent) :
    σ'.Good ∧ σ'.ledger = g.step (.call pc.call) := by
  induction spurious generalizing σ pc with
  | nil =>
    obtain rfl : σ = σ' := Except.ok.inj hrun
    rw [Quiescent, ht] at hq
    cases hq
  | cons b bs ih =>
    obtain ⟨τ, hstep, hgood, hnext⟩ := h.alone_step ht ha hphase b
    rw [List.map_cons, System.run, hstep] at hrun
    change τ.run (bs.map (.resume 0)) = .ok σ' at hrun
    rcases hnext with ⟨pc', ht', ha', hcall, hphase', -⟩ | ⟨hq', hled⟩
    · rw [← hcall]
      exact ih hgood ht' ha' hphase' hrun
    · -- nothing runs any more, so that nothing can go on
      cases bs with
      | nil =>
        obtain rfl : τ = σ' := Except.ok.inj hrun
        exact ⟨hgood, hled⟩
      | cons b' bs =>
        rw [Quiescent] at hq'
        simp only [List.map_cons, System.run, System.step, hq'] at hrun
        cases hrun

/-- A call that runs alone returns, if its weak compare-exchanges do not fail forever. -/
theorem Good.alone_returns (h : σ.Good) (ht : σ.threads = [pc]) (ha : pc.Alone σ.memory)
    (hphase : σ.Phase g pc) :
    ∃ spurious : List Bool, ∃ σ', σ.run (spurious.map (.resume 0)) = .ok σ' ∧ σ'.Quiescent := by
  -- later stages first; inside a stage, along the loop
  induction hstage : pc.stage using Nat.strong_induction_on generalizing σ pc with
  | _ stage ihStage =>
    obtain ⟨chains, hinv⟩ := h.inv
    obtain ⟨rank, hrank⟩ := hinv.exists_falls
    clear hinv chains
    induction hsize : pc.size rank using Nat.strong_induction_on generalizing σ pc with
    | _ size ihSize =>
      obtain ⟨τ, hstep, hgood, hnext⟩ := h.alone_step ht ha hphase false
      have hcons {bs : List Bool} {σ' : System} (hrun : τ.run (bs.map (.resume 0)) = .ok σ') :
          σ.run ((false :: bs).map (.resume 0)) = .ok σ' := by
        rw [List.map_cons, System.run, hstep]
        exact hrun
      rcases hnext with ⟨pc', ht', ha', -, hphase', hprogress⟩ | ⟨hq, -⟩
      · rcases hprogress rfl rank hrank with hlt | ⟨heq, hlt, hnext, hallocated⟩
        · obtain ⟨bs, σ', hrun, hq⟩ := ihStage _ (hstage ▸ hlt) hgood ht' ha' hphase' rfl
          exact ⟨false :: bs, σ', hcons hrun, hq⟩
        · have hrank' : Falls τ.memory rank := by
            intro t htmem n hn
            rw [hnext] at hn
            exact hrank t (hallocated htmem) n hn
          obtain ⟨bs, σ', hrun, hq⟩ :=
            ihSize _ (hsize ▸ hlt) hgood ht' ha' hphase' (heq.trans hstage) hrank' rfl
          exact ⟨false :: bs, σ', hcons hrun, hq⟩
      · have hnil : τ.run (([] : List Bool).map (.resume 0)) = .ok τ := rfl
        exact ⟨[false], τ, hcons hnil, hq⟩

/-- Between calls a reference is held exactly when it is outstanding. -/
theorem held_iff (hq : σ.Quiescent) : σ.Held a ↔ 0 < σ.refs a := by
  rw [Held, releasing, hq]
  simp

/-- A legal call may start, and either returns at once or runs alone. -/
theorem Good.start_alone {c : Call} (h : σ.Good) (hq : σ.Quiescent) (hlegal : σ.ledger.Legal (.call c)) :
    σ.MayCall c ∧ (((σ.start c).Quiescent ∧ (σ.start c).ledger = σ.ledger.step (.call c)) ∨
      ∃ pc, (σ.start c).threads = [pc] ∧ pc.call = c ∧ pc.Alone (σ.start c).memory ∧
        (σ.start c).Phase σ.ledger pc) := by
  obtain ⟨chains, hinv⟩ := h.inv
  have hlive {x : ℕ} (hx : 0 < σ.refs x) : x ∈ σ.live := hinv.contract.mem_live x hx
  have hplain {x : ℕ} (hx : 0 < σ.refs x) : σ.memory.hasInitialBlock x = false :=
    hinv.trees.plain x (hlive hx)
  cases c with
  | fuse a b =>
    obtain ⟨ha, hb⟩ := hlegal
    refine ⟨⟨(held_iff hq).mpr ha, (held_iff hq).mpr hb⟩, ?_⟩
    rcases eq_or_ne a b with rfl | hne
    · have heq : σ.start (.fuse a a) = σ.settle false (.fuse a a) true := by simp [System.start, enter]
      rw [heq]
      exact .inl ⟨hq, rfl⟩
    · have heq : σ.start (.fuse a b) = { σ with
          threads := .findRoot (.entry a) (.fuse1 ⟨a, b, a, b, 0, []⟩) :: σ.threads } := by
        simp [System.start, enter, hne, hplain ha, hplain hb, doFuse]
      rw [heq]
      exact .inr ⟨.findRoot (.entry a) (.fuse1 ⟨a, b, a, b, 0, []⟩), by rw [hq], rfl, rfl, rfl⟩
  | isFused a b =>
    obtain ⟨ha, hb⟩ := hlegal
    refine ⟨⟨(held_iff hq).mpr ha, (held_iff hq).mpr hb⟩, ?_⟩
    rcases eq_or_ne a b with rfl | hne
    · have heq : σ.start (.isFused a a) = σ.settle false (.isFused a a) true := by
        simp [System.start, enter]
      have hanswer : σ.ledger.answer (.isFused a a) = true := by
        simp only [Ledger.answer, decide_eq_true_eq]
        exact .refl a
      rw [heq, Ledger.step, hanswer]
      exact .inl ⟨hq, rfl⟩
    · have heq : σ.start (.isFused a b) =
          { σ with threads := .findRoot (.entry a) (.isFused1 a b) :: σ.threads } := by
        simp [System.start, enter, hne]
      rw [heq]
      exact .inr ⟨.findRoot (.entry a) (.isFused1 a b), by rw [hq], rfl, trivial, rfl⟩
  | incRefFor a =>
    refine ⟨(held_iff hq).mpr hlegal, ?_⟩
    have heq : σ.start (.incRefFor a) =
        { σ with threads := .findRoot (.entry a) (.incRef a) :: σ.threads } := by
      simp [System.start, enter, hplain hlegal]
    rw [heq]
    exact .inr ⟨.findRoot (.entry a) (.incRef a), by rw [hq], rfl, trivial, rfl⟩
  | free a =>
    refine ⟨⟨(held_iff hq).mpr hlegal, ?_⟩, .inr ⟨.freeLoad a a, ?_, rfl, trivial, rfl⟩⟩
    · rintro ⟨pc, hpc, -⟩
      rw [hq] at hpc
      simp at hpc
    · change .freeLoad a a :: σ.threads = _
      rw [hq]

/-- A legal operation can be carried out. -/
theorem Good.exists_executes {op : Op} (h : σ.Good) (hq : σ.Quiescent) (hlegal : σ.ledger.Legal op) :
    ∃ σ', σ.Executes σ' op := by
  cases op with
  | new a =>
    refine ⟨σ.new a, ?_⟩
    have ha : a ∉ σ.memory.allocated := by rwa [h.allocated_eq hq]
    exact if_neg ha
  | addBlock a =>
    refine ⟨{ σ with memory := σ.memory.addBlock a }, ?_⟩
    exact if_pos ((held_iff hq).mpr hlegal)
  | call c =>
    obtain ⟨hmay, hstart⟩ := h.start_alone hq hlegal
    have hstep : σ.step (.start c) = .ok (σ.start c) := if_pos hmay
    rcases hstart with ⟨hq', -⟩ | ⟨pc, ht, -, ha, hphase⟩
    · refine ⟨σ.start c, [], ?_, hq'⟩
      rw [System.run, hstep]
      rfl
    · obtain ⟨bs, σ', hrun, hq'⟩ := (h.start hmay).alone_returns ht ha hphase
      refine ⟨σ', bs, ?_, hq'⟩
      rw [System.run, hstep]
      exact hrun

/-- A legal operation does what the ledger says. -/
theorem Good.executes {op : Op} (h : σ.Good) (hq : σ.Quiescent) (hlegal : σ.ledger.Legal op)
    (hex : σ.Executes σ' op) : σ'.Good ∧ σ'.Quiescent ∧ σ'.ledger = σ.ledger.step op := by
  have hallocated := h.allocated_eq hq
  cases op with
  | new a =>
    have ha : a ∉ σ.memory.allocated := by rwa [hallocated]
    have hal : a ∉ σ.live := hlegal
    obtain rfl : σ.new a = σ' := Except.ok.inj ((if_neg ha).symm.trans hex)
    refine ⟨h.new ha, hq, ?_⟩
    ext1
    case blocks =>
      funext x
      rcases eq_or_ne x a with rfl | hxa
      · simp [ledger, System.new, Memory.initSlow, Ledger.step]
      · simp [ledger, System.new, Memory.initSlow, Ledger.step, hxa]
    case freed => simp [ledger, System.new, Memory.initSlow, Ledger.step, hallocated]
    all_goals rfl
  | addBlock a =>
    have ha := (held_iff hq).mpr hlegal
    have hal := h.mem_live ha
    obtain rfl : { σ with memory := σ.memory.addBlock a } = σ' := Except.ok.inj ((if_pos ha).symm.trans hex)
    refine ⟨h.addBlock hal, hq, ?_⟩
    ext1
    case blocks =>
      funext x
      rcases eq_or_ne x a with rfl | hxa
      · simp [ledger, Memory.addBlock, Ledger.step, hal]
      · simp [ledger, Memory.addBlock, Ledger.step, hxa]
    case freed => simp [ledger, Memory.addBlock, Ledger.step, hallocated]
    all_goals rfl
  | call c =>
    obtain ⟨bs, hrun, hq'⟩ := hex
    obtain ⟨hmay, hstart⟩ := h.start_alone hq hlegal
    have hstep : σ.step (.start c) = .ok (σ.start c) := if_pos hmay
    rw [System.run, hstep] at hrun
    change (σ.start c).run (bs.map (.resume 0)) = .ok σ' at hrun
    rcases hstart with ⟨hqs, hled⟩ | ⟨pc, ht, hcall, ha, hphase⟩
    · cases bs with
      | nil =>
        obtain rfl : σ.start c = σ' := Except.ok.inj hrun
        exact ⟨h.start hmay, hq', hled⟩
      | cons b bs =>
        rw [Quiescent] at hqs
        simp only [List.map_cons, System.run, System.step, hqs] at hrun
        cases hrun
    · obtain ⟨hgood, hled⟩ := (h.start hmay).alone_run ht ha hphase hrun hq'
      rw [hcall] at hled
      exact ⟨hgood, hq', hled⟩

/-- The memory between two operations: the groups of the ledger are the trees of the parents, the root
of a group counts its references and heads the list of its arenas, and every block that was allocated
is either freed, once, or in one arena that is alive. -/
structure Represents (m : Memory) (g : Ledger) : Prop where
  allocated : m.allocated = g.live
  root_iff : ∀ a ∈ g.live, ∀ b ∈ g.live, m.rootOf a = m.rootOf b ↔ g.SameGroup a b
  count : ∀ a ∈ g.live, m.parentOrCount (m.rootOf a) = .count (∑ x ∈ g.group a, g.refs x)
  chain : ∀ a ∈ g.live, ∃ chain, Seg m.next (some (m.rootOf a)) chain none ∧ chain.Nodup ∧
    ∀ x, x ∈ chain ↔ x ∈ g.group a
  blocks : ∀ a ∈ g.live, m.blocks a = g.blocks a
  freed : (m.freed : Multiset ℕ) = g.freed
  nodup_freed : m.freed.Nodup
  freed_iff : ∀ k < m.nextBlock, k ∈ m.freed ↔ ∀ a ∈ g.live, k ∉ g.blocks a
  owner : ∀ a ∈ g.live, ∀ b ∈ g.live, ∀ k ∈ g.blocks a, k ∈ g.blocks b → a = b

theorem Good.represents (h : σ.Good) (hq : σ.Quiescent) : Represents σ.memory σ.ledger := by
  have hno : ∀ pc ∈ σ.threads, ∀ x y, pc.call ≠ .fuse x y := by
    rw [hq]
    simp
  have hallocated := h.allocated_eq hq
  have hblocks {x : ℕ} (hx : x ∈ σ.live) : σ.ledger.blocks x = σ.memory.blocks x := if_pos hx
  obtain ⟨-, hgroups⟩ := h.groupsComplete hq
  refine
    { allocated := hallocated
      root_iff := fun a ha b hb => h.rootOf_eq_iff hno ha hb
      count := fun a ha => ?_
      chain := fun a ha => ?_
      blocks := fun a ha => (hblocks ha).symm
      freed := ?_
      nodup_freed := h.blocks.nodup_freed
      freed_iff := fun k hk => ?_
      owner := fun a ha b hb k hka hkb => ?_ }
  · rw [h.group_eq hno ha]
    exact (hgroups a ha).1
  · rw [h.group_eq hno ha]
    exact (hgroups a ha).2
  · simp [ledger, hallocated]
  · constructor
    · intro hfreed a ha hka
      rw [hblocks ha] at hka
      exact h.blocks.not_freed a (hallocated ▸ ha) k hka hfreed
    · intro hnone
      rcases (h.blocks.lt_iff k).mp hk with hfreed | ⟨a, ha, hka⟩
      · exact hfreed
      · rw [hallocated] at ha
        exact absurd ((hblocks ha).symm ▸ hka) (hnone a ha)
  · rw [hblocks ha] at hka
    rw [hblocks hb] at hkb
    exact h.blocks.disjoint a (hallocated ▸ ha) b (hallocated ▸ hb) k hka hkb

/-- Legal operations can be carried out one after the other. -/
theorem Good.exists_executesAll {ops : List Op} (h : σ.Good) (hq : σ.Quiescent)
    (hlegal : σ.ledger.LegalRun ops) : ∃ σ', σ.ExecutesAll ops σ' := by
  induction ops generalizing σ with
  | nil => exact ⟨σ, rfl⟩
  | cons op ops ih =>
    obtain ⟨hop, hops⟩ := hlegal
    obtain ⟨τ, hex⟩ := h.exists_executes hq hop
    obtain ⟨hgood, hqτ, hled⟩ := h.executes hq hop hex
    obtain ⟨σ', hall⟩ := ih hgood hqτ (hled ▸ hops)
    exact ⟨σ', τ, hex, hall⟩

/-- Legal operations, one after the other, do what the ledger says. -/
theorem Good.executesAll {ops : List Op} (h : σ.Good) (hq : σ.Quiescent)
    (hlegal : σ.ledger.LegalRun ops) (hall : σ.ExecutesAll ops σ') :
    σ'.Good ∧ σ'.Quiescent ∧ σ'.ledger = σ.ledger.run ops := by
  induction ops generalizing σ with
  | nil =>
    obtain rfl : σ' = σ := hall
    exact ⟨h, hq, rfl⟩
  | cons op ops ih =>
    obtain ⟨hop, hops⟩ := hlegal
    obtain ⟨τ, hex, hall⟩ := hall
    obtain ⟨hgood, hqτ, hled⟩ := h.executes hq hop hex
    rw [← hled] at hops
    obtain ⟨hgood', hq', hled'⟩ := ih hgood hqτ hops hall
    refine ⟨hgood', hq', ?_⟩
    rw [hled', hled]
    rfl

/-- The account of a system without arenas is empty. -/
theorem ledger_initial : initial.ledger = Ledger.empty := by
  ext1 <;> rfl

/-- Two arenas are fused and then freed, the group with the second of them. -/
def fuseAndFree : List Op :=
  [.new 1, .new 3, .addBlock 3, .call (.fuse 1 3), .call (.isFused 3 1), .call (.incRefFor 3),
    .call (.free 1), .call (.free 3), .call (.free 3)]

end System

end Upb.Arena
