import Mathlib.Data.List.Perm.Basic
import Upb.Arena.Resume

/-!
# Every reachable system

The invariant of the memory is joined by two more: arenas share a root exactly when fuses that have
succeeded or are running connect them, and every block ever allocated either belongs to one allocated
arena or was freed once. Every event the clients may cause keeps all three, and never faults.
-/

namespace Upb.Arena

open Upb.Common (root root_mem root_congr root_of_none)

open Relation (EqvGen)

/-- A fuse of the two arenas has succeeded or is running. -/
def Linked (fused : List (ℕ × ℕ)) (ts : List Pc) (x y : ℕ) : Prop :=
  (x, y) ∈ fused ∨ ∃ pc ∈ ts, pc.call = .fuse x y

/-- The groups are what the fuses connect. -/
structure FusedGroups (m : Memory) (live : Finset ℕ) (fused : List (ℕ × ℕ)) (ts : List Pc) : Prop where
  mem : ∀ x y, (x, y) ∈ fused → x ∈ live ∧ y ∈ live ∧ m.rootOf x = m.rootOf y
  connected : ∀ x ∈ live, ∀ y ∈ live, m.rootOf x = m.rootOf y → EqvGen (Linked fused ts) x y

/-- The pair that a returning fuse has fused. -/
def Outcome.pairs : Outcome → List (ℕ × ℕ)
  | .ret (.fuse a b) true => [(a, b)]
  | _ => []

/-- The answer that a returning call gives. -/
def Outcome.log : Outcome → List (Call × Bool)
  | .ret c result => [(c, result)]
  | .run _ => []

/-- Every block belongs to one arena or was freed once. -/
structure BlocksOwned (m : Memory) : Prop where
  nodup_freed : m.freed.Nodup
  nodup : ∀ a ∈ m.allocated, (m.blocks a).Nodup
  disjoint : ∀ a ∈ m.allocated, ∀ b ∈ m.allocated, ∀ k ∈ m.blocks a, k ∈ m.blocks b → a = b
  not_freed : ∀ a ∈ m.allocated, ∀ k ∈ m.blocks a, k ∉ m.freed
  lt_iff : ∀ k, k < m.nextBlock ↔ k ∈ m.freed ∨ ∃ a ∈ m.allocated, k ∈ m.blocks a

/-- The invariant of a system. -/
structure System.Good (σ : System) : Prop where
  inv : ∃ chains, Inv σ.memory σ.live σ.refs chains σ.threads
  groups : FusedGroups σ.memory σ.live σ.fused σ.threads
  blocks : BlocksOwned σ.memory

section Blocks

variable {m m' : Memory} {a : ℕ}

theorem BlocksOwned.congr (h : BlocksOwned m) (hs : SameBlocks m m') : BlocksOwned m' where
  nodup_freed := by rw [hs.freed]; exact h.nodup_freed
  nodup := by rw [hs.allocated, hs.blocks]; exact h.nodup
  disjoint := by rw [hs.allocated, hs.blocks]; exact h.disjoint
  not_freed := by rw [hs.allocated, hs.blocks, hs.freed]; exact h.not_freed
  lt_iff := by rw [hs.allocated, hs.blocks, hs.freed, hs.nextBlock]; exact h.lt_iff

/-- Freeing an arena moves its blocks to the freed ones. -/
theorem BlocksOwned.freeBlocks (h : BlocksOwned m) (ha : a ∈ m.allocated) : BlocksOwned (m.freeBlocks a) := by
  have hmem {x : ℕ} : x ∈ (m.freeBlocks a).allocated ↔ x ≠ a ∧ x ∈ m.allocated := Finset.mem_erase
  constructor
  · refine List.nodup_append.mpr ⟨h.nodup a ha, h.nodup_freed, ?_⟩
    rintro k hk k' hk' rfl
    exact h.not_freed a ha k hk hk'
  · exact fun x hx => h.nodup x (hmem.mp hx).2
  · exact fun x hx y hy => h.disjoint x (hmem.mp hx).2 y (hmem.mp hy).2
  · intro x hx k hk hfreed
    obtain ⟨hxa, hx⟩ := hmem.mp hx
    rcases List.mem_append.mp hfreed with hk' | hk'
    · exact hxa (h.disjoint x hx a ha k hk hk')
    · exact h.not_freed x hx k hk hk'
  · intro k
    change k < m.nextBlock ↔ k ∈ m.blocks a ++ m.freed ∨ ∃ x ∈ (m.freeBlocks a).allocated, k ∈ m.blocks x
    rw [h.lt_iff k, List.mem_append]
    constructor
    · rintro (hk | ⟨x, hx, hk⟩)
      · exact .inl (.inr hk)
      · rcases eq_or_ne x a with rfl | hxa
        · exact .inl (.inl hk)
        · exact .inr ⟨x, hmem.mpr ⟨hxa, hx⟩, hk⟩
    · rintro ((hk | hk) | ⟨x, hx, hk⟩)
      · exact .inr ⟨a, ha, hk⟩
      · exact .inl hk
      · exact .inr ⟨x, (hmem.mp hx).2, hk⟩

/-- The blocks when one arena gets a new block besides the `old` ones it had. -/
theorem BlocksOwned.grow {old : List ℕ} (h : BlocksOwned m)
    (hold : ∀ k ∈ old, a ∈ m.allocated ∧ k ∈ m.blocks a) (hnodup : old.Nodup)
    (hkept : a ∈ m.allocated → m.blocks a = old) (hallocated : m'.allocated = insert a m.allocated)
    (hblocks : m'.blocks = Function.update m.blocks a (m.nextBlock :: old)) (hfreed : m'.freed = m.freed)
    (hnext : m'.nextBlock = m.nextBlock + 1) : BlocksOwned m' := by
  have hlt {k : ℕ} : k ∈ m.freed ∨ (∃ a ∈ m.allocated, k ∈ m.blocks a) → k < m.nextBlock :=
    (h.lt_iff k).mpr
  have hcases {x k : ℕ} (hx : x ∈ m'.allocated) (hk : k ∈ m'.blocks x) :
      k = m.nextBlock ∧ x = a ∨ x ∈ m.allocated ∧ k ∈ m.blocks x := by
    rw [hblocks] at hk
    rcases eq_or_ne x a with rfl | hxa
    · rw [Function.update_self] at hk
      rcases List.mem_cons.mp hk with rfl | hk
      · exact .inl ⟨rfl, rfl⟩
      · exact .inr (hold k hk)
    · rw [Function.update_of_ne hxa] at hk
      rw [hallocated] at hx
      exact .inr ⟨Finset.mem_of_mem_insert_of_ne hx hxa, hk⟩
  constructor
  · rw [hfreed]
    exact h.nodup_freed
  · intro x hx
    rw [hblocks]
    rcases eq_or_ne x a with rfl | hxa
    · rw [Function.update_self]
      refine List.nodup_cons.mpr ⟨fun hk => ?_, hnodup⟩
      exact lt_irrefl _ (hlt (.inr ⟨x, hold _ hk⟩))
    · rw [Function.update_of_ne hxa]
      rw [hallocated] at hx
      exact h.nodup x (Finset.mem_of_mem_insert_of_ne hx hxa)
  · intro x hx y hy k hkx hky
    rcases hcases hx hkx with ⟨rfl, rfl⟩ | ⟨hx, hkx⟩ <;> rcases hcases hy hky with ⟨hk, rfl⟩ | ⟨hy, hky⟩
    · rfl
    · exact absurd (hlt (.inr ⟨y, hy, hky⟩)) (lt_irrefl _)
    · exact absurd (hlt (.inr ⟨x, hx, hkx⟩)) (by omega)
    · exact h.disjoint x hx y hy k hkx hky
  · intro x hx k hk
    rw [hfreed]
    rcases hcases hx hk with ⟨rfl, -⟩ | ⟨hx, hk⟩
    · exact fun hmem => lt_irrefl _ (hlt (.inl hmem))
    · exact h.not_freed x hx k hk
  · intro k
    rw [hnext, Nat.lt_succ_iff_lt_or_eq, h.lt_iff k, hfreed]
    have ha' : a ∈ m'.allocated := by rw [hallocated]; exact Finset.mem_insert_self ..
    constructor
    · rintro ((hk | ⟨x, hx, hk⟩) | rfl)
      · exact .inl hk
      · refine .inr ⟨x, by rw [hallocated]; exact Finset.mem_insert_of_mem hx, ?_⟩
        rw [hblocks]
        rcases eq_or_ne x a with rfl | hxa
        · rw [Function.update_self, ← hkept hx]
          exact List.mem_cons_of_mem _ hk
        · rwa [Function.update_of_ne hxa]
      · exact .inr ⟨a, ha', by rw [hblocks, Function.update_self]; exact List.mem_cons_self⟩
    · rintro (hk | ⟨x, hx, hk⟩)
      · exact .inl (.inl hk)
      · rcases hcases hx hk with ⟨rfl, -⟩ | hk
        · exact .inr rfl
        · exact .inl (.inr ⟨x, hk⟩)

end Blocks

section Groups

variable {m m' : Memory} {live : Finset ℕ} {refs : ℕ → ℕ} {chains : ℕ → List ℕ} {fused fused' : List (ℕ × ℕ)}
  {ts ts' rest : List Pc} {pc : Pc} {o : Outcome} {a r : ℕ}

/-- More calls link no less. -/
theorem Linked.mono (ht : ts ⊆ ts') {x y : ℕ} (h : Linked fused ts x y) : Linked fused ts' x y :=
  h.imp_right fun ⟨pc, hpc, hcall⟩ => ⟨pc, ht hpc, hcall⟩

/-- Only fuses link. -/
theorem Linked.of_cons {x y : ℕ} (hpc : ∀ x y, pc.call ≠ .fuse x y) (h : Linked fused (pc :: rest) x y) :
    Linked fused rest x y := by
  refine h.imp_right fun ⟨q, hq, hcall⟩ => ⟨q, ?_, hcall⟩
  rcases List.mem_cons.mp hq with rfl | hq
  · exact absurd hcall (hpc x y)
  · exact hq

/-- A call that is about to release a reference is `upb_Arena_Free`. -/
theorem Pc.call_of_releasing (h : pc.releasing = some a) : pc.call = .free a ∧ pc.isDoFree = false := by
  cases pc <;> simp_all [Pc.releasing, Pc.call, Pc.isDoFree]

/-- Only the roots of the live arenas and the links matter. -/
theorem FusedGroups.congr (h : FusedGroups m live fused ts)
    (hroot : ∀ x ∈ live, m'.rootOf x = m.rootOf x)
    (hlinked : ∀ x y, Linked fused ts x y → Linked fused ts' x y) : FusedGroups m' live fused ts' where
  mem x y hxy := by
    obtain ⟨hx, hy, heq⟩ := h.mem x y hxy
    rw [hroot x hx, hroot y hy]
    exact ⟨hx, hy, heq⟩
  connected x hx y hy heq := by
    rw [hroot x hx, hroot y hy] at heq
    exact (h.connected x hx y hy heq).mono hlinked

/-- The arguments of a running fuse are used. -/
theorem Pc.mem_uses_of_call {b : ℕ} (h : pc.call = .fuse a b) : a ∈ pc.uses ∧ b ∈ pc.uses := by
  cases pc with
  | findRoot at_ caller => cases caller <;> simp_all [Pc.call, Caller.call, Pc.uses, Caller.uses]
  | _ => simp_all [Pc.call, Pc.uses]

/-- A plain step joins only what its fuse connects. -/
theorem FusedGroups.plain (h : FusedGroups m live fused (pc :: rest)) (hcontract : Contract live refs (pc :: rest))
    (hs : PlainStep m live refs rest pc.call m' o) :
    FusedGroups m' live (o.pairs ++ fused) (o.threads ++ rest) := by
  have hargs {x y : ℕ} (hcall : pc.call = .fuse x y) : x ∈ live ∧ y ∈ live := by
    have hmem := Pc.mem_uses_of_call hcall
    exact ⟨hcontract.args_mem List.mem_cons_self (List.mem_append_left _ hmem.1),
      hcontract.args_mem List.mem_cons_self (List.mem_append_left _ hmem.2)⟩
  -- the fuse of the step is still running, or has just succeeded
  have hown {x y : ℕ} (hcall : pc.call = .fuse x y) : Linked (o.pairs ++ fused) (o.threads ++ rest) x y := by
    have hcall' := hs.sameCall.trans hcall
    cases o with
    | run pc' => exact .inr ⟨pc', by simp [Outcome.threads], hcall'⟩
    | ret c result =>
      obtain rfl : c = .fuse x y := hcall'
      obtain rfl : result = true := hs.joined.1
      exact .inl (by simp [Outcome.pairs])
  have hlinked {x y : ℕ} (hl : Linked fused (pc :: rest) x y) :
      Linked (o.pairs ++ fused) (o.threads ++ rest) x y := by
    rcases hl with hl | ⟨q, hq, hcall⟩
    · exact .inl (List.mem_append_right _ hl)
    · rcases List.mem_cons.mp hq with rfl | hq
      · exact hown hcall
      · exact .inr ⟨q, List.mem_append_right _ hq, hcall⟩
  have hold {x y : ℕ} (hx : x ∈ live) (hy : y ∈ live) (heq : m.rootOf x = m.rootOf y) :
      EqvGen (Linked (o.pairs ++ fused) (o.threads ++ rest)) x y :=
    (h.connected x hx y hy heq).mono fun _ _ hl => hlinked hl
  constructor
  · intro x y hxy
    rcases List.mem_append.mp hxy with hxy | hxy
    · cases o with
      | run pc' => simp [Outcome.pairs] at hxy
      | ret c result =>
        cases c <;> cases result <;> simp only [Outcome.pairs, List.not_mem_nil, List.mem_singleton,
          Prod.mk.injEq] at hxy
        obtain ⟨rfl, rfl⟩ := hxy
        obtain ⟨hx, hy⟩ := hargs hs.sameCall.symm
        exact ⟨hx, hy, hs.joined.2⟩
    · obtain ⟨hx, hy, heq⟩ := h.mem x y hxy
      exact ⟨hx, hy, hs.joins.keep x y heq⟩
  · intro x hx y hy heq
    rcases hs.joins.only x y heq with heq | ⟨b, c, hcall, ⟨hxb, hyc⟩ | ⟨hxc, hyb⟩⟩
    · exact hold hx hy heq
    · obtain ⟨hb, hc⟩ := hargs hcall
      exact (hold hx hb hxb).trans _ _ _ ((EqvGen.rel _ _ (hown hcall)).trans _ _ _ (hold hc hy hyc.symm))
    · obtain ⟨hb, hc⟩ := hargs hcall
      exact (hold hx hc hxc).trans _ _ _
        (((EqvGen.rel _ _ (hown hcall)).symm _ _).trans _ _ _ (hold hb hy hyb.symm))

/-- Handing a whole group to `_upb_Arena_DoFree` leaves the other groups alone. -/
theorem FusedGroups.retire (h : FusedGroups m live fused (pc :: rest)) (hcontract : Contract live refs (pc :: rest))
    (hpc : ∀ x y, pc.call ≠ .fuse x y) (hothers : ∀ q ∈ rest, ∀ x ∈ q.args, m.rootOf x ≠ r) :
    FusedGroups m (live.filter fun x => m.rootOf x ≠ r)
      (fused.filter fun p => p.1 ∈ live.filter fun x => m.rootOf x ≠ r) (.doFree a r :: rest) := by
  have hmem {x : ℕ} : x ∈ live.filter (fun x => m.rootOf x ≠ r) ↔ x ∈ live ∧ m.rootOf x ≠ r :=
    Finset.mem_filter
  set live' := live.filter fun x => m.rootOf x ≠ r
  set fused' := fused.filter fun p => p.1 ∈ live'
  -- no link leads out of the retired group
  have hlink {x y : ℕ} (hl : Linked fused (pc :: rest) x y) :
      (x ∈ live' ↔ y ∈ live') ∧ (x ∈ live' → Linked fused' (.doFree a r :: rest) x y) := by
    rcases hl with hl | ⟨q, hq, hcall⟩
    · obtain ⟨hx, hy, heq⟩ := h.mem x y hl
      refine ⟨by rw [hmem, hmem, heq]; simp [hx, hy], fun hx' => .inl ?_⟩
      exact List.mem_filter.mpr ⟨hl, by simpa using hx'⟩
    · rcases List.mem_cons.mp hq with rfl | hq
      · exact absurd hcall (hpc x y)
      · have huses := Pc.mem_uses_of_call hcall
        have hlive {z : ℕ} (hz : z ∈ q.uses) : z ∈ live' :=
          hmem.mpr ⟨hcontract.args_mem (List.mem_cons_of_mem _ hq) (List.mem_append_left _ hz),
            hothers q hq z (List.mem_append_left _ hz)⟩
        exact ⟨iff_of_true (hlive huses.1) (hlive huses.2),
          fun _ => .inr ⟨q, List.mem_cons_of_mem _ hq, hcall⟩⟩
  have hgen {x y : ℕ} (hl : EqvGen (Linked fused (pc :: rest)) x y) :
      (x ∈ live' ↔ y ∈ live') ∧ (x ∈ live' → EqvGen (Linked fused' (.doFree a r :: rest)) x y) := by
    induction hl with
    | rel x y hl => exact ⟨(hlink hl).1, fun hx => .rel _ _ ((hlink hl).2 hx)⟩
    | refl x => exact ⟨Iff.rfl, fun _ => .refl x⟩
    | symm x y _ ih => exact ⟨ih.1.symm, fun hy => (ih.2 (ih.1.mpr hy)).symm _ _⟩
    | trans x y z _ _ ih1 ih2 =>
      exact ⟨ih1.1.trans ih2.1, fun hx => (ih1.2 hx).trans _ _ _ (ih2.2 (ih1.1.mp hx))⟩
  constructor
  · intro x y hxy
    obtain ⟨hxy, hx⟩ := List.mem_filter.mp hxy
    have hx : x ∈ live' := by simpa using hx
    obtain ⟨-, hy, heq⟩ := h.mem x y hxy
    exact ⟨hx, hmem.mpr ⟨hy, by rw [← heq]; exact (hmem.mp hx).2⟩, heq⟩
  · intro x hx y hy heq
    exact (hgen (h.connected x (hmem.mp hx).1 y (hmem.mp hy).1 heq)).2 hx

end Groups

namespace System

variable {σ : System} {pc : Pc} {i : ℕ} {o : Outcome}

/-- A plain outcome is accounted for by the pair it has fused and by what it has returned. -/
theorem account_plain (σ : System) (pc : Pc) (h : o.Plain) :
    σ.account pc o = { σ with fused := o.pairs ++ σ.fused, returned := o.log ++ σ.returned } := by
  cases o with
  | run pc' => cases pc' <;> first | rfl | exact h.elim
  | ret c result => cases c <;> first | exact h.elim | cases result <;> rfl

/-- Letting one call go on changes the running calls in one place. -/
theorem threads_perm (hi : σ.threads[i]? = some pc) : σ.threads.Perm (pc :: σ.threads.eraseIdx i) := by
  obtain ⟨hlt, rfl⟩ := List.getElem?_eq_some_iff.mp hi
  exact (List.getElem_cons_eraseIdx_perm hlt).symm

/-- The running calls after a step. -/
def threadsAfter (σ : System) (i : ℕ) : Outcome → List Pc
  | .run pc' => σ.threads.set i pc'
  | .ret _ _ => σ.threads.eraseIdx i

theorem threadsAfter_perm (hi : σ.threads[i]? = some pc) (o : Outcome) :
    (σ.threadsAfter i o).Perm (o.threads ++ σ.threads.eraseIdx i) := by
  obtain ⟨hlt, -⟩ := List.getElem?_eq_some_iff.mp hi
  cases o with
  | run pc' => exact List.set_perm_cons_eraseIdx hlt pc'
  | ret c result => exact List.Perm.refl _

theorem proceed_eq (σ : System) (i : ℕ) (pc : Pc) (m : Memory) (o : Outcome) :
    σ.proceed i pc m o = { σ with memory := m, threads := σ.threadsAfter i o }.account pc o := by
  cases o <;> rfl

/-- One step of a running call succeeds and keeps the invariant. -/
theorem Good.proceed (h : σ.Good) (spurious : Bool) (hi : σ.threads[i]? = some pc) :
    ∃ m' o, resume σ.memory spurious pc = .ok (m', o) ∧ (σ.proceed i pc m' o).Good := by
  obtain ⟨chains, hinv⟩ := h.inv
  have hperm := threads_perm hi
  have hinv := hinv.perm hperm
  have hgroups := h.groups.congr (fun _ _ => rfl) fun _ _ => Linked.mono hperm.subset
  obtain ⟨m', o, heq, heffect⟩ := hinv.resume spurious
  refine ⟨m', o, heq, ?_⟩
  have hafter := threadsAfter_perm hi o
  have hthreads {x y : ℕ} (hl : Linked σ.fused (o.threads ++ σ.threads.eraseIdx i) x y) :
      Linked σ.fused (σ.threadsAfter i o) x y := hl.mono hafter.symm.subset
  rw [proceed_eq]
  cases heffect with
  | plain hs =>
    rw [account_plain _ pc hs.plain]
    obtain ⟨chains', hinv'⟩ := hs.inv
    refine ⟨⟨chains', hinv'.perm hafter.symm⟩, ?_, h.blocks.congr hs.joins.blocks⟩
    exact (hgroups.plain hinv.contract hs).congr (fun _ _ => rfl) fun _ _ => Linked.mono hafter.symm.subset
  | acquire hcall hparent hblocks ha hinv' =>
    obtain ⟨chains', hinv'⟩ := hinv'
    refine ⟨⟨chains', hinv'⟩, hgroups.congr (fun x _ => ?_) fun x y hl => ?_, h.blocks.congr hblocks⟩
    · change root m'.parent x = root σ.memory.parent x
      rw [hparent]
    · exact hthreads (hl.of_cons fun x y => by rw [hcall]; simp)
  | release hpc hparent hblocks hinv' =>
    obtain ⟨hcall, hdoFree⟩ := Pc.call_of_releasing hpc
    obtain ⟨chains', hinv'⟩ := hinv'
    rw [account, settle, hdoFree]
    refine ⟨⟨chains', hinv'⟩, hgroups.congr (fun x _ => ?_) fun x y hl => ?_, h.blocks.congr hblocks⟩
    · change root m'.parent x = root σ.memory.parent x
      rw [hparent]
    · exact hthreads (hl.of_cons fun x y => by rw [hcall]; simp)
  | retire hpc hm hr hroot hrefs hzero hothers hinv' =>
    obtain ⟨hcall, hdoFree⟩ := Pc.call_of_releasing hpc
    obtain ⟨chains', hinv'⟩ := hinv'
    subst hm
    rw [account, hdoFree]
    refine ⟨⟨chains', hinv'.perm hafter.symm⟩, ?_, h.blocks⟩
    exact (hgroups.retire hinv.contract (fun x y => by rw [hcall]; simp) hothers).congr (fun _ _ => rfl)
      fun _ _ => Linked.mono hafter.symm.subset
  | @free a ai _ hpc hm hmem hai ho hinv' =>
    obtain ⟨chains', hinv'⟩ := hinv'
    subst hpc hm
    have hcall : ∀ x y, (Pc.doFree a ai).call ≠ .fuse x y := fun x y => by simp [Pc.call]
    have hgood : FusedGroups (σ.memory.freeBlocks ai) σ.live σ.fused (σ.threadsAfter i o) :=
      hgroups.congr (fun _ _ => rfl) fun x y hl =>
        hthreads ((hl.of_cons hcall).mono (List.subset_append_right _ _))
    have hinv' := hinv'.perm hafter.symm
    cases hnext : σ.memory.next ai with
    | none =>
      rw [hnext] at ho
      subst ho
      exact ⟨⟨chains', hinv'⟩, hgood, h.blocks.freeBlocks hmem⟩
    | some next =>
      rw [hnext] at ho
      subst ho
      exact ⟨⟨chains', hinv'⟩, hgood, h.blocks.freeBlocks hmem⟩

/-- Nothing is owned at the start. -/
theorem good_initial : initial.Good where
  inv := by
    refine ⟨fun _ => [], ⟨?_, ?_, ?_, ?_⟩, ?_, ⟨?_, ?_, ?_⟩, ⟨⟨?_, ?_, ?_⟩, ?_, ?_, ?_, ?_, ?_, ?_, ?_⟩,
      ⟨?_, ?_, ?_⟩, ?_⟩
    all_goals simp [initial, Memory.empty, Upb.Common.Descending, Memory.parent, Counted]
  groups := ⟨by simp [initial], by simp [initial]⟩
  blocks := ⟨by simp [initial, Memory.empty], by simp [initial, Memory.empty],
    by simp [initial, Memory.empty], by simp [initial, Memory.empty], by simp [initial, Memory.empty]⟩

/-- A new arena. -/
theorem Good.new {a : ℕ} (h : σ.Good) (ha : a ∉ σ.memory.allocated) : (σ.new a).Good := by
  obtain ⟨chains, hinv⟩ := h.inv
  have hinv' := hinv.new ha
  have hal : a ∉ σ.live := fun hl => ha (hinv.trees.subset hl)
  have hself : (σ.memory.initSlow a).rootOf a = a :=
    root_of_none (Memory.parent_eq_none_iff.mpr ⟨1, by simp [Memory.initSlow]⟩)
  have hroot : ∀ x ∈ σ.live, (σ.memory.initSlow a).rootOf x = σ.memory.rootOf x := by
    intro x hx
    refine root_congr (s := σ.live) hinv.trees.descending hinv'.trees.descending hinv.trees.parent_mem ?_ hx
    intro y hy
    have hya : y ≠ a := by
      rintro rfl
      exact hal hy
    simp [Memory.parent, Memory.initSlow, hya]
  have hrootne : ∀ x ∈ σ.live, (σ.memory.initSlow a).rootOf x ≠ a := by
    intro x hx
    rw [hroot x hx]
    have hmem : σ.memory.rootOf x ∈ σ.live :=
      root_mem (s := σ.live) hinv.trees.descending hinv.trees.parent_mem hx
    rintro heq
    exact hal (heq ▸ hmem)
  refine ⟨⟨_, hinv'⟩, ⟨fun x y hxy => ?_, fun x hx y hy heq => ?_⟩, ?_⟩
  · obtain ⟨hx, hy, heq⟩ := h.groups.mem x y hxy
    refine ⟨Finset.mem_insert_of_mem hx, Finset.mem_insert_of_mem hy, ?_⟩
    exact (hroot x hx).trans (heq.trans (hroot y hy).symm)
  · change (σ.memory.initSlow a).rootOf x = (σ.memory.initSlow a).rootOf y at heq
    rcases Finset.mem_insert.mp hx with hxa | hxl <;> rcases Finset.mem_insert.mp hy with hya | hyl
    · rw [hxa, hya]
      exact .refl _
    · rw [hxa, hself] at heq
      exact absurd heq.symm (hrootne y hyl)
    · rw [hya, hself] at heq
      exact absurd heq (hrootne x hxl)
    · rw [hroot x hxl, hroot y hyl] at heq
      exact h.groups.connected x hxl y hyl heq
  · exact h.blocks.grow (by simp : ∀ k ∈ [], _) (by simp) (fun hcon => absurd hcon ha) rfl rfl rfl rfl

/-- A further block. -/
theorem Good.addBlock {a : ℕ} (h : σ.Good) (ha : a ∈ σ.live) :
    { σ with memory := σ.memory.addBlock a }.Good := by
  obtain ⟨chains, hinv⟩ := h.inv
  have hmem := hinv.trees.subset ha
  refine ⟨⟨chains, { hinv.trees with }, hinv.counted, hinv.contract, { hinv.listed with },
    { hinv.tails with }, hinv.ok⟩, h.groups.congr (fun _ _ => rfl) fun _ _ hl => hl, ?_⟩
  refine h.blocks.grow (fun k hk => ⟨hmem, hk⟩) (h.blocks.nodup a hmem) (fun _ => rfl) ?_ rfl rfl rfl
  exact (Finset.insert_eq_of_mem hmem).symm

/-- A referenced arena is live. -/
theorem Good.mem_live {a : ℕ} (h : σ.Good) (ha : σ.Held a) : a ∈ σ.live := by
  obtain ⟨chains, hinv⟩ := h.inv
  exact hinv.contract.mem_live a (lt_of_le_of_lt (Nat.zero_le _) ha)

/-- A call that starts running. -/
theorem Good.run (h : σ.Good) (hlists : pc.NoLists) (hexcess : pc.excess = [])
    (hcontract : Contract σ.live σ.refs (pc :: σ.threads))
    (hok : ∀ chains, pc.Ok σ.memory.parent σ.live chains) :
    { σ with threads := pc :: σ.threads }.Good := by
  obtain ⟨chains, hinv⟩ := h.inv
  refine ⟨⟨chains, hinv.start hlists hexcess hcontract (hok chains)⟩, ?_, h.blocks⟩
  exact h.groups.congr (fun _ _ => rfl) fun _ _ hl => hl.mono (List.subset_cons_self _ _)

/-- The references a call relies on are held. -/
theorem Good.contract_cons (h : σ.Good) (hpc : pc.releasing = none) (huses : ∀ a ∈ pc.uses, σ.Held a) :
    Contract σ.live σ.refs (pc :: σ.threads) := by
  obtain ⟨chains, hinv⟩ := h.inv
  have heq : (pc :: σ.threads).filterMap Pc.releasing = σ.threads.filterMap Pc.releasing := by
    rw [List.filterMap_cons, hpc]
  refine ⟨hinv.contract.mem_live, by rw [heq]; exact hinv.contract.releasing, fun q hq a ha => ?_⟩
  rw [heq]
  rcases List.mem_cons.mp hq with rfl | hq
  · exact huses a ha
  · exact hinv.contract.held q hq a ha

/-- Every call may start whose clients hold the references. -/
theorem Good.start {c : Call} (h : σ.Good) (hmay : σ.MayCall c) : (σ.start c).Good := by
  obtain ⟨chains, hinv⟩ := h.inv
  cases c with
  | fuse a1 a2 =>
    have h1 := h.mem_live hmay.1
    have h2 := h.mem_live hmay.2
    have hplain : (σ.memory.hasInitialBlock a1 || σ.memory.hasInitialBlock a2) = false := by
      simp [hinv.trees.plain a1 h1, hinv.trees.plain a2 h2]
    rcases eq_or_ne a1 a2 with rfl | hne
    · have heq : σ.start (.fuse a1 a1) = σ.settle false (.fuse a1 a1) true := by simp [System.start, enter]
      rw [heq]
      refine ⟨h.inv, ⟨fun x y hxy => ?_, fun x hx y hy hroot => ?_⟩, h.blocks⟩
      · rcases List.mem_cons.mp hxy with hxy | hxy
        · cases hxy
          exact ⟨h1, h1, rfl⟩
        · exact h.groups.mem x y hxy
      · exact (h.groups.connected x hx y hy hroot).mono fun _ _ hl => hl.imp_left (List.mem_cons_of_mem _)
    · have heq : σ.start (.fuse a1 a2) = { σ with
          threads := .findRoot (.entry a1) (.fuse1 ⟨a1, a2, a1, a2, 0, []⟩) :: σ.threads } := by
        simp [System.start, enter, hne, hplain, doFuse]
      rw [heq]
      refine h.run ⟨rfl, rfl, rfl⟩ rfl (h.contract_cons rfl ?_) fun _ => ?_
      · intro a ha
        rcases List.mem_cons.mp ha with rfl | ha
        · exact hmay.1
        · rw [List.mem_singleton.mp ha]
          exact hmay.2
      · exact ⟨⟨h1, rfl⟩, ⟨⟨h1, rfl⟩, ⟨h2, rfl⟩, by simp, rfl⟩⟩
  | isFused a b =>
    have ha := h.mem_live hmay.1
    rcases eq_or_ne a b with rfl | hne
    · have heq : σ.start (.isFused a a) = σ.settle false (.isFused a a) true := by simp [System.start, enter]
      rw [heq]
      exact ⟨h.inv, h.groups, h.blocks⟩
    · have heq : σ.start (.isFused a b) =
          { σ with threads := .findRoot (.entry a) (.isFused1 a b) :: σ.threads } := by
        simp [System.start, enter, hne]
      rw [heq]
      refine h.run ⟨rfl, rfl, rfl⟩ rfl (h.contract_cons rfl ?_) fun _ => ⟨⟨ha, rfl⟩, trivial⟩
      intro x hx
      rcases List.mem_cons.mp hx with rfl | hx
      · exact hmay.1
      · rw [List.mem_singleton.mp hx]
        exact hmay.2
  | incRefFor a =>
    have ha := h.mem_live hmay
    have heq : σ.start (.incRefFor a) =
        { σ with threads := .findRoot (.entry a) (.incRef a) :: σ.threads } := by
      simp [System.start, enter, hinv.trees.plain a ha]
    rw [heq]
    refine h.run ⟨rfl, rfl, rfl⟩ rfl (h.contract_cons rfl fun x hx => ?_) fun _ => ⟨⟨ha, rfl⟩, trivial⟩
    rw [List.mem_singleton.mp hx]
    exact hmay
  | free a =>
    obtain ⟨hheld, hinUse⟩ := hmay
    have ha := h.mem_live hheld
    have hcons (x : ℕ) : ((Pc.freeLoad a a :: σ.threads).filterMap Pc.releasing).count x = _ :=
      count_releasing_cons rfl x
    refine h.run ⟨rfl, rfl, rfl⟩ rfl ⟨hinv.contract.mem_live, fun x => ?_, fun q hq x hx => ?_⟩
      fun _ => ⟨ha, rfl⟩
    · have hle := hinv.contract.releasing x
      rw [hcons]
      split
      · rename_i hax
        rw [← hax]
        exact hheld
      · omega
    · rcases List.mem_cons.mp hq with rfl | hq
      · simp [Pc.uses] at hx
      · have hlt := hinv.contract.held q hq x hx
        rw [hcons]
        split
        · rename_i hax
          rw [← hax] at hx ⊢
          exact hinUse ⟨q, hq, hx⟩
        · omega

/-- Every event succeeds and keeps the invariant, or breaks the contract of the clients. -/
theorem Good.step (h : σ.Good) (e : Event) :
    (∃ σ', σ.step e = .ok σ' ∧ σ'.Good) ∨ σ.step e = .error .contract := by
  cases e with
  | new a =>
    rw [System.step]
    split
    · exact .inr rfl
    · rename_i ha
      exact .inl ⟨_, rfl, h.new ha⟩
  | addBlock a =>
    rw [System.step]
    split
    · rename_i ha
      exact .inl ⟨_, rfl, h.addBlock (h.mem_live ha)⟩
    · exact .inr rfl
  | start c =>
    rw [System.step]
    split
    · rename_i hmay
      exact .inl ⟨_, rfl, h.start hmay⟩
    · exact .inr rfl
  | resume i spurious =>
    rw [System.step]
    cases hi : σ.threads[i]? with
    | none => exact .inr rfl
    | some pc =>
      obtain ⟨m', o, heq, hgood⟩ := h.proceed spurious hi
      exact .inl ⟨_, by simp only [heq]; rfl, hgood⟩

/-- A returning call gives up no arena. -/
theorem settle_live (σ : System) (freeing : Bool) (c : Call) (result : Bool) :
    (σ.settle freeing c result).live = σ.live := by
  cases c <;> cases result <;> cases freeing <;> rfl

/-- A step gives up no arena, or exactly one group. -/
theorem Good.live_step {e : Event} {σ' : System} (h : σ.Good) (hstep : σ.step e = .ok σ') :
    σ.live ⊆ σ'.live ∨ ∃ r, σ'.live = σ.live.filter fun x => σ.memory.rootOf x ≠ r := by
  cases e with
  | new a =>
    rw [System.step] at hstep
    split at hstep
    · cases hstep
    · cases hstep
      exact .inl (Finset.subset_insert _ _)
  | addBlock a =>
    rw [System.step] at hstep
    split at hstep
    · cases hstep
      exact .inl (Finset.Subset.refl _)
    · cases hstep
  | start c =>
    rw [System.step] at hstep
    split at hstep
    · cases hstep
      left
      unfold System.start
      split
      · exact Finset.Subset.refl _
      · rw [settle_live]
    · cases hstep
  | resume i spurious =>
    rw [System.step] at hstep
    cases hi : σ.threads[i]? with
    | none => simp only [hi] at hstep; cases hstep
    | some pc =>
      obtain ⟨chains, hinv⟩ := h.inv
      obtain ⟨m', o, heq, heffect⟩ := (hinv.perm (threads_perm hi)).resume spurious
      simp only [hi, heq] at hstep
      cases hstep
      cases o with
      | ret c result =>
        left
        change σ.live ⊆ (settle _ _ _ _).live
        rw [settle_live]
      | run pc' =>
        cases heffect with
        | plain hs =>
          left
          change σ.live ⊆ (account _ _ _).live
          rw [account_plain _ pc hs.plain]
        | @retire a r hpc hm =>
          subst hm
          refine .inr ⟨r, ?_⟩
          rw [System.proceed, account, (Pc.call_of_releasing hpc).2]
          rfl
        | @free a ai _ hpc hm hmem hai ho =>
          left
          subst hpc
          cases hnext : σ.memory.next ai with
          | none => rw [hnext] at ho; cases ho
          | some next =>
            rw [hnext] at ho
            cases ho
            exact Finset.Subset.refl _

/-- A run succeeds and keeps the invariant, or breaks the contract of the clients. -/
theorem Good.runs (h : σ.Good) (es : List Event) :
    (∃ σ', σ.run es = .ok σ' ∧ σ'.Good) ∨ σ.run es = .error .contract := by
  induction es generalizing σ with
  | nil => exact .inl ⟨σ, rfl, h⟩
  | cons e es ih =>
    rcases h.step e with ⟨σ', heq, hgood⟩ | heq
    · rw [System.run, heq]
      exact ih hgood
    · rw [System.run, heq]
      exact .inr rfl

end System

end Upb.Arena
