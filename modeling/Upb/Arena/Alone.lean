import Upb.Arena.Reachable

/-!
# A call that runs alone

When nothing else runs, the words a call has read are still what memory holds, so no compare-exchange
fails except spuriously, and a fuse never has to take references back. `Pc.Alone` says so. Without
spurious failures every step either reaches a later stage of its call or moves on in a loop that ends:
up the parents, or along a list.
-/

namespace Upb.Arena

open Upb.Common (root root_of_none ChainFamily)

variable {m m' : Memory} {live : Finset ℕ} {refs : ℕ → ℕ} {chains : ℕ → List ℕ} {pc : Pc} {o : Outcome}
  {spurious : Bool} {rank : ℕ → ℕ}

/-- What a call knows of its variables when it runs alone. -/
def Pc.Alone (m : Memory) : Pc → Prop
  | .findRoot _ (.fuse1 f) => f.refDelta = 0
  | .findRoot _ (.fuse2 f r1) => f.refDelta = 0 ∧ m.parentOrCount r1.root = .count r1.count
  | .findRoot _ (.isFused2 _ _ ra) => m.parent ra = none
  | .findRoot _ (.isFused3 _ _ ra rb) => m.parent ra = none ∧ m.parent rb = none ∧ ra ≠ rb
  | .findRoot _ (.incRef _) | .findRoot _ (.isFused1 _ _) => True
  | .addRefs f r1 r2 => f.refDelta = 0 ∧ m.parentOrCount r1.root = .count r1.count ∧
      m.parentOrCount r2.root = .count r2.count
  | .install f _ r2 => f.refDelta = 0 ∧ m.parentOrCount r2.root = .count r2.count
  | .loadTail f _ _ | .loadTailNext f _ _ _ | .loadChildTail f _ _ _ | .loadParentTail f _ _ _ _
  | .updateParentTail f _ _ _ _ _ | .linkBackward f _ _ _ => f.refDelta = 0
  | .linkForward f _ _ t => f.refDelta = 0 ∧ m.next t = none
  | .fixupLoad _ _ | .fixupRefs _ _ _ => False
  | .incRef _ r => m.parentOrCount r.root = .count r.count
  | .decRef _ ai n => m.parentOrCount ai = .count n
  | .freeLoad _ _ | .doFree _ _ => True

/-- What is left of a call: later stages have lower numbers. -/
def Pc.stage : Pc → ℕ
  | .findRoot _ (.fuse1 _) => 12
  | .findRoot _ (.fuse2 _ _) => 11
  | .addRefs _ _ _ => 10
  | .install _ _ _ => 9
  | .loadTail _ _ _ => 8
  | .loadTailNext _ _ _ _ => 7
  | .linkForward _ _ _ _ => 6
  | .loadChildTail _ _ _ _ => 5
  | .loadParentTail _ _ _ _ _ => 4
  | .updateParentTail _ _ _ _ _ _ => 3
  | .linkBackward _ _ _ _ => 2
  | .fixupLoad _ _ | .fixupRefs _ _ _ => 0
  | .findRoot _ (.isFused1 _ _) => 4
  | .findRoot _ (.isFused2 _ _ _) => 3
  | .findRoot _ (.isFused3 _ _ _ _) => 2
  | .findRoot _ (.incRef _) => 2
  | .incRef _ _ => 1
  | .freeLoad _ _ => 2
  | .decRef _ _ _ => 1
  | .doFree _ _ => 0

/-- What is left of a search for the root. -/
def FindRoot.size : FindRoot → ℕ
  | .entry ai => 2 * ai + 3
  | .reload ai => 2 * ai + 2
  | .loadParent _ next => 2 * next + 1
  | .split _ _ grand => 2 * grand + 2

/-- What is left of a loop, where `rank` falls along the lists. -/
def Pc.size (rank : ℕ → ℕ) : Pc → ℕ
  | .findRoot at_ _ => at_.size
  | .loadTailNext _ _ _ t => rank t
  | .freeLoad _ ai => ai
  | .doFree _ ai => rank ai
  | _ => 0

/-- `rank` falls along the lists. -/
def Falls (m : Memory) (rank : ℕ → ℕ) : Prop :=
  ∀ t ∈ m.allocated, ∀ n, m.next t = some n → rank n < rank t

/-- The step reached a later stage, or went on in a loop without changing a list. -/
def Progress (m : Memory) (rank : ℕ → ℕ) (pc : Pc) (m' : Memory) (pc' : Pc) : Prop :=
  pc'.stage < pc.stage ∨
    pc'.stage = pc.stage ∧ pc'.size rank < pc.size rank ∧ m'.next = m.next ∧ m'.allocated ⊆ m.allocated

/-- What a step of a call that runs alone leads to. -/
def AloneAfter (m : Memory) (rank : ℕ → ℕ) (spurious : Bool) (pc : Pc) (m' : Memory) : Outcome → Prop
  | .run pc' => pc'.Alone m' ∧ (spurious = false → Progress m rank pc m' pc')
  | .ret (.isFused a b) result => result = true ↔ m'.rootOf a = m'.rootOf b
  | _ => True

/-- A step of `_upb_Arena_FindRoot` changes no count; it finds a root, or is nearer to it. -/
theorem Inv.findRoot_alone {rest : List Pc} {at_ : FindRoot} {caller : Caller}
    {result : FindRoot ⊕ ArenaRoot} (h : Inv m live refs chains (.findRoot at_ caller :: rest))
    (heq : Arena.findRoot m at_ = .ok (m', result)) :
    (∀ x n, m.parentOrCount x = .count n → m'.parentOrCount x = .count n) ∧ m'.next = m.next ∧
      m'.allocated = m.allocated ∧
      match result with
      | .inl at' => at'.size < at_.size
      | .inr r => m'.parentOrCount r.root = .count r.count := by
  obtain ⟨hat, -⟩ := h.ok _ List.mem_cons_self
  cases at_ with
  | entry ai =>
    rw [Arena.findRoot, Memory.load_bind (h.trees.subset hat.1)] at heq
    cases hpoc : m.parentOrCount ai with
    | count n =>
      rw [hpoc] at heq
      cases heq
      exact ⟨fun _ _ hx => hx, rfl, rfl, hpoc⟩
    | parent p =>
      rw [hpoc] at heq
      cases heq
      exact ⟨fun _ _ hx => hx, rfl, rfl, by simp [FindRoot.size]⟩
  | reload ai =>
    rw [Arena.findRoot, Memory.load_bind (h.trees.subset hat.1.1)] at heq
    cases hpoc : m.parentOrCount ai with
    | count n => exact absurd (Memory.parent_eq_none_iff.mpr ⟨n, hpoc⟩) hat.2
    | parent p =>
      have hlt := (h.inGroup_parent hat.1 hpoc).2.1
      rw [hpoc] at heq
      simp only [if_neg hlt.ne'] at heq
      cases heq
      refine ⟨fun _ _ hx => hx, rfl, rfl, ?_⟩
      simp only [FindRoot.size]
      omega
  | loadParent ai next =>
    obtain ⟨hai, hpar, hnext, hlt⟩ := hat
    rw [Arena.findRoot, Memory.load_bind (h.trees.subset hnext.1)] at heq
    cases hpoc : m.parentOrCount next with
    | count n =>
      rw [hpoc] at heq
      cases heq
      exact ⟨fun _ _ hx => hx, rfl, rfl, hpoc⟩
    | parent g =>
      have hlt' := (h.inGroup_parent hnext hpoc).2.1
      rw [hpoc] at heq
      simp only [if_neg (hlt'.trans hlt).ne'] at heq
      cases heq
      refine ⟨fun _ _ hx => hx, rfl, rfl, ?_⟩
      simp only [FindRoot.size]
      omega
  | split ai next grand =>
    obtain ⟨hai, hpar, -, -, -, -, hlt'⟩ := hat
    rw [Arena.findRoot, Memory.load_bind (h.trees.subset hai.1)] at heq
    simp only [if_neg hlt'.ne'] at heq
    cases heq
    refine ⟨fun x n hx => ?_, rfl, rfl, by simp [FindRoot.size]⟩
    have hne : x ≠ ai := by
      rintro rfl
      exact hpar (Memory.parent_eq_none_iff.mpr ⟨n, hx⟩)
    simpa [Memory.storeParentOrCount, hne] using hx

/-- What the caller does with the root when nothing else runs. -/
theorem Inv.found_alone {at_ at' : FindRoot} {caller : Caller} {r : ArenaRoot}
    (h : Inv m' live refs chains [.findRoot at' caller])
    (hr : InGroup m'.parent live caller.target r.root) (hcount : m'.parentOrCount r.root = .count r.count)
    (hroots : ∀ x n, m.parentOrCount x = .count n → m'.parentOrCount x = .count n)
    (ha : (Pc.findRoot at_ caller).Alone m) :
    AloneAfter m rank spurious (.findRoot at_ caller) m' (Arena.found caller r) := by
  have hnone : m'.parent r.root = none := Memory.parent_eq_none_iff.mpr ⟨_, hcount⟩
  have hself : root m'.parent r.root = r.root := root_of_none hnone
  have hkeep {x : ℕ} (hx : m.parent x = none) : m'.parent x = none := by
    obtain ⟨n, hn⟩ := Memory.parent_eq_none_iff.mp hx
    exact Memory.parent_eq_none_iff.mpr ⟨n, hroots x n hn⟩
  obtain ⟨-, hcaller⟩ := h.ok _ List.mem_cons_self
  cases caller with
  | fuse1 f => exact ⟨⟨ha, hcount⟩, fun _ => .inl (by simp [Pc.stage])⟩
  | fuse2 f r1 =>
    simp only [Arena.found]
    split
    · rw [Arena.fixup, if_pos ha.1]
      trivial
    · split
      · exact ⟨⟨ha.1, hcount, hroots _ _ ha.2⟩, fun _ => .inl (by simp [Pc.stage])⟩
      · exact ⟨⟨ha.1, hroots _ _ ha.2, hcount⟩, fun _ => .inl (by simp [Pc.stage])⟩
  | incRef a => exact ⟨hcount, fun _ => .inl (by simp [Pc.stage])⟩
  | isFused1 a b => exact ⟨hnone, fun _ => .inl (by simp [Pc.stage])⟩
  | isFused2 a b ra =>
    have hra : root m'.parent a = ra := hcaller.2.symm.trans (root_of_none (hkeep ha))
    have hrb : root m'.parent b = r.root := hr.2.symm.trans hself
    simp only [Arena.found]
    split
    · rename_i heq
      exact iff_of_true rfl (hra.trans (heq.trans hrb.symm))
    · rename_i hne
      exact ⟨⟨hkeep ha, hnone, hne⟩, fun _ => .inl (by simp [Pc.stage])⟩
  | isFused3 a b ra rb =>
    obtain ⟨hna, hnb, hne⟩ := ha
    have hra : root m'.parent a = ra := hcaller.1.2.symm.trans (root_of_none (hkeep hna))
    have hrb : root m'.parent b = rb := hcaller.2.2.symm.trans (root_of_none (hkeep hnb))
    have hrr : root m'.parent a = r.root := hr.2.symm.trans hself
    simp only [Arena.found]
    rw [if_pos (hra.symm.trans hrr)]
    refine iff_of_false (by simp) fun hcon => hne ?_
    exact hra.symm.trans (hcon.trans hrb)

/-- What `upb_Arena_Free` does with the word it has read when nothing else runs. -/
theorem freeWord_alone {a ai : ℕ} {poc : ParentOrCount} (hpoc : m.parentOrCount ai = poc)
    (hlt : ∀ p, poc = .parent p → p < ai) (hpc : pc = .freeLoad a ai ∨ (∃ n, pc = .decRef a ai n ∧
      poc = .count n ∧ n ≠ 1) ∧ spurious = true) :
    AloneAfter m rank spurious pc m (freeWord a ai poc) := by
  rcases hpc with rfl | ⟨⟨n, rfl, rfl, hone⟩, rfl⟩
  · cases poc with
    | parent p => exact ⟨trivial, fun _ => .inr ⟨rfl, hlt p rfl, rfl, Finset.Subset.refl _⟩⟩
    | count n =>
      simp only [freeWord]
      split
      · exact ⟨trivial, fun _ => .inl (by simp [Pc.stage])⟩
      · exact ⟨hpoc, fun _ => .inl (by simp [Pc.stage])⟩
  · simp only [freeWord, if_neg hone]
    exact ⟨hpoc, fun hcon => absurd hcon (by simp)⟩

/-- A later stage. -/
theorem AloneAfter.advance {pc' : Pc} (ha : pc'.Alone m') (hstage : pc'.stage < pc.stage) :
    AloneAfter m rank spurious pc m' (.run pc') :=
  ⟨ha, fun _ => .inl hstage⟩

/-- Every step of a call that runs alone. -/
theorem Inv.resume_alone (h : Inv m live refs chains [pc]) (hrank : Falls m rank) (ha : pc.Alone m)
    (heq : Arena.resume m spurious pc = .ok (m', o)) : AloneAfter m rank spurious pc m' o := by
  have hok := h.ok _ List.mem_cons_self
  cases pc with
  | findRoot at_ caller =>
    obtain ⟨m₁, result, hfind, h', -, -, hresult⟩ := h.findRoot
    obtain ⟨hroots, hnext, hallocated, hsize⟩ := h.findRoot_alone hfind
    rw [Arena.resume, hfind] at heq
    have hkeep {x : ℕ} (hx : m.parent x = none) : m₁.parent x = none := by
      obtain ⟨n, hn⟩ := Memory.parent_eq_none_iff.mp hx
      exact Memory.parent_eq_none_iff.mpr ⟨n, hroots x n hn⟩
    cases result with
    | inl at' =>
      cases heq
      refine ⟨?_, fun _ => .inr ⟨by cases caller <;> rfl, hsize, hnext, hallocated.subset⟩⟩
      cases caller with
      | fuse1 f => exact ha
      | fuse2 f r1 => exact ⟨ha.1, hroots _ _ ha.2⟩
      | incRef a => trivial
      | isFused1 a b => trivial
      | isFused2 a b ra => exact hkeep ha
      | isFused3 a b ra rb => exact ⟨hkeep ha.1, hkeep ha.2.1, ha.2.2⟩
    | inr r =>
      cases heq
      exact h'.found_alone hresult hsize hroots ha
  | addRefs f r1 r2 =>
    obtain ⟨hzero, h1, h2⟩ := ha
    obtain ⟨-, hsides, hlt⟩ := hok
    have hr1 : r1.root ∈ live := by
      rcases hsides with ⟨hr, -⟩ | ⟨hr, -⟩ <;> exact hr.1
    rw [Arena.resume, Memory.load_bind (h.trees.subset hr1), if_pos h1] at heq
    cases heq
    refine .advance ⟨hzero, ?_⟩ (by simp [Pc.stage])
    simpa [Memory.storeParentOrCount, hlt.ne'] using h2
  | install f r1 r2 =>
    obtain ⟨hzero, h2⟩ := ha
    have hr2 : r2.root ∈ live := by
      rcases hok.2.1 with ⟨-, hr⟩ | ⟨-, hr⟩ <;> exact hr.1
    rw [Arena.resume, Memory.load_bind (h.trees.subset hr2), if_pos h2] at heq
    cases heq
    exact .advance hzero (by simp [Pc.stage])
  | loadTail f p c =>
    rw [Arena.resume, Memory.load_bind (h.trees.subset hok.parent_mem.1)] at heq
    cases hpot : m.previousOrTail p with
    | tail t =>
      rw [hpot] at heq
      cases heq
      exact .advance ha (by simp [Pc.stage])
    | previous q =>
      rw [hpot] at heq
      cases heq
      exact .advance ha (by simp [Pc.stage])
  | loadTailNext f p c t =>
    obtain ⟨-, k, -, ht⟩ := hok
    have hmem := (h.listed.mem_iff t).mpr ⟨k, ht⟩
    rw [Arena.resume, Memory.load_bind hmem] at heq
    cases hnext : m.next t with
    | some n =>
      rw [hnext] at heq
      cases heq
      exact ⟨ha, fun _ => .inr ⟨rfl, hrank t hmem n hnext, rfl, Finset.Subset.refl _⟩⟩
    | none =>
      rw [hnext] at heq
      cases heq
      exact .advance ⟨ha, hnext⟩ (by simp [Pc.stage])
  | linkForward f p c t =>
    obtain ⟨-, k, -, ht⟩ := hok
    rw [Arena.resume, Memory.load_bind ((h.listed.mem_iff t).mpr ⟨k, ht⟩), ha.2] at heq
    cases spurious with
    | true =>
      cases heq
      exact ⟨ha, fun hcon => absurd hcon (by simp)⟩
    | false =>
      cases heq
      exact .advance ha.1 (by simp [Pc.stage])
  | loadChildTail f p c t =>
    have hlinking : c ∈ [Pc.loadChildTail f p c t].filterMap Pc.linking := by simp [Pc.linking]
    obtain ⟨t', hpot⟩ := h.tails.tagged c hok.1.child_mem.1 (.inr hlinking)
    rw [Arena.resume, Memory.load_bind (h.trees.subset hok.1.child_mem.1), hpot] at heq
    cases heq
    exact .advance ha (by simp [Pc.stage])
  | loadParentTail f p c o t =>
    rw [Arena.resume, Memory.load_bind (h.trees.subset hok.1.parent_mem.1)] at heq
    cases hpot : m.previousOrTail p with
    | tail t' =>
      rw [hpot] at heq
      cases heq
      exact .advance ha (by simp [Pc.stage])
    | previous q =>
      rw [hpot] at heq
      cases heq
      exact .advance ha (by simp [Pc.stage])
  | updateParentTail f p c o t e =>
    rw [Arena.resume, Memory.load_bind (h.trees.subset hok.1.parent_mem.1)] at heq
    split at heq <;> cases heq <;> exact .advance ha (by simp [Pc.stage])
  | linkBackward f p c o =>
    rw [Arena.resume, Memory.load_bind (h.trees.subset hok.child_mem.1)] at heq
    rw [Arena.fixup, if_pos (show f.refDelta = 0 from ha)] at heq
    cases heq
    trivial
  | fixupLoad f r => exact ha.elim
  | fixupRefs f r n => exact ha.elim
  | incRef a r =>
    rw [Arena.resume, Memory.load_bind (h.trees.subset hok.1)] at heq
    cases spurious with
    | true =>
      rw [if_neg (by simp)] at heq
      cases heq
      exact ⟨trivial, fun hcon => absurd hcon (by simp)⟩
    | false =>
      rw [if_pos ⟨ha, by simp⟩] at heq
      cases heq
      trivial
  | freeLoad a ai =>
    rw [Arena.resume, Memory.load_bind (h.trees.subset hok.1)] at heq
    cases heq
    exact freeWord_alone rfl (fun p hp => (h.inGroup_parent hok hp).2.1) (.inl rfl)
  | decRef a ai n =>
    rw [Arena.resume, Memory.load_bind (h.trees.subset hok.1.1)] at heq
    cases spurious with
    | true =>
      rw [if_neg (by simp)] at heq
      cases heq
      exact freeWord_alone rfl (fun p hp => (h.inGroup_parent hok.1 hp).2.1)
        (.inr ⟨⟨n, rfl, ha, hok.2⟩, rfl⟩)
    | false =>
      rw [if_pos ⟨ha, by simp⟩, if_neg (h.release ha).1] at heq
      cases heq
      trivial
  | doFree a ai =>
    have hdying : ai ∈ [Pc.doFree a ai].filterMap Pc.dying := by simp [Pc.dying]
    have hchain : chains ai ≠ [] := (h.listed.heads ai).mpr (.inr (.inr hdying))
    have hmem := (h.listed.mem_iff ai).mpr ⟨ai, h.listed.family.head_mem hchain⟩
    rw [Arena.resume, Memory.load_bind hmem] at heq
    cases hnext : m.next ai with
    | some n =>
      rw [hnext] at heq
      cases heq
      exact ⟨trivial, fun _ => .inr ⟨rfl, hrank ai hmem n hnext, rfl, Finset.erase_subset _ _⟩⟩
    | none =>
      rw [hnext] at heq
      cases heq
      trivial

/-- The lists end. -/
theorem Inv.exists_falls {ts : List Pc} (h : Inv m live refs chains ts) : ∃ rank, Falls m rank := by
  obtain ⟨rank, hrank⟩ := h.listed.family.exists_rank
  refine ⟨rank, fun t ht n hn => ?_⟩
  obtain ⟨k, hk⟩ := (h.listed.mem_iff t).mp ht
  exact hrank hk hn

end Upb.Arena
