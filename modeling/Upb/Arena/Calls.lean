import Upb.Arena.Arena

/-!
# The calls, one atomic operation at a time

A running call is a program point with the local variables that are live there. `resume` performs the
next atomic load, store or compare-exchange of the call and goes on to the next one, so that a run of
several calls may interleave between any two of them. A weak compare-exchange may fail although the
word has the expected value: `spurious` says whether it does.
-/

namespace Upb.Arena

/-- The calls a client makes. -/
inductive Call where
  | fuse (a1 a2 : ℕ)
  | isFused (a b : ℕ)
  | incRefFor (a : ℕ)
  | free (a : ℕ)
  deriving DecidableEq, Repr

/-- `upb_Arena_DecRefFor` is `upb_Arena_Free`. -/
def Call.decRefFor (a : ℕ) : Call := .free a

/-- The result of `_upb_Arena_FindRoot`. -/
structure ArenaRoot where
  root : ℕ
  count : ℕ
  deriving DecidableEq, Repr

/-- Where `_upb_Arena_FindRoot` is: before its first load, before the reload, before the load of the
next arena's word, before the store that splits the path. -/
inductive FindRoot where
  | entry (ai : ℕ)
  | reload (ai : ℕ)
  | loadParent (ai next : ℕ)
  | split (ai next grand : ℕ)
  deriving DecidableEq, Repr

/-- The variables of `upb_Arena_Fuse`.

The references of `refDelta` were added to roots that kept their own; `added` remembers which. It is
never read. -/
structure FuseState where
  a1 : ℕ
  a2 : ℕ
  ai1 : ℕ
  ai2 : ℕ
  refDelta : ℕ
  added : List (ℕ × ℕ)
  deriving DecidableEq, Repr

/-- Who called `_upb_Arena_FindRoot`. -/
inductive Caller where
  | fuse1 (f : FuseState)
  | fuse2 (f : FuseState) (r1 : ArenaRoot)
  | incRef (a : ℕ)
  | isFused1 (a b : ℕ)
  | isFused2 (a b ra : ℕ)
  | isFused3 (a b ra rb : ℕ)
  deriving DecidableEq, Repr

/-- The next atomic operation of a running call. -/
inductive Pc where
  | findRoot (at_ : FindRoot) (caller : Caller)
  | addRefs (f : FuseState) (r1 r2 : ArenaRoot)
  | install (f : FuseState) (r1 r2 : ArenaRoot)
  | loadTail (f : FuseState) (parent child : ℕ)
  | loadTailNext (f : FuseState) (parent child tail : ℕ)
  | linkForward (f : FuseState) (parent child tail : ℕ)
  | loadChildTail (f : FuseState) (parent child oldTail : ℕ)
  | loadParentTail (f : FuseState) (parent child oldTail newTail : ℕ)
  | updateParentTail (f : FuseState) (parent child oldTail newTail expected : ℕ)
  | linkBackward (f : FuseState) (parent child oldTail : ℕ)
  | fixupLoad (f : FuseState) (newRoot : ℕ)
  | fixupRefs (f : FuseState) (newRoot count : ℕ)
  | incRef (a : ℕ) (r : ArenaRoot)
  | freeLoad (a ai : ℕ)
  | decRef (a ai count : ℕ)
  | doFree (a ai : ℕ)
  deriving DecidableEq, Repr

/-- A call goes on, or returns. -/
inductive Outcome where
  | run (pc : Pc)
  | ret (call : Call) (result : Bool)
  deriving DecidableEq, Repr

/-- `_upb_Arena_FindRoot`, which splits paths on its way up. -/
def findRoot (m : Memory) : FindRoot → Except Fault (Memory × (FindRoot ⊕ ArenaRoot))
  | .entry ai => do
    match ← m.load ai m.parentOrCount with
    | .count n => return (m, .inr ⟨ai, n⟩)
    | .parent _ => return (m, .inl (.reload ai))
  | .reload ai => do
    match ← m.load ai m.parentOrCount with
    | .count _ => throw .assertion
    | .parent next =>
      if ai = next then throw .assertion
      return (m, .inl (.loadParent ai next))
  | .loadParent ai next => do
    match ← m.load next m.parentOrCount with
    | .count n => return (m, .inr ⟨next, n⟩)
    | .parent grand =>
      if ai = grand then throw .assertion
      return (m, .inl (.split ai next grand))
  | .split ai next grand => do
    let _ ← m.load ai m.parentOrCount
    if next = grand then throw .assertion
    return (m.storeParentOrCount ai (.parent grand), .inl (.loadParent next grand))

/-- Another round of the loop of `upb_Arena_Fuse`, which starts with `_upb_Arena_DoFuse`. -/
def doFuse (f : FuseState) : Outcome :=
  .run (.findRoot (.entry f.ai1) (.fuse1 f))

/-- `_upb_Arena_FixupRefs` up to its first load. -/
def fixup (f : FuseState) (newRoot : ℕ) : Outcome :=
  if f.refDelta = 0 then .ret (.fuse f.a1 f.a2) true else .run (.fixupLoad f newRoot)

/-- What the caller of `_upb_Arena_FindRoot` does with the root. -/
def found : Caller → ArenaRoot → Outcome
  | .fuse1 f, r1 => .run (.findRoot (.entry f.ai2) (.fuse2 f r1))
  | .fuse2 f r1, r2 =>
    if r1.root = r2.root then fixup f r1.root
    else
      let f := { f with ai1 := r1.root, ai2 := r2.root }
      if r2.root < r1.root then .run (.addRefs f r2 r1) else .run (.addRefs f r1 r2)
  | .incRef a, r => .run (.incRef a r)
  | .isFused1 a b, ra => .run (.findRoot (.entry b) (.isFused2 a b ra.root))
  | .isFused2 a b ra, rb =>
    if ra = rb.root then .ret (.isFused a b) true
    else .run (.findRoot (.entry ra) (.isFused3 a b ra rb.root))
  | .isFused3 a b ra rb, tmp =>
    if ra = tmp.root then .ret (.isFused a b) false
    else .run (.findRoot (.entry rb) (.isFused2 a b tmp.root))

/-- What `upb_Arena_Free` does with the word it read from `ai`. -/
def freeWord (a ai : ℕ) : ParentOrCount → Outcome
  | .parent p => .run (.freeLoad a p)
  | .count n => if n = 1 then .run (.doFree a ai) else .run (.decRef a ai n)

/-- The next atomic operation of a call. -/
def resume (m : Memory) (spurious : Bool) : Pc → Except Fault (Memory × Outcome)
  | .findRoot at_ caller => do
    let (m, result) ← findRoot m at_
    match result with
    | .inl at_ => return (m, .run (.findRoot at_ caller))
    | .inr r => return (m, found caller r)
  -- `_upb_Arena_DoFuse`: the root with the lower address takes the references of the other,
  | .addRefs f r1 r2 => do
    if (← m.load r1.root m.parentOrCount) = .count r1.count then
      return (m.storeParentOrCount r1.root (.count (r1.count + r2.count)), .run (.install f r1 r2))
    return (m, doFuse f)
  -- and the other becomes its child, unless its count has changed.
  | .install f r1 r2 => do
    if (← m.load r2.root m.parentOrCount) = .count r2.count then
      return (m.storeParentOrCount r2.root (.parent r1.root), .run (.loadTail f r1.root r2.root))
    return (m, doFuse { f with
      refDelta := f.refDelta + r2.count, added := (r1.root, r2.count) :: f.added })
  -- `_upb_Arena_LinkForward`
  | .loadTail f parent child => do
    match ← m.load parent m.previousOrTail with
    | .tail t => return (m, .run (.loadTailNext f parent child t))
    | .previous _ => return (m, .run (.loadTailNext f parent child parent))
  | .loadTailNext f parent child tail => do
    match ← m.load tail m.next with
    | some next => return (m, .run (.loadTailNext f parent child next))
    | none => return (m, .run (.linkForward f parent child tail))
  | .linkForward f parent child tail => do
    match ← m.load tail m.next with
    | some next => return (m, .run (.loadTailNext f parent child next))
    | none =>
      if spurious then return (m, .run (.linkForward f parent child tail))
      return (m.storeNext tail (some child), .run (.loadChildTail f parent child tail))
  -- `_upb_Arena_UpdateParentTail`
  | .loadChildTail f parent child oldTail => do
    match ← m.load child m.previousOrTail with
    | .tail t => return (m, .run (.loadParentTail f parent child oldTail t))
    | .previous _ => throw .assertion
  | .loadParentTail f parent child oldTail newTail => do
    match ← m.load parent m.previousOrTail with
    | .tail t => return (m, .run (.updateParentTail f parent child oldTail newTail t))
    | .previous _ => return (m, .run (.linkBackward f parent child oldTail))
  | .updateParentTail f parent child oldTail newTail expected => do
    if (← m.load parent m.previousOrTail) = .tail expected then
      return (m.storePreviousOrTail parent (.tail newTail), .run (.linkBackward f parent child oldTail))
    return (m, .run (.linkBackward f parent child oldTail))
  -- `_upb_Arena_LinkBackward`
  | .linkBackward f parent child oldTail => do
    let _ ← m.load child m.previousOrTail
    return (m.storePreviousOrTail child (.previous oldTail), fixup f parent)
  -- `_upb_Arena_FixupRefs`
  | .fixupLoad f newRoot => do
    match ← m.load newRoot m.parentOrCount with
    | .parent _ => return (m, doFuse f)
    | .count n => return (m, .run (.fixupRefs f newRoot n))
  | .fixupRefs f newRoot count => do
    if (← m.load newRoot m.parentOrCount) = .count count then
      if count < f.refDelta then throw .underflow
      return (m.storeParentOrCount newRoot (.count (count - f.refDelta)), .ret (.fuse f.a1 f.a2) true)
    return (m, doFuse f)
  -- `upb_Arena_IncRefFor`
  | .incRef a r => do
    if (← m.load r.root m.parentOrCount) = .count r.count ∧ ¬ spurious then
      return (m.storeParentOrCount r.root (.count (r.count + 1)), .ret (.incRefFor a) true)
    return (m, .run (.findRoot (.entry r.root) (.incRef a)))
  -- `upb_Arena_Free`
  | .freeLoad a ai => do
    return (m, freeWord a ai (← m.load ai m.parentOrCount))
  | .decRef a ai count => do
    let poc ← m.load ai m.parentOrCount
    if poc = .count count ∧ ¬ spurious then
      if count = 0 then throw .underflow
      return (m.storeParentOrCount ai (.count (count - 1)), .ret (.free a) true)
    return (m, freeWord a ai poc)
  -- `_upb_Arena_DoFree`
  | .doFree a ai => do
    match ← m.load ai m.next with
    | some next => return (m.freeBlocks ai, .run (.doFree a next))
    | none => return (m.freeBlocks ai, .ret (.free a) true)

/-- A call up to its first atomic operation. -/
def enter (m : Memory) : Call → Outcome
  | .fuse a1 a2 =>
    if a1 = a2 then .ret (.fuse a1 a2) true
    else if m.hasInitialBlock a1 || m.hasInitialBlock a2 then .ret (.fuse a1 a2) false
    else doFuse ⟨a1, a2, a1, a2, 0, []⟩
  | .isFused a b =>
    if a = b then .ret (.isFused a b) true else .run (.findRoot (.entry a) (.isFused1 a b))
  | .incRefFor a =>
    if m.hasInitialBlock a then .ret (.incRefFor a) false else .run (.findRoot (.entry a) (.incRef a))
  | .free a => .run (.freeLoad a a)

end Upb.Arena
