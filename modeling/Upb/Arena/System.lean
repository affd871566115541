import Upb.Arena.Calls

/-!
# Interleaved runs

A system is the memory, the running calls, and an account of what the clients own: `refs a` is the
number of outstanding references on the arena `a`, `live` holds the arenas whose group has not been
handed to `_upb_Arena_DoFree`, and `fused` the pairs that were fused successfully. A reference taken
by `upb_Arena_IncRefFor` counts from its compare-exchange on; one released by `upb_Arena_Free` counts
until its compare-exchange, or until it is found to be the last.

Clients keep a contract: while a call runs, some reference on each of its arguments is outstanding
that no running `upb_Arena_Free` is about to release.
-/

namespace Upb.Arena

/-- The arenas a running call relies on. -/
def Caller.uses : Caller → List ℕ
  | .fuse1 f | .fuse2 f _ => [f.a1, f.a2]
  | .incRef a => [a]
  | .isFused1 a b | .isFused2 a b _ | .isFused3 a b _ _ => [a, b]

/-- The arenas a running call relies on; `upb_Arena_Free` relies on the reference it releases. -/
def Pc.uses : Pc → List ℕ
  | .findRoot _ caller => caller.uses
  | .addRefs f _ _ | .install f _ _ | .loadTail f _ _ | .loadTailNext f _ _ _ | .linkForward f _ _ _
  | .loadChildTail f _ _ _ | .loadParentTail f _ _ _ _ | .updateParentTail f _ _ _ _ _
  | .linkBackward f _ _ _ | .fixupLoad f _ | .fixupRefs f _ _ => [f.a1, f.a2]
  | .incRef a _ => [a]
  | .freeLoad _ _ | .decRef _ _ _ | .doFree _ _ => []

/-- The reference a running `upb_Arena_Free` has still to release. -/
def Pc.releasing : Pc → Option ℕ
  | .freeLoad a _ | .decRef a _ _ => some a
  | _ => none

/-- The call that `_upb_Arena_FindRoot` serves. -/
def Caller.call : Caller → Call
  | .fuse1 f | .fuse2 f _ => .fuse f.a1 f.a2
  | .incRef a => .incRefFor a
  | .isFused1 a b | .isFused2 a b _ | .isFused3 a b _ _ => .isFused a b

/-- The call a program point belongs to. -/
def Pc.call : Pc → Call
  | .findRoot _ caller => caller.call
  | .addRefs f _ _ | .install f _ _ | .loadTail f _ _ | .loadTailNext f _ _ _ | .linkForward f _ _ _
  | .loadChildTail f _ _ _ | .loadParentTail f _ _ _ _ | .updateParentTail f _ _ _ _ _
  | .linkBackward f _ _ _ | .fixupLoad f _ | .fixupRefs f _ _ => .fuse f.a1 f.a2
  | .incRef a _ => .incRefFor a
  | .freeLoad a _ | .decRef a _ _ | .doFree a _ => .free a

/-- The call is in `_upb_Arena_DoFree`. -/
def Pc.isDoFree : Pc → Bool
  | .doFree _ _ => true
  | _ => false

/-- The memory, the running calls, and what the clients own. -/
structure System where
  memory : Memory
  threads : List Pc
  live : Finset ℕ
  refs : ℕ → ℕ
  fused : List (ℕ × ℕ)
  returned : List (Call × Bool)

namespace System

/-- Nothing is allocated and nothing runs. -/
def initial : System :=
  ⟨.empty, [], ∅, fun _ => 0, [], []⟩

variable (σ : System) (a : ℕ)

/-- How many references on `a` running calls of `upb_Arena_Free` have still to release. -/
def releasing : ℕ :=
  (σ.threads.filterMap Pc.releasing).count a

/-- A running call relies on `a`. -/
def InUse : Prop :=
  ∃ pc ∈ σ.threads, a ∈ pc.uses

/-- A reference on `a` is outstanding that no running call is about to release. -/
def Held : Prop :=
  σ.releasing a < σ.refs a

instance : Decidable (σ.InUse a) := inferInstanceAs (Decidable (∃ pc ∈ σ.threads, a ∈ pc.uses))

instance : Decidable (σ.Held a) := inferInstanceAs (Decidable (_ < _))

/-- The contract of the clients. A reference may not be released when a running call relies on it. -/
def MayCall : Call → Prop
  | .fuse a1 a2 => σ.Held a1 ∧ σ.Held a2
  | .isFused a b => σ.Held a ∧ σ.Held b
  | .incRefFor a => σ.Held a
  | .free a => σ.Held a ∧ (σ.InUse a → σ.releasing a + 1 < σ.refs a)

instance (c : Call) : Decidable (σ.MayCall c) := by
  cases c <;> unfold MayCall <;> infer_instance

/-- One more reference on an arena. -/
def acquire : System :=
  { σ with refs := Function.update σ.refs a (σ.refs a + 1) }

/-- One reference less on an arena. -/
def release : System :=
  { σ with refs := Function.update σ.refs a (σ.refs a - 1) }

/-- The group of the root `r` is handed to `_upb_Arena_DoFree`. -/
def retire (r : ℕ) : System :=
  let live := σ.live.filter fun x => σ.memory.rootOf x ≠ r
  { σ with live := live, fused := σ.fused.filter fun p => p.1 ∈ live }

/-- What the clients own once a call has returned. -/
def settle (freeing : Bool) (c : Call) (result : Bool) : System :=
  let σ := { σ with returned := (c, result) :: σ.returned }
  match c, result with
  | .fuse a1 a2, true => { σ with fused := (a1, a2) :: σ.fused }
  | .incRefFor a, true => σ.acquire a
  | .free a, _ => if freeing then σ else σ.release a
  | _, _ => σ

/-- Account for a step that took a call from `pc` to its outcome. -/
def account (pc : Pc) : Outcome → System
  | .run (.doFree a r) => if pc.isDoFree then σ else (σ.release a).retire r
  | .run _ => σ
  | .ret c result => σ.settle pc.isDoFree c result

end System

/-- What can happen next: a new arena, a new block, the start of a call, one step of the call `i`. -/
inductive Event where
  | new (a : ℕ)
  | addBlock (a : ℕ)
  | start (c : Call)
  | resume (i : ℕ) (spurious : Bool)
  deriving DecidableEq, Repr

namespace System

variable (σ : System)

/-- `upb_Arena_New` returned the address `a`. -/
def new (a : ℕ) : System :=
  { σ with
    memory := σ.memory.initSlow a
    live := insert a σ.live
    refs := Function.update σ.refs a 1 }

/-- Start a call. -/
def start (c : Call) : System :=
  match enter σ.memory c with
  | .run pc => { σ with threads := pc :: σ.threads }
  | .ret c result => σ.settle false c result

/-- Let the call `i`, which is at `pc`, go on with the outcome of its step. -/
def proceed (i : ℕ) (pc : Pc) (memory : Memory) (o : Outcome) : System :=
  let threads := match o with
    | .run pc' => σ.threads.set i pc'
    | .ret _ _ => σ.threads.eraseIdx i
  { σ with memory := memory, threads := threads }.account pc o

/-- One event; those that the clients may not cause are a breach of contract. -/
def step : Event → Except Fault System
  | .new a => if a ∈ σ.memory.allocated then throw .contract else return σ.new a
  | .addBlock a =>
    if σ.Held a then return { σ with memory := σ.memory.addBlock a } else throw .contract
  | .start c => if σ.MayCall c then return σ.start c else throw .contract
  | .resume i spurious =>
    match σ.threads[i]? with
    | none => throw .contract
    | some pc => do
      let (memory, o) ← Arena.resume σ.memory spurious pc
      return σ.proceed i pc memory o

/-- A run: one event after the other. -/
def run : System → List Event → Except Fault System
  | σ, [] => return σ
  | σ, e :: es => do run (← σ.step e) es

/-- Every call has returned. -/
def Quiescent : Prop :=
  σ.threads = []

end System

end Upb.Arena
