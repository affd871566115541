import Mathlib.Data.Finset.Basic
import Upb.Common.Forest

/-!
# Arenas in memory

The fields of `upb_ArenaInternal` that fusing, reference counting and freeing use. An arena is named
by its address, and each field is a function of the address. Addresses are compared by
`_upb_Arena_DoFuse`, so they are numbers; an address may be used again once its arena is freed.

The two tagged words are given by what their low bit distinguishes: a parent or a reference count, a
previous arena or the tail of the list. A reference count is an unbounded number.
-/

namespace Upb.Arena

open Upb.Common (root)

/-- What a call can do wrong: touch a freed arena, fail an assertion, or wrap a reference count around. -/
inductive Fault where
  | useAfterFree
  | assertion
  | underflow
  | contract
  deriving DecidableEq, Repr

/-- The word `parent_or_count`: a pointer to the parent, or the reference count of a root. -/
inductive ParentOrCount where
  | parent (p : ℕ)
  | count (n : ℕ)
  deriving DecidableEq, Repr

/-- The word `previous_or_tail`: the previous arena of the list, or a hint at its tail. -/
inductive PreviousOrTail where
  | previous (a : ℕ)
  | tail (t : ℕ)
  deriving DecidableEq, Repr

/-- The arenas, and the blocks that were returned to the allocator. -/
structure Memory where
  allocated : Finset ℕ
  parentOrCount : ℕ → ParentOrCount
  next : ℕ → Option ℕ
  previousOrTail : ℕ → PreviousOrTail
  hasInitialBlock : ℕ → Bool
  blocks : ℕ → List ℕ
  freed : List ℕ
  nextBlock : ℕ

namespace Memory

variable {α : Type*} (m : Memory) (a : ℕ)

/-- No arena at all. -/
def empty : Memory where
  allocated := ∅
  parentOrCount _ := .count 0
  next _ := none
  previousOrTail a := .tail a
  hasInitialBlock _ := false
  blocks _ := []
  freed := []
  nextBlock := 0

/-- The parent of an arena, or `none` for a root. -/
def parent : Option ℕ :=
  match m.parentOrCount a with
  | .parent p => some p
  | .count _ => none

/-- The root that the parents of an arena lead to. -/
def rootOf : ℕ :=
  root m.parent a

/-- Read a field of an arena. -/
def load (field : ℕ → α) : Except Fault α :=
  if a ∈ m.allocated then .ok (field a) else .error .useAfterFree

/-- Write `parent_or_count`. -/
def storeParentOrCount (poc : ParentOrCount) : Memory :=
  { m with parentOrCount := Function.update m.parentOrCount a poc }

/-- Write `next`. -/
def storeNext (next : Option ℕ) : Memory :=
  { m with next := Function.update m.next a next }

/-- Write `previous_or_tail`. -/
def storePreviousOrTail (pot : PreviousOrTail) : Memory :=
  { m with previousOrTail := Function.update m.previousOrTail a pot }

/-- `_upb_Arena_InitSlow`: a new arena with one reference, alone in its list, in a block of its own. -/
def initSlow : Memory where
  allocated := insert a m.allocated
  parentOrCount := Function.update m.parentOrCount a (.count 1)
  next := Function.update m.next a none
  previousOrTail := Function.update m.previousOrTail a (.tail a)
  hasInitialBlock := Function.update m.hasInitialBlock a false
  blocks := Function.update m.blocks a [m.nextBlock]
  freed := m.freed
  nextBlock := m.nextBlock + 1

/-- `_upb_Arena_AddBlock`: a further block in front of the arena's blocks. -/
def addBlock : Memory :=
  { m with
    blocks := Function.update m.blocks a (m.nextBlock :: m.blocks a)
    nextBlock := m.nextBlock + 1 }

/-- The body of the loop of `_upb_Arena_DoFree`: every block of the arena is freed, and the arena with it. -/
def freeBlocks : Memory :=
  { m with
    allocated := m.allocated.erase a
    freed := m.blocks a ++ m.freed }

/-- Reading a field of an allocated arena goes on with its value. -/
theorem load_bind {α β : Type} {m : Memory} {a : ℕ} {field : ℕ → α} {k : α → Except Fault β}
    (h : a ∈ m.allocated) : (m.load a field >>= k) = k (field a) := by
  rw [load, if_pos h]
  rfl

/-- An arena has a parent when its word is a pointer. -/
theorem parent_eq_some_iff {m : Memory} {a p : ℕ} :
    m.parent a = some p ↔ m.parentOrCount a = .parent p := by
  unfold parent
  cases m.parentOrCount a <;> simp

/-- An arena is a root when its word is a count. -/
theorem parent_eq_none_iff {m : Memory} {a : ℕ} :
    m.parent a = none ↔ ∃ n, m.parentOrCount a = .count n := by
  unfold parent
  cases m.parentOrCount a <;> simp

/-- Storing a pointer changes one parent. -/
theorem parent_storeParent (p : ℕ) :
    (m.storeParentOrCount a (.parent p)).parent = Function.update m.parent a (some p) := by
  funext x
  rcases eq_or_ne x a with rfl | hne <;> simp [parent, storeParentOrCount, *]

/-- Storing a count makes an arena a root. -/
theorem parent_storeCount (n : ℕ) :
    (m.storeParentOrCount a (.count n)).parent = Function.update m.parent a none := by
  funext x
  rcases eq_or_ne x a with rfl | hne <;> simp [parent, storeParentOrCount, *]

end Memory

end Upb.Arena
