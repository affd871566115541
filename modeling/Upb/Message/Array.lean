import Upb.Base.Log2
import Upb.Common.ByteMemory

/-!
# Arrays

`upb/message/array.c` on the bytes of an array, with the arithmetic of a 64-bit `size_t`. The result
`none` is an access outside of the memory that the arena gave for the array. `upb_Array_IsFrozen` is
only asserted and is left out.
-/

namespace Upb

open Upb.Common (ByteMemory)

/-- `SIZE_MAX`. -/
def sizeMax : ℕ := 2 ^ 64 - 1

/-- `a << b` of a `size_t`. -/
def shl (a b : ℕ) : ℕ := a * 2 ^ b % 2 ^ 64

/-- `upb_ShlOverflow`. -/
def shlOverflow (a b : ℕ) : Option ℕ := if a > sizeMax / 2 ^ b then none else some (shl a b)

/-- `UPB_ALIGN_MALLOC`, with `UPB_MALLOC_ALIGN` 8. -/
def alignMalloc (size : ℕ) : ℕ := (size + 7) % 2 ^ 64 / 8 * 8

/-- A piece of memory, of `room` bytes. -/
structure Block where
  data : ByteMemory
  room : ℕ

namespace Block

/-- The `n` bytes at an offset. -/
def read (b : Block) (a n : ℕ) : Option (List UInt8) :=
  if a + n ≤ b.room then some (b.data.load a n) else none

/-- The block with the bytes `bs` at an offset. -/
def write (b : Block) (a : ℕ) (bs : List UInt8) : Option Block :=
  if a + bs.length ≤ b.room then some { b with data := b.data.store a bs } else none

end Block

/-- An arena when an array asks it for memory: it has `has` bytes left, which lie behind the array's
own if `wasLast`, and may get a further block. Memory that it gives is `fresh`. -/
structure ArenaState where
  has : ℕ
  wasLast : Bool
  moreBlocks : Bool
  fresh : ByteMemory

namespace ArenaState

/-- `upb_Arena_Malloc`. -/
def malloc (arena : ArenaState) (size : ℕ) : Option Block :=
  let span := alignMalloc size
  if arena.has < span && !arena.moreBlocks then none
  else some { data := arena.fresh, room := span }

/-- `upb_Arena_TryExtend`. -/
def tryExtend (arena : ArenaState) (b : Block) (oldsize size : ℕ) : Option Block :=
  let extend := (alignMalloc size + 2 ^ 64 - alignMalloc oldsize) % 2 ^ 64
  if arena.wasLast && extend ≤ arena.has then
    some { data := fun i => if i < alignMalloc oldsize then b.data i else arena.fresh i
           room := alignMalloc oldsize + extend }
  else none

/-- `upb_Arena_Realloc`; the inner `none` is a null pointer. -/
def realloc (arena : ArenaState) (b : Block) (oldsize size : ℕ) : Option (Option Block) :=
  if size ≤ oldsize then
    some (some { b with room := if arena.wasLast then alignMalloc size else b.room })
  else
    match arena.tryExtend b oldsize size, arena.malloc size with
    | some ret, _ => some (some ret)
    | none, none => some none
    | none, some ret =>
      if oldsize = 0 then some (some ret)
      else do
        let bytes ← b.read 0 (min oldsize size)
        let ret ← ret.write 0 bytes
        return some ret

end ArenaState

/-- `upb_Array`: the tag bits of the data pointer, the memory it points to, and the counts. -/
structure UpbArray where
  bits : ℕ
  block : Block
  size : ℕ
  capacity : ℕ

/-- The tag bits that `_upb_Array_SetTaggedPtr` sets. -/
def tagBits (lg2 : ℕ) : ℕ := lg2 - if lg2 = 0 then 0 else 1

/-- The doubling loop of `_upb_Array_Realloc`. -/
def growCapacity (minCapacity newCapacity : ℕ) (hpos : 0 < newCapacity) : ℕ :=
  if newCapacity < minCapacity then
    if newCapacity > sizeMax / 2 then sizeMax
    else growCapacity minCapacity (2 * newCapacity) (by omega)
  else newCapacity
termination_by sizeMax - newCapacity
decreasing_by unfold sizeMax at *; omega

namespace UpbArray

/-- `_upb_Array_ElemSizeLg2`. -/
def elemSizeLg2 (a : UpbArray) : ℕ := a.bits + if a.bits = 0 then 0 else 1

/-- `_upb_Array_New`, where the arena has the memory: the elements lie behind a header of 24 bytes.
`upb_Array_New` asks for a capacity of 4. -/
def new (initCapacity lg2 : ℕ) (data : ByteMemory) : UpbArray :=
  { bits := tagBits lg2
    block := { data, room := alignMalloc (24 + shl initCapacity lg2) - 24 }
    size := 0
    capacity := initCapacity }

/-- `upb_Array_Get`. -/
def get (a : UpbArray) (i : ℕ) : Option (List UInt8) :=
  a.block.read (shl i a.elemSizeLg2) (2 ^ a.elemSizeLg2)

/-- `upb_Array_Set`. -/
def set (a : UpbArray) (i : ℕ) (val : List UInt8) : Option UpbArray := do
  let block ← a.block.write (shl i a.elemSizeLg2) (val.take (2 ^ a.elemSizeLg2))
  return { a with block }

/-- `_upb_Array_Realloc`. -/
def realloc (a : UpbArray) (minCapacity : ℕ) (arena : ArenaState) : Option (Bool × UpbArray) :=
  let newCapacity := growCapacity minCapacity (max a.capacity 4) (by omega)
  let oldBytes := shl a.capacity a.elemSizeLg2
  match shlOverflow newCapacity a.elemSizeLg2 with
  | none => some (false, a)
  | some newBytes => do
    match ← arena.realloc a.block oldBytes newBytes with
    | none => return (false, a)
    | some block =>
      return (true, { a with bits := tagBits a.elemSizeLg2, block, capacity := newCapacity })

/-- `upb_Array_Reserve`. -/
def reserve (a : UpbArray) (size : ℕ) (arena : ArenaState) : Option (Bool × UpbArray) :=
  if a.capacity < size then a.realloc size arena else some (true, a)

/-- `_upb_Array_ResizeUninitialized`. -/
def resizeUninitialized (a : UpbArray) (size : ℕ) (arena : ArenaState) : Option (Bool × UpbArray) := do
  let (ok, a) ← a.reserve size arena
  return (ok, if ok then { a with size } else a)

/-- `upb_Array_Append`. -/
def append (a : UpbArray) (val : List UInt8) (arena : ArenaState) : Option (Bool × UpbArray) := do
  let (ok, a) ← a.resizeUninitialized ((a.size + 1) % 2 ^ 64) arena
  if !ok then return (false, a)
  let a ← a.set (a.size - 1) val
  return (true, a)

end UpbArray

/-- The second array of a call: another one, or the one that the call changes. -/
inductive ArraySource where
  | other (src : UpbArray)
  | self

/-- The second array, once the first one is `dst`. -/
def ArraySource.array (dst : UpbArray) : ArraySource → UpbArray
  | .other src => src
  | .self => dst

namespace UpbArray

/-- `upb_Array_Copy`. -/
def copy (dst : UpbArray) (src : ArraySource) (arena : ArenaState) : Option (Bool × UpbArray) :=
  match src with
  | .self => some (true, dst)
  | .other src => do
    let len := src.size
    let (ok, dst) ← dst.resizeUninitialized len arena
    if !ok then return (false, dst)
    if len = 0 then return (true, dst)
    let bytes ← src.block.read 0 (shl len dst.elemSizeLg2)
    let block ← dst.block.write 0 bytes
    return (true, { dst with block })

/-- `upb_Array_AppendAll`. The source is read after the resize, which may have moved it. -/
def appendAll (dst : UpbArray) (src : ArraySource) (arena : ArenaState) : Option (Bool × UpbArray) := do
  let srcLen := (src.array dst).size
  if srcLen = 0 then return (true, dst)
  let dstLen := dst.size
  let len := (dstLen + srcLen) % 2 ^ 64
  if len < dstLen then return (false, dst)
  let (ok, dst) ← dst.resizeUninitialized len arena
  if !ok then return (false, dst)
  let bytes ← (src.array dst).block.read 0 (shl srcLen dst.elemSizeLg2)
  let block ← dst.block.write (shl dstLen dst.elemSizeLg2) bytes
  return (true, { dst with block })

/-- `upb_Array_Move`. -/
def move (a : UpbArray) (dstIdx srcIdx count : ℕ) : Option UpbArray := do
  let bytes ← a.block.read (shl srcIdx a.elemSizeLg2) (shl count a.elemSizeLg2)
  let block ← a.block.write (shl dstIdx a.elemSizeLg2) bytes
  return { a with block }

/-- `upb_Array_Insert`. -/
def insert (a : UpbArray) (i count : ℕ) (arena : ArenaState) : Option (Bool × UpbArray) := do
  let oldsize := a.size
  let (ok, a) ← a.resizeUninitialized ((a.size + count) % 2 ^ 64) arena
  if !ok then return (false, a)
  let a ← a.move ((i + count) % 2 ^ 64) i (oldsize - i)
  return (true, a)

/-- `upb_Array_Delete`. -/
def delete (a : UpbArray) (i count : ℕ) : Option UpbArray := do
  let end' := (i + count) % 2 ^ 64
  let a ← a.move i end' (a.size - end')
  return { a with size := a.size - count }

/-- `upb_Array_Resize`. -/
def resize (a : UpbArray) (size : ℕ) (arena : ArenaState) : Option (Bool × UpbArray) := do
  let oldsize := a.size
  let (ok, a) ← a.resizeUninitialized size arena
  if !ok then return (false, a)
  if a.size > oldsize then
    let zeros := List.replicate (shl (a.size - oldsize) a.elemSizeLg2) 0
    let block ← a.block.write (shl oldsize a.elemSizeLg2) zeros
    return (true, { a with block })
  else return (true, a)

end UpbArray

end Upb
