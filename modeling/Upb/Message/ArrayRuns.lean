import Mathlib.Algebra.Order.Ring.Nat
import Upb.Message.Array

/-!
# Arrays as lists

`ListSpec` says what a call does to the list of an array's elements, each a string of bytes.
`RefinesList` says of a run of calls that each returns, does to the elements what it does to the list,
and leaves the array sound. A run does exactly when it never asks an array of one-byte elements to
hold more than `2 ^ 63` of them: then the doubled capacity becomes `SIZE_MAX`, whose alignment wraps
to zero bytes.
-/

namespace Upb

open Upb.Common (ByteMemory)
open Upb.Common.ByteMemory

/-- The calls on an array, each with the arena as it finds it. -/
inductive ArrayCommand where
  | append (val : List UInt8) (arena : ArenaState)
  | appendAll (src : ArraySource) (arena : ArenaState)
  | copy (src : ArraySource) (arena : ArenaState)
  | insert (i count : ℕ) (arena : ArenaState)
  | delete (i count : ℕ)
  | move (dstIdx srcIdx count : ℕ)
  | resize (size : ℕ) (arena : ArenaState)
  | set (i : ℕ) (val : List UInt8)
  | get (i : ℕ)

/-- What a call returns. -/
inductive ArrayOutput where
  | done
  | returned (ok : Bool)
  | value (val : List UInt8)
  deriving DecidableEq

namespace UpbArray

/-- What a call does; `none` is an access outside of the array's memory. -/
def step (a : UpbArray) : ArrayCommand → Option (ArrayOutput × UpbArray)
  | .append val arena => (a.append val arena).map fun r => (.returned r.1, r.2)
  | .appendAll src arena => (a.appendAll src arena).map fun r => (.returned r.1, r.2)
  | .copy src arena => (a.copy src arena).map fun r => (.returned r.1, r.2)
  | .insert i count arena => (a.insert i count arena).map fun r => (.returned r.1, r.2)
  | .delete i count => (a.delete i count).map fun a => (.done, a)
  | .move dstIdx srcIdx count => (a.move dstIdx srcIdx count).map fun a => (.done, a)
  | .resize size arena => (a.resize size arena).map fun r => (.returned r.1, r.2)
  | .set i val => (a.set i val).map fun a => (.done, a)
  | .get i => (a.get i).map fun val => (.value val, a)

/-- The bytes of an element. -/
def width (a : UpbArray) : ℕ := 2 ^ a.elemSizeLg2

/-- The elements of an array. -/
def contents (a : UpbArray) : List (List UInt8) := a.block.data.elems a.width 0 a.size

/-- The elements fit into the capacity and the capacity into the array's memory, which lies in the
address space: neither count wraps. -/
structure Sound (a : UpbArray) : Prop where
  bits_le : a.bits ≤ 3
  size_le : a.size ≤ a.capacity
  capacity_le : a.capacity * a.width ≤ a.block.room
  room_lt : a.block.room < 2 ^ 64

end UpbArray

/-- The elements of the second array of a call on an array with the elements `l`. -/
def ArraySource.contents (l : List (List UInt8)) : ArraySource → List (List UInt8)
  | .other src => src.contents
  | .self => l

/-- A fallible call gives the list `r`, or fails and leaves the list as it was. -/
def OrUnchanged (out : ArrayOutput) (l l' r : List (List UInt8)) : Prop :=
  (out = .returned true ∧ l' = r) ∨ (out = .returned false ∧ l' = l)

/-- What a call on elements of `w` bytes does to the list of the elements. -/
def ListSpec (w : ℕ) (l l' : List (List UInt8)) (out : ArrayOutput) : ArrayCommand → Prop
  | .append val _ => OrUnchanged out l l' (l ++ [val])
  | .appendAll src _ => OrUnchanged out l l' (l ++ src.contents l)
  | .copy src _ => OrUnchanged out l l' (src.contents l)
  | .insert i count _ =>
    ∃ new, new.length = count ∧ OrUnchanged out l l' (l.take i ++ new ++ l.drop i)
  | .delete i count => out = .done ∧ l' = l.take i ++ l.drop (i + count)
  | .move dstIdx srcIdx count =>
    out = .done ∧ l' = l.take dstIdx ++ (l.drop srcIdx).take count ++ l.drop (dstIdx + count)
  | .resize size _ =>
    OrUnchanged out l l' (l.take size ++ List.replicate (size - l.length) (List.replicate w 0))
  | .set i val => out = .done ∧ l' = l.set i val
  | .get i => l' = l ∧ ∃ h : i < l.length, out = .value l[i]

namespace ArrayCommand

/-- What an arena leaves behind an array lies in the same address space. -/
def ArenaFits (a : UpbArray) (arena : ArenaState) : Prop :=
  arena.wasLast = true → a.block.room + arena.has < 2 ^ 64

/-- A second array has elements of the same size and is sound. -/
def SourceFits (a : UpbArray) : ArraySource → Prop
  | .other src => src.bits = a.bits ∧ src.Sound
  | .self => True

/-- The conditions that the code asserts, and those that its types and its callers give. -/
def Legal (a : UpbArray) : ArrayCommand → Prop
  | .append val arena => val.length = a.width ∧ ArenaFits a arena
  | .appendAll src arena => SourceFits a src ∧ ArenaFits a arena
  | .copy src arena => SourceFits a src ∧ ArenaFits a arena
  | .insert i count arena => i ≤ a.size ∧ a.size + count < 2 ^ 64 ∧ ArenaFits a arena
  | .delete i count => i + count ≤ a.size
  | .move dstIdx srcIdx count => dstIdx + count ≤ a.size ∧ srcIdx + count ≤ a.size
  | .resize size arena => size < 2 ^ 64 ∧ ArenaFits a arena
  | .set i val => i < a.size ∧ val.length = a.width
  | .get i => i < a.size

/-- The elements that a call asks an array to hold. -/
def asked (a : UpbArray) : ArrayCommand → ℕ
  | .append _ _ => a.size + 1
  | .appendAll src _ => a.size + (src.array a).size
  | .copy src _ => (src.array a).size
  | .insert _ count _ => a.size + count
  | .resize size _ => size
  | .delete _ _ | .move _ _ _ | .set _ _ | .get _ => a.size

/-- The array is not asked to hold more than `2 ^ 63` elements of one byte; a sum of sizes that is no
`size_t` is rejected. -/
def Clean (a : UpbArray) (c : ArrayCommand) : Prop :=
  a.width = 1 → c.asked a ≤ 2 ^ 63 ∨ 2 ^ 64 ≤ c.asked a

end ArrayCommand

/-- Every call of a run is legal where it is made. -/
def LegalCalls : UpbArray → List ArrayCommand → Prop
  | _, [] => True
  | a, c :: cs => c.Legal a ∧ ∀ out a', a.step c = some (out, a') → LegalCalls a' cs

/-- Every call of a run is clean where it is made. -/
def CleanCalls : UpbArray → List ArrayCommand → Prop
  | _, [] => True
  | a, c :: cs => c.Clean a ∧ ∀ out a', a.step c = some (out, a') → CleanCalls a' cs

/-- Every call of a run returns, does to the elements what it does to a list, and leaves the array
sound. -/
def RefinesList : UpbArray → List ArrayCommand → Prop
  | a, [] => a.Sound
  | a, c :: cs => a.Sound ∧ ∃ out a', a.step c = some (out, a') ∧
      ListSpec a.width a.contents a'.contents out c ∧ RefinesList a' cs

/-- A byte count below the middle of the address space is aligned without wrapping. -/
theorem alignMalloc_eq {n : ℕ} (h : n ≤ 2 ^ 63) : alignMalloc n = (n + 7) / 8 * 8 := by
  rw [alignMalloc, Nat.mod_eq_of_lt (by omega)]

theorem le_alignMalloc {n : ℕ} (h : n ≤ 2 ^ 63) : n ≤ alignMalloc n := by
  rw [alignMalloc_eq h]
  omega

theorem alignMalloc_le {n : ℕ} (h : n ≤ 2 ^ 63) : alignMalloc n ≤ 2 ^ 63 := by
  rw [alignMalloc_eq h]
  omega

/-- The alignment of `SIZE_MAX` wraps. -/
theorem alignMalloc_sizeMax : alignMalloc sizeMax = 0 := by decide

theorem shl_eq {i b : ℕ} (h : i * 2 ^ b < 2 ^ 64) : shl i b = i * 2 ^ b := Nat.mod_eq_of_lt h

theorem growCapacity_congr {min a b : ℕ} (ha : 0 < a) (h : a = b) :
    growCapacity min a ha = growCapacity min b (h ▸ ha) := by
  subst h
  rfl

/-- From a power of two the loop comes to one that is large enough, if there is one. -/
theorem growCapacity_pow (min d : ℕ) (hmin : min ≤ 2 ^ 63) : ∀ k, k + d = 63 → ∀ hpos,
    ∃ k', k ≤ k' ∧ k' ≤ 63 ∧ growCapacity min (2 ^ k) hpos = 2 ^ k' ∧ min ≤ 2 ^ k' := by
  induction d with
  | zero =>
    intro k hk hpos
    have hk : k = 63 := hk
    subst hk
    refine ⟨63, le_rfl, le_rfl, ?_, hmin⟩
    rw [growCapacity, if_neg (by omega)]
  | succ d ih =>
    intro k hk hpos
    have hlt : 2 ^ k ≤ 2 ^ 62 := Nat.pow_le_pow_right (by decide) (by omega)
    rw [growCapacity]
    by_cases hdone : 2 ^ k < min
    · rw [if_pos hdone, if_neg (by unfold sizeMax; omega)]
      obtain ⟨k', hk', hle, heq, hcap⟩ := ih (k + 1) (by omega) (Nat.two_pow_pos _)
      refine ⟨k', by omega, hle, ?_, hcap⟩
      rw [← heq]
      exact growCapacity_congr _ (pow_succ' 2 k).symm
    · rw [if_neg hdone]
      exact ⟨k, le_rfl, by omega, rfl, by omega⟩

/-- Beyond the middle of the address space the loop overflows. -/
theorem growCapacity_overflow (min d : ℕ) (hmin : 2 ^ 63 < min) : ∀ k, k + d = 63 → ∀ hpos,
    growCapacity min (2 ^ k) hpos = sizeMax := by
  induction d with
  | zero =>
    intro k hk hpos
    have hk : k = 63 := hk
    subst hk
    rw [growCapacity, if_pos (by omega), if_pos (by decide)]
  | succ d ih =>
    intro k hk hpos
    have hlt : 2 ^ k ≤ 2 ^ 62 := Nat.pow_le_pow_right (by decide) (by omega)
    rw [growCapacity, if_pos (by omega), if_neg (by unfold sizeMax; omega),
      growCapacity_congr _ (pow_succ' 2 k).symm]
    exact ih (k + 1) (by omega) _

theorem shlOverflow_pow {k b : ℕ} (h : k + b ≤ 63) :
    shlOverflow (2 ^ k) b = some (2 ^ k * 2 ^ b) := by
  have hmul : 2 ^ k * 2 ^ b ≤ 2 ^ 63 := by
    rw [← pow_add]
    exact Nat.pow_le_pow_right (by decide) h
  have hle : 2 ^ k ≤ sizeMax / 2 ^ b := by
    rw [Nat.le_div_iff_mul_le (Nat.two_pow_pos b)]
    unfold sizeMax
    omega
  rw [shlOverflow, if_neg (by omega), shl_eq (by omega)]

theorem shlOverflow_pow_none {k b : ℕ} (h : 63 < k + b) : shlOverflow (2 ^ k) b = none := by
  have hmul : 2 ^ 64 ≤ 2 ^ k * 2 ^ b := by
    rw [← pow_add]
    exact Nat.pow_le_pow_right (by decide) h
  have hlt : sizeMax / 2 ^ b < 2 ^ k := by
    rw [Nat.div_lt_iff_lt_mul (Nat.two_pow_pos b)]
    unfold sizeMax
    omega
  exact if_pos hlt

/-- A capacity of `SIZE_MAX` is rejected unless the elements are single bytes. -/
theorem shlOverflow_sizeMax {b : ℕ} (h : b ≠ 0) : shlOverflow sizeMax b = none := by
  have hlt : sizeMax / 2 ^ b < sizeMax := Nat.div_lt_self (by decide) (Nat.one_lt_two_pow h)
  exact if_pos hlt

namespace UpbArray

/-- What clean calls keep: the capacity is a power of two, of which the memory has the bytes. -/
structure Inv (a : UpbArray) : Prop where
  bits_le : a.bits ≤ 3
  capacity_eq : ∃ k, 2 ≤ k ∧ k + a.elemSizeLg2 ≤ 63 ∧ a.capacity = 2 ^ k
  size_le : a.size ≤ a.capacity
  room_eq : a.block.room = alignMalloc (a.capacity * a.width)

variable {a : UpbArray}

theorem width_pos : 0 < a.width := Nat.two_pow_pos _

namespace Inv

theorem capacity_mul_le (h : a.Inv) : a.capacity * a.width ≤ 2 ^ 63 := by
  obtain ⟨k, -, hk, hcap⟩ := h.capacity_eq
  rw [hcap, width, ← pow_add]
  exact Nat.pow_le_pow_right (by decide) hk

/-- The bytes of the first `n` elements lie in the array's memory. -/
theorem mul_width_le (h : a.Inv) {n : ℕ} (hn : n ≤ a.capacity) :
    n * a.width ≤ a.block.room ∧ n * a.width ≤ 2 ^ 63 := by
  have h1 : n * a.width ≤ a.capacity * a.width := Nat.mul_le_mul_right _ hn
  have h2 := le_alignMalloc h.capacity_mul_le
  rw [h.room_eq]
  exact ⟨h1.trans h2, h1.trans h.capacity_mul_le⟩

theorem sound (h : a.Inv) : a.Sound where
  bits_le := h.bits_le
  size_le := h.size_le
  capacity_le := (h.mul_width_le le_rfl).1
  room_lt := by
    rw [h.room_eq]
    exact (alignMalloc_le h.capacity_mul_le).trans_lt (by decide)

theorem capacity_le (h : a.Inv) : a.capacity ≤ 2 ^ 63 := by
  have := Nat.le_mul_of_pos_right a.capacity (width_pos (a := a))
  exact this.trans h.capacity_mul_le

/-- Offsets of elements are computed without wrapping. -/
theorem shl_eq (h : a.Inv) {n : ℕ} (hn : n ≤ a.capacity) : shl n a.elemSizeLg2 = n * a.width :=
  Upb.shl_eq ((h.mul_width_le hn).2.trans_lt (by decide))

/-- The tag bits are read back. -/
theorem tagBits_elemSizeLg2 (h : a.Inv) : tagBits a.elemSizeLg2 = a.bits := by
  have := h.bits_le
  rw [elemSizeLg2, tagBits]
  split <;> split <;> omega

end Inv

end UpbArray

/-- A reallocation gives memory for the new bytes, with the old bytes at its start, or none. -/
theorem ArenaState.realloc_spec (arena : ArenaState) {b : Block} {oldsize size : ℕ}
    (hlt : oldsize < size) (hsize : size ≤ 2 ^ 63) (hroom : b.room = alignMalloc oldsize) :
    ∃ r, arena.realloc b oldsize size = some r ∧ ∀ b', r = some b' →
      b'.room = alignMalloc size ∧ ∀ i, i < oldsize → b'.data i = b.data i := by
  have hold := le_alignMalloc (hlt.le.trans hsize)
  have hmono : alignMalloc oldsize ≤ alignMalloc size := by
    rw [alignMalloc_eq hsize, alignMalloc_eq (hlt.le.trans hsize)]
    omega
  have hle := alignMalloc_le hsize
  rw [realloc, if_neg (by omega)]
  cases hext : arena.tryExtend b oldsize size with
  | some ret =>
    refine ⟨_, rfl, fun b' hb' => ?_⟩
    obtain rfl := Option.some.inj hb'
    simp only [tryExtend] at hext
    split at hext
    · obtain rfl := Option.some.inj hext
      constructor
      · show alignMalloc oldsize + _ = _
        omega
      · intro i hi
        exact if_pos (by omega)
    · exact nomatch hext
  | none =>
    cases hmal : arena.malloc size with
    | none => exact ⟨none, rfl, fun b' hb' => nomatch hb'⟩
    | some ret =>
      have hret : ret.room = alignMalloc size := by
        simp only [malloc] at hmal
        split at hmal
        · exact nomatch hmal
        · obtain rfl := Option.some.inj hmal
          rfl
      by_cases hzero : oldsize = 0
      · refine ⟨some ret, by simp only [if_pos hzero], fun b' hb' => ?_⟩
        obtain rfl := Option.some.inj hb'
        exact ⟨hret, fun i hi => by omega⟩
      · have hread : b.read 0 oldsize = some (b.data.load 0 oldsize) := if_pos (by omega)
        have hwrite : ret.write 0 (b.data.load 0 oldsize) =
            some { ret with data := ret.data.store 0 (b.data.load 0 oldsize) } :=
          if_pos (by rw [length_load]; omega)
        refine ⟨some { ret with data := ret.data.store 0 (b.data.load 0 oldsize) }, ?_,
          fun b' hb' => ?_⟩
        · simp only [if_neg hzero, min_eq_left hlt.le, hread, hwrite, Option.bind_eq_bind,
            Option.bind_some]
          rfl
        · obtain rfl := Option.some.inj hb'
          refine ⟨hret, fun i hi => ?_⟩
          have hlen : i < (b.data.load 0 oldsize).length := by rwa [length_load]
          have hcopy := store_add (m := ret.data) (a := 0) hlen
          rw [Nat.zero_add] at hcopy
          refine hcopy.trans ?_
          simp [load]

/-- A reallocation to `SIZE_MAX` gets no memory at all and copies the old bytes there. -/
theorem ArenaState.realloc_sizeMax {arena : ArenaState} {b : Block} {oldsize : ℕ}
    (hpos : 0 < oldsize) (hle : oldsize ≤ 2 ^ 63) (hroom : b.room = alignMalloc oldsize)
    (hfits : arena.wasLast = true → b.room + arena.has < 2 ^ 64) :
    arena.realloc b oldsize sizeMax = none := by
  have hold := le_alignMalloc hle
  have hext : arena.tryExtend b oldsize sizeMax = none := by
    rw [tryExtend, alignMalloc_sizeMax]
    cases hlast : arena.wasLast with
    | false => rfl
    | true =>
      have := hfits hlast
      have := alignMalloc_le hle
      rw [if_neg]
      simp only [Bool.true_and, decide_eq_true_eq]
      omega
  have hmal : arena.malloc sizeMax = some { data := arena.fresh, room := 0 } := by
    rw [malloc, alignMalloc_sizeMax]
    simp
  have hread : b.read 0 oldsize = some (b.data.load 0 oldsize) := if_pos (by omega)
  have hmin : min oldsize sizeMax = oldsize := min_eq_left (by unfold sizeMax; omega)
  rw [realloc, if_neg (by unfold sizeMax; omega), hext, hmal]
  simp only [if_neg hpos.ne', hmin, hread, Option.bind_eq_bind, Option.bind_some]
  rw [Block.write, if_neg (by rw [length_load]; simp; omega)]
  rfl

namespace UpbArray

variable {a : UpbArray}

/-- Without memory for the new capacity nothing changes. -/
theorem realloc_of_overflow {size : ℕ} {arena : ArenaState} {hpos : 0 < max a.capacity 4}
    (h : shlOverflow (growCapacity size (max a.capacity 4) hpos) a.elemSizeLg2 = none) :
    a.realloc size arena = some (false, a) := by
  rw [realloc, h]

/-- A clean reservation keeps the elements and gives the capacity, or fails and changes nothing. -/
theorem Inv.reserve_spec (h : a.Inv) (arena : ArenaState) {size : ℕ} (hclean : a.width = 1 → size ≤ 2 ^ 63) :
    ∃ ok a', a.reserve size arena = some (ok, a') ∧ (ok = false → a' = a) ∧
      (ok = true → a'.Inv ∧ a'.bits = a.bits ∧ a'.size = a.size ∧ size ≤ a'.capacity ∧
        ∀ i, i < a.capacity * a.width → a'.block.data i = a.block.data i) := by
  rw [reserve]
  by_cases hcap : a.capacity < size
  swap
  · refine ⟨true, a, if_neg hcap, ?_, fun _ => ⟨h, rfl, rfl, by omega, fun _ _ => rfl⟩⟩
    exact fun hf => absurd hf.symm Bool.false_ne_true
  rw [if_pos hcap]
  obtain ⟨k, hk, hbytes, hpow⟩ := h.capacity_eq
  have hfour : 2 ^ 2 ≤ 2 ^ k := Nat.pow_le_pow_right (by decide) hk
  have hmax : max a.capacity 4 = 2 ^ k := by omega
  have hfail (hnone : shlOverflow (growCapacity size (max a.capacity 4) (by omega)) a.elemSizeLg2 = none) :
      ∃ ok a', a.realloc size arena = some (ok, a') ∧ (ok = false → a' = a) ∧
        (ok = true → a'.Inv ∧ a'.bits = a.bits ∧ a'.size = a.size ∧ size ≤ a'.capacity ∧
          ∀ i, i < a.capacity * a.width → a'.block.data i = a.block.data i) :=
    ⟨false, a, realloc_of_overflow hnone, fun _ => rfl, fun hf => absurd hf Bool.false_ne_true⟩
  by_cases hmid : size ≤ 2 ^ 63
  · obtain ⟨k', hkk', hk', hgrow, hsize⟩ :=
      growCapacity_pow size (63 - k) hmid k (by omega) (Nat.two_pow_pos k)
    rw [← growCapacity_congr (by omega) hmax] at hgrow
    by_cases hfit : k' + a.elemSizeLg2 ≤ 63
    · have hlt : a.capacity * a.width < 2 ^ k' * a.width :=
        Nat.mul_lt_mul_of_pos_right (hcap.trans_le hsize) width_pos
      have hnew : 2 ^ k' * a.width ≤ 2 ^ 63 := by
        rw [width, ← pow_add]
        exact Nat.pow_le_pow_right (by decide) hfit
      obtain ⟨r, hr, hspec⟩ := ArenaState.realloc_spec arena hlt hnew h.room_eq
      rw [realloc, hgrow, shlOverflow_pow hfit, h.shl_eq le_rfl]
      show ∃ ok a', ((arena.realloc a.block (a.capacity * a.width) (2 ^ k' * a.width)).bind _) = _ ∧ _
      rw [hr]
      cases r with
      | none => exact ⟨false, a, rfl, fun _ => rfl, fun hf => absurd hf Bool.false_ne_true⟩
      | some b =>
        obtain ⟨hroom, hdata⟩ := hspec b rfl
        refine ⟨true, { a with block := b, capacity := 2 ^ k' }, ?_,
          fun hf => absurd hf.symm Bool.false_ne_true, fun _ => ?_⟩
        · rw [h.tagBits_elemSizeLg2]
          rfl
        · refine ⟨⟨h.bits_le, ⟨k', by omega, hfit, rfl⟩, ?_, hroom⟩, rfl, rfl, hsize, hdata⟩
          exact (h.size_le.trans_lt hcap).le.trans hsize
    · exact hfail (hgrow ▸ shlOverflow_pow_none (by omega))
  · apply hfail
    rw [growCapacity_congr _ hmax, growCapacity_overflow size (63 - k) (by omega) k (by omega)]
    refine shlOverflow_sizeMax fun hzero => hmid (hclean ?_)
    rw [width, hzero]
    rfl

/-- A clean resize keeps the elements and sets the size, or fails and changes nothing. -/
theorem Inv.resizeUninitialized_spec (h : a.Inv) (arena : ArenaState) {size : ℕ} (hclean : a.width = 1 → size ≤ 2 ^ 63) :
    ∃ ok a', a.resizeUninitialized size arena = some (ok, a') ∧ (ok = false → a' = a) ∧
      (ok = true → a'.Inv ∧ a'.bits = a.bits ∧ a'.size = size ∧
        ∀ n, n ≤ a.size → a'.block.data.elems a.width 0 n = a.block.data.elems a.width 0 n) := by
  obtain ⟨ok, a', heq, hfail, hok⟩ := h.reserve_spec arena hclean
  rw [resizeUninitialized, heq]
  cases ok with
  | false => exact ⟨false, a', rfl, hfail, fun hf => nomatch hf⟩
  | true =>
    obtain ⟨hinv, hbits, -, hcap, hdata⟩ := hok rfl
    refine ⟨true, { a' with size }, rfl, fun hf => (nomatch hf), fun _ => ?_⟩
    refine ⟨⟨hinv.bits_le, hinv.capacity_eq, hcap, hinv.room_eq⟩, hbits, rfl, fun n hn => ?_⟩
    refine elems_congr fun i _ hi => hdata i (hi.trans_le ?_)
    rw [Nat.zero_add]
    exact Nat.mul_le_mul_right _ (hn.trans h.size_le)

theorem width_congr {a' : UpbArray} (h : a'.bits = a.bits) : a'.width = a.width := by
  rw [width, width, elemSizeLg2, elemSizeLg2, h]

/-- The array with elements written from index `j` on. -/
def writeElems (a : UpbArray) (j : ℕ) (vs : List (List UInt8)) : UpbArray :=
  { a with block := { a.block with data := a.block.data.store (j * a.width) vs.flatten } }

theorem length_flatten {w : ℕ} {vs : List (List UInt8)} (h : ∀ v ∈ vs, v.length = w) :
    vs.flatten.length = vs.length * w := by
  rw [List.length_flatten, List.map_congr_left h, List.map_const', List.sum_replicate_nat]

/-- Elements are written inside the capacity. -/
theorem Inv.write (h : a.Inv) (j : ℕ) {vs : List (List UInt8)} (hvs : ∀ v ∈ vs, v.length = a.width)
    (hj : j + vs.length ≤ a.capacity) :
    a.block.write (shl j a.elemSizeLg2) vs.flatten = some (a.writeElems j vs).block := by
  rw [h.shl_eq (by omega), Block.write, if_pos]
  · rfl
  · rw [length_flatten hvs, ← Nat.add_mul]
    exact (h.mul_width_le hj).1

theorem Inv.writeElems (h : a.Inv) (j : ℕ) (vs : List (List UInt8)) : (a.writeElems j vs).Inv :=
  ⟨h.bits_le, h.capacity_eq, h.size_le, h.room_eq⟩

/-- What the elements are after a write of some of them. -/
theorem contents_writeElems {j : ℕ} {vs : List (List UInt8)} (hvs : ∀ v ∈ vs, v.length = a.width)
    (hj : j + vs.length ≤ a.size) :
    (a.writeElems j vs).contents =
      a.block.data.elems a.width 0 j ++ vs ++
        a.block.data.elems a.width (j + vs.length) (a.size - (j + vs.length)) :=
  elems_store hvs hj

/-- Elements are read inside the capacity. -/
theorem Inv.read (h : a.Inv) {i n : ℕ} (hn : i + n ≤ a.capacity) :
    a.block.read (shl i a.elemSizeLg2) (shl n a.elemSizeLg2) =
      some (a.block.data.elems a.width i n).flatten := by
  rw [h.shl_eq (by omega), h.shl_eq (by omega), Block.read, if_pos, load_eq_flatten]
  rw [← Nat.add_mul]
  exact (h.mul_width_le hn).1

/-- The elements of a sound array are read. -/
theorem Sound.read {src : UpbArray} (h : src.Sound) (hbits : src.bits = a.bits) :
    src.block.read 0 (shl src.size a.elemSizeLg2) = some src.contents.flatten := by
  have hw := width_congr hbits
  have hle : src.size * a.width ≤ src.block.room := by
    rw [← hw]
    exact (Nat.mul_le_mul_right _ h.size_le).trans h.capacity_le
  rw [Upb.shl_eq (hle.trans_lt h.room_lt), Block.read, if_pos (by rw [Nat.zero_add]; exact hle)]
  have := load_eq_flatten (m := src.block.data) (w := src.width) (i := 0) (n := src.size)
  rw [Nat.zero_mul, hw] at this
  rw [contents, hw, ← this]
  rfl

theorem length_of_mem_contents {v : List UInt8} (h : v ∈ a.contents) : v.length = a.width :=
  length_of_mem_elems h

@[simp] theorem length_contents : a.contents.length = a.size := length_elems

/-- A call that fails where the resize does and changes nothing then. -/
theorem orUnchanged_of_eq {a' : UpbArray} (h : a.Inv) (heq : a' = a) (r : List (List UInt8)) :
    a'.Inv ∧ OrUnchanged (.returned false) a.contents a'.contents r := by
  subst heq
  exact ⟨h, Or.inr ⟨rfl, rfl⟩⟩

theorem Inv.set_eq (h : a.Inv) {i : ℕ} {val : List UInt8} (hi : i < a.size)
    (hval : val.length = a.width) : a.set i val = some (a.writeElems i [val]) := by
  have hwrite := h.write i (show ∀ v ∈ [val], v.length = a.width by simpa using hval)
    (by have := h.size_le; simp; omega)
  have htake : val.take (2 ^ a.elemSizeLg2) = val := List.take_of_length_le hval.le
  rw [List.flatten_singleton] at hwrite
  rw [UpbArray.set, htake, hwrite]
  rfl

theorem Inv.append_spec (h : a.Inv) (arena : ArenaState) {val : List UInt8} (hval : val.length = a.width)
    (hclean : a.width = 1 → a.size + 1 ≤ 2 ^ 63) :
    ∃ ok a', a.append val arena = some (ok, a') ∧ a'.Inv ∧
      OrUnchanged (.returned ok) a.contents a'.contents (a.contents ++ [val]) := by
  have hsize : (a.size + 1) % 2 ^ 64 = a.size + 1 :=
    Nat.mod_eq_of_lt (by have := h.size_le; have := h.capacity_le; omega)
  obtain ⟨ok, a', heq, hfail, hok⟩ := h.resizeUninitialized_spec arena hclean
  rw [append, hsize, heq]
  cases ok with
  | false => exact ⟨false, a', rfl, orUnchanged_of_eq h (hfail rfl) _⟩
  | true =>
    obtain ⟨hinv, hbits, hsz, hkeep⟩ := hok rfl
    have hw := width_congr hbits
    have hset := hinv.set_eq (i := a'.size - 1) (by omega) (hval.trans hw.symm)
    refine ⟨true, a'.writeElems (a'.size - 1) [val], ?_, hinv.writeElems _ _, Or.inl ⟨rfl, ?_⟩⟩
    · show (a'.set (a'.size - 1) val).bind _ = _
      rw [hset]
      rfl
    · rw [contents_writeElems (by simpa using hval.trans hw.symm) (by simp; omega), hsz, hw]
      simp only [Nat.add_sub_cancel, List.length_singleton, Nat.sub_self, elems_zero, List.append_nil]
      rw [hkeep _ le_rfl]
      rfl

theorem Inv.copy_spec (h : a.Inv) (arena : ArenaState) {src : ArraySource} (hsrc : ArrayCommand.SourceFits a src)
    (hclean : a.width = 1 → (src.array a).size ≤ 2 ^ 63) :
    ∃ ok a', a.copy src arena = some (ok, a') ∧ a'.Inv ∧
      OrUnchanged (.returned ok) a.contents a'.contents (src.contents a.contents) := by
  cases src with
  | self => exact ⟨true, a, rfl, h, Or.inl ⟨rfl, rfl⟩⟩
  | other src =>
    obtain ⟨hsb, hsound⟩ := hsrc
    obtain ⟨ok, a', heq, hfail, hok⟩ := h.resizeUninitialized_spec arena hclean
    have heq : a.resizeUninitialized src.size arena = some (ok, a') := heq
    rw [copy]
    simp only [heq, Option.bind_eq_bind, Option.bind_some]
    cases ok with
    | false => exact ⟨false, a', rfl, orUnchanged_of_eq h (hfail rfl) _⟩
    | true =>
      obtain ⟨hinv, hbits, hsz, -⟩ := hok rfl
      have hsz : a'.size = src.size := hsz
      have hw := width_congr hbits
      have hsw := width_congr hsb
      rw [Bool.not_true, if_neg Bool.false_ne_true]
      by_cases hzero : src.size = 0
      · refine ⟨true, a', by rw [if_pos hzero]; rfl, hinv, Or.inl ⟨rfl, ?_⟩⟩
        rw [contents, ArraySource.contents, contents, hsz, hzero]
        rfl
      · have hread := hsound.read (a := a') (hsb.trans hbits.symm)
        have hlen : ∀ v ∈ src.contents, v.length = a'.width := fun v hv =>
          (length_of_mem_contents hv).trans (hsw.trans hw.symm)
        have hwrite := hinv.write 0 hlen (by
          have := hinv.size_le
          rw [length_contents]
          omega)
        have hzshl : shl 0 a'.elemSizeLg2 = 0 := by simp [shl]
        rw [hzshl] at hwrite
        refine ⟨true, a'.writeElems 0 src.contents, ?_, hinv.writeElems _ _, Or.inl ⟨rfl, ?_⟩⟩
        · rw [if_neg hzero, hread, Option.bind_some, hwrite]
          rfl
        · rw [contents_writeElems hlen (by rw [length_contents]; omega), length_contents, hsz]
          simp [ArraySource.contents]

/-- The source of an append, read after the resize: its elements are those it had before. -/
theorem Inv.read_source {a' : UpbArray} {src : ArraySource} (hinv : a'.Inv)
    (hbits : a'.bits = a.bits) (hsrc : ArrayCommand.SourceFits a src) (hsz : a.size ≤ a'.size)
    (hkeep : a'.block.data.elems a.width 0 a.size = a.contents) :
    (src.array a').block.read 0 (shl (src.array a).size a'.elemSizeLg2) =
      some (src.contents a.contents).flatten := by
  cases src with
  | other src => exact hsrc.2.read (hsrc.1.trans hbits.symm)
  | self =>
    have hread := hinv.read (i := 0) (n := a.size) (by have := hinv.size_le; omega)
    have hzero : shl 0 a'.elemSizeLg2 = 0 := by simp [shl]
    rw [hzero, width_congr hbits, hkeep] at hread
    exact hread

theorem length_source {src : ArraySource} :
    (src.contents a.contents).length = (src.array a).size := by
  cases src <;> exact length_contents

/-- A source that fits has fewer than `2 ^ 64` elements. -/
theorem size_source_lt {src : ArraySource} (hsrc : ArrayCommand.SourceFits a src)
    (hcap : a.size ≤ 2 ^ 63) : (src.array a).size < 2 ^ 64 := by
  cases src with
  | self => exact hcap.trans_lt (by decide)
  | other src =>
    obtain ⟨-, hsound⟩ := hsrc
    have hone := Nat.le_mul_of_pos_right src.size (width_pos (a := src))
    have hsize := Nat.mul_le_mul_right src.width hsound.size_le
    exact ((hone.trans hsize).trans hsound.capacity_le).trans_lt hsound.room_lt

theorem length_of_mem_source {src : ArraySource} (hsrc : ArrayCommand.SourceFits a src)
    {v : List UInt8} (hv : v ∈ src.contents a.contents) : v.length = a.width := by
  cases src with
  | other src => exact (length_of_mem_contents hv).trans (width_congr hsrc.1)
  | self => exact length_of_mem_contents hv

theorem Inv.appendAll_spec (h : a.Inv) (arena : ArenaState) {src : ArraySource} (hsrc : ArrayCommand.SourceFits a src)
    (hclean : a.width = 1 →
      a.size + (src.array a).size ≤ 2 ^ 63 ∨ 2 ^ 64 ≤ a.size + (src.array a).size) :
    ∃ ok a', a.appendAll src arena = some (ok, a') ∧ a'.Inv ∧
      OrUnchanged (.returned ok) a.contents a'.contents (a.contents ++ src.contents a.contents) := by
  have hcap := h.size_le.trans h.capacity_le
  have hsrclen := size_source_lt hsrc hcap
  rw [appendAll]
  by_cases hzero : (src.array a).size = 0
  · refine ⟨true, a, by simp only [if_pos hzero]; rfl, h, Or.inl ⟨rfl, ?_⟩⟩
    have hnil : src.contents a.contents = [] := List.length_eq_zero_iff.mp (length_source.trans hzero)
    rw [hnil, List.append_nil]
  simp only [if_neg hzero]
  by_cases hwrap : 2 ^ 64 ≤ a.size + (src.array a).size
  · refine ⟨false, a, ?_, orUnchanged_of_eq h rfl _⟩
    rw [if_pos (by omega)]
    rfl
  have hlen : (a.size + (src.array a).size) % 2 ^ 64 = a.size + (src.array a).size :=
    Nat.mod_eq_of_lt (by omega)
  rw [hlen, if_neg (by omega)]
  obtain ⟨ok, a', heq, hfail, hok⟩ := h.resizeUninitialized_spec arena
    (fun hw => (hclean hw).resolve_right hwrap)
  simp only [heq, Option.bind_eq_bind, Option.bind_some]
  cases ok with
  | false => exact ⟨false, a', rfl, orUnchanged_of_eq h (hfail rfl) _⟩
  | true =>
    obtain ⟨hinv, hbits, hsz, hkeep⟩ := hok rfl
    have hw := width_congr hbits
    have hvs : ∀ v ∈ src.contents a.contents, v.length = a'.width := fun v hv =>
      (length_of_mem_source hsrc hv).trans hw.symm
    have hj : a.size + (src.contents a.contents).length = a'.size := by rw [length_source, hsz]
    have hread := hinv.read_source hbits hsrc (by omega) (hkeep _ le_rfl)
    have hwrite := hinv.write a.size hvs (by have := hinv.size_le; omega)
    refine ⟨true, a'.writeElems a.size (src.contents a.contents), ?_, hinv.writeElems _ _,
      Or.inl ⟨rfl, ?_⟩⟩
    · rw [Bool.not_true, if_neg Bool.false_ne_true, hread, Option.bind_some, hwrite]
      rfl
    · rw [contents_writeElems hvs hj.le, hj, Nat.sub_self, elems_zero, List.append_nil, hw,
        hkeep _ le_rfl]
      rfl

/-- A move inside the capacity. -/
theorem Inv.move_eq (h : a.Inv) (dstIdx srcIdx count : ℕ) (hd : dstIdx + count ≤ a.capacity)
    (hs : srcIdx + count ≤ a.capacity) :
    a.move dstIdx srcIdx count =
      some (a.writeElems dstIdx (a.block.data.elems a.width srcIdx count)) := by
  have hvs : ∀ v ∈ a.block.data.elems a.width srcIdx count, v.length = a.width := fun v hv =>
    length_of_mem_elems hv
  have hwrite := h.write dstIdx hvs (by rwa [length_elems])
  rw [move]
  simp only [h.read hs, Option.bind_eq_bind, Option.bind_some, hwrite]
  rfl

theorem contents_move {dstIdx srcIdx count : ℕ} (hd : dstIdx + count ≤ a.size) :
    (a.writeElems dstIdx (a.block.data.elems a.width srcIdx count)).contents =
      a.block.data.elems a.width 0 dstIdx ++ a.block.data.elems a.width srcIdx count ++
        a.block.data.elems a.width (dstIdx + count) (a.size - (dstIdx + count)) := by
  rw [contents_writeElems (fun v hv => length_of_mem_elems hv) (by rwa [length_elems]), length_elems]

theorem take_contents {n : ℕ} (hn : n ≤ a.size) :
    a.contents.take n = a.block.data.elems a.width 0 n := take_elems hn

theorem drop_contents {n : ℕ} (hn : n ≤ a.size) :
    a.contents.drop n = a.block.data.elems a.width n (a.size - n) := by
  rw [contents, drop_elems hn, Nat.zero_add]

theorem Inv.move_spec (h : a.Inv) {dstIdx srcIdx count : ℕ} (hd : dstIdx + count ≤ a.size)
    (hs : srcIdx + count ≤ a.size) :
    ∃ a', a.move dstIdx srcIdx count = some a' ∧ a'.Inv ∧ a'.contents =
      a.contents.take dstIdx ++ (a.contents.drop srcIdx).take count ++
        a.contents.drop (dstIdx + count) := by
  have hsize := h.size_le
  refine ⟨_, h.move_eq _ _ _ (by omega) (by omega), h.writeElems _ _, ?_⟩
  rw [contents_move hd, take_contents (by omega), drop_contents (by omega), drop_contents (by omega),
    take_elems (by omega)]

theorem Inv.delete_spec (h : a.Inv) {i count : ℕ} (hi : i + count ≤ a.size) :
    ∃ a', a.delete i count = some a' ∧ a'.Inv ∧
      a'.contents = a.contents.take i ++ a.contents.drop (i + count) := by
  have hsize := h.size_le
  have hend : (i + count) % 2 ^ 64 = i + count :=
    Nat.mod_eq_of_lt (by have := h.capacity_le; omega)
  have hmove := h.move_eq i (i + count) (a.size - (i + count)) (by omega) (by omega)
  let b := a.writeElems i (a.block.data.elems a.width (i + count) (a.size - (i + count)))
  have hb : b.Inv := h.writeElems _ _
  have hbc : b.contents = _ := contents_move (by omega)
  refine ⟨{ b with size := a.size - count }, ?_, ⟨hb.bits_le, hb.capacity_eq, ?_, hb.room_eq⟩, ?_⟩
  · simp only [delete, hend, hmove, Option.bind_eq_bind, Option.bind_some]
    rfl
  · exact (Nat.sub_le _ _).trans hsize
  · have htake : b.contents.take (a.size - count) = ({ b with size := a.size - count } : UpbArray).contents :=
      take_elems (Nat.sub_le _ _)
    rw [← htake, hbc, take_contents (by omega), drop_contents hi, List.take_left']
    rw [List.length_append, length_elems, length_elems]
    omega

theorem Inv.insert_spec (h : a.Inv) (arena : ArenaState) {i count : ℕ} (hi : i ≤ a.size) (hlt : a.size + count < 2 ^ 64)
    (hclean : a.width = 1 → a.size + count ≤ 2 ^ 63) :
    ∃ ok a', a.insert i count arena = some (ok, a') ∧ a'.Inv ∧
      ∃ new, new.length = count ∧ OrUnchanged (.returned ok) a.contents a'.contents
        (a.contents.take i ++ new ++ a.contents.drop i) := by
  obtain ⟨ok, a', heq, hfail, hok⟩ := h.resizeUninitialized_spec arena hclean
  rw [insert, Nat.mod_eq_of_lt hlt, heq, Nat.mod_eq_of_lt (by omega)]
  cases ok with
  | false =>
    obtain ⟨hinv, hsame⟩ := orUnchanged_of_eq h (hfail rfl)
      (a.contents.take i ++ List.replicate count [] ++ a.contents.drop i)
    exact ⟨false, a', rfl, hinv, List.replicate count [], List.length_replicate, hsame⟩
  | true =>
    obtain ⟨hinv, hbits, hsz, hkeep⟩ := hok rfl
    have hsize := hinv.size_le
    have hw := width_congr hbits
    have hmove := hinv.move_eq (i + count) i (a.size - i) (by omega) (by omega)
    refine ⟨true, _, ?_, hinv.writeElems (i + count) (a'.block.data.elems a'.width i (a.size - i)),
      a'.block.data.elems a.width i count, length_elems, Or.inl ⟨rfl, ?_⟩⟩
    · show (a'.move (i + count) i (a.size - i)).bind _ = _
      rw [hmove]
      rfl
    · have hall := hkeep a.size le_rfl
      have hdrop := congrArg (List.drop i) hall
      rw [drop_elems hi, Nat.zero_add] at hdrop
      rw [contents_move (by omega), hsz, hw, elems_add, Nat.zero_add, hkeep i hi, hdrop,
        take_contents hi, show a.size + count - (i + count + (a.size - i)) = 0 by omega, elems_zero,
        List.append_nil]
      rfl

/-- The zero bytes of a resize are the bytes of zero elements. -/
theorem replicate_eq_flatten (n w : ℕ) :
    List.replicate (n * w) (0 : UInt8) = (List.replicate n (List.replicate w 0)).flatten := by
  rw [List.flatten_replicate_replicate]

theorem Inv.resize_spec (h : a.Inv) (arena : ArenaState) {size : ℕ} (hclean : a.width = 1 → size ≤ 2 ^ 63) :
    ∃ ok a', a.resize size arena = some (ok, a') ∧ a'.Inv ∧
      OrUnchanged (.returned ok) a.contents a'.contents
        (a.contents.take size ++ List.replicate (size - a.contents.length) (List.replicate a.width 0)) := by
  obtain ⟨ok, a', heq, hfail, hok⟩ := h.resizeUninitialized_spec arena hclean
  rw [resize, heq]
  cases ok with
  | false => exact ⟨false, a', rfl, orUnchanged_of_eq h (hfail rfl) _⟩
  | true =>
    obtain ⟨hinv, hbits, hsz, hkeep⟩ := hok rfl
    have hw := width_congr hbits
    by_cases hgrow : a.size < a'.size
    · have hvs : ∀ v ∈ List.replicate (a'.size - a.size) (List.replicate a'.width (0 : UInt8)),
          v.length = a'.width := fun v hv => by rw [List.eq_of_mem_replicate hv, List.length_replicate]
      have hlen : a.size + (List.replicate (a'.size - a.size)
          (List.replicate a'.width (0 : UInt8))).length = a'.size := by
        rw [List.length_replicate]
        omega
      have hwrite := hinv.write a.size hvs (by have := hinv.size_le; omega)
      refine ⟨true, a'.writeElems a.size
        (List.replicate (a'.size - a.size) (List.replicate a'.width (0 : UInt8))), ?_,
        hinv.writeElems _ _, Or.inl ⟨rfl, ?_⟩⟩
      · simp only [Option.bind_eq_bind, Option.bind_some, Bool.not_true, if_neg Bool.false_ne_true,
          gt_iff_lt, if_pos hgrow, hinv.shl_eq (show a'.size - a.size ≤ a'.capacity by
            have := hinv.size_le; omega), replicate_eq_flatten, hwrite]
        rfl
      · rw [contents_writeElems hvs hlen.le, hlen, Nat.sub_self, elems_zero, List.append_nil, hw,
          hkeep _ le_rfl, hsz, length_contents, List.take_of_length_le (by rw [length_contents]; omega)]
        rfl
    · refine ⟨true, a', ?_, hinv, Or.inl ⟨rfl, ?_⟩⟩
      · simp only [Option.bind_eq_bind, Option.bind_some, Bool.not_true, if_neg Bool.false_ne_true,
          gt_iff_lt, if_neg hgrow]
        rfl
      · rw [length_contents, show size - a.size = 0 by omega, List.replicate_zero, List.append_nil,
          take_contents (by omega), ← hkeep size (by omega), contents, hw, hsz]

theorem Inv.get_spec (h : a.Inv) {i : ℕ} (hi : i < a.contents.length) :
    a.get i = some a.contents[i] := by
  have hsize : i < a.size := by rwa [length_contents] at hi
  have hread := h.read (i := i) (n := 1) (by have := h.size_le; omega)
  rw [h.shl_eq (n := 1) (by have := h.size_le; omega), Nat.one_mul] at hread
  rw [get]
  refine hread.trans ?_
  simp [elems_one, contents, getElem_elems]

/-- A clean call returns, keeps the invariant and does to the elements what it does to a list. -/
theorem Inv.step_spec (h : a.Inv) (c : ArrayCommand) (hlegal : c.Legal a) (hclean : c.Clean a) :
    ∃ out a', a.step c = some (out, a') ∧ a'.Inv ∧
      ListSpec a.width a.contents a'.contents out c := by
  have hcap := h.size_le.trans h.capacity_le
  cases c with
  | append val arena =>
    obtain ⟨ok, a', heq, hinv, hspec⟩ := h.append_spec arena hlegal.1
      (fun hw => (hclean hw).resolve_right (by simp only [ArrayCommand.asked]; omega))
    exact ⟨_, a', by rw [step, heq]; rfl, hinv, hspec⟩
  | appendAll src arena =>
    obtain ⟨ok, a', heq, hinv, hspec⟩ := h.appendAll_spec arena hlegal.1 hclean
    exact ⟨_, a', by rw [step, heq]; rfl, hinv, hspec⟩
  | copy src arena =>
    have hlt : (src.array a).size < 2 ^ 64 := size_source_lt hlegal.1 hcap
    obtain ⟨ok, a', heq, hinv, hspec⟩ := h.copy_spec arena hlegal.1
      (fun hw => (hclean hw).resolve_right (by simp only [ArrayCommand.asked]; omega))
    exact ⟨_, a', by rw [step, heq]; rfl, hinv, hspec⟩
  | insert i count arena =>
    obtain ⟨hi, hlt, -⟩ := hlegal
    obtain ⟨ok, a', heq, hinv, hspec⟩ := h.insert_spec arena hi hlt
      (fun hw => (hclean hw).resolve_right (by simp only [ArrayCommand.asked]; omega))
    exact ⟨_, a', by rw [step, heq]; rfl, hinv, hspec⟩
  | delete i count =>
    obtain ⟨a', heq, hinv, hspec⟩ := h.delete_spec hlegal
    exact ⟨_, a', by rw [step, heq]; rfl, hinv, rfl, hspec⟩
  | move dstIdx srcIdx count =>
    obtain ⟨a', heq, hinv, hspec⟩ := h.move_spec hlegal.1 hlegal.2
    exact ⟨_, a', by rw [step, heq]; rfl, hinv, rfl, hspec⟩
  | resize size arena =>
    have hlt : size < 2 ^ 64 := hlegal.1
    have hmid : a.width = 1 → size ≤ 2 ^ 63 := fun hw =>
      (hclean hw).resolve_right (Nat.not_le.mpr hlt)
    obtain ⟨ok, a', heq, hinv, hspec⟩ := h.resize_spec arena hmid
    exact ⟨_, a', by rw [step, heq]; rfl, hinv, hspec⟩
  | set i val =>
    obtain ⟨hi, hval⟩ := hlegal
    refine ⟨_, _, by rw [step, h.set_eq hi hval]; rfl, h.writeElems _ _, rfl, ?_⟩
    rw [contents_writeElems (by simpa using hval) (Nat.succ_le_of_lt hi), List.length_singleton,
      List.set_eq_take_append_cons_drop, if_pos (by rwa [length_contents]), take_contents hi.le,
      drop_contents hi, List.append_assoc]
    rfl
  | get i =>
    have hi : i < a.contents.length := by rw [length_contents]; exact hlegal
    exact ⟨_, a, by rw [step, h.get_spec hi]; rfl, h, rfl, hi, rfl⟩

/-- An array of bytes that is asked for more than half of the address space writes its elements to
memory that it was not given. -/
theorem Inv.resizeUninitialized_overflow {arena : ArenaState} (h : a.Inv) (hfits : ArrayCommand.ArenaFits a arena)
    (hw : a.width = 1) {size : ℕ} (hsize : 2 ^ 63 < size) :
    a.resizeUninitialized size arena = none := by
  have hlg2 : a.elemSizeLg2 = 0 := by
    by_contra hne
    exact (Nat.one_lt_two_pow hne).ne' hw
  obtain ⟨k, hk, hbytes, hpow⟩ := h.capacity_eq
  have hfour : 2 ^ 2 ≤ 2 ^ k := Nat.pow_le_pow_right (by decide) hk
  have hcap := h.capacity_le
  have hmax : max a.capacity 4 = 2 ^ k := by omega
  have hroom := h.room_eq
  rw [hw, Nat.mul_one] at hroom
  have hrealloc := ArenaState.realloc_sizeMax (by omega) hcap hroom hfits
  have hold : shl a.capacity a.elemSizeLg2 = a.capacity := by
    rw [h.shl_eq le_rfl, hw, Nat.mul_one]
  have hnew : shlOverflow sizeMax a.elemSizeLg2 = some sizeMax := by
    rw [hlg2]
    rfl
  have hres : a.reserve size arena = none := by
    rw [reserve, if_pos (by omega), realloc, growCapacity_congr _ hmax,
      growCapacity_overflow size (63 - k) hsize k (by omega), hnew, hold]
    show (arena.realloc a.block a.capacity sizeMax).bind _ = none
    rw [hrealloc]
    rfl
  rw [resizeUninitialized, hres]
  rfl

/-- A call that is not clean does not return. -/
theorem Inv.step_overflow (h : a.Inv) (c : ArrayCommand) (hlegal : c.Legal a) (hclean : ¬c.Clean a) :
    a.step c = none := by
  have hcap := h.size_le.trans h.capacity_le
  rw [ArrayCommand.Clean, Classical.not_imp, not_or, Nat.not_le, Nat.not_le] at hclean
  obtain ⟨hw, hgt, hlt⟩ := hclean
  cases c with
  | append val arena =>
    have hgt : 2 ^ 63 < a.size + 1 := hgt
    have hsize : (a.size + 1) % 2 ^ 64 = a.size + 1 := Nat.mod_eq_of_lt hlt
    rw [step, append, hsize, h.resizeUninitialized_overflow hlegal.2 hw hgt]
    rfl
  | appendAll src arena =>
    have hgt : 2 ^ 63 < a.size + (src.array a).size := hgt
    have hlt : a.size + (src.array a).size < 2 ^ 64 := hlt
    rw [step, appendAll]
    simp only [Nat.mod_eq_of_lt hlt]
    rw [if_neg (by omega), if_neg (by omega), h.resizeUninitialized_overflow hlegal.2 hw hgt]
    rfl
  | copy src arena =>
    cases src with
    | self => exact absurd hgt (Nat.not_lt.mpr hcap)
    | other src =>
      have hgt : 2 ^ 63 < src.size := hgt
      rw [step, copy]
      simp only [h.resizeUninitialized_overflow hlegal.2 hw hgt]
      rfl
  | insert i count arena =>
    have hgt : 2 ^ 63 < a.size + count := hgt
    have hsize : (a.size + count) % 2 ^ 64 = a.size + count := Nat.mod_eq_of_lt hlt
    rw [step, insert, hsize, h.resizeUninitialized_overflow hlegal.2.2 hw hgt]
    rfl
  | resize size arena =>
    have hgt : 2 ^ 63 < size := hgt
    rw [step, resize, h.resizeUninitialized_overflow hlegal.2 hw hgt]
    rfl
  | delete i count => exact absurd hgt (Nat.not_lt.mpr hcap)
  | move dstIdx srcIdx count => exact absurd hgt (Nat.not_lt.mpr hcap)
  | set i val => exact absurd hgt (Nat.not_lt.mpr hcap)
  | get i => exact absurd hgt (Nat.not_lt.mpr hcap)

/-- From an array that keeps the invariant, a run refines the list exactly if it is clean. -/
theorem Inv.refinesList_iff (cs : List ArrayCommand) (h : a.Inv) (hlegal : LegalCalls a cs) :
    RefinesList a cs ↔ CleanCalls a cs := by
  induction cs generalizing a with
  | nil => exact iff_of_true h.sound trivial
  | cons c cs ih =>
    rw [RefinesList, CleanCalls]
    by_cases hclean : c.Clean a
    · obtain ⟨out, a', heq, hinv, hspec⟩ := h.step_spec c hlegal.1 hclean
      have hrest := ih hinv (hlegal.2 out a' heq)
      constructor
      · rintro ⟨-, out', b, heq', -, hb⟩
        obtain ⟨rfl, rfl⟩ := Prod.mk.inj (Option.some.inj (heq.symm.trans heq'))
        refine ⟨hclean, fun out'' b' heq'' => ?_⟩
        obtain ⟨rfl, rfl⟩ := Prod.mk.inj (Option.some.inj (heq.symm.trans heq''))
        exact hrest.mp hb
      · exact fun hc => ⟨h.sound, out, a', heq, hspec, hrest.mpr (hc.2 out a' heq)⟩
    · refine iff_of_false ?_ (fun hc => hclean hc.1)
      rintro ⟨-, out, a', heq, -⟩
      rw [h.step_overflow c hlegal.1 hclean] at heq
      exact nomatch heq

/-- A new array keeps the invariant. -/
theorem inv_new {k lg2 : ℕ} (hk : 2 ≤ k) (hbytes : k + lg2 ≤ 63) (hlg2 : lg2 = 0 ∨ 2 ≤ lg2)
    (hle : lg2 ≤ 4) (data : ByteMemory) : (new (2 ^ k) lg2 data).Inv := by
  have htag : (new (2 ^ k) lg2 data).elemSizeLg2 = lg2 := by
    show tagBits lg2 + _ = lg2
    rw [new, tagBits]
    simp only
    split <;> split <;> omega
  have hmul : 2 ^ k * 2 ^ lg2 ≤ 2 ^ 63 := by
    rw [← pow_add]
    exact Nat.pow_le_pow_right (by decide) hbytes
  refine ⟨?_, ⟨k, hk, by rw [htag]; exact hbytes, rfl⟩, Nat.zero_le _, ?_⟩
  · show tagBits lg2 ≤ 3
    rw [tagBits]
    split <;> omega
  · rw [width, htag]
    show alignMalloc (24 + shl (2 ^ k) lg2) - 24 = alignMalloc (2 ^ k * 2 ^ lg2)
    rw [Upb.shl_eq (by omega), alignMalloc, alignMalloc, Nat.mod_eq_of_lt (by omega),
      Nat.mod_eq_of_lt (by omega)]
    omega

end UpbArray

/-- From a new array on, with elements of 1, 4, 8 or 16 bytes, a run of calls refines the list of the
elements exactly if it never asks an array of one-byte elements to hold more than `2 ^ 63` of them. -/
theorem refinesList_iff_cleanCalls {k lg2 : ℕ} (hk : 2 ≤ k) (hbytes : k + lg2 ≤ 63)
    (hlg2 : lg2 = 0 ∨ 2 ≤ lg2) (hle : lg2 ≤ 4) (data : ByteMemory) (cs : List ArrayCommand)
    (hlegal : LegalCalls (UpbArray.new (2 ^ k) lg2 data) cs) :
    RefinesList (UpbArray.new (2 ^ k) lg2 data) cs ↔ CleanCalls (UpbArray.new (2 ^ k) lg2 data) cs :=
  (UpbArray.inv_new hk hbytes hlg2 hle data).refinesList_iff cs hlegal

/-- An arena that has nothing left and gets no further block. -/
def fullArena : ArenaState := { has := 0, wasLast := false, moreBlocks := false, fresh := fun _ => 0 }

/-- A new array of eight-byte elements that a full arena cannot make larger. -/
theorem refinesList_full_arena :
    RefinesList (UpbArray.new (2 ^ 2) 3 fun _ => 0) [.resize (2 ^ 63 + 1) fullArena] := by
  refine (refinesList_iff_cleanCalls (by decide) (by decide) (by decide) (by decide) _ _ ?_).mpr ?_
  · exact ⟨⟨by decide, fun h => nomatch h⟩, fun _ _ _ => trivial⟩
  · exact ⟨fun hw => absurd hw (by decide), fun _ _ _ => trivial⟩

/-- `upb_Array_Resize` of a new array of one-byte elements to `2 ^ 63 + 1`, in an arena that has
nothing left, writes its four bytes to memory that it was not given. -/
theorem resize_overflows :
    LegalCalls (UpbArray.new (2 ^ 2) 0 fun _ => 0) [.resize (2 ^ 63 + 1) fullArena] ∧
      (UpbArray.new (2 ^ 2) 0 fun _ => 0).step (.resize (2 ^ 63 + 1) fullArena) = none ∧
      ¬RefinesList (UpbArray.new (2 ^ 2) 0 fun _ => 0) [.resize (2 ^ 63 + 1) fullArena] := by
  have hinv : (UpbArray.new (2 ^ 2) 0 fun _ => 0).Inv :=
    UpbArray.inv_new (by decide) (by decide) (by decide) (by decide) _
  have hlegal : (ArrayCommand.resize (2 ^ 63 + 1) fullArena).Legal
      (UpbArray.new (2 ^ 2) 0 fun _ => 0) := ⟨by decide, fun h => nomatch h⟩
  have hstep : (UpbArray.new (2 ^ 2) 0 fun _ => 0).step (.resize (2 ^ 63 + 1) fullArena) = none :=
    hinv.step_overflow _ hlegal fun hclean => absurd (hclean (by decide)) (by
      simp only [ArrayCommand.asked]
      omega)
  refine ⟨⟨hlegal, fun _ _ _ => trivial⟩, hstep, ?_⟩
  rintro ⟨-, out, a', heq, -⟩
  exact nomatch hstep.symm.trans heq

end Upb
