import Mathlib.Data.List.Range
import Mathlib.Logic.Function.Basic

/-!
# Memory as bytes

A memory gives a byte for every address. `load` reads a range of it and `store` overwrites one; a
load reads back what was stored in its range and does not see a store elsewhere.
-/

namespace Upb.Common

/-- The bytes at all addresses. -/
abbrev ByteMemory := ℕ → UInt8

namespace ByteMemory

/-- The `n` bytes from an address on. -/
def load (m : ByteMemory) (a n : ℕ) : List UInt8 := (List.range n).map fun i => m (a + i)

/-- The memory with the bytes `bs` from an address on. -/
def store (m : ByteMemory) (a : ℕ) (bs : List UInt8) : ByteMemory := fun i =>
  if a ≤ i then (bs[i - a]?).getD (m i) else m i

variable {m m' : ByteMemory} {a b n : ℕ} {bs : List UInt8}

@[simp] theorem length_load : (m.load a n).length = n := by simp [load]

@[simp] theorem load_zero : m.load a 0 = [] := rfl

theorem getElem?_load (i : ℕ) : (m.load a n)[i]? = if i < n then some (m (a + i)) else none := by
  rw [load, List.getElem?_map]
  by_cases h : i < n
  · rw [List.getElem?_range h, if_pos h]
    rfl
  · rw [if_neg h, List.getElem?_eq_none (by simpa using h)]
    rfl

/-- Memories that agree on a range give the same bytes. -/
theorem load_congr (h : ∀ i, a ≤ i → i < a + n → m' i = m i) : m'.load a n = m.load a n := by
  refine List.map_congr_left fun i hi => h _ (Nat.le_add_right a i) ?_
  have := List.mem_range.mp hi
  omega

/-- A range is read in two parts. -/
theorem load_add (k : ℕ) : m.load a (n + k) = m.load a n ++ m.load (a + n) k := by
  rw [load, List.range_add, List.map_append, List.map_map]
  simp [load, Function.comp_def, Nat.add_assoc]

theorem store_of_lt {i : ℕ} (h : i < a) : m.store a bs i = m i := if_neg (by omega)

theorem store_of_ge {i : ℕ} (h : a + bs.length ≤ i) : m.store a bs i = m i := by
  rw [store, if_pos (by omega), List.getElem?_eq_none (by omega)]
  rfl

theorem store_add {i : ℕ} (h : i < bs.length) : m.store a bs (a + i) = bs[i] := by
  rw [store, if_pos (Nat.le_add_right a i), Nat.add_sub_cancel_left, List.getElem?_eq_getElem h]
  rfl

/-- What was stored is read back. -/
theorem load_store : (m.store a bs).load a bs.length = bs := by
  refine List.ext_getElem (by simp) fun i _ hi => ?_
  simp only [load, List.getElem_map, List.getElem_range]
  exact store_add hi

/-- The first part of what was stored is read back. -/
theorem load_store_take (h : n ≤ bs.length) : (m.store a bs).load a n = bs.take n := by
  refine List.ext_getElem (by simp [h]) fun i hi _ => ?_
  rw [length_load] at hi
  simp only [load, List.getElem_map, List.getElem_range, List.getElem_take]
  exact store_add (by omega)

/-- A store outside of a range does not change it. -/
theorem load_store_of_disjoint (h : a + n ≤ b ∨ b + bs.length ≤ a) :
    (m.store b bs).load a n = m.load a n := by
  refine load_congr fun i hai hin => ?_
  rcases h with h | h
  · exact store_of_lt (by omega)
  · exact store_of_ge (by omega)

/-- Two parts are stored one after the other. -/
theorem store_append (bs' : List UInt8) :
    m.store a (bs ++ bs') = (m.store a bs).store (a + bs.length) bs' := by
  funext i
  unfold store
  by_cases hai : a ≤ i
  · rw [if_pos hai, List.getElem?_append]
    by_cases hi : i - a < bs.length
    · rw [if_pos hi, if_neg (by omega), if_pos hai]
    · rw [if_neg hi, if_pos (by omega), if_pos hai, List.getElem?_eq_none (by omega : bs.length ≤ i - a),
        Nat.sub_add_eq]
      rfl
  · rw [if_neg hai, if_neg (by omega), if_neg hai]

theorem store_nil : m.store a [] = m := by
  funext i
  unfold store
  split <;> rfl

/-- The `n` elements of `w` bytes from the element `i` on. -/
def elems (m : ByteMemory) (w i n : ℕ) : List (List UInt8) :=
  (List.range n).map fun k => m.load ((i + k) * w) w

variable {w i j k : ℕ}

@[simp] theorem length_elems : (m.elems w i n).length = n := by simp [elems]

@[simp] theorem elems_zero : m.elems w i 0 = [] := rfl

theorem getElem_elems (h : k < (m.elems w i n).length) :
    (m.elems w i n)[k] = m.load ((i + k) * w) w := by simp [elems]

theorem length_of_mem_elems {v : List UInt8} (h : v ∈ m.elems w i n) : v.length = w := by
  obtain ⟨k, -, rfl⟩ := List.mem_map.mp h
  exact length_load

/-- Elements are equal if the bytes of each are. -/
theorem elems_eq_iff {vs : List (List UInt8)} :
    m.elems w i n = vs ↔
      vs.length = n ∧ ∀ k (h : k < vs.length), m.load ((i + k) * w) w = vs[k] := by
  constructor
  · rintro rfl
    exact ⟨length_elems, fun k h => (getElem_elems h).symm⟩
  · rintro ⟨hlen, h⟩
    refine List.ext_getElem (by rw [length_elems, hlen]) fun k h₁ h₂ => ?_
    rw [getElem_elems h₁, h k h₂]

theorem elems_add (k : ℕ) : m.elems w i (n + k) = m.elems w i n ++ m.elems w (i + n) k := by
  rw [elems, List.range_add, List.map_append, List.map_map]
  simp [elems, Function.comp_def, Nat.add_assoc]

theorem elems_one : m.elems w i 1 = [m.load (i * w) w] := rfl

/-- The bytes of elements are read in one piece. -/
theorem load_eq_flatten : m.load (i * w) (n * w) = (m.elems w i n).flatten := by
  induction n with
  | zero => rw [Nat.zero_mul, elems_zero, load_zero, List.flatten_nil]
  | succ n ih =>
    rw [Nat.succ_mul, load_add, ih, elems_add, List.flatten_append, elems_one, ← Nat.add_mul]
    simp

/-- An element that a store covers is the one that was stored there. -/
theorem load_store_flatten {vs : List (List UInt8)} (hvs : ∀ v ∈ vs, v.length = w) (i : ℕ) :
    (m.store (j * w) vs.flatten).load (i * w) w =
      if h : j ≤ i ∧ i - j < vs.length then vs[i - j] else m.load (i * w) w := by
  induction vs generalizing m j with
  | nil => rw [List.flatten_nil, store_nil, dif_neg (by simp)]
  | cons v vs ih =>
    have hv : v.length = w := hvs v List.mem_cons_self
    rw [List.flatten_cons, store_append, hv, ← Nat.succ_mul,
      ih fun v' hv' => hvs v' (List.mem_cons_of_mem _ hv')]
    by_cases hj : i = j
    · subst hj
      rw [dif_neg (by omega), dif_pos (by simp), ← hv, load_store]
      simp
    · have hkeep : (m.store (j * w) v).load (i * w) w = m.load (i * w) w := by
        refine load_store_of_disjoint ?_
        rw [hv, ← Nat.succ_mul, ← Nat.succ_mul]
        rcases Nat.lt_or_gt_of_ne hj with hlt | hlt
        · exact Or.inl (Nat.mul_le_mul_right w hlt)
        · exact Or.inr (Nat.mul_le_mul_right w hlt)
      rw [hkeep]
      by_cases hin : j + 1 ≤ i ∧ i - (j + 1) < vs.length
      · rw [dif_pos hin, dif_pos (by rw [List.length_cons]; omega)]
        rw [List.getElem_cons, dif_neg (by omega)]
        congr 1
      · rw [dif_neg hin, dif_neg (by rw [List.length_cons]; omega)]

/-- Memories that agree on elements have the same ones. -/
theorem elems_congr (h : ∀ a, i * w ≤ a → a < (i + n) * w → m' a = m a) :
    m'.elems w i n = m.elems w i n := by
  refine List.map_congr_left fun k hk => load_congr fun a hle hlt => h a ?_ ?_
  · exact le_trans (Nat.mul_le_mul_right w (Nat.le_add_right i k)) hle
  · have hk' : i + k + 1 ≤ i + n := by
      have := List.mem_range.mp hk
      omega
    have := Nat.mul_le_mul_right w hk'
    rw [Nat.succ_mul] at this
    omega

theorem take_elems (h : k ≤ n) : (m.elems w i n).take k = m.elems w i k := by
  obtain ⟨d, rfl⟩ := Nat.exists_eq_add_of_le h
  rw [elems_add, List.take_left' length_elems]

theorem drop_elems (h : k ≤ n) : (m.elems w i n).drop k = m.elems w (i + k) (n - k) := by
  obtain ⟨d, rfl⟩ := Nat.exists_eq_add_of_le h
  rw [elems_add, List.drop_left' length_elems, Nat.add_sub_cancel_left]

/-- A store of whole elements replaces these and keeps the others. -/
theorem elems_store {vs : List (List UInt8)} (hvs : ∀ v ∈ vs, v.length = w) (h : j + vs.length ≤ n) :
    (m.store (j * w) vs.flatten).elems w 0 n =
      m.elems w 0 j ++ vs ++ m.elems w (j + vs.length) (n - (j + vs.length)) := by
  obtain ⟨d, rfl⟩ := Nat.exists_eq_add_of_le h
  rw [Nat.add_sub_cancel_left, elems_add, elems_add, Nat.zero_add, Nat.zero_add]
  congr 1
  · congr 1
    · refine elems_eq_iff.mpr ⟨length_elems, fun k hk => ?_⟩
      rw [length_elems] at hk
      rw [getElem_elems, load_store_flatten hvs, dif_neg (by omega)]
    · refine elems_eq_iff.mpr ⟨rfl, fun k hk => ?_⟩
      rw [load_store_flatten hvs, dif_pos (by omega)]
      congr 1
      omega
  · refine elems_eq_iff.mpr ⟨length_elems, fun k hk => ?_⟩
    rw [getElem_elems, load_store_flatten hvs, dif_neg (by omega)]

end ByteMemory

end Upb.Common
