import Mathlib.Data.List.Count
import Mathlib.Data.List.Perm.Subperm
import Mathlib.Algebra.Order.Ring.Int
import Mathlib.Tactic.Common
import Upb.Common.ScatterChains
import Upb.Hash.Table

/-!
# The invariant of the base hash table

`Wf` is the chained scatter invariant: every chain starts at the main position of its keys and
holds exactly the entries that hash there, no logical key is stored twice, and `count` is the number
of used entries. `Stored t l v` says that the table holds the logical key `l` with the value `v`.
The module shows what each operation of the base table does to both.
-/

namespace Upb

variable {κ ν ℓ : Type}

/-- The key operations compute a hash and an equality of logical keys. Nothing is asked of the empty
key, which no operation hashes or compares. -/
structure KeyOps.Lawful (ops : KeyOps κ ν ℓ) (keyOf : κ → ν → ℓ) (hash : ℓ → ℕ) : Prop where
  isempty_empty : ops.isempty ops.empty = true
  hashfunc_eq : ∀ k v, ops.isempty k = false → ops.hashfunc k v = hash (keyOf k v)
  eql_iff : ∀ k v l, ops.isempty k = false → (ops.eql k v l = true ↔ keyOf k v = l)

namespace Table

/-- Entry `i` is allocated and in use. -/
def Occ (ops : KeyOps κ ν ℓ) (t : Table κ ν) (i : ℕ) : Prop := i < t.size ∧ t.isempty ops i = false

/-- The main position of the content of entry `i`. -/
def mainpos (ops : KeyOps κ ν ℓ) (t : Table κ ν) (i : ℕ) : ℕ :=
  t.getentry (ops.hashfunc (t.entries i).key (t.entries i).val)

/-- The logical key of entry `i`. -/
def keyAt (keyOf : κ → ν → ℓ) (t : Table κ ν) (i : ℕ) : ℓ :=
  keyOf (t.entries i).key (t.entries i).val

/-- The chained scatter invariant. -/
structure Wf (ops : KeyOps κ ν ℓ) (keyOf : κ → ν → ℓ) (t : Table κ ν) : Prop where
  mask_eq : ∃ k < 32, t.mask = 2 ^ k - 1
  chained : Common.Chained (t.Occ ops) (t.mainpos ops) t.next
  keys : ∀ i j, t.Occ ops i → t.Occ ops j → t.keyAt keyOf i = t.keyAt keyOf j → i = j
  count_eq : t.count = (List.range t.size).countP fun i => !t.isempty ops i

/-- The table holds the logical key `l` with the value `v`. -/
def Stored (ops : KeyOps κ ν ℓ) (keyOf : κ → ν → ℓ) (t : Table κ ν) (l : ℓ) (v : ν) : Prop :=
  ∃ i, t.Occ ops i ∧ t.keyAt keyOf i = l ∧ (t.entries i).val = v

section Counting

/-- Marking one more index of a range raises the count by one. -/
theorem countP_range_add_one {p p' : ℕ → Bool} {n q : ℕ} (hq : q < n) (hp : p q = false)
    (hp' : p' q = true) (heq : ∀ i, i ≠ q → p' i = p i) :
    (List.range n).countP p' = (List.range n).countP p + 1 := by
  induction n with
  | zero => omega
  | succ n ih =>
    rw [List.range_succ, List.countP_append, List.countP_append]
    by_cases hqn : q = n
    · subst hqn
      have hsame : (List.range q).countP p' = (List.range q).countP p :=
        List.countP_congr fun i hi => by rw [heq i (by have := List.mem_range.mp hi; omega)]
      simp [hsame, hp, hp']
    · have htail : List.countP p' [n] = List.countP p [n] :=
        List.countP_congr fun i hi => by
          rw [heq i (by have := List.mem_singleton.mp hi; omega)]
      rw [ih (by omega), htail]
      omega

variable {ops : KeyOps κ ν ℓ} {t : Table κ ν}

/-- A table with fewer used entries than allocated ones has a free entry. -/
theorem exists_isempty_of_count_lt
    (hlt : (List.range t.size).countP (fun i => !t.isempty ops i) < t.size) :
    ∃ i < t.size, t.isempty ops i = true := by
  by_contra hno
  push Not at hno
  have hall : (List.range t.size).countP (fun i => !t.isempty ops i) = (List.range t.size).length :=
    List.countP_eq_length.mpr fun i hi => by
      simpa using hno i (List.mem_range.mp hi)
  simp [hall] at hlt

end Counting

section Basic

variable {ops : KeyOps κ ν ℓ} {keyOf : κ → ν → ℓ} {hash : ℓ → ℕ} {t : Table κ ν}

theorem getentry_lt (t : Table κ ν) (h : ℕ) : t.getentry h < t.size :=
  Nat.lt_succ_of_le Nat.and_le_right

theorem mainpos_eq (hops : ops.Lawful keyOf hash) {i : ℕ} (hi : t.Occ ops i) :
    t.mainpos ops i = t.getentry (hash (t.keyAt keyOf i)) := by
  rw [mainpos, keyAt, hops.hashfunc_eq _ _ hi.2]

/-- A stored key is found in exactly one entry, with exactly one value. -/
theorem Wf.stored_unique (hwf : t.Wf ops keyOf) {l : ℓ} {v w : ν} (hv : t.Stored ops keyOf l v)
    (hw : t.Stored ops keyOf l w) : v = w := by
  obtain ⟨i, hi, hil, rfl⟩ := hv
  obtain ⟨j, hj, hjl, rfl⟩ := hw
  rw [hwf.keys i j hi hj (hil.trans hjl.symm)]

/-- A chain holds at most as many entries as the table. -/
theorem chain_length_le {c : List ℕ} (hnodup : c.Nodup) (hmem : ∀ i ∈ c, i < t.size) :
    c.length ≤ t.size := by
  have hsub : c ⊆ List.range t.size := fun i hi => List.mem_range.mpr (hmem i hi)
  simpa using (List.subperm_of_subset hnodup hsub).length_le

/-- `findentry` finds the entry that holds the key, whatever the hash function. -/
theorem findentry_iff (hops : ops.Lawful keyOf hash) (hwf : t.Wf ops keyOf) {l : ℓ} {i : ℕ} :
    t.findentry ops l (hash l) = some i ↔ t.Occ ops i ∧ t.keyAt keyOf i = l := by
  have hmain : ∀ j, t.Occ ops j → t.keyAt keyOf j = l → t.mainpos ops j = t.getentry (hash l) :=
    fun j hj hjl => by rw [mainpos_eq hops hj, hjl]
  rw [findentry]
  by_cases hcount : t.count = 0
  · have hnone := List.countP_eq_zero.mp (hwf.count_eq.symm.trans hcount)
    simp only [hcount, ↓reduceIte, reduceCtorEq, false_iff]
    rintro ⟨hi, -⟩
    simpa [hi.2] using hnone i (List.mem_range.mpr hi.1)
  rw [if_neg hcount]
  by_cases hempty : t.isempty ops (t.getentry (hash l)) = true
  · simp only [hempty, ↓reduceIte, reduceCtorEq, false_iff]
    rintro ⟨hi, hil⟩
    have hocc := (hwf.chained.head i hi).1.2
    rw [hmain i hi hil, hempty] at hocc
    cases hocc
  · have hocc : t.Occ ops (t.getentry (hash l)) := ⟨getentry_lt t _, by simpa using hempty⟩
    obtain ⟨c, hseg, hnodup, hsame, hfull⟩ := hwf.chained.rest hocc
    simp only [hempty, Bool.false_eq_true, ↓reduceIte]
    rw [Common.walkUntil_eq_find? hseg (chain_length_le hnodup fun j hj => (hsame j hj).1.1)]
    have heql : ∀ j, t.Occ ops j → (t.eqlAt ops l j = true ↔ t.keyAt keyOf j = l) :=
      fun j hj => hops.eql_iff _ _ _ hj.2
    constructor
    · intro hfind
      have hmem := List.mem_of_find?_eq_some hfind
      have hi := (hsame i hmem).1
      exact ⟨hi, (heql i hi).mp (List.find?_some hfind)⟩
    · rintro ⟨hi, hil⟩
      -- a stored key makes its main position the head of a chain, and the walk starts there
      have hself : t.mainpos ops (t.getentry (hash l)) = t.getentry (hash l) := by
        have := (hwf.chained.head i hi).2
        rwa [hmain i hi hil] at this
      have hmem := hfull hself i hi (hmain i hi hil)
      cases hfind : c.find? (t.eqlAt ops l) with
      | none => exact absurd ((heql i hi).mpr hil) (by simpa using List.find?_eq_none.mp hfind i hmem)
      | some j =>
        have hj := (hsame j (List.mem_of_find?_eq_some hfind)).1
        have hjl := (heql j hj).mp (List.find?_some hfind)
        rw [hwf.keys j i hj hi (hjl.trans hil.symm)]

/-- A lookup returns exactly what is stored. -/
theorem lookup_iff (hops : ops.Lawful keyOf hash) (hwf : t.Wf ops keyOf) {l : ℓ} {v : ν} :
    t.lookup ops l (hash l) = some v ↔ t.Stored ops keyOf l v := by
  simp only [lookup, Option.map_eq_some_iff, findentry_iff hops hwf, Stored]
  exact exists_congr fun i => and_assoc

end Basic

end Table

end Upb
