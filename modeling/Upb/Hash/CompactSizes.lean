import Mathlib.Tactic.IntervalCases
import Upb.Hash.Allocation
import Upb.Hash.RemoveIter

/-!
# The sizes that compaction chooses

`upb_inttable_compact` with its machine integers and an allocator that may fail. The last bucket of
the histogram has no upper bound, so that the size of the array part is the largest key of all where
a tenth of 2^16 slots would be used; the results of the insertions into the new table are not looked
at.
-/

namespace Upb

namespace IntTable

open Upb.Common (MapCmd MapOut)

variable {ν : Type} [Inhabited ν] (hash : ℕ → ℕ)

/-- The histogram of the keys. -/
def histogram (keys : List ℕ) (bucket : ℕ) : ℕ := (keys.countP fun key => log2ceil key = bucket) % 2 ^ 32

/-- The largest key of each bucket. -/
def maxKey (keys : List ℕ) (bucket : ℕ) : ℕ :=
  ((keys.filter fun key => log2ceil key = bucket).max?).getD 0

/-- The loop that halves the array part, in 32 bits: the size and the number of keys in the array
part. -/
def shrinkIn (counts : ℕ → ℕ) : ℕ → ℕ → ℕ × ℕ
  | 0, arrCount => (0, arrCount)
  | sizeLg2 + 1, arrCount =>
    if counts (sizeLg2 + 1) = 0 then shrinkIn counts sizeLg2 arrCount
    else if 2 ^ (sizeLg2 + 1) ≤ 10 * arrCount then (sizeLg2 + 1, arrCount)
    else shrinkIn counts sizeLg2 ((arrCount + 2 ^ 32 - counts (sizeLg2 + 1)) % 2 ^ 32)

/-- The size of the array part and the number of keys in the hash part; the size is not yet brought
into an integer type. -/
def compactSizes (t : IntTable ν) : ℕ × ℕ :=
  let keys := (t.pairs hash).map Prod.fst
  let count := (t.t.count + t.arrayCount) % 2 ^ 32
  let (sizeLg2, arrCount) := shrinkIn (histogram keys) maxArrSize count
  (maxKey keys sizeLg2 + 1, (count + 2 ^ 32 - arrCount) % 2 ^ 32)

/-- The insertion of the elements into the new table, whose results are not looked at. -/
def insertAllIn (t : IntTable ν) : List (ℕ × ν) → Memory → Option (IntTable ν × Memory)
  | [], mem => some (t, mem)
  | e :: es, mem => (insertIn hash t e.1 e.2 mem).bind fun ((_, t), mem) => insertAllIn t es mem

/-- The size of the array part as `upb_inttable_sizedinit` receives it: `arr_size` has 64 bits, the
parameter has 32. -/
def sizeParam (arrSize : ℕ) : ℕ := arrSize % 2 ^ 64 % 2 ^ 32

/-- The number of entries that the hash part is made for. -/
def hashSize (hashCount : ℕ) : ℕ := if hashCount = 0 then 0 else entriesNeededFor hashCount

/-- The second half of `upb_inttable_compact`, from the new table on. -/
def moveAllIn (t : IntTable ν) :
    Option (IntTable ν) × Memory → Option ((Bool × IntTable ν) × Memory)
  | (none, mem) => some ((false, t), mem)
  | (some new, mem) =>
    (insertAllIn hash new (t.pairs hash) mem).map fun (new, mem) => ((true, new), mem)

/-- `upb_inttable_compact`. -/
def compactIn (t : IntTable ν) (mem : Memory) : Option ((Bool × IntTable ν) × Memory) :=
  moveAllIn hash t (sizedinitIn hash (sizeParam (compactSizes hash t).1)
    (log2ceil (hashSize (compactSizes hash t).2)) mem)

/-- The tables that runs reach, whatever the allocator answers, whose removals at an iterator unlink
their entry. -/
inductive ReachableIn : IntTable ν → Prop where
  | init {asize n : ℕ} {t : IntTable ν} {mem mem' : Memory}
      (h : sizedinitIn hash asize n mem = (some t, mem')) : ReachableIn t
  | insert {t t' : IntTable ν} {k : ℕ} {v : ν} {ok : Bool} {mem mem' : Memory} (h : ReachableIn t)
      (hnew : lookup hash t k = none) (hins : insertIn hash t k v mem = some ((ok, t'), mem')) :
      ReachableIn t'
  | step {t t' : IntTable ν} {c : MapCmd ℕ ν} {o : MapOut ℕ ν} (h : ReachableIn t)
      (hlegal : Legal hash t c) (hstep : step hash t c = some (o, t')) : ReachableIn t'
  | removeiter {t : IntTable ν} {j : ℤ} {k i : ℕ} {v : ν} (h : ReachableIn t)
      (hnext : next hash t j = some (k, v, (i : ℤ))) (hclean : Unlinks hash t i) :
      ReachableIn (removeiter hash t i)
  | compact {t t' : IntTable ν} {ok : Bool} {mem mem' : Memory} (h : ReachableIn t)
      (hcompact : compactIn hash t mem = some ((ok, t'), mem')) : ReachableIn t'

/-- What compaction promises: the pairs are kept, the size of the array part is the one asked for, and
the array part has one slot or is well filled and not too large. -/
structure CompactsWell (t t' : IntTable ν) : Prop where
  lookup_eq : lookup hash t' = lookup hash t
  size_eq : t'.arraySize = (compactSizes hash t).1
  filled : t'.arraySize = 1 ∨ (t'.arraySize ≤ 10 * t'.arrayCount ∧ t'.arraySize ≤ 2 ^ maxArrSize)

section Buckets

/-- The ceiling of the logarithm as a bound. -/
theorem log2Ceiling_le_iff (n k : ℕ) : log2Ceiling n ≤ k ↔ n ≤ 2 ^ k := by
  have hpos := Nat.one_le_two_pow (n := k)
  rw [log2Ceiling]
  split
  · simp only [Nat.zero_le, true_iff]
    omega
  · rw [Nat.succ_le_iff, Nat.log2_lt (by omega)]
    omega

/-- A bucket below the last one is bounded. -/
theorem log2ceil_le_iff {n s : ℕ} (hs : s < maxArrSize) : log2ceil n ≤ s ↔ n ≤ 2 ^ s := by
  rw [← log2Ceiling_le_iff, log2ceil]
  omega

theorem log2ceil_le_max (n : ℕ) : log2ceil n ≤ maxArrSize := Nat.min_le_left _ _

/-- A table can have any size that the code computes. -/
theorem log2ceil_lt (n : ℕ) : log2ceil n < 32 := lt_of_le_of_lt (log2ceil_le_max n) (by decide)

/-- Every key of a bucket is at most the largest. -/
theorem le_maxKey {keys : List ℕ} {k : ℕ} (hk : k ∈ keys) : k ≤ maxKey keys (log2ceil k) := by
  have hmem : k ∈ keys.filter fun key => log2ceil key = log2ceil k := List.mem_filter.mpr ⟨hk, by simp⟩
  rw [maxKey]
  cases hmax : (keys.filter fun key => log2ceil key = log2ceil k).max? with
  | none =>
    rw [List.max?_eq_none_iff.mp hmax] at hmem
    cases hmem
  | some m => exact (List.max?_eq_some_iff.mp hmax).2 k hmem

/-- The largest key of a bucket that is not empty is in it. -/
theorem maxKey_mem {keys : List ℕ} {b : ℕ} (hb : (keys.countP fun key => log2ceil key = b) ≠ 0) :
    maxKey keys b ∈ keys ∧ log2ceil (maxKey keys b) = b := by
  rw [maxKey]
  cases hmax : (keys.filter fun key => log2ceil key = b).max? with
  | none =>
    rw [List.countP_eq_length_filter, List.max?_eq_none_iff.mp hmax] at hb
    exact absurd rfl hb
  | some m => simpa using List.mem_filter.mp (List.max?_eq_some_iff.mp hmax).1

/-- The largest key of an empty bucket is 0. -/
theorem maxKey_empty {keys : List ℕ} {b : ℕ} (hb : (keys.countP fun key => log2ceil key = b) = 0) :
    maxKey keys b = 0 := by
  rw [List.countP_eq_length_filter, List.length_eq_zero_iff] at hb
  rw [maxKey, hb]
  rfl

/-- A bucket below the last one has no key above its power of two. -/
theorem maxKey_le (keys : List ℕ) {s : ℕ} (hs : s < maxArrSize) : maxKey keys s ≤ 2 ^ s := by
  by_cases hb : (keys.countP fun key => log2ceil key = s) = 0
  · rw [maxKey_empty hb]
    exact Nat.zero_le _
  · exact (log2ceil_le_iff hs).mp (maxKey_mem hb).2.le

/-- The keys of one more bucket. -/
theorem countP_le_succ (keys : List ℕ) (s : ℕ) :
    (keys.countP fun key => log2ceil key ≤ s + 1) =
      (keys.countP fun key => log2ceil key ≤ s) + keys.countP fun key => log2ceil key = s + 1 := by
  induction keys with
  | nil => rfl
  | cons k keys ih =>
    simp only [List.countP_cons, ih, decide_eq_true_eq]
    split <;> split <;> split <;> omega

/-- The loop ends no higher than it starts. -/
theorem shrinkIn_le (counts : ℕ → ℕ) (s arrCount : ℕ) : (shrinkIn counts s arrCount).1 ≤ s := by
  induction s generalizing arrCount with
  | zero => exact le_rfl
  | succ s ih =>
    rw [shrinkIn]
    split
    · exact (ih _).trans (Nat.le_succ s)
    · split
      · exact le_rfl
      · exact (ih _).trans (Nat.le_succ s)

/-- The loop counts the keys of the buckets that are left, and ends at a size of which a tenth is used
or at the smallest. -/
theorem shrinkIn_spec (keys : List ℕ) (hkeys : keys.length < 2 ^ 32) (s : ℕ) :
    let r := shrinkIn (histogram keys) s (keys.countP fun key => log2ceil key ≤ s)
    r.2 = (keys.countP fun key => log2ceil key ≤ r.1) ∧
      (r.1 = 0 ∨ (keys.countP fun key => log2ceil key = r.1) ≠ 0 ∧ 2 ^ r.1 ≤ 10 * r.2) := by
  induction s with
  | zero => exact ⟨rfl, .inl rfl⟩
  | succ s ih =>
    have hle := List.countP_le_length (p := fun key => decide (log2ceil key = s + 1)) (l := keys)
    have hle' := List.countP_le_length (p := fun key => decide (log2ceil key ≤ s + 1)) (l := keys)
    have hhist : histogram keys (s + 1) = keys.countP fun key => log2ceil key = s + 1 :=
      Nat.mod_eq_of_lt (by omega)
    have hsplit := countP_le_succ keys s
    simp only [shrinkIn, hhist]
    by_cases hzero : (keys.countP fun key => log2ceil key = s + 1) = 0
    · rw [if_pos hzero, hsplit, hzero, Nat.add_zero]
      exact ih
    · rw [if_neg hzero]
      by_cases hfull : 2 ^ (s + 1) ≤ 10 * keys.countP fun key => log2ceil key ≤ s + 1
      · rw [if_pos hfull]
        exact ⟨rfl, .inr ⟨hzero, hfull⟩⟩
      · rw [if_neg hfull, show ((keys.countP fun key => log2ceil key ≤ s + 1) + 2 ^ 32 -
          keys.countP fun key => log2ceil key = s + 1) % 2 ^ 32 = keys.countP fun key => log2ceil key ≤ s by
            omega]
        exact ih

/-- The last bucket decides at once where it has keys and a tenth of its size is used. -/
theorem shrinkIn_max {counts : ℕ → ℕ} {arrCount : ℕ} (hcounts : counts maxArrSize ≠ 0)
    (hfull : 2 ^ maxArrSize ≤ 10 * arrCount) :
    shrinkIn counts maxArrSize arrCount = (maxArrSize, arrCount) := by
  rw [show maxArrSize = 15 + 1 from rfl] at *
  rw [shrinkIn, if_neg hcounts, if_pos hfull]

end Buckets

section Insert

variable {hash} {t t' : IntTable ν}

omit [Inhabited ν] in
/-- The keys of the array part come first in an iteration. -/
theorem keys_eq (t : IntTable ν) : (t.pairs hash).map Prod.fst =
    (List.range t.arraySize).filter t.presence ++ (t.t.iterate (ops hash)).map Prod.fst := by
  rw [pairs_eq, List.map_append, List.map_map]
  simp [Function.comp_def]

omit [Inhabited ν] in
/-- The number of keys. -/
theorem length_pairs (hinv : Inv hash t) : (t.pairs hash).length = t.t.count + t.arrayCount := by
  rw [pairs_eq, List.length_append, List.length_map, Table.length_iterate hinv.wf, hinv.arrayCount_eq,
    List.countP_eq_length_filter, Nat.add_comm]

omit [Inhabited ν] in
/-- The keys below the size of the array part are those that it counts. -/
theorem countP_keys (hinv : Inv hash t) :
    (((t.pairs hash).map Prod.fst).countP fun k => k < t.arraySize) = t.arrayCount := by
  rw [keys_eq, List.countP_append, hinv.arrayCount_eq, List.countP_eq_length_filter (l := List.range _)]
  have hlow : ((List.range t.arraySize).filter t.presence).countP (fun k => decide (k < t.arraySize)) =
      ((List.range t.arraySize).filter t.presence).length :=
    List.countP_eq_length.mpr fun k hk => by simpa using (List.mem_filter.mp hk).1
  have hhigh : ((t.t.iterate (ops hash)).map Prod.fst).countP (fun k => decide (k < t.arraySize)) = 0 := by
    refine List.countP_eq_zero.mpr fun k hk => ?_
    obtain ⟨e, he, rfl⟩ := List.mem_map.mp hk
    obtain ⟨i, hi, rfl⟩ := Table.mem_iterate.mp he
    have := hinv.key_ge i hi
    simp only [decide_eq_true_eq, not_lt]
    exact this
  rw [hlow, hhigh, Nat.add_zero]

omit [Inhabited ν] in
/-- Tables with the same lookups list the same keys. -/
theorem keys_perm (hinv : Inv hash t) (hinv' : Inv hash t') (h : lookup hash t' = lookup hash t) :
    ((t'.pairs hash).map Prod.fst).Perm ((t.pairs hash).map Prod.fst) := by
  obtain ⟨hnodup, hmem⟩ := pairs_spec hinv
  obtain ⟨hnodup', hmem'⟩ := pairs_spec hinv'
  refine ((List.perm_ext_iff_of_nodup hnodup'.of_map hnodup.of_map).mpr fun p => ?_).map _
  rw [hmem, hmem', h]

/-- An insertion into a table that is not full adds to the count of the part that takes the key. -/
theorem insertIn_count (hinv : Inv hash t) {k : ℕ} {v : ν} (hnew : lookup hash t k = none)
    {mem mem' : Memory} {ok : Bool} (h : insertIn hash t k v mem = some ((ok, t'), mem'))
    (hroom : ¬ k < t.arraySize → t.t.count < Table.loadLimit t.t.size) :
    t'.t.size = t.t.size ∧ t'.t.count = t.t.count + if k < t.arraySize then 0 else 1 := by
  rw [insertIn] at h
  by_cases hk : k < t.arraySize
  · rw [if_pos hk, insert, if_pos hk] at h
    cases h
    rw [if_pos hk]
    exact ⟨rfl, rfl⟩
  · have hfull : t.t.isfull = false := by
      rw [Table.isfull, beq_eq_false_iff_ne]
      exact (hroom hk).ne
    rw [if_neg hk, Table.reserveIn_of_not_full (ops hash) hfull, Option.bind_some] at h
    obtain ⟨new, hins, heq⟩ := Option.map_eq_some_iff.mp h
    cases heq
    have hempty : (ops hash : KeyOps ℕ ν ℕ).isempty k = false := by
      have := hinv.arraySize_pos
      simp [ops]
      omega
    have hnone : t.t.toMap (ops hash) hash (keyOf k v) = none := by
      rw [lookup, if_neg hk] at hnew
      exact hnew
    have hspec := Table.insert_spec ops_lawful hinv.wf hempty
      ((Table.toMap_eq_none ops_lawful hinv.wf).mp hnone) hins
    rw [if_neg hk]
    exact ⟨by rw [Table.size, hspec.mask_eq, Table.size], hspec.count_eq⟩

/-- The insertion of pairs with new and distinct keys returns; if the hash part has room for those
that belong there, all of them are in the table. -/
theorem insertAllIn_spec (es : List (ℕ × ν)) (hinv : Inv hash t) (hload : t.t.Loaded)
    (hnew : ∀ e ∈ es, lookup hash t e.1 = none) (hnodup : (es.map Prod.fst).Nodup) (mem : Memory) :
    ∃ t' mem', insertAllIn hash t es mem = some (t', mem') ∧ Inv hash t' ∧ t'.t.Loaded ∧
      t'.arraySize = t.arraySize ∧
      (t.t.count + (es.countP fun e => t.arraySize ≤ e.1) ≤ Table.loadLimit t.t.size →
        ∀ k v, lookup hash t' k = some v ↔ lookup hash t k = some v ∨ (k, v) ∈ es) := by
  induction es generalizing t mem with
  | nil => exact ⟨t, mem, rfl, hinv, hload, rfl, fun _ k v => by simp⟩
  | cons e es ih =>
    obtain ⟨k, v⟩ := e
    have hk := hnew (k, v) List.mem_cons_self
    obtain ⟨ok, t₁, mem₁, hins, hinv₁, hload₁, hsize₁, hlookup₁, hfull⟩ := insertIn_spec hinv hload v hk mem
    obtain ⟨hkes, hnodup'⟩ := List.nodup_cons.mp hnodup
    have hnew₁ : ∀ e ∈ es, lookup hash t₁ e.1 = none := by
      intro e he
      have hne : e.1 ≠ k := by
        intro heq
        exact hkes (List.mem_map.mpr ⟨e, he, heq⟩)
      rw [hlookup₁]
      split
      · rw [Function.update_of_ne hne]
        exact hnew e (List.mem_cons_of_mem _ he)
      · exact hnew e (List.mem_cons_of_mem _ he)
    obtain ⟨t', mem', hall, hinv', hload', hsize', hlookup'⟩ := ih hinv₁ hload₁ hnew₁ hnodup' mem₁
    refine ⟨t', mem', by rw [insertAllIn, hins]; exact hall, hinv', hload', hsize'.trans hsize₁, ?_⟩
    intro hroom l w
    rw [List.countP_cons] at hroom
    have hlt : ¬ k < t.arraySize → t.t.count < Table.loadLimit t.t.size := by
      intro hge
      simp only [not_lt.mp hge, decide_true, ↓reduceIte] at hroom
      omega
    obtain ⟨htable, hcount⟩ := insertIn_count hinv hk hins hlt
    have hok : ok = true := by
      by_contra hfalse
      obtain ⟨hge, hisfull⟩ := hfull (by simpa using hfalse)
      have hne := (hlt hge).ne
      rw [Table.isfull, beq_iff_eq] at hisfull
      exact hne hisfull
    have hroom₁ : t₁.t.count + (es.countP fun e => t₁.arraySize ≤ e.1) ≤ Table.loadLimit t₁.t.size := by
      rw [htable, hcount, hsize₁]
      refine le_trans (le_of_eq ?_) hroom
      by_cases hlow : k < t.arraySize
      · simp [hlow]
      · simp only [hlow, not_lt.mp hlow, decide_true, ↓reduceIte]
        omega
    rw [hlookup' hroom₁, hlookup₁, hok, if_pos rfl, Function.update_apply, List.mem_cons, Prod.mk.injEq]
    by_cases hl : l = k
    · subst hl
      simp only [if_true, Option.some.injEq, hk, true_and, reduceCtorEq, false_or]
      exact or_congr_left eq_comm
    · simp [hl]

/-- A table that is made is empty, with a hash part and an array part of the sizes asked for. -/
theorem sizedinitIn_spec {asize n : ℕ} {mem mem' : Memory} (h : sizedinitIn hash asize n mem = (some t, mem')) :
    Inv hash t ∧ t.t.Loaded ∧ t.arraySize = max 1 asize ∧ t.t.count = 0 ∧ t.t.size = 2 ^ n ∧
      lookup hash t = fun _ => none := by
  have hmade := sizedinit_of_sizedinitIn h
  obtain ⟨hinv, hload, hempty⟩ := inv_of_sizedinit hmade
  obtain ⟨base, hbase, rfl⟩ := Option.map_eq_some_iff.mp hmade
  obtain ⟨-, hcount, hmask, -⟩ := Table.init_spec ops_lawful hbase
  have hpos := Nat.one_le_two_pow (n := n)
  refine ⟨hinv, hload, rfl, hcount, ?_, hempty⟩
  rw [Table.size, hmask]
  omega

/-- With memory, a table of a size that the hash part may have is made. -/
theorem sizedinitIn_isSome (asize : ℕ) {n : ℕ} (hn : n < 32) {mem : Memory} (h₀ : mem.head = true)
    (h₁ : mem.tail.head = true) : ∃ (t : IntTable ν) (mem' : Memory), sizedinitIn hash asize n mem = (some t, mem') := by
  rw [sizedinitIn, Table.initIn, if_neg (by omega), if_pos h₀, Table.init, if_neg (by omega)]
  simp only [h₁, ↓reduceIte]
  exact ⟨_, _, rfl⟩

end Insert

section Compact

variable {hash} {t t' : IntTable ν}

/-- The keys are few, or none is beyond the last size of the array part. -/
def FewOrSmall (hash : ℕ → ℕ) (t : IntTable ν) : Prop :=
  10 * (t.pairs hash).length < 2 ^ maxArrSize ∨ ∀ k, lookup hash t k ≠ none → k < 2 ^ maxArrSize

/-- What a compaction returns; with memory for the new table it succeeds. -/
theorem compactIn_spec (hinv : Inv hash t) (mem : Memory) :
    ∃ ok t' mem', compactIn hash t mem = some ((ok, t'), mem') ∧ Inv hash t' ∧ (ok = false → t' = t) ∧
      (ok = true → t'.t.Loaded ∧ t'.arraySize = max 1 (sizeParam (compactSizes hash t).1) ∧
        (((t.pairs hash).map Prod.fst).countP (fun k => t'.arraySize ≤ k) ≤
          Table.loadLimit (2 ^ log2ceil (hashSize (compactSizes hash t).2)) →
        lookup hash t' = lookup hash t)) ∧
      (mem.head = true → mem.tail.head = true → ok = true) := by
  obtain ⟨hnodup, hmem⟩ := pairs_spec hinv
  have hlog := log2ceil_lt (hashSize (compactSizes hash t).2)
  rw [compactIn]
  cases hmade : (sizedinitIn hash (sizeParam (compactSizes hash t).1)
      (log2ceil (hashSize (compactSizes hash t).2)) mem : Option (IntTable ν) × Memory) with
  | mk o mem₁ =>
    cases o with
    | none =>
      refine ⟨false, t, mem₁, rfl, hinv, fun _ => rfl, by simp, fun h₀ h₁ => ?_⟩
      obtain ⟨new, mem', h⟩ : ∃ (new : IntTable ν) (mem' : Memory), _ = (some new, mem') :=
        sizedinitIn_isSome (sizeParam (compactSizes hash t).1) hlog h₀ h₁
      rw [hmade] at h
      cases h
    | some new =>
      obtain ⟨hinv₀, hload₀, harr, hcount, htable, hempty⟩ := sizedinitIn_spec hmade
      obtain ⟨t', mem', hall, hinv', hload', hsize', hlookup'⟩ :=
        insertAllIn_spec (t.pairs hash) hinv₀ hload₀ (fun e _ => by rw [hempty]) hnodup mem₁
      refine ⟨true, t', mem', by rw [moveAllIn, hall]; rfl, hinv', by simp, fun _ => ⟨hload', hsize'.trans harr, fun hroom => ?_⟩,
        fun _ _ => rfl⟩
      rw [hsize', List.countP_map] at hroom
      have hput := hlookup' (by
        rw [hcount, htable, Nat.zero_add]
        exact hroom)
      funext k
      ext v
      rw [hput, hempty]
      simp [hmem]

/-- Distinct numbers below a bound are at most as many. -/
theorem length_le_of_lt {keys : List ℕ} (hnodup : keys.Nodup) {n : ℕ} (h : ∀ k ∈ keys, k < n) :
    keys.length ≤ n := by
  have hsub : keys ⊆ List.range n := fun k hk => List.mem_range.mpr (h k hk)
  simpa using (List.subperm_of_subset hnodup hsub).length_le

/-- The sizes that the loop chooses, where the keys are few or small: all keys that the array part is
to hold are below its size and all others are not, the hash part is to hold the others, and both sizes
are within bounds. -/
structure GoodSizes (keys : List ℕ) (arrSize hashCount : ℕ) : Prop where
  split : (keys.countP fun k => arrSize ≤ k) = hashCount
  hash_le : hashCount ≤ 2 ^ 15 + 1
  arr_le : arrSize ≤ 2 ^ maxArrSize
  filled : arrSize = 1 ∨ arrSize ≤ 10 * keys.countP fun k => k < arrSize

/-- The buckets up to the last one that is used hold the keys up to the largest of that one. -/
theorem log2ceil_le_iff_lt_maxKey {keys : List ℕ} {s : ℕ} (hs : s ≤ maxArrSize)
    (hb : s = 0 ∨ (keys.countP fun key => log2ceil key = s) ≠ 0) {k : ℕ} (hk : k ∈ keys) :
    log2ceil k ≤ s ↔ k < maxKey keys s + 1 := by
  rw [Nat.lt_succ_iff]
  constructor
  · intro hle
    rcases Nat.lt_or_eq_of_le hle with hlt | rfl
    · rcases hb with rfl | hb
      · omega
      · -- the bucket below ends where this one begins
        obtain ⟨s, rfl⟩ : ∃ r, s = r + 1 := ⟨s - 1, by omega⟩
        have hk' := (log2ceil_le_iff (by omega)).mp (Nat.le_of_lt_succ hlt)
        have hmax := (maxKey_mem hb).2
        by_contra hgt
        have hsmall := (log2ceil_le_iff (s := s) (by omega)).mpr (show maxKey keys (s + 1) ≤ 2 ^ s by omega)
        omega
    · exact le_maxKey hk
  · intro hle
    rcases Nat.lt_or_eq_of_le hs with hlt | rfl
    · exact (log2ceil_le_iff hlt).mpr (hle.trans (maxKey_le keys hlt))
    · exact log2ceil_le_max k

/-- Where the last bucket is not chosen although a tenth of its size is used, it is empty. -/
theorem le_of_shrinkIn_lt (keys : List ℕ) (hkeys : keys.length < 2 ^ 32)
    (hfull : 2 ^ maxArrSize ≤ 10 * keys.length)
    (hlt : (shrinkIn (histogram keys) maxArrSize keys.length).1 < maxArrSize) {k : ℕ} (hk : k ∈ keys) :
    k ≤ 2 ^ 15 := by
  have hzero : histogram keys maxArrSize = 0 := by
    by_contra hne
    rw [shrinkIn_max hne hfull] at hlt
    exact lt_irrefl _ hlt
  have hle := List.countP_le_length (p := fun key => decide (log2ceil key = maxArrSize)) (l := keys)
  rw [histogram, Nat.mod_eq_of_lt (by omega), List.countP_eq_zero] at hzero
  have hne := hzero k hk
  have hmax := log2ceil_le_max k
  rw [decide_eq_true_eq] at hne
  exact (log2ceil_le_iff (show 15 < maxArrSize by decide)).mp (Nat.le_of_lt_succ (lt_of_le_of_ne hmax hne))

/-- Few or small keys get good sizes. -/
theorem goodSizes {keys : List ℕ} (hnodup : keys.Nodup)
    (h : 10 * keys.length < 2 ^ maxArrSize ∨ ∀ k ∈ keys, k < 2 ^ maxArrSize) {s a : ℕ}
    (hr : shrinkIn (histogram keys) maxArrSize keys.length = (s, a)) :
    a ≤ keys.length ∧ GoodSizes keys (maxKey keys s + 1) (keys.length - a) := by
  have hmax : 2 ^ maxArrSize = 2 ^ 16 := rfl
  have hlen : keys.length ≤ 2 ^ 16 := by
    rcases h with h | h
    · omega
    · exact length_le_of_lt hnodup h
  have hall : (keys.countP fun key => log2ceil key ≤ maxArrSize) = keys.length :=
    List.countP_eq_length.mpr fun k _ => by simpa using log2ceil_le_max k
  have hle := shrinkIn_le (histogram keys) maxArrSize keys.length
  obtain ⟨ha, hfull⟩ := shrinkIn_spec keys (by omega) maxArrSize
  have hlast := le_of_shrinkIn_lt keys (by omega)
  rw [hall] at ha hfull
  rw [hr] at ha hfull hle hlast
  simp only at ha hfull hle hlast
  have hiff := fun k (hk : k ∈ keys) => log2ceil_le_iff_lt_maxKey hle (hfull.imp_right And.left) hk
  have hlow : (keys.countP fun k => k < maxKey keys s + 1) = a := by
    rw [ha]
    exact List.countP_congr fun k hk => by simpa using (hiff k hk).symm
  have hale : a ≤ keys.length := ha ▸ List.countP_le_length
  have hhigh : (keys.countP fun k => maxKey keys s + 1 ≤ k) = keys.length - a := by
    have hsplit := List.length_eq_countP_add_countP (fun k => decide (k < maxKey keys s + 1)) (l := keys)
    simp only [decide_eq_true_eq, not_lt, hlow] at hsplit
    omega
  have hbound (hs : s < maxArrSize) : maxKey keys s ≤ 2 ^ s := maxKey_le keys hs
  have htop (hs : s = maxArrSize) : maxKey keys s < 2 ^ maxArrSize := by
    subst hs
    rcases hfull with h₀ | ⟨hne, hfull⟩
    · cases h₀
    · exact (h.resolve_left (by omega)) _ (maxKey_mem hne).1
  have harr : maxKey keys s + 1 ≤ 2 ^ maxArrSize := by
    rcases Nat.lt_or_eq_of_le hle with hs | hs
    · have hpow := Nat.pow_lt_pow_right (a := 2) (by omega) hs
      have := hbound hs
      omega
    · exact htop hs
  refine ⟨hale, hhigh, ?_, harr, ?_⟩
  · rcases Nat.lt_or_ge (10 * keys.length) (2 ^ maxArrSize) with hfew | hmany
    · omega
    · rcases Nat.lt_or_eq_of_le hle with hs | rfl
      · have := length_le_of_lt hnodup fun k hk => Nat.lt_succ_of_le (hlast hmany hs hk)
        omega
      · omega
  · rw [hlow]
    rcases hfull with rfl | ⟨-, hfull⟩
    · have hone := hbound (by decide)
      rcases Nat.eq_zero_or_pos (maxKey keys 0) with hzero | hpos
      · exact .inl (by omega)
      · have hne : (keys.countP fun key => log2ceil key = 0) ≠ 0 := by
          intro hempty
          rw [maxKey_empty hempty] at hpos
          exact lt_irrefl _ hpos
        have hle' : (keys.countP fun key => log2ceil key = 0) ≤ a := by
          rw [ha]
          exact List.countP_mono_left fun k _ hk => by
            rw [decide_eq_true_eq] at hk ⊢
            exact hk.le
        exact .inr (by omega)
    · refine .inr ?_
      rcases Nat.lt_or_eq_of_le hle with hs | rfl
      · -- no power of two is a multiple of ten
        have := hbound hs
        rw [maxArrSize] at hs
        interval_cases s <;> omega
      · exact harr.trans hfull

/-- The hash part has room for the keys that it is made for. -/
theorem le_loadLimit_hashSize {n : ℕ} (hn : n ≤ 2 ^ 15 + 1) :
    n ≤ Table.loadLimit (2 ^ log2ceil (hashSize n)) := by
  by_cases hzero : n = 0
  · rw [hzero]
    exact Nat.zero_le _
  · have hsize : hashSize n = n + 1 + n / 7 := by rw [hashSize, if_neg hzero, entriesNeededFor]
    have hle : log2Ceiling (n + 1 + n / 7) ≤ 16 := (log2Ceiling_le_iff _ _).mpr (by omega)
    have hcap : log2ceil (n + 1 + n / 7) = log2Ceiling (n + 1 + n / 7) := min_eq_right hle
    have hpow := (log2Ceiling_le_iff (n + 1 + n / 7) _).mp le_rfl
    rw [hsize, hcap]
    generalize 2 ^ log2Ceiling (n + 1 + n / 7) = size at hpow
    rw [Table.loadLimit, Nat.shiftRight_eq_div_pow]
    omega

omit [Inhabited ν] in
/-- The sizes in terms of the keys. -/
theorem compactSizes_eq (hinv : Inv hash t) {s a : ℕ}
    (hr : shrinkIn (histogram ((t.pairs hash).map Prod.fst)) maxArrSize ((t.pairs hash).length % 2 ^ 32) = (s, a)) :
    compactSizes hash t = (maxKey ((t.pairs hash).map Prod.fst) s + 1,
      ((t.pairs hash).length % 2 ^ 32 + 2 ^ 32 - a) % 2 ^ 32) := by
  rw [compactSizes, ← length_pairs hinv, hr]

/-- With few or small keys a compaction that succeeds does what it promises. -/
theorem compactsWell_of_fewOrSmall (hinv : Inv hash t) (h : FewOrSmall hash t) {mem mem' : Memory}
    (hcompact : compactIn hash t mem = some ((true, t'), mem')) : CompactsWell hash t t' := by
  obtain ⟨hnodup, hmem⟩ := pairs_spec hinv
  have hkeys : 10 * ((t.pairs hash).map Prod.fst).length < 2 ^ maxArrSize ∨
      ∀ k ∈ (t.pairs hash).map Prod.fst, k < 2 ^ maxArrSize := by
    rw [List.length_map]
    refine h.imp_right fun hsmall k hk => ?_
    obtain ⟨⟨k', v⟩, he, rfl⟩ := List.mem_map.mp hk
    exact hsmall k' (by rw [(hmem k' v).mp he]; exact Option.some_ne_none v)
  have hmax : 2 ^ maxArrSize = 2 ^ 16 := rfl
  have hlen : ((t.pairs hash).map Prod.fst).length ≤ 2 ^ 16 := by
    rcases hkeys with h | h
    · omega
    · exact length_le_of_lt hnodup h
  obtain ⟨s, a, hr⟩ : ∃ s a, shrinkIn (histogram ((t.pairs hash).map Prod.fst)) maxArrSize
    ((t.pairs hash).map Prod.fst).length = (s, a) := ⟨_, _, rfl⟩
  obtain ⟨hale, hgood⟩ := goodSizes hnodup hkeys hr
  have hmod : (t.pairs hash).length % 2 ^ 32 = ((t.pairs hash).map Prod.fst).length := by
    rw [List.length_map] at hlen ⊢
    exact Nat.mod_eq_of_lt (by omega)
  have hsizes : compactSizes hash t = (maxKey ((t.pairs hash).map Prod.fst) s + 1,
      ((t.pairs hash).map Prod.fst).length - a) := by
    have hcount : (((t.pairs hash).map Prod.fst).length + 2 ^ 32 - a) % 2 ^ 32 =
        ((t.pairs hash).map Prod.fst).length - a := by omega
    have hr' := hr
    rw [← hmod] at hr'
    rw [compactSizes_eq hinv hr', hmod, hcount]
  obtain ⟨ok, t₁, mem₁, hret, hinv', -, hok, -⟩ := compactIn_spec hinv mem
  rw [hcompact] at hret
  cases hret
  obtain ⟨-, harr, hlookup⟩ := hok rfl
  have harr' : t'.arraySize = maxKey ((t.pairs hash).map Prod.fst) s + 1 := by
    have hle := hgood.arr_le
    rw [harr, hsizes, sizeParam]
    simp only
    omega
  rw [hsizes, harr'] at hlookup
  have hsame := hlookup (by
    rw [hgood.split]
    exact le_loadLimit_hashSize hgood.hash_le)
  refine ⟨hsame, by rw [harr', hsizes], ?_⟩
  have hcount : t'.arrayCount = ((t.pairs hash).map Prod.fst).countP fun k => k < t'.arraySize := by
    rw [← countP_keys hinv']
    exact (keys_perm hinv hinv' hsame).countP_eq _
  rw [hcount, harr']
  exact hgood.filled.imp_right fun hfilled => ⟨hfilled, hgood.arr_le⟩

/-- With many keys of which one is large, a compaction for which there is memory does not do what it
promises. -/
theorem not_compactsWell (hinv : Inv hash t) (h : ¬ FewOrSmall hash t) (mem : Memory) (h₀ : mem.head = true)
    (h₁ : mem.tail.head = true) :
    ∃ t' mem', compactIn hash t mem = some ((true, t'), mem') ∧ ¬ CompactsWell hash t t' := by
  obtain ⟨ok, t', mem', hret, hinv', -, hok, hmade⟩ := compactIn_spec hinv mem
  obtain rfl := hmade h₀ h₁
  refine ⟨t', mem', hret, fun hwell => ?_⟩
  obtain ⟨hload', -, -⟩ := hok rfl
  obtain ⟨-, hmem⟩ := pairs_spec hinv
  obtain ⟨hmany, k, hk, hlarge⟩ : ¬ 10 * (t.pairs hash).length < 2 ^ maxArrSize ∧
      ∃ k, lookup hash t k ≠ none ∧ 2 ^ maxArrSize ≤ k := by
    rw [FewOrSmall] at h
    push Not at h
    exact ⟨by omega, h.2⟩
  have hkey : k ∈ (t.pairs hash).map Prod.fst := by
    obtain ⟨v, hv⟩ := Option.ne_none_iff_exists'.mp hk
    exact List.mem_map.mpr ⟨(k, v), (hmem k v).mpr hv, rfl⟩
  have hmax : 2 ^ maxArrSize = 2 ^ 16 := rfl
  obtain ⟨s, a, hr⟩ : ∃ s a, shrinkIn (histogram ((t.pairs hash).map Prod.fst)) maxArrSize
    ((t.pairs hash).length % 2 ^ 32) = (s, a) := ⟨_, _, rfl⟩
  have harr : t'.arraySize = maxKey ((t.pairs hash).map Prod.fst) s + 1 := by
    rw [hwell.size_eq, compactSizes_eq hinv hr]
  have hsle : s ≤ maxArrSize := by
    have := shrinkIn_le (histogram ((t.pairs hash).map Prod.fst)) maxArrSize ((t.pairs hash).length % 2 ^ 32)
    rwa [hr] at this
  rcases Nat.lt_or_eq_of_le hsle with hs | rfl
  · -- the counts have wrapped around: there are more keys than the new table can hold
    have hpow := Nat.pow_le_pow_right (show 0 < 2 by omega) (show s ≤ 15 from Nat.le_of_lt_succ hs)
    have hkeymax := maxKey_le ((t.pairs hash).map Prod.fst) hs
    have hlen : (t.pairs hash).length = (t'.pairs hash).length := by
      have := (keys_perm hinv hinv' hwell.lookup_eq).length_eq
      rw [List.length_map, List.length_map] at this
      exact this.symm
    have hlen' := length_pairs hinv'
    have harrcount : t'.arrayCount ≤ t'.arraySize := by
      rw [hinv'.arrayCount_eq]
      exact List.countP_le_length.trans_eq List.length_range
    have htable : t'.t.count ≤ 2 ^ 31 := by
      obtain ⟨j, hj, hmask⟩ := hinv'.wf.mask_eq
      have hjpow := Nat.pow_le_pow_right (show 0 < 2 by omega) (show j ≤ 31 by omega)
      have hjpos := Nat.one_le_two_pow (n := j)
      have hle := hload'.trans (Table.loadLimit_le _)
      rw [Table.size, hmask] at hle
      omega
    have hmod : (t.pairs hash).length % 2 ^ 32 = (t.pairs hash).length := Nat.mod_eq_of_lt (by omega)
    rw [hmod, ← List.length_map (f := Prod.fst)] at hr
    have hsmall := le_of_shrinkIn_lt ((t.pairs hash).map Prod.fst) (by rw [List.length_map]; omega) (by rw [List.length_map]; omega)
      (by rw [hr]; exact hs) hkey
    omega
  · -- the array part would reach up to the largest key
    have hb : log2ceil k = maxArrSize := by
      refine le_antisymm (log2ceil_le_max k) ?_
      by_contra hlt
      have := (log2ceil_le_iff (n := k) (s := 15) (by decide)).mp (Nat.le_of_lt_succ (not_le.mp hlt))
      omega
    have hle := le_maxKey hkey
    rw [hb] at hle
    rcases hwell.filled with hone | ⟨-, hsize⟩
    · omega
    · omega

/-- Every table that runs reach meets the invariant and is within its load factor. -/
theorem ReachableIn.inv (h : ReachableIn hash t) : Inv hash t ∧ t.t.Loaded := by
  induction h with
  | init h => exact ⟨(sizedinitIn_spec h).1, (sizedinitIn_spec h).2.1⟩
  | @insert t t' k v ok mem mem' _ hnew hins ih =>
    obtain ⟨ok₁, t₁, mem₁, hret, hinv', hload', -⟩ := insertIn_spec ih.1 ih.2 v hnew mem
    rw [hins] at hret
    cases hret
    exact ⟨hinv', hload'⟩
  | step _ hlegal hstep ih =>
    obtain ⟨o₁, t₁, hret, hinv', hload'⟩ := step_returns _ _ ih hlegal
    rw [hstep] at hret
    cases hret
    exact ⟨hinv', hload'⟩
  | @removeiter t j k i v _ hnext hclean ih =>
    refine ⟨(removeiter_meets ih.1 hnext hclean).1, ?_⟩
    rw [IntTable.removeiter, if_neg (not_lt.mpr hclean.1), Table.Loaded, Table.size, Table.removeiter_mask,
      Table.removeiter_count]
    exact (Nat.sub_le _ _).trans ih.2
  | @compact t t' ok mem mem' _ hcompact ih =>
    obtain ⟨ok₁, t₁, mem₁, hret, hinv', hfalse, htrue, -⟩ := compactIn_spec ih.1 mem
    rw [hcompact] at hret
    cases hret
    cases ok with
    | false => exact hfalse rfl ▸ ih
    | true => exact ⟨hinv', (htrue rfl).1⟩

/-- The insertion of new and distinct keys one by one is a run. -/
theorem ReachableIn.insertAll {es : List (ℕ × ν)} (h : ReachableIn hash t)
    (hnew : ∀ e ∈ es, lookup hash t e.1 = none) (hnodup : (es.map Prod.fst).Nodup)
    (hall : insertAll hash t es = some t') : ReachableIn hash t' := by
  induction es generalizing t with
  | nil =>
    cases hall
    exact h
  | cons e es ih =>
    rw [IntTable.insertAll, List.foldlM_cons] at hall
    obtain ⟨t₁, hins, hrest⟩ := Option.bind_eq_some_iff.mp hall
    obtain ⟨⟨ok, t₂⟩, hret, rfl⟩ := Option.map_eq_some_iff.mp hins
    have hstep : IntTable.step hash t (.insert e.1 e.2) = some (.flag ok, t₂) := by rw [IntTable.step, hret]; rfl
    have hk := hnew e List.mem_cons_self
    obtain ⟨-, hmeets⟩ := step_meets t (.insert e.1 e.2) _ t₂ h.inv.1 hk hstep
    have hlookup : lookup hash t₂ = if ok then Function.update (lookup hash t) e.1 (some e.2)
      else lookup hash t := hmeets
    refine ih (.step (c := .insert e.1 e.2) h hk hstep) (fun e' he' => ?_) (List.nodup_cons.mp hnodup).2 hrest
    have hne : e'.1 ≠ e.1 := by
      intro heq
      exact (List.nodup_cons.mp hnodup).1 (List.mem_map.mpr ⟨e', he', heq⟩)
    rw [hlookup]
    split
    · rw [Function.update_of_ne hne]
      exact hnew e' (List.mem_cons_of_mem _ he')
    · exact hnew e' (List.mem_cons_of_mem _ he')

/-- Every compaction that succeeds keeps the pairs, makes an array part of the size asked for, and
fills it to a tenth within its limit, if and only if the table has fewer than 6554 keys or none from
65536 on. -/
theorem compactsWell_iff (h : ReachableIn hash t) :
    (∀ mem t' mem', compactIn hash t mem = some ((true, t'), mem') → CompactsWell hash t t') ↔
      FewOrSmall hash t := by
  constructor
  · intro hwell
    by_contra hmany
    obtain ⟨t', mem', hret, hbad⟩ := not_compactsWell h.inv.1 hmany (fun _ => true) rfl rfl
    exact hbad (hwell _ t' mem' hret)
  · intro hfew mem t' mem' hret
    exact compactsWell_of_fewOrSmall h.inv.1 hfew hret

/-- A fresh table. -/
private def freshTable : IntTable ℕ where
  t := { entries := Table.zeroed (ops fun _ => 0), count := 0, mask := 7 }
  array := fun _ => 0
  presence := fun _ => false
  arraySize := 1
  arrayCount := 0

private theorem reachableIn_freshTable : ReachableIn (fun _ => 0) freshTable :=
  .init (show sizedinitIn (fun _ => 0) 0 3 (fun _ => true) = (some freshTable, _) from rfl)

/-- A fresh table has few keys and is compacted well, whatever the allocator answers. -/
theorem compactsWell_freshTable : FewOrSmall (fun _ => 0) freshTable ∧ ∀ mem t' mem',
    compactIn (fun _ => 0) freshTable mem = some ((true, t'), mem') →
      CompactsWell (fun _ => 0) freshTable t' := by
  have hfew : FewOrSmall (fun _ => 0) freshTable := by
    refine .inl ?_
    rw [length_pairs reachableIn_freshTable.inv.1]
    decide
  exact ⟨hfew, (compactsWell_iff reachableIn_freshTable).mpr hfew⟩

/-- The keys 0, 1, …, 6552 and that of the number -1. -/
def denseAndMinusOne : List ℕ := List.range 6553 ++ [2 ^ 64 - 1]

/-- A table of these keys gets an array part of one slot where 2^64 slots were asked for. -/
theorem compactIn_truncates_arraySize : ∃ t : IntTable ℕ, ReachableIn (fun _ => 0) t ∧
    (∀ k, lookup (fun _ => 0) t k ≠ none ↔ k ∈ denseAndMinusOne) ∧
    ∃ t' mem', compactIn (fun _ => 0) t (fun _ => true) = some ((true, t'), mem') ∧
      ¬ CompactsWell (fun _ => 0) t t' := by
  have hkeys : (denseAndMinusOne.map fun k => (k, 0)).map Prod.fst = denseAndMinusOne := by
    simp [Function.comp_def]
  have hnodup : denseAndMinusOne.Nodup := by
    refine List.nodup_append.mpr ⟨List.nodup_range, List.nodup_singleton _, fun a ha b hb => ?_⟩
    have := List.mem_range.mp ha
    have := List.mem_singleton.mp hb
    omega
  have hlength : denseAndMinusOne.length = 6554 := by
    rw [denseAndMinusOne, List.length_append, List.length_range, List.length_singleton]
  obtain ⟨hinv, hload⟩ := reachableIn_freshTable.inv
  have hempty : lookup (fun _ => 0) freshTable = fun _ => none := by
    funext k
    simp only [lookup, arrayGet, freshTable, Table.lookup, Table.findentry, Bool.false_eq_true, ↓reduceIte,
      Option.map_none, ite_self]
  obtain ⟨t, hall, hinv', -, hlookup⟩ := insertAll_spec hinv hload
    (show ∀ k, lookup (fun _ => 0) freshTable k ≠ none ↔ k ∈ ([] : List ℕ) by simp [hempty])
    (show ([] ++ (denseAndMinusOne.map fun k => (k, 0)).map Prod.fst).Nodup by
      rw [hkeys, List.nil_append]; exact hnodup) (by
      rw [List.length_map, hlength, List.length_nil, Table.loadLimit, Nat.shiftRight_eq_div_pow]
      omega)
  have hmem (k : ℕ) : lookup (fun _ => 0) t k ≠ none ↔ k ∈ denseAndMinusOne := by
    rw [Option.ne_none_iff_exists']
    simp [hlookup, hempty]
  refine ⟨t, reachableIn_freshTable.insertAll (fun e _ => by rw [hempty]) (by rw [hkeys]; exact hnodup) hall,
    hmem, not_compactsWell hinv' ?_ _ rfl rfl⟩
  rintro (hfew | hsmall)
  · obtain ⟨hnodup', hmem'⟩ := pairs_spec hinv'
    have hperm : ((t.pairs fun _ => 0).map Prod.fst).Perm denseAndMinusOne := by
      refine (List.perm_ext_iff_of_nodup hnodup' hnodup).mpr fun k => ?_
      rw [← hmem, Option.ne_none_iff_exists', List.mem_map]
      constructor
      · rintro ⟨⟨k', v⟩, he, rfl⟩
        exact ⟨v, (hmem' k' v).mp he⟩
      · rintro ⟨v, hv⟩
        exact ⟨(k, v), (hmem' k v).mpr hv, rfl⟩
    have := hperm.length_eq
    rw [List.length_map, hlength] at this
    rw [this, maxArrSize] at hfew
    omega
  · have := hsmall (2 ^ 64 - 1) ((hmem _).mpr (List.mem_append_right _ (List.mem_singleton_self _)))
    rw [maxArrSize] at this
    omega

end Compact

end IntTable

end Upb
