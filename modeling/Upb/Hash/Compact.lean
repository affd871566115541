import Upb.Hash.IntTableInvariant

/-!
# Compaction of an integer table

`upb_inttable_compact` chooses the size of the array part from a histogram of the keys and inserts
every pair into a new table. Whatever sizes it chooses, the new table holds the same pairs; without
the space for a hash part of their number an insertion would refuse.
-/

namespace Upb

namespace IntTable

open Upb.Common (MapCmd MapOut)

variable {ν : Type} [Inhabited ν] (hash : ℕ → ℕ)

/-- `UPB_MAXARRSIZE`. -/
def maxArrSize : ℕ := 16

/-- `log2ceil`, which is capped. -/
def log2ceil (v : ℕ) : ℕ := min maxArrSize (log2Ceiling v)

/-- The loop that halves the array part, from `2^sizeLg2` slots with `arrCount` keys on, until a tenth
of the slots is used: the size and the number of keys in the array part. -/
def shrinkArray (counts : ℕ → ℕ) : ℕ → ℕ → ℕ × ℕ
  | 0, arrCount => (0, arrCount)
  | sizeLg2 + 1, arrCount =>
    if counts (sizeLg2 + 1) = 0 then shrinkArray counts sizeLg2 arrCount
    else if 2 ^ (sizeLg2 + 1) ≤ 10 * arrCount then (sizeLg2 + 1, arrCount)
    else shrinkArray counts sizeLg2 (arrCount - counts (sizeLg2 + 1))

/-- The insertion of the elements into the new table, whose results are not looked at. -/
def insertAll (t : IntTable ν) (es : List (ℕ × ν)) : Option (IntTable ν) :=
  es.foldlM (fun t e => (insert hash t e.1 e.2).map Prod.snd) t

/-- `upb_inttable_compact`, with allocations succeeding. -/
def compact (t : IntTable ν) : Option (Bool × IntTable ν) :=
  let keys := (t.pairs hash).map Prod.fst
  let counts (bucket : ℕ) : ℕ := keys.countP fun key => log2ceil key = bucket
  let maxKey (bucket : ℕ) : ℕ := ((keys.filter fun key => log2ceil key = bucket).max?).getD 0
  let count := t.t.count + t.arrayCount
  let (sizeLg2, arrCount) := shrinkArray counts maxArrSize count
  let arrSize := maxKey sizeLg2 + 1
  let hashCount := count - arrCount
  let hashSize := if hashCount = 0 then 0 else entriesNeededFor hashCount
  match sizedinit hash (arrSize % 2 ^ 32) (log2ceil hashSize) with
  | none => some (false, t)
  | some new => (insertAll hash new (t.pairs hash)).map fun new => (true, new)

variable {hash} {t t' : IntTable ν}

omit [Inhabited ν] in
/-- The hash part has no more entries than there are keys. -/
theorem Inv.count_le (hinv : Inv hash t) {keys : List ℕ} (hkeys : ∀ k, lookup hash t k ≠ none → k ∈ keys) :
    t.t.count ≤ keys.length := by
  obtain ⟨hnodup, hmem⟩ := pairs_spec hinv
  have hsub : (t.pairs hash).map Prod.fst ⊆ keys := by
    intro k hk
    obtain ⟨⟨k', v⟩, he, rfl⟩ := List.mem_map.mp hk
    exact hkeys k' (by rw [(hmem k' v).mp he]; exact Option.some_ne_none v)
  have hlen := (List.subperm_of_subset hnodup hsub).length_le
  have hpart := congrArg List.length (show t.pairs hash = _ from pairs_eq t)
  rw [List.length_append, Table.length_iterate hinv.wf] at hpart
  rw [List.length_map] at hlen
  omega

/-- The insertion of pairs with new and distinct keys for which there is space. -/
theorem insertAll_spec {es : List (ℕ × ν)} {keys : List ℕ} (hinv : Inv hash t) (hload : t.t.Loaded)
    (hkeys : ∀ k, lookup hash t k ≠ none ↔ k ∈ keys) (hnodup : (keys ++ es.map Prod.fst).Nodup)
    (hroom : keys.length + es.length ≤ Table.loadLimit (2 ^ 31)) :
    ∃ t', insertAll hash t es = some t' ∧ Inv hash t' ∧ t'.t.Loaded ∧
      ∀ k v, lookup hash t' k = some v ↔ lookup hash t k = some v ∨ (k, v) ∈ es := by
  induction es generalizing t keys with
  | nil => exact ⟨t, rfl, hinv, hload, by simp⟩
  | cons e es ih =>
    obtain ⟨k, v⟩ := e
    have hk : k ∉ keys := by
      intro hmem
      have := List.disjoint_of_nodup_append hnodup hmem
      simp at this
    have hnew : lookup hash t k = none := by
      by_contra hne
      exact hk ((hkeys k).mp hne)
    obtain ⟨o, t₁, hstep, hinv₁, hload₁⟩ := step_returns t (.insert k v) ⟨hinv, hload⟩ hnew
    obtain ⟨⟨ok, t₂⟩, hins, heq⟩ := Option.map_eq_some_iff.mp hstep
    cases heq
    obtain ⟨-, hmeets⟩ := step_meets t (.insert k v) _ t₁ hinv hnew hstep
    -- the table is not at its size limit, so that the insertion does not refuse
    have hok : ok = true := by
      by_contra hfalse
      rw [Bool.not_eq_true] at hfalse
      subst hfalse
      obtain ⟨hmask, hfull⟩ := insert_refuses hinv hnew hstep
      have hcount := hinv.count_le fun k h => (hkeys k).mp h
      rw [Table.isfull, beq_iff_eq, Table.size, hmask] at hfull
      simp only [List.length_cons] at hroom
      rw [Table.loadLimit] at hroom
      omega
    subst hok
    have hlookup : lookup hash t₁ = Function.update (lookup hash t) k (some v) := hmeets
    have hkeys₁ : ∀ l, lookup hash t₁ l ≠ none ↔ l ∈ keys ++ [k] := by
      intro l
      rw [hlookup, Function.update_apply, List.mem_append, List.mem_singleton, ← hkeys l]
      by_cases hl : l = k
      · simp [hl]
      · simp [hl]
    obtain ⟨t', hall, hinv', hload', hlookup'⟩ := ih hinv₁ hload₁ hkeys₁
      (by simpa using hnodup) (by simp only [List.length_append, List.length_cons, List.length_nil] at hroom ⊢; omega)
    refine ⟨t', ?_, hinv', hload', fun l w => ?_⟩
    · rw [insertAll, List.foldlM_cons, hins]
      exact hall
    · rw [hlookup', hlookup, Function.update_apply, List.mem_cons, Prod.mk.injEq]
      by_cases hl : l = k
      · subst hl
        simp only [if_true, Option.some.injEq, hnew, true_and, reduceCtorEq, false_or]
        exact or_congr_left eq_comm
      · simp [hl]

/-- The insertion of pairs with new and distinct keys keeps the invariant, whether or not there is
space for all of them. -/
theorem insertAll_inv {es : List (ℕ × ν)} (hinv : Inv hash t) (hnew : ∀ e ∈ es, lookup hash t e.1 = none)
    (hnodup : (es.map Prod.fst).Nodup) (h : insertAll hash t es = some t') : Inv hash t' := by
  induction es generalizing t with
  | nil =>
    cases h
    exact hinv
  | cons e es ih =>
    rw [insertAll, List.foldlM_cons] at h
    obtain ⟨t₁, hins, hrest⟩ := Option.bind_eq_some_iff.mp h
    obtain ⟨⟨ok, t₂⟩, hstep, rfl⟩ := Option.map_eq_some_iff.mp hins
    obtain ⟨hinv₁, hmeets⟩ := step_meets t (.insert e.1 e.2) (.flag ok) t₂ hinv (hnew e List.mem_cons_self)
      (by rw [step, hstep]; rfl)
    refine ih hinv₁ (fun e' he' => ?_) (List.nodup_cons.mp hnodup).2 hrest
    have hne : e'.1 ≠ e.1 := by
      intro heq
      exact (List.nodup_cons.mp hnodup).1 (heq ▸ List.mem_map_of_mem he')
    have hold := hnew e' (List.mem_cons_of_mem e he')
    have hlookup : lookup hash t₂ = if ok then Function.update (lookup hash t) e.1 (some e.2)
      else lookup hash t := hmeets
    rw [hlookup]
    split
    · rw [Function.update_of_ne hne, hold]
    · exact hold

theorem compact_inv {ok : Bool} (hinv : Inv hash t) (h : compact hash t = some (ok, t')) : Inv hash t' := by
  obtain ⟨hnodup, hmem⟩ := pairs_spec hinv
  rw [compact] at h
  simp only at h
  split at h
  · cases h
    exact hinv
  · next new hnew =>
    obtain ⟨t₁, hall, heq⟩ := Option.map_eq_some_iff.mp h
    cases heq
    obtain ⟨hinv₀, -, hempty⟩ := inv_of_sizedinit hnew
    exact insertAll_inv hinv₀ (by simp [hempty]) hnodup hall

/-- Compaction returns, keeps the invariant and keeps the pairs. -/
theorem compact_spec (hinv : Inv hash t) (hroom : (t.pairs hash).length ≤ Table.loadLimit (2 ^ 31)) :
    ∃ t', compact hash t = some (true, t') ∧ Inv hash t' ∧ t'.t.Loaded ∧ lookup hash t' = lookup hash t := by
  obtain ⟨hnodup, hmem⟩ := pairs_spec hinv
  have hsmall (n : ℕ) : ¬ 32 ≤ log2ceil n := by
    have : log2ceil n ≤ 16 := Nat.min_le_left _ _
    omega
  have hinit (asize n : ℕ) : ∃ new : IntTable ν, sizedinit hash asize (log2ceil n) = some new :=
    ⟨_, by rw [sizedinit, Table.init, if_neg (hsmall n)]; rfl⟩
  rw [compact]
  simp only
  obtain ⟨new, hnew⟩ := hinit _ _
  rw [hnew]
  obtain ⟨hinv₀, hload₀, hempty⟩ := inv_of_sizedinit hnew
  obtain ⟨t', hall, hinv', hload', hlookup⟩ := insertAll_spec hinv₀ hload₀
    (show ∀ k, lookup hash new k ≠ none ↔ k ∈ ([] : List ℕ) by simp [hempty]) (by simpa using hnodup)
    (by simpa using hroom)
  refine ⟨t', by simp [hall], hinv', hload', ?_⟩
  funext k
  ext v
  rw [hlookup, hempty]
  simp [hmem]

end IntTable

end Upb
