import Upb.Hash.IntTable

/-!
# The invariant of integer tables

Every command of the integer table keeps its invariant and acts on the lookups as on a finite map.
Keys below the size of the array part never touch the hash part and the other way round, so each
operation is either an update of the array or one of the base table.
-/

namespace Upb

open Upb.Common (MapCmd MapOut)

namespace IntTable

variable {ν : Type} {hash : ℕ → ℕ} {t t' : IntTable ν}

theorem ops_lawful : (ops hash : KeyOps _ ν _).Lawful keyOf hash where
  isempty_empty := rfl
  hashfunc_eq _ _ _ := rfl
  eql_iff k v l _ := by simp [ops, keyOf]

/-- A key that the hash part stores is not below the size of the array part. -/
theorem Inv.le_of_stored (hinv : Inv hash t) {k : ℕ} {v : ν}
    (h : t.t.Stored (ops hash) keyOf k v) : t.arraySize ≤ k := by
  obtain ⟨i, hi, rfl, -⟩ := h
  exact hinv.key_ge i hi

/-- The invariant after a change of the hash part only. -/
theorem Inv.with_table (hinv : Inv hash t) {new : Table ℕ ν} (hwf : new.Wf (ops hash) keyOf)
    (hstored : ∀ k v, new.Stored (ops hash) keyOf k v → t.arraySize ≤ k) :
    Inv hash { t with t := new } where
  wf := hwf
  arraySize_pos := hinv.arraySize_pos
  key_ge i hi := hstored _ _ ⟨i, hi, rfl, rfl⟩
  arrayCount_eq := hinv.arrayCount_eq

/-- The lookups after a change of the hash part at one key of its range. -/
theorem lookup_with_table {new : Table ℕ ν} {k : ℕ} {o : Option ν} (hk : ¬ k < t.arraySize)
    (hmap : new.toMap (ops hash) hash = Function.update (t.t.toMap (ops hash) hash) k o) :
    lookup hash { t with t := new } = Function.update (lookup hash t) k o := by
  funext l
  rw [Function.update_apply]
  have hl : new.lookup (ops hash) l (hash l) = _ := congrFun hmap l
  rw [Function.update_apply] at hl
  simp only [lookup, arrayGet]
  split
  · next hlt => rw [if_neg (show l ≠ k by omega)]
  · split <;> simp_all [Table.toMap]

/-- The lookups after a change of the array part at one of its keys. -/
theorem lookup_with_array (hash : ℕ → ℕ) {k : ℕ} {v : ν} {b : Bool} {n : ℕ} (hk : k < t.arraySize) :
    lookup hash { t with
      arrayCount := n, array := Function.update t.array k v
      presence := Function.update t.presence k b } =
    Function.update (lookup hash t) k (if b then some v else none) := by
  funext l
  simp only [lookup, arrayGet, Function.update_apply]
  by_cases hl : l = k
  · subst hl; simp [hk]
  · simp [hl]

section Iterate

/-- Past the array part, the iteration is that of the hash part. -/
theorem pairsFrom_table (hash : ℕ → ℕ) (t : IntTable ν) (fuel : ℕ) (x : ℤ) (hx : -1 ≤ x) :
    t.pairsFrom hash fuel (t.arraySize + x) = t.t.entriesFrom (ops hash) fuel x := by
  induction fuel generalizing x with
  | zero => rfl
  | succ fuel ih =>
    have hstart : t.arraySize ≤ ((t.arraySize : ℤ) + x + 1).toNat := by omega
    have hi : (if ((t.arraySize : ℤ) + x + 1).toNat ≤ t.arraySize then (t.arraySize : ℤ) - 1
        else t.arraySize + x) - t.arraySize = x := by
      split <;> omega
    have hnext : t.next hash (t.arraySize + x) = (t.t.nextIndex (ops hash) x).map fun j =>
        ((t.t.entries j).key, (t.t.entries j).val, (j : ℤ) + t.arraySize) := by
      simp only [next, Nat.sub_eq_zero_of_le hstart, List.range'_zero, List.find?_nil, hi]
    rw [pairsFrom, hnext, Table.entriesFrom]
    cases t.t.nextIndex (ops hash) x with
    | none => rfl
    | some j =>
      simp only [Option.map_some]
      rw [Int.add_comm, ih j (by omega)]

/-- From a slot of the array part, the iteration lists the present slots and then the hash part. -/
private theorem pairsFrom_array (hash : ℕ → ℕ) (t : IntTable ν) (n s fuel : ℕ) (hn : s + n = t.arraySize)
    (hfuel : n + t.t.size ≤ fuel) :
    t.pairsFrom hash fuel (s - 1 : ℤ) =
      ((List.range' s n).filter t.presence).map (fun i => (i, t.array i)) ++
        t.t.iterate (ops hash) := by
  induction n generalizing s fuel with
  | zero =>
    have h := pairsFrom_table hash t fuel (-1) le_rfl
    rw [show ((t.arraySize : ℤ) + -1) = (s - 1 : ℤ) by omega] at h
    rw [h, show (-1 : ℤ) = ((0 : ℕ) : ℤ) - 1 by simp,
      Table.entriesFrom_eq (ops hash) t.t t.t.size 0 fuel (by simp) (by omega), Table.iterate_eq,
      List.range_eq_range']
    simp
  | succ n ih =>
    obtain ⟨fuel, rfl⟩ : ∃ f, fuel = f + 1 := ⟨fuel - 1, by omega⟩
    have hstart : ((s : ℤ) - 1 + 1).toNat = s := by simp
    have hstart' : ((s : ℤ) + 1).toNat = s + 1 := by omega
    have hlen : t.arraySize - s = n + 1 := by omega
    have hlen' : t.arraySize - (s + 1) = n := by omega
    rw [List.range'_succ]
    cases hs : t.presence s with
    | true =>
      have hnext : t.next hash (s - 1 : ℤ) = some (s, t.array s, (s : ℤ)) := by
        simp [next, hlen, List.range'_succ, hs]
      have htail := ih (s + 1) fuel (by omega) (by omega)
      rw [show ((s + 1 : ℕ) - 1 : ℤ) = (s : ℤ) by omega] at htail
      rw [pairsFrom, hnext]
      simp [hs, htail]
    | false =>
      have hnext : t.next hash (s - 1 : ℤ) = t.next hash (s : ℤ) := by
        simp [next, hlen, hlen', List.range'_succ, hs, hstart', show s ≤ t.arraySize by omega,
          show s + 1 ≤ t.arraySize by omega]
      have htail := ih (s + 1) (fuel + 1) (by omega) (by omega)
      rw [show ((s + 1 : ℕ) - 1 : ℤ) = (s : ℤ) by omega] at htail
      rw [pairsFrom] at htail ⊢
      rw [hnext, htail]
      simp [hs]

theorem pairs_eq (t : IntTable ν) :
    t.pairs hash = ((List.range t.arraySize).filter t.presence).map (fun i => (i, t.array i)) ++
      t.t.iterate (ops hash) := by
  have h := pairsFrom_array hash t t.arraySize 0 (t.arraySize + t.t.size) (by simp) le_rfl
  rw [List.range_eq_range']
  simpa [pairs] using h

/-- A full iteration lists the map, with every key once. -/
theorem pairs_spec (hinv : Inv hash t) :
    ((t.pairs hash).map Prod.fst).Nodup ∧
      ∀ k v, (k, v) ∈ t.pairs hash ↔ lookup hash t k = some v := by
  obtain ⟨hnodup, hmem⟩ := Table.iterate_toMap ops_lawful hinv.wf
  have hid : (t.t.iterate (ops hash)).map (fun e => (keyOf e.1 e.2, e.2)) =
      t.t.iterate (ops hash) := List.map_id _
  rw [hid] at hnodup hmem
  have hge : ∀ e ∈ t.t.iterate (ops hash), t.arraySize ≤ e.1 := by
    intro e he
    obtain ⟨i, hi, rfl⟩ := Table.mem_iterate.mp he
    exact hinv.key_ge i hi
  rw [pairs_eq]
  constructor
  · rw [List.map_append, List.map_map]
    refine List.nodup_append.mpr ⟨?_, hnodup, ?_⟩
    · simpa [Function.comp_def] using List.nodup_range.filter _
    · intro a ha b hb hab
      simp only [List.mem_map, List.mem_filter, List.mem_range, Function.comp_apply] at ha hb
      obtain ⟨i, ⟨hi, -⟩, rfl⟩ := ha
      obtain ⟨e, he, rfl⟩ := hb
      have := hge e he
      omega
  · intro k v
    rw [List.mem_append, hmem, lookup]
    by_cases hk : k < t.arraySize
    · have hno : t.t.toMap (ops hash) hash k ≠ some v := by
        intro h
        have := hinv.le_of_stored ((Table.toMap_eq_some ops_lawful hinv.wf).mp h)
        omega
      simp only [hno, or_false, hk, ↓reduceIte, arrayGet]
      constructor
      · simp only [List.mem_map, List.mem_filter, List.mem_range, Prod.mk.injEq]
        rintro ⟨i, ⟨-, hp⟩, rfl, rfl⟩
        simp [hp]
      · intro h
        have hp : t.presence k = true := by
          by_contra hp
          simp [hp] at h
        simp [hp] at h
        simp [hk, hp, h]
    · simp only [hk, ↓reduceIte]
      refine or_iff_right ?_
      simp only [List.mem_map, List.mem_filter, List.mem_range, Prod.mk.injEq]
      rintro ⟨i, ⟨hi, -⟩, rfl, -⟩
      exact hk hi

end Iterate

section Step

/-- What a legal insertion into the hash part means for the base table. -/
private theorem legal_insert (hinv : Inv hash t) {k : ℕ} {v : ν} (hk : ¬ k < t.arraySize)
    (hnew : lookup hash t k = none) :
    (ops hash : KeyOps ℕ ν ℕ).isempty k = false ∧ t.t.toMap (ops hash) hash (keyOf k v) = none := by
  have hpos := hinv.arraySize_pos
  refine ⟨by simp [ops]; omega, ?_⟩
  simp only [lookup, hk, ↓reduceIte] at hnew
  exact hnew

/-- A map that differs from the stored keys at one key of the hash part has all its keys there. -/
theorem le_of_update (hinv : Inv hash t) {new : Table ℕ ν} {k : ℕ} {o : Option ν}
    (hk : ¬ k < t.arraySize) (hwf : new.Wf (ops hash) keyOf)
    (hmap : new.toMap (ops hash) hash = Function.update (t.t.toMap (ops hash) hash) k o) (l : ℕ)
    (v : ν) (h : new.Stored (ops hash) keyOf l v) : t.arraySize ≤ l := by
  have hl := (Table.toMap_eq_some ops_lawful hwf).mpr h
  rw [hmap, Function.update_apply] at hl
  split at hl
  · omega
  · exact hinv.le_of_stored ((Table.toMap_eq_some ops_lawful hinv.wf).mp hl)

variable [Inhabited ν]

theorem inv_of_sizedinit {asize n : ℕ} (h : sizedinit hash asize n = some t) :
    Inv hash t ∧ t.t.Loaded ∧ lookup hash t = fun _ => none := by
  obtain ⟨base, hbase, rfl⟩ := Option.map_eq_some_iff.mp h
  obtain ⟨hwf, hcount, -, hnone⟩ := Table.init_spec ops_lawful hbase
  refine ⟨⟨hwf, Nat.le_max_left 1 asize, fun i hi => absurd ⟨i, hi, rfl, rfl⟩ (hnone _ _), by simp⟩,
    by simp [Table.Loaded, hcount], ?_⟩
  funext k
  have hk : base.lookup (ops hash) k (hash k) = none :=
    congrFun (Table.toMap_empty ops_lawful hwf hnone) k
  simp [lookup, arrayGet, hk]

private theorem insert_meets (hinv : Inv hash t) {k : ℕ} {v : ν} (hnew : lookup hash t k = none)
    {ok : Bool} (h : insert hash t k v = some (ok, t')) :
    Inv hash t' ∧
      lookup hash t' = if ok then Function.update (lookup hash t) k (some v) else lookup hash t := by
  rw [insert] at h
  split at h
  · next hk =>
    cases h
    have hp : t.presence k = false := by
      by_contra hp
      simp [lookup, hk, arrayGet, hp] at hnew
    refine ⟨⟨hinv.wf, hinv.arraySize_pos, hinv.key_ge, ?_⟩, lookup_with_array hash hk⟩
    rw [hinv.arrayCount_eq]
    exact (Table.countP_range_add_one hk hp (by simp) fun i hi => by simp [hi]).symm
  · next hk =>
    obtain ⟨hempty, hnone⟩ := legal_insert (v := v) hinv hk hnew
    obtain ⟨b, t₁, hres, hwf₁, hmap, -, -, hspec, -⟩ :=
      Table.reserve_insert_spec ops_lawful hinv.wf hempty hnone
    rw [hres, Option.bind_some] at h
    simp only at h
    split at h
    · cases h
      have hsame : t₁.toMap (ops hash) hash =
          Function.update (t.t.toMap (ops hash) hash) k (t.t.toMap (ops hash) hash k) := by
        rw [Function.update_eq_self, hmap]
      refine ⟨hinv.with_table hwf₁ (le_of_update hinv hk hwf₁ hsame), ?_⟩
      rw [lookup_with_table hk hsame]
      have hlk : t.t.toMap (ops hash) hash k = lookup hash t k := by simp [lookup, hk, Table.toMap]
      rw [hlk, Function.update_eq_self]
      rfl
    · obtain ⟨t₂, h₂, heq⟩ := Option.map_eq_some_iff.mp h
      cases heq
      obtain ⟨hwf₂, hmap₂, -⟩ := hspec t₂ h₂
      exact ⟨hinv.with_table hwf₂ (le_of_update hinv hk hwf₂ hmap₂), lookup_with_table hk hmap₂⟩

private theorem remove_meets (hinv : Inv hash t) (k : ℕ) :
    Inv hash (remove hash t k).2 ∧ (remove hash t k).1 = lookup hash t k ∧
      lookup hash (remove hash t k).2 = Function.update (lookup hash t) k none := by
  have hself : lookup hash t k = none → lookup hash t = Function.update (lookup hash t) k none :=
    fun h => (Function.update_eq_self_iff.mpr h.symm).symm
  by_cases hk : k < t.arraySize
  · cases hp : t.presence k with
    | true =>
      simp only [remove, hk, ↓reduceIte, hp]
      refine ⟨⟨hinv.wf, hinv.arraySize_pos, hinv.key_ge, ?_⟩, by simp [lookup, hk, arrayGet, hp],
        lookup_with_array hash hk⟩
      have hdrop := Table.countP_range_add_one (p := Function.update t.presence k false) hk
        (by simp) hp (fun i hi => by simp [hi])
      have := hinv.arrayCount_eq
      simp only
      omega
    | false =>
      have hnone : lookup hash t k = none := by simp [lookup, hk, arrayGet, hp]
      simp only [remove, hk, ↓reduceIte, hp, Bool.false_eq_true]
      exact ⟨hinv, hnone.symm, hself hnone⟩
  · have hspec := Table.rm_toMap ops_lawful hinv.wf k
    have hlk : lookup hash t k = t.t.toMap (ops hash) hash k := by simp [lookup, hk, Table.toMap]
    rw [remove, if_neg hk]
    cases hrm : t.t.rm (ops hash) k (hash k) with
    | none =>
      rw [hrm] at hspec
      exact ⟨hinv, (hlk.trans hspec).symm, hself (hlk.trans hspec)⟩
    | some r =>
      obtain ⟨v, t₁⟩ := r
      rw [hrm] at hspec
      obtain ⟨hwf₁, -, -, hv, hmap⟩ := hspec
      exact ⟨hinv.with_table hwf₁ (le_of_update hinv hk hwf₁ hmap), (hlk.trans hv).symm,
        lookup_with_table hk hmap⟩

omit [Inhabited ν] in
private theorem replace_meets (hinv : Inv hash t) (k : ℕ) (v : ν) :
    Inv hash (replace hash t k v).2 ∧ (replace hash t k v).1 = (lookup hash t k).isSome ∧
      lookup hash (replace hash t k v).2 = if (replace hash t k v).1
        then Function.update (lookup hash t) k (some v) else lookup hash t := by
  by_cases hk : k < t.arraySize
  · cases hp : t.presence k with
    | true =>
      simp only [replace, hk, ↓reduceIte, hp]
      refine ⟨⟨hinv.wf, hinv.arraySize_pos, hinv.key_ge, hinv.arrayCount_eq⟩,
        by simp [lookup, hk, arrayGet, hp], ?_⟩
      have h := lookup_with_array hash (t := t) (v := v) (b := true) (n := t.arrayCount) hk
      rwa [show Function.update t.presence k true = t.presence from
        Function.update_eq_self_iff.mpr hp.symm] at h
    | false => simp [replace, hk, hp, hinv, lookup, arrayGet]
  · have hlk : lookup hash t k = t.t.toMap (ops hash) hash k := by simp [lookup, hk, Table.toMap]
    rw [replace, if_neg hk]
    cases hfind : t.t.findentry (ops hash) k (hash k) with
    | none =>
      have hnone : lookup hash t k = none := by simp [hlk, Table.toMap, Table.lookup, hfind]
      simp [hinv, hnone]
    | some e =>
      obtain ⟨hocc, hkey⟩ := (Table.findentry_iff ops_lawful hinv.wf).mp hfind
      obtain ⟨hwf', hmap⟩ := Table.setentryvalue_toMap ops_lawful hinv.wf (fun _ _ _ => rfl) hocc v
      rw [hkey] at hmap
      refine ⟨hinv.with_table hwf' (le_of_update hinv hk hwf' hmap), ?_, lookup_with_table hk hmap⟩
      simp [hlk, Table.toMap, Table.lookup, hfind]

/-- Every command keeps the invariant and acts on the lookups as on a finite map. -/
theorem step_meets (t : IntTable ν) (c : MapCmd ℕ ν) (o : MapOut ℕ ν) (t' : IntTable ν)
    (hinv : Inv hash t) (hlegal : Legal hash t c) (h : step hash t c = some (o, t')) :
    Inv hash t' ∧ c.Meets (lookup hash t) o (lookup hash t') := by
  cases c with
  | insert k v =>
    obtain ⟨⟨ok, t₂⟩, hins, heq⟩ := Option.map_eq_some_iff.mp h
    cases heq
    exact insert_meets hinv hlegal hins
  | remove k =>
    cases h
    exact remove_meets hinv k
  | lookup k =>
    cases h
    exact ⟨hinv, rfl, rfl⟩
  | replace k v =>
    cases h
    exact replace_meets hinv k v
  | resize n => cases hlegal
  | clear =>
    cases h
    obtain ⟨hwf', hnone⟩ := Table.clear_spec ops_lawful hinv.wf
    refine ⟨⟨hwf', hinv.arraySize_pos, fun i hi => absurd ⟨i, hi, rfl, rfl⟩ (hnone _ _),
      by simp [clear]⟩, rfl, ?_⟩
    funext k
    have hk : (t.t.clear (ops hash)).lookup (ops hash) k (hash k) = none :=
      congrFun (Table.toMap_empty ops_lawful hwf' hnone) k
    simp [lookup, arrayGet, clear, hk]
  | iterate =>
    cases h
    obtain ⟨hnodup, hmem⟩ := pairs_spec hinv
    exact ⟨hinv, hnodup, hmem, rfl⟩

/-- An insertion refuses only at the size limit of the hash part. -/
theorem insert_refuses {k : ℕ} {v : ν} (hinv : Inv hash t) (hnew : lookup hash t k = none)
    (h : step hash t (.insert k v) = some (.flag false, t')) :
    t.t.mask = 2 ^ 31 - 1 ∧ t.t.isfull = true := by
  obtain ⟨⟨ok, t₂⟩, hins, heq⟩ := Option.map_eq_some_iff.mp h
  cases heq
  rw [insert] at hins
  split at hins
  · cases hins
  · next hk =>
    obtain ⟨hempty, hnone⟩ := legal_insert (v := v) hinv hk hnew
    obtain ⟨b, t₁, hres, -, -, hfalse, -⟩ :=
      Table.reserve_insert_spec ops_lawful hinv.wf hempty hnone
    rw [hres, Option.bind_some] at hins
    simp only at hins
    split at hins
    · next hb => exact hfalse (by simpa using hb)
    · obtain ⟨t₃, h₃, heq⟩ := Option.map_eq_some_iff.mp hins
      cases heq

/-- A table whose hash part is within its load factor executes every command, and stays so. -/
theorem step_returns (t : IntTable ν) (c : MapCmd ℕ ν) (hinv : Inv hash t ∧ t.t.Loaded)
    (hlegal : Legal hash t c) :
    ∃ o t', step hash t c = some (o, t') ∧ Inv hash t' ∧ t'.t.Loaded := by
  obtain ⟨hinv, hload⟩ := hinv
  suffices ∃ o t', step hash t c = some (o, t') ∧ t'.t.Loaded by
    obtain ⟨o, t', h, hload'⟩ := this
    exact ⟨o, t', h, (step_meets t c o t' hinv hlegal h).1, hload'⟩
  cases c with
  | insert k v =>
    rw [step, insert]
    split
    · exact ⟨_, _, rfl, hload⟩
    · next hk =>
      obtain ⟨hempty, hnone⟩ := legal_insert (v := v) hinv hk hlegal
      obtain ⟨b, t₁, hres, -, -, -, hload₁, -, hret⟩ :=
        Table.reserve_insert_spec ops_lawful hinv.wf hempty hnone
      rw [hres, Option.bind_some]
      cases b with
      | false => exact ⟨_, _, rfl, hload₁ hload⟩
      | true =>
        obtain ⟨t₂, h₂, hload₂⟩ := hret hload rfl
        exact ⟨.flag true, { t with t := t₂ }, by
          simp [show t₁.insert (ops hash) k v (hash k) = some t₂ from h₂], hload₂⟩
  | remove k =>
    refine ⟨.value (remove hash t k).1, (remove hash t k).2, rfl, ?_⟩
    rw [remove]
    split
    · split <;> exact hload
    · have hspec := Table.rm_toMap ops_lawful hinv.wf k
      cases hrm : t.t.rm (ops hash) k (hash k) with
      | none => exact hload
      | some r =>
        obtain ⟨v, t₁⟩ := r
        rw [hrm] at hspec
        simp only [Table.Loaded, Table.size, hspec.2.1]
        exact (Nat.le.intro hspec.2.2.1).trans hload
  | lookup k => exact ⟨_, _, rfl, hload⟩
  | replace k v =>
    refine ⟨.flag (replace hash t k v).1, (replace hash t k v).2, rfl, ?_⟩
    rw [replace]
    split
    · split <;> exact hload
    · split <;> exact hload
  | resize n => cases hlegal
  | clear => exact ⟨_, _, rfl, Nat.zero_le _⟩
  | iterate => exact ⟨_, _, rfl, hload⟩

end Step

end IntTable

end Upb
