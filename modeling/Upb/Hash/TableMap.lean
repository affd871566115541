import Upb.Common.MapRun
import Upb.Hash.TableGrow
import Upb.Hash.TableRemove

/-!
# The base hash table as a finite map

`toMap t` is the finite map that the lookups of a table compute. Each operation of the base table
acts on it as the corresponding map operation.
-/

namespace Upb

namespace Table

variable {κ ν ℓ : Type} {ops : KeyOps κ ν ℓ} {keyOf : κ → ν → ℓ} {hash : ℓ → ℕ} {t t' : Table κ ν}

/-- The finite map that the lookups of `t` compute. -/
def toMap (ops : KeyOps κ ν ℓ) (hash : ℓ → ℕ) (t : Table κ ν) (l : ℓ) : Option ν :=
  t.lookup ops l (hash l)

section Map

variable (hops : ops.Lawful keyOf hash)

include hops

theorem toMap_eq_some (hwf : t.Wf ops keyOf) {l : ℓ} {v : ν} :
    t.toMap ops hash l = some v ↔ t.Stored ops keyOf l v := lookup_iff hops hwf

theorem toMap_eq_none (hwf : t.Wf ops keyOf) {l : ℓ} :
    t.toMap ops hash l = none ↔ ∀ v, ¬ t.Stored ops keyOf l v := by
  simp [Option.eq_none_iff_forall_ne_some, toMap_eq_some hops hwf]

/-- Tables that store the same pairs compute the same map. -/
theorem toMap_congr (hwf : t.Wf ops keyOf) (hwf' : t'.Wf ops keyOf)
    (h : ∀ l v, t'.Stored ops keyOf l v ↔ t.Stored ops keyOf l v) :
    t'.toMap ops hash = t.toMap ops hash := by
  funext l
  ext v
  rw [toMap_eq_some hops hwf', toMap_eq_some hops hwf, h]

theorem toMap_empty (hwf : t.Wf ops keyOf) (h : ∀ l v, ¬ t.Stored ops keyOf l v) :
    t.toMap ops hash = fun _ => none :=
  funext fun l => (toMap_eq_none hops hwf).mpr (h l)

theorem Inserted.toMap_eq [DecidableEq ℓ] (hwf : t.Wf ops keyOf) {k : κ} {v : ν}
    (h : Inserted ops keyOf t t' k v) (hnew : t.toMap ops hash (keyOf k v) = none) :
    t'.toMap ops hash = Function.update (t.toMap ops hash) (keyOf k v) (some v) := by
  have hnew := (toMap_eq_none hops hwf).mp hnew
  funext l
  ext w
  rw [toMap_eq_some hops h.wf, h.stored_iff, Function.update_apply]
  split
  · next heq =>
    subst heq
    simp [hnew, eq_comm]
  · next hne => simp [hne, toMap_eq_some hops hwf]

theorem Removed.toMap_eq [DecidableEq ℓ] (hwf : t.Wf ops keyOf) {l : ℓ} {v : ν}
    (h : Removed ops keyOf t t' l v) :
    t.toMap ops hash l = some v ∧
      t'.toMap ops hash = Function.update (t.toMap ops hash) l none := by
  refine ⟨(toMap_eq_some hops hwf).mpr h.stored, ?_⟩
  funext l'
  ext w
  rw [toMap_eq_some hops h.wf, h.stored_iff, Function.update_apply]
  split
  · next heq => simp [heq]
  · next hne => simp [hne, toMap_eq_some hops hwf]

/-- `rm` as an operation on the map: the value that was stored, and the map without the key. -/
theorem rm_toMap [DecidableEq ℓ] (hwf : t.Wf ops keyOf) (l : ℓ) :
    match t.rm ops l (hash l) with
    | none => t.toMap ops hash l = none
    | some (v, t') => t'.Wf ops keyOf ∧ t'.mask = t.mask ∧ t'.count + 1 = t.count ∧
        t.toMap ops hash l = some v ∧
        t'.toMap ops hash = Function.update (t.toMap ops hash) l none := by
  have hspec := rm_spec hops hwf l
  cases hrm : t.rm ops l (hash l) with
  | none =>
    rw [hrm] at hspec
    exact (toMap_eq_none hops hwf).mpr hspec
  | some r =>
    rw [hrm] at hspec
    exact ⟨hspec.wf, hspec.mask_eq, hspec.count_eq, hspec.toMap_eq hops hwf⟩

/-- A full iteration lists the map, with every key once. -/
theorem iterate_toMap (hwf : t.Wf ops keyOf) :
    (((t.iterate ops).map fun e => (keyOf e.1 e.2, e.2)).map Prod.fst).Nodup ∧
    ∀ l v, (l, v) ∈ (t.iterate ops).map (fun e => (keyOf e.1 e.2, e.2)) ↔
      t.toMap ops hash l = some v := by
  constructor
  · rw [List.map_map]
    exact nodup_keys_iterate hwf
  · intro l v
    rw [toMap_eq_some hops hwf, ← exists_mem_iterate]
    simp [Prod.ext_iff]

/-- Overwriting the value of a stored key. -/
theorem setentryvalue_toMap [DecidableEq ℓ] (hwf : t.Wf ops keyOf)
    (hkey : ∀ k v w, keyOf k v = keyOf k w) {i : ℕ} (hi : t.Occ ops i) (v : ν) :
    (t.setentryvalue i v).Wf ops keyOf ∧ (t.setentryvalue i v).toMap ops hash =
      Function.update (t.toMap ops hash) (t.keyAt keyOf i) (some v) := by
  obtain ⟨hwf', hstored⟩ := setentryvalue_spec hops hwf hkey hi v
  refine ⟨hwf', ?_⟩
  funext l
  ext w
  rw [toMap_eq_some hops hwf', hstored, Function.update_apply]
  split
  · next heq => simp [heq, eq_comm]
  · next hne => simp [hne, toMap_eq_some hops hwf]

end Map

/-- The insertion after `reserve`, as the three insert functions make it. -/
theorem reserve_insert_spec [Inhabited ν] [DecidableEq ℓ] (hops : ops.Lawful keyOf hash)
    (hwf : t.Wf ops keyOf) {k : κ} {v : ν} (hk : ops.isempty k = false)
    (hnew : t.toMap ops hash (keyOf k v) = none) :
    ∃ b t₁, t.reserve ops = some (b, t₁) ∧ t₁.Wf ops keyOf ∧
      t₁.toMap ops hash = t.toMap ops hash ∧
      (b = false → t.mask = 2 ^ 31 - 1 ∧ t.isfull = true) ∧ (t.Loaded → t₁.Loaded) ∧
      (∀ t', t₁.insert ops k v (hash (keyOf k v)) = some t' → t'.Wf ops keyOf ∧
        t'.toMap ops hash = Function.update (t.toMap ops hash) (keyOf k v) (some v) ∧
        t'.count = t.count + 1) ∧
      (t.Loaded → b = true → ∃ t', t₁.insert ops k v (hash (keyOf k v)) = some t' ∧ t'.Loaded) := by
  obtain ⟨hres, hsome⟩ := reserve_spec hops hwf
  obtain ⟨⟨b, t₁⟩, h₁⟩ := Option.isSome_iff_exists.mp hsome
  obtain ⟨hwf₁, hcount, hstored, hfalse, hload⟩ := hres b t₁ h₁
  have hmap := toMap_congr hops hwf hwf₁ hstored
  have hins : ∀ t', t₁.insert ops k v (hash (keyOf k v)) = some t' →
      Inserted ops keyOf t₁ t' k v := fun t' h =>
    insert_spec hops hwf₁ hk ((toMap_eq_none hops hwf₁).mp (hmap ▸ hnew)) h
  refine ⟨b, t₁, h₁, hwf₁, hmap, hfalse, fun h => (hload h).1, fun t' h => ?_, fun h hb => ?_⟩
  · refine ⟨(hins t' h).wf, ?_, by rw [(hins t' h).count_eq, hcount]⟩
    rw [(hins t' h).toMap_eq hops hwf₁ (hmap ▸ hnew), hmap]
  · have hlt := (hload h).2 hb
    obtain ⟨t', h'⟩ := Option.isSome_iff_exists.mp
      (insert_isSome (k := k) (v := v) hwf₁ (lt_of_lt_of_le hlt (loadLimit_le _)) (hash (keyOf k v)))
    refine ⟨t', h', ?_⟩
    have hsize : t'.size = t₁.size := by rw [size, size, (hins t' h').mask_eq]
    rw [Loaded, (hins t' h').count_eq, hsize]
    exact hlt

/-- An insertion into a table that can still grow returns, and the table holds one more entry. -/
theorem reserve_insert_count [Inhabited ν] [DecidableEq ℓ] (hops : ops.Lawful keyOf hash)
    (hwf : t.Wf ops keyOf) {k : κ} {v : ν} (hk : ops.isempty k = false)
    (hnew : t.toMap ops hash (keyOf k v) = none) (hload : t.Loaded) (hroom : t.count < loadLimit (2 ^ 31)) :
    ∃ t₁ t', t.reserve ops = some (true, t₁) ∧ t₁.insert ops k v (hash (keyOf k v)) = some t' ∧
      t'.Loaded ∧ t'.count = t.count + 1 := by
  obtain ⟨b, t₁, h₁, -, -, hfalse, -, hspec, hret⟩ := reserve_insert_spec hops hwf hk hnew
  have hb : b = true := by
    cases b with
    | true => rfl
    | false =>
      obtain ⟨hmask, hfull⟩ := hfalse rfl
      have hsize : t.size = 2 ^ 31 := by rw [size, hmask, Nat.sub_add_cancel Nat.one_le_two_pow]
      have hlimit : t.count = loadLimit t.size := by simpa [isfull, loadLimit] using hfull
      rw [hlimit, hsize] at hroom
      exact absurd hroom (Nat.lt_irrefl _)
  subst hb
  obtain ⟨t', h', hload'⟩ := hret hload rfl
  exact ⟨t₁, t', h₁, h', hload', (hspec t' h').2.2⟩

end Table

end Upb
