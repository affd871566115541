import Upb.Message.MapInsert

/-!
# New keys in a map

With memory left, `_upb_Map_Insert` of a new key succeeds up to the size limit of the tables. The map
then has one entry more, and all others as before.
-/

namespace Upb

namespace MapTable

variable {hash : Hashes} {m : MapTable} {key : MapKey}

/-- The tables have room for many entries. -/
theorem lt_loadLimit {n : ℕ} (h : n < 2 ^ 30) : n < Table.loadLimit (2 ^ 31) := by
  rw [Table.loadLimit, Nat.shiftRight_eq_div_pow]
  omega

/-- A new number is inserted into the table of a map. -/
theorem insert_int {t : IntTable ℕ} (hinv : Inv hash (.inttable t)) {k : ℕ}
    (hnew : IntTable.lookup hash.int t k = none) (hroom : (inttable t).size < 2 ^ 30) (val : ℕ) :
    ∃ t', IntTable.insert hash.int t k val = some (true, t') ∧ Inv hash (.inttable t') ∧
      IntTable.lookup hash.int t' = Function.update (IntTable.lookup hash.int t) k (some val) ∧
      (inttable t').size = (inttable t).size + 1 := by
  obtain ⟨hinv, hload⟩ := hinv
  have hstep : ∀ t', IntTable.insert hash.int t k val = some (true, t') → IntTable.Inv hash.int t' ∧
      IntTable.lookup hash.int t' = Function.update (IntTable.lookup hash.int t) k (some val) := by
    intro t' hins
    have hstep : IntTable.step hash.int t (.insert k val) = some (.flag true, t') := by
      rw [IntTable.step, hins]
      rfl
    exact IntTable.step_meets t (.insert k val) _ t' hinv hnew hstep
  by_cases hk : k < t.arraySize
  · have hins : ∃ t', IntTable.insert hash.int t k val = some (true, t') ∧ t'.t = t.t ∧
        t'.arrayCount = t.arrayCount + 1 := by
      rw [IntTable.insert, if_pos hk]
      exact ⟨_, rfl, rfl, rfl⟩
    obtain ⟨t', hins, htable, hcount⟩ := hins
    obtain ⟨hinv', hlookup⟩ := hstep t' hins
    refine ⟨t', hins, ⟨hinv', htable ▸ hload⟩, hlookup, ?_⟩
    rw [size, size, htable, hcount, Nat.add_assoc]
  · have hpos := hinv.arraySize_pos
    have hempty : (IntTable.ops hash.int : KeyOps ℕ ℕ ℕ).isempty k = false := by
      simp only [IntTable.ops, beq_eq_false_iff_ne]
      omega
    have hnone : t.t.toMap (IntTable.ops hash.int) hash.int k = none := by
      rw [IntTable.lookup, if_neg hk] at hnew
      exact hnew
    have hcount : t.t.count < Table.loadLimit (2 ^ 31) := by
      rw [size] at hroom
      exact lt_loadLimit (by omega)
    obtain ⟨t₁, t₂, hres, hput, hload', hcount'⟩ := Table.reserve_insert_count (k := k) (v := val)
      IntTable.ops_lawful hinv.wf hempty hnone hload hcount
    have hput : t₁.insert (IntTable.ops hash.int) k val (hash.int k) = some t₂ := hput
    have hins : IntTable.insert hash.int t k val = some (true, { t with t := t₂ }) := by
      rw [IntTable.insert, if_neg hk, hres, Option.bind_some]
      dsimp only
      rw [if_neg (by simp), hput]
      rfl
    obtain ⟨hinv', hlookup⟩ := hstep _ hins
    refine ⟨_, hins, ⟨hinv', hload'⟩, hlookup, ?_⟩
    change t₂.count + t.arrayCount = t.t.count + t.arrayCount + 1
    omega

/-- A new string is inserted into the table of a map. -/
theorem insert_str {t : StrTable ℕ} (hinv : Inv hash (.strtable t)) {k : List UInt8}
    (hnew : StrTable.lookup2 hash.str t k = none) (hlen : k.length ≤ uint32Max)
    (hroom : (strtable t).size < 2 ^ 30) (val : ℕ) :
    ∃ t', StrTable.insert hash.str t k val = some (true, t') ∧ Inv hash (.strtable t') ∧
      StrTable.lookup2 hash.str t' = Function.update (StrTable.lookup2 hash.str t) k (some val) ∧
      (strtable t').size = (strtable t).size + 1 := by
  obtain ⟨hinv, hload, hshort⟩ := hinv
  obtain ⟨t₁, t', hres, hput, hload', hcount⟩ := Table.reserve_insert_count (k := some k) (v := val)
    StrTable.ops_lawful hinv rfl hnew hload (lt_loadLimit hroom)
  have hput : t₁.insert (StrTable.ops hash.str) (some k) val (hash.str k) = some t' := hput
  have hins : StrTable.insert hash.str t k val = some (true, t') := by
    rw [StrTable.insert, hres, Option.bind_some]
    dsimp only
    rw [if_neg (by simp), if_neg (by omega), hput]
    rfl
  have hstep : StrTable.step hash.str t (.insert k val) = some (.flag true, t') := by
    rw [StrTable.step, hins]
    rfl
  obtain ⟨hinv', hlookup⟩ := StrTable.step_meets t (.insert k val) _ t' hinv hnew hstep
  have hlookup : StrTable.lookup2 hash.str t' =
      Function.update (StrTable.lookup2 hash.str t) k (some val) := hlookup
  refine ⟨t', hins, ⟨hinv', hload', fun l hl => ?_⟩, hlookup, hcount⟩
  rw [hlookup, Function.update_apply] at hl
  split at hl
  · next heq => exact heq ▸ hlen
  · exact hshort l hl

/-- A new key is inserted. -/
theorem insert_new (hinv : Inv hash m) (hkey : TakesKey m key) (hnew : m.get hash key = none)
    (hlen : ∀ k, key = .str k → k.length ≤ uint32Max) (hroom : m.size < 2 ^ 30) (val : ℕ) :
    ∃ m', m.insert hash key val = some m' ∧ Inv hash m' ∧
      m'.toMap hash = Function.update (m.toMap hash) key (some val) ∧ m'.size = m.size + 1 ∧
      ∀ key, TakesKey m' key ↔ TakesKey m key := by
  cases m with
  | inttable t =>
    cases key with
    | str k => exact hkey.elim
    | int k =>
      have hnew : IntTable.lookup hash.int t k = none := hnew
      obtain ⟨t', hins, hinv', hlookup, hsize⟩ := insert_int hinv hnew hroom val
      refine ⟨.inttable t', ?_, hinv', toMap_inttable hlookup, hsize,
        fun key => by cases key <;> exact Iff.rfl⟩
      have hsame := (remove_spec hinv.1 hinv.2 k).2.2.2.1 hnew
      rw [insert, hsame, hins]
  | strtable t =>
    cases key with
    | int k => exact hkey.elim
    | str k =>
      have hnew : StrTable.lookup2 hash.str t k = none := hnew
      obtain ⟨t', hins, hinv', hlookup, hsize⟩ := insert_str hinv hnew (hlen k rfl) hroom val
      refine ⟨.strtable t', ?_, hinv', toMap_strtable hlookup, hsize,
        fun key => by cases key <;> exact Iff.rfl⟩
      have hsame := (removeStr_spec hinv.1 hinv.2.1 k).2.2.2.1 hnew
      rw [removeStr] at hsame
      rw [insert]
      cases hrm : StrTable.remove2 hash.str t k with
      | none =>
        dsimp only
        rw [hins]
      | some q =>
        rw [hrm] at hsame
        dsimp only at hsame ⊢
        rw [hsame, hins]

/-- A new map is empty. -/
theorem new_spec (hash : Hashes) (keySize : ℕ) :
    ∃ m, new hash keySize = some m ∧ Inv hash m ∧ (∀ key, m.get hash key = none) ∧ m.size = 0 ∧
      (keySize ≤ 8 → ∀ s : Slot, TakesKey m (s.toKey keySize)) := by
  rw [new]
  split
  · next hsize =>
    have hinit : ∃ t : IntTable ℕ, IntTable.init hash.int = some t ∧ t.t.count = 0 ∧ t.arrayCount = 0 :=
      ⟨_, rfl, rfl, rfl⟩
    obtain ⟨t, hinit, hcount, harray⟩ := hinit
    obtain ⟨hinv, hload, hnone⟩ := IntTable.inv_of_sizedinit hinit
    refine ⟨.inttable t, by rw [hinit]; rfl, ⟨hinv, hload⟩, ?_, ?_, fun _ s => ?_⟩
    · intro key
      cases key with
      | int k => exact congrFun hnone k
      | str k => rfl
    · rw [size, hcount, harray]
    · rw [Slot.toKey, if_neg hsize.2]
      trivial
  · next hsize =>
    have hinit : ∃ t : StrTable ℕ, StrTable.init hash.str 4 = some t ∧ t.count = 0 := ⟨_, rfl, rfl⟩
    obtain ⟨t, hinit, hcount⟩ := hinit
    obtain ⟨hinv, hload, hnone⟩ := StrTable.inv_of_init hinit
    refine ⟨.strtable t, by rw [hinit]; rfl, ⟨hinv, hload, ?_⟩, ?_, hcount, fun hle s => ?_⟩
    · intro k hk
      exact absurd (congrFun hnone k) hk
    · intro key
      cases key with
      | str k => exact congrFun hnone k
      | int k => rfl
    · rw [Slot.toKey, if_pos (by omega)]
      trivial

end MapTable

namespace Slot

variable {hash : Hashes} {keySize : ℕ} {s : Slot}

/-- A map with so many entries that takes the keys of a size. -/
inductive IsMap (hash : Hashes) (keySize n : ℕ) : Slot → Prop
  | mk {table : MapTable} {values : List Slot} (inv : table.Inv hash)
      (bound : ∀ key i, table.get hash key = some i → i < values.length) (size : table.size = n)
      (kind : ∀ s : Slot, table.TakesKey (s.toKey keySize)) : IsMap hash keySize n (.map keySize table values)

/-- Inserting a new key. -/
theorem IsMap.insert {n : ℕ} (h : IsMap hash keySize n s) {key val : Slot}
    (hnew : s.mapGet hash (key.toKey keySize) = none) (hlen : key.toStr.length ≤ uint32Max)
    (hroom : n < 2 ^ 30) :
    ∃ s', s.mapInsert hash key val = some s' ∧ IsMap hash keySize (n + 1) s' ∧
      ∀ k, s'.mapGet hash k = if k = key.toKey keySize then some val else s.mapGet hash k := by
  cases h with
  | @mk table values inv bound size kind =>
    have hnone : table.get hash (key.toKey keySize) = none := Option.map_eq_none_iff.mp hnew
    have hshort : ∀ k, key.toKey keySize = .str k → k.length ≤ uint32Max := by
      intro k hk
      rw [toKey] at hk
      split at hk
      · cases hk
        exact hlen
      · cases hk
    obtain ⟨table', hins, inv', hmap, hsize, hkind⟩ := MapTable.insert_new inv (kind key) hnone hshort
      (size ▸ hroom) values.length
    have hget : ∀ k, table'.get hash k =
        if k = key.toKey keySize then some values.length else table.get hash k := by
      intro k
      have hk := congrFun hmap k
      rwa [Function.update_apply] at hk
    refine ⟨.map keySize table' (values ++ [val]), ?_, ⟨inv', fun k i hi => ?_, by rw [hsize, size],
      fun s => (hkind _).mpr (kind s)⟩, fun k => ?_⟩
    · rw [mapInsert, hins]
      rfl
    · rw [List.length_append, List.length_singleton]
      rw [hget] at hi
      split at hi
      · cases hi
        exact Nat.lt_succ_self _
      · exact (bound k i hi).trans (Nat.lt_succ_self _)
    · rw [mapGet, hget]
      split
      · simp
      · cases hk : table.get hash k with
        | none => simp [mapGet, hk]
        | some i => simp [mapGet, hk, List.getElem?_append_left (bound k i hk)]

/-- A new map. -/
theorem isMap_new (hash : Hashes) (hsize : keySize ≤ 8) :
    ∃ table, MapTable.new hash keySize = some table ∧ IsMap hash keySize 0 (.map keySize table []) ∧
      ∀ k, (Slot.map keySize table []).mapGet hash k = none := by
  obtain ⟨table, hnew, inv, hnone, hcount, hkind⟩ := MapTable.new_spec hash keySize
  refine ⟨table, hnew, ⟨inv, fun k i hi => ?_, hcount, hkind hsize⟩, fun k => ?_⟩
  · rw [hnone] at hi
    cases hi
  · rw [mapGet, hnone]
    rfl

end Slot

end Upb
