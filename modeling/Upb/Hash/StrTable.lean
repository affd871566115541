import Upb.Hash.TableMap

/-!
# String tables

`upb_strtable` keys the base table by a pointer to a copied byte string; a null pointer marks a free
entry. The hash of the bytes is a parameter: nothing here depends on it.
-/

namespace Upb

open Upb.Common (MapCmd MapOut)

variable {ν : Type} [Inhabited ν]

/-- `upb_strtable`: a key is a pointer to a `upb_SizePrefixString`, or null. -/
abbrev StrTable (ν : Type) := Table (Option (List UInt8)) ν

namespace StrTable

variable (hash : List UInt8 → ℕ)

/-- `strhash` and `streql`. -/
def ops : KeyOps (Option (List UInt8)) ν (List UInt8) where
  empty := none
  isempty k := k.isNone
  hashfunc k _ := hash (k.getD [])
  eql k _ l := k == some l

/-- The logical key of an entry. -/
def keyOf (k : Option (List UInt8)) (_ : ν) : List UInt8 := k.getD []

/-- `upb_strtable_init`. -/
def init (expectedSize : ℕ) : Option (StrTable ν) :=
  Table.init (ops hash) (log2Ceiling (entriesNeededFor expectedSize))

/-- `upb_strtable_insert`: the C result and the table after it. -/
def insert (t : StrTable ν) (k : List UInt8) (v : ν) : Option (Bool × StrTable ν) :=
  (t.reserve (ops hash)).bind fun (ok, t) =>
    if !ok then some (false, t)
    -- `upb_SizePrefixString_Copy` refuses strings over 4GB
    else if uint32Max < k.length then some (false, t)
    else (Table.insert (ops hash) t (some k) v (hash k)).map fun t => (true, t)

/-- `upb_strtable_lookup2`. -/
def lookup2 (t : StrTable ν) (k : List UInt8) : Option ν := t.lookup (ops hash) k (hash k)

/-- `upb_strtable_remove2`. -/
def remove2 (t : StrTable ν) (k : List UInt8) : Option (ν × StrTable ν) :=
  t.rm (ops hash) k (hash k)

/-- A full iteration with `upb_strtable_next2`. -/
def pairs (t : StrTable ν) : List (List UInt8 × ν) :=
  (t.iterate (ops hash)).map fun e => (keyOf e.1 e.2, e.2)

/-- The position at which an iteration with `upb_strtable_next2` yields the key. -/
def findIter (t : StrTable ν) (k : List UInt8) : Option ℕ :=
  (List.range t.size).find? fun i => !t.isempty (ops hash) i && (t.entries i).key == some k

/-- The commands of the string table; `replace` is `upb_strtable_setentryvalue` at the iterator of
the key. -/
def step (t : StrTable ν) :
    MapCmd (List UInt8) ν → Option (MapOut (List UInt8) ν × StrTable ν)
  | .insert k v => (insert hash t k v).map fun (ok, t) => (.flag ok, t)
  | .remove k =>
    match remove2 hash t k with
    | some (v, t') => some (.value (some v), t')
    | none => some (.value none, t)
  | .lookup k => some (.value (lookup2 hash t k), t)
  | .replace k v =>
    match findIter hash t k with
    | some i => some (.flag true, t.setentryvalue i v)
    | none => some (.flag false, t)
  | .resize n => (t.resize (ops hash) n).map fun (ok, t) => (.flag ok, t)
  | .clear => some (.flag true, t.clear (ops hash))
  | .iterate => some (.pairs (pairs hash t), t)

/-- The invariant of string tables. -/
def Inv (t : StrTable ν) : Prop := t.Wf (ops hash) keyOf

/-- Only keys that are not present are inserted. -/
def Legal (t : StrTable ν) : MapCmd (List UInt8) ν → Prop
  | .insert k _ => lookup2 hash t k = none
  | _ => True

/-- Besides, a resize by the caller leaves the table within its load factor. -/
def Roomy (t : StrTable ν) : MapCmd (List UInt8) ν → Prop
  | .insert k _ => lookup2 hash t k = none
  | .resize n => t.count ≤ Table.loadLimit (2 ^ n)
  | _ => True

variable {hash}

omit [Inhabited ν] in
theorem ops_lawful : (ops hash : KeyOps _ ν _).Lawful keyOf hash where
  isempty_empty := rfl
  hashfunc_eq _ _ _ := rfl
  eql_iff k v l hk := by
    cases k with
    | none => simp [ops] at hk
    | some s => simp [ops, keyOf]

omit [Inhabited ν] in
/-- The position of a key is an entry that holds it. -/
private theorem findIter_some {t : StrTable ν} {k : List UInt8} {i : ℕ}
    (h : findIter hash t k = some i) : t.Occ (ops hash) i ∧ t.keyAt keyOf i = k := by
  have hp := List.find?_some h
  have hmem := List.mem_range.mp (List.mem_of_find?_eq_some h)
  simp only [Bool.and_eq_true, Bool.not_eq_true', beq_iff_eq] at hp
  exact ⟨⟨hmem, hp.1⟩, by simp [Table.keyAt, keyOf, hp.2]⟩

omit [Inhabited ν] in
private theorem findIter_none {t : StrTable ν} (hinv : Inv hash t) {k : List UInt8}
    (h : findIter hash t k = none) : lookup2 hash t k = none := by
  refine (Table.toMap_eq_none ops_lawful hinv).mpr ?_
  rintro v ⟨i, hi, hk, -⟩
  have hno := List.find?_eq_none.mp h i (List.mem_range.mpr hi.1)
  have hused := hi.2
  simp only [hused, Bool.not_false, Bool.true_and, beq_iff_eq] at hno
  rw [Table.isempty] at hused
  cases hkey : (t.entries i).key with
  | none => simp [ops, hkey] at hused
  | some s => simp [Table.keyAt, keyOf, hkey] at hk hno; exact hno hk

theorem inv_of_init {n : ℕ} {t : StrTable ν} (h : init hash n = some t) :
    Inv hash t ∧ t.Loaded ∧ lookup2 hash t = fun _ => none := by
  obtain ⟨hwf, hcount, -, hnone⟩ := Table.init_spec ops_lawful h
  exact ⟨hwf, by simp [Table.Loaded, hcount], Table.toMap_empty ops_lawful hwf hnone⟩

/-- Every command keeps the invariant and acts on the lookups as on a finite map. -/
theorem step_meets (t : StrTable ν) (c : MapCmd (List UInt8) ν) (o : MapOut (List UInt8) ν)
    (t' : StrTable ν) (hinv : Inv hash t) (hlegal : Legal hash t c)
    (h : step hash t c = some (o, t')) :
    Inv hash t' ∧ c.Meets (lookup2 hash t) o (lookup2 hash t') := by
  cases c with
  | insert k v =>
    obtain ⟨⟨ok, t₂⟩, hins, heq⟩ := Option.map_eq_some_iff.mp h
    cases heq
    obtain ⟨b, t₁, hres, hwf₁, hmap, -, -, hspec, -⟩ := Table.reserve_insert_spec (k := some k) (v := v)
      ops_lawful hinv rfl hlegal
    rw [insert, hres, Option.bind_some] at hins
    simp only at hins
    split at hins
    · cases hins
      exact ⟨hwf₁, hmap⟩
    · split at hins
      · cases hins
        exact ⟨hwf₁, hmap⟩
      · obtain ⟨t₃, h₃, heq⟩ := Option.map_eq_some_iff.mp hins
        cases heq
        exact ⟨(hspec _ h₃).1, (hspec _ h₃).2.1⟩
  | remove k =>
    have hspec := Table.rm_toMap ops_lawful hinv k
    rw [step, remove2] at h
    split at hspec
    · next hrm =>
      rw [hrm] at h
      cases h
      exact ⟨hinv, hspec.symm, (Function.update_eq_self_iff.mpr hspec.symm).symm⟩
    · next v t₁ hrm =>
      rw [hrm] at h
      cases h
      exact ⟨hspec.1, hspec.2.2.2.1.symm, hspec.2.2.2.2⟩
  | lookup k =>
    cases h
    exact ⟨hinv, rfl, rfl⟩
  | replace k v =>
    rw [step] at h
    cases hfind : findIter hash t k with
    | none =>
      rw [hfind] at h
      cases h
      exact ⟨hinv, by simp [findIter_none hinv hfind], by simp⟩
    | some i =>
      rw [hfind] at h
      cases h
      obtain ⟨hi, rfl⟩ := findIter_some hfind
      obtain ⟨hwf', hmap⟩ := Table.setentryvalue_toMap ops_lawful hinv (fun _ _ _ => rfl) hi v
      have hstored : lookup2 hash t (t.keyAt keyOf i) = some (t.entries i).val :=
        (Table.toMap_eq_some ops_lawful hinv).mpr ⟨i, hi, rfl, rfl⟩
      exact ⟨hwf', by simp [hstored], hmap⟩
  | resize n =>
    obtain ⟨⟨ok, t₂⟩, hres, heq⟩ := Option.map_eq_some_iff.mp h
    cases heq
    obtain ⟨hwf', -, -, -, hstored⟩ := (Table.resize_spec ops_lawful hinv n).1 _ _ hres
    exact ⟨hwf', Table.toMap_congr ops_lawful hinv hwf' hstored⟩
  | clear =>
    cases h
    obtain ⟨hwf', hnone⟩ := Table.clear_spec ops_lawful hinv
    exact ⟨hwf', rfl, Table.toMap_empty ops_lawful hwf' hnone⟩
  | iterate =>
    cases h
    obtain ⟨hnodup, hmem⟩ := Table.iterate_toMap ops_lawful hinv
    exact ⟨hinv, hnodup, hmem, rfl⟩

/-- An insertion refuses only at the size limits of the table and of its keys. -/
theorem insert_refuses {t t' : StrTable ν} {k : List UInt8} {v : ν} (hinv : Inv hash t)
    (hnew : lookup2 hash t k = none) (h : step hash t (.insert k v) = some (.flag false, t')) :
    (t.mask = 2 ^ 31 - 1 ∧ t.isfull = true) ∨ uint32Max < k.length := by
  obtain ⟨⟨ok, t₂⟩, hins, heq⟩ := Option.map_eq_some_iff.mp h
  cases heq
  obtain ⟨b, t₁, hres, -, -, hfalse, -⟩ := Table.reserve_insert_spec (k := some k) (v := v)
    ops_lawful hinv rfl hnew
  rw [insert, hres, Option.bind_some] at hins
  simp only at hins
  split at hins
  · next hb => exact .inl (hfalse (by simpa using hb))
  · split at hins
    · next hlong => exact .inr hlong
    · obtain ⟨t₃, h₃, heq⟩ := Option.map_eq_some_iff.mp hins
      cases heq

/-- A table within its load factor executes every command, and stays within it. -/
theorem step_returns (t : StrTable ν) (c : MapCmd (List UInt8) ν) (hinv : Inv hash t ∧ t.Loaded)
    (hroomy : Roomy hash t c) :
    ∃ o t', step hash t c = some (o, t') ∧ Inv hash t' ∧ t'.Loaded := by
  obtain ⟨hinv, hload⟩ := hinv
  have hlegal : Legal hash t c := by
    cases c <;> first | exact hroomy | trivial
  suffices ∃ o t', step hash t c = some (o, t') ∧ t'.Loaded by
    obtain ⟨o, t', h, hload'⟩ := this
    exact ⟨o, t', h, (step_meets t c o t' hinv hlegal h).1, hload'⟩
  cases c with
  | insert k v =>
    obtain ⟨b, t₁, hres, -, -, -, hload₁, -, hret⟩ := Table.reserve_insert_spec (k := some k) (v := v)
      ops_lawful hinv rfl hlegal
    rw [step, insert, hres, Option.bind_some]
    cases b with
    | false => exact ⟨_, _, rfl, hload₁ hload⟩
    | true =>
      by_cases hlong : uint32Max < k.length
      · exact ⟨.flag false, t₁, by simp [hlong], hload₁ hload⟩
      · obtain ⟨t', h', hload'⟩ := hret hload rfl
        exact ⟨.flag true, t', by simp [hlong, show t₁.insert (ops hash) (some k) v (hash k) = some t'
          from h'], hload'⟩
  | remove k =>
    have hspec := Table.rm_toMap ops_lawful hinv k
    rw [step, remove2]
    cases hrm : t.rm (ops hash) k (hash k) with
    | none => exact ⟨_, _, rfl, hload⟩
    | some r =>
      obtain ⟨v, t₁⟩ := r
      rw [hrm] at hspec
      refine ⟨_, _, rfl, ?_⟩
      rw [Table.Loaded, Table.size, hspec.2.1]
      exact (Nat.le.intro hspec.2.2.1).trans hload
  | lookup k => exact ⟨_, _, rfl, hload⟩
  | replace k v =>
    rw [step]
    cases findIter hash t k with
    | none => exact ⟨_, _, rfl, hload⟩
    | some i => exact ⟨_, _, rfl, hload⟩
  | resize n =>
    obtain ⟨hres, hsome⟩ := Table.resize_spec ops_lawful hinv n
    obtain ⟨⟨ok, t₁⟩, h₁⟩ := Option.isSome_iff_exists.mp
      (hsome (le_trans hroomy (Table.loadLimit_le _)))
    refine ⟨.flag ok, t₁, by simp [step, h₁], ?_⟩
    obtain ⟨-, hcount, hfalse, htrue, -⟩ := hres ok t₁ h₁
    cases ok with
    | false => exact (hfalse rfl).2 ▸ hload
    | true =>
      have hpos := Nat.one_le_two_pow (n := n)
      have hsize : t₁.size = 2 ^ n := by rw [Table.size, (htrue rfl).2]; omega
      rw [Table.Loaded, hcount, hsize]
      exact hroomy
  | clear => exact ⟨_, _, rfl, Nat.zero_le _⟩
  | iterate => exact ⟨_, _, rfl, hload⟩

end StrTable

end Upb
