import Upb.Hash.TableMap

/-!
# Extension tables

`upb_exttable` maps a pair of a message table and an extension number to an extension. Only the
pointer is stored in the key; the number is the first word of the memory that the value points to,
which `extNum` reads. The hash of the pair is a parameter.
-/

namespace Upb

open Upb.Common (MapCmd MapOut)

variable {ν : Type} [Inhabited ν]

/-- `upb_exttable`: a key is a pointer, null for a free entry. -/
abbrev ExtTable (ν : Type) := Table ℕ ν

namespace ExtTable

variable (extNum : ν → ℕ) (hash : ℕ × ℕ → ℕ)

/-- `exthash` and `exteql`. -/
def ops : KeyOps ℕ ν (ℕ × ℕ) where
  empty := 0
  isempty k := k == 0
  hashfunc k v := hash (k, extNum v)
  eql k v l := k == l.1 && extNum v == l.2

/-- The logical key of an entry. -/
def keyOf (k : ℕ) (v : ν) : ℕ × ℕ := (k, extNum v)

/-- `upb_exttable_init`. -/
def init (expectedSize : ℕ) : Option (ExtTable ν) :=
  Table.init (ops extNum hash) (log2Ceiling (entriesNeededFor expectedSize))

/-- `upb_exttable_insert`: the C result and the table after it. -/
def insert (t : ExtTable ν) (k : ℕ) (v : ν) : Option (Bool × ExtTable ν) :=
  (t.reserve (ops extNum hash)).bind fun (ok, t) =>
    if !ok then some (false, t)
    else (Table.insert (ops extNum hash) t k v (hash (k, extNum v))).map fun t => (true, t)

/-- `upb_exttable_lookup`. -/
def lookup (t : ExtTable ν) (l : ℕ × ℕ) : Option ν := Table.lookup (ops extNum hash) t l (hash l)

/-- `upb_exttable_remove`. -/
def remove (t : ExtTable ν) (l : ℕ × ℕ) : Option (ν × ExtTable ν) :=
  t.rm (ops extNum hash) l (hash l)

/-- A full iteration with `begin` and `next`. -/
def pairs (t : ExtTable ν) : List ((ℕ × ℕ) × ν) :=
  (t.iterate (ops extNum hash)).map fun e => (keyOf extNum e.1 e.2, e.2)

/-- The commands of the extension table, which has no replace. -/
def step (t : ExtTable ν) : MapCmd (ℕ × ℕ) ν → Option (MapOut (ℕ × ℕ) ν × ExtTable ν)
  | .insert l v => (insert extNum hash t l.1 v).map fun (ok, t) => (.flag ok, t)
  | .remove l =>
    match remove extNum hash t l with
    | some (v, t') => some (.value (some v), t')
    | none => some (.value none, t)
  | .lookup l => some (.value (lookup extNum hash t l), t)
  | .replace _ _ => none
  | .resize n => (t.resize (ops extNum hash) n).map fun (ok, t) => (.flag ok, t)
  | .clear => some (.flag true, t.clear (ops extNum hash))
  | .iterate => some (.pairs (pairs extNum hash t), t)

/-- The invariant of extension tables. -/
def Inv (t : ExtTable ν) : Prop := t.Wf (ops extNum hash) (keyOf extNum)

/-- The assertions of `upb_exttable_insert`: a pointer that is not null, with the number that the
value holds, and a key that is not present. -/
def Legal (t : ExtTable ν) : MapCmd (ℕ × ℕ) ν → Prop
  | .insert l v => l.1 ≠ 0 ∧ l.2 = extNum v ∧ extNum v ≠ 0 ∧ lookup extNum hash t l = none
  | .replace _ _ => False
  | _ => True

/-- Besides, a resize by the caller leaves the table within its load factor. -/
def Roomy (t : ExtTable ν) : MapCmd (ℕ × ℕ) ν → Prop
  | .resize n => t.count ≤ Table.loadLimit (2 ^ n)
  | c => Legal extNum hash t c

variable {extNum hash}

omit [Inhabited ν] in
theorem ops_lawful : (ops extNum hash : KeyOps _ ν _).Lawful (keyOf extNum) hash where
  isempty_empty := rfl
  hashfunc_eq _ _ _ := rfl
  eql_iff k v l _ := by simp [ops, keyOf, Prod.ext_iff]

theorem inv_of_init {n : ℕ} {t : ExtTable ν} (h : init extNum hash n = some t) :
    Inv extNum hash t ∧ t.Loaded ∧ lookup extNum hash t = fun _ => none := by
  obtain ⟨hwf, hcount, -, hnone⟩ := Table.init_spec ops_lawful h
  exact ⟨hwf, by simp [Table.Loaded, hcount], Table.toMap_empty ops_lawful hwf hnone⟩

omit [Inhabited ν] in
/-- What a legal insertion means for the base table. -/
private theorem legal_insert {t : ExtTable ν} {l : ℕ × ℕ} {v : ν}
    (hlegal : Legal extNum hash t (.insert l v)) :
    (ops extNum hash).isempty l.1 = false ∧
      t.toMap (ops extNum hash) hash (keyOf extNum l.1 v) = none ∧ keyOf extNum l.1 v = l := by
  have hl : keyOf extNum l.1 v = l := by rw [keyOf, ← hlegal.2.1]
  exact ⟨by simpa [ops] using hlegal.1, by rw [hl]; exact hlegal.2.2.2, hl⟩

/-- Every command keeps the invariant and acts on the lookups as on a finite map. -/
theorem step_meets (t : ExtTable ν) (c : MapCmd (ℕ × ℕ) ν) (o : MapOut (ℕ × ℕ) ν) (t' : ExtTable ν)
    (hinv : Inv extNum hash t) (hlegal : Legal extNum hash t c)
    (h : step extNum hash t c = some (o, t')) :
    Inv extNum hash t' ∧ c.Meets (lookup extNum hash t) o (lookup extNum hash t') := by
  cases c with
  | insert l v =>
    obtain ⟨⟨ok, t₂⟩, hins, heq⟩ := Option.map_eq_some_iff.mp h
    cases heq
    obtain ⟨hk, hnew, hl⟩ := legal_insert hlegal
    obtain ⟨b, t₁, hres, hwf₁, hmap, -, -, hspec, -⟩ :=
      Table.reserve_insert_spec ops_lawful hinv hk hnew
    rw [insert, hres, Option.bind_some] at hins
    simp only at hins
    split at hins
    · cases hins
      exact ⟨hwf₁, hmap⟩
    · obtain ⟨t₃, h₃, heq⟩ := Option.map_eq_some_iff.mp hins
      cases heq
      obtain ⟨hwf', hmap', -⟩ := hspec _ h₃
      rw [hl] at hmap'
      exact ⟨hwf', hmap'⟩
  | remove l =>
    have hspec := Table.rm_toMap ops_lawful hinv l
    rw [step, remove] at h
    split at hspec
    · next hrm =>
      rw [hrm] at h
      cases h
      exact ⟨hinv, hspec.symm, (Function.update_eq_self_iff.mpr hspec.symm).symm⟩
    · next v t₁ hrm =>
      rw [hrm] at h
      cases h
      exact ⟨hspec.1, hspec.2.2.2.1.symm, hspec.2.2.2.2⟩
  | lookup l =>
    cases h
    exact ⟨hinv, rfl, rfl⟩
  | replace l v => cases hlegal
  | resize n =>
    obtain ⟨⟨ok, t₂⟩, hres, heq⟩ := Option.map_eq_some_iff.mp h
    cases heq
    obtain ⟨hwf', -, -, -, hstored⟩ := (Table.resize_spec ops_lawful hinv n).1 _ _ hres
    exact ⟨hwf', Table.toMap_congr ops_lawful hinv hwf' hstored⟩
  | clear =>
    cases h
    obtain ⟨hwf', hnone⟩ := Table.clear_spec ops_lawful hinv
    exact ⟨hwf', rfl, Table.toMap_empty ops_lawful hwf' hnone⟩
  | iterate =>
    cases h
    obtain ⟨hnodup, hmem⟩ := Table.iterate_toMap ops_lawful hinv
    exact ⟨hinv, hnodup, hmem, rfl⟩

/-- An insertion refuses only at the size limit of the table. -/
theorem insert_refuses {t t' : ExtTable ν} {l : ℕ × ℕ} {v : ν} (hinv : Inv extNum hash t)
    (hlegal : Legal extNum hash t (.insert l v))
    (h : step extNum hash t (.insert l v) = some (.flag false, t')) :
    t.mask = 2 ^ 31 - 1 ∧ t.isfull = true := by
  obtain ⟨⟨ok, t₂⟩, hins, heq⟩ := Option.map_eq_some_iff.mp h
  cases heq
  obtain ⟨hk, hnew, -⟩ := legal_insert hlegal
  obtain ⟨b, t₁, hres, -, -, hfalse, -⟩ := Table.reserve_insert_spec ops_lawful hinv hk hnew
  rw [insert, hres, Option.bind_some] at hins
  simp only at hins
  split at hins
  · next hb => exact hfalse (by simpa using hb)
  · obtain ⟨t₃, h₃, heq⟩ := Option.map_eq_some_iff.mp hins
    cases heq

/-- A table within its load factor executes every command, and stays within it. -/
theorem step_returns (t : ExtTable ν) (c : MapCmd (ℕ × ℕ) ν)
    (hinv : Inv extNum hash t ∧ t.Loaded) (hroomy : Roomy extNum hash t c) :
    ∃ o t', step extNum hash t c = some (o, t') ∧ Inv extNum hash t' ∧ t'.Loaded := by
  obtain ⟨hinv, hload⟩ := hinv
  have hlegal : Legal extNum hash t c := by
    cases c <;> first | exact hroomy | trivial
  suffices ∃ o t', step extNum hash t c = some (o, t') ∧ t'.Loaded by
    obtain ⟨o, t', h, hload'⟩ := this
    exact ⟨o, t', h, (step_meets t c o t' hinv hlegal h).1, hload'⟩
  cases c with
  | insert l v =>
    obtain ⟨hk, hnew, -⟩ := legal_insert hlegal
    obtain ⟨b, t₁, hres, -, -, -, hload₁, -, hret⟩ :=
      Table.reserve_insert_spec ops_lawful hinv hk hnew
    rw [step, insert, hres, Option.bind_some]
    cases b with
    | false => exact ⟨_, _, rfl, hload₁ hload⟩
    | true =>
      obtain ⟨t', h', hload'⟩ := hret hload rfl
      exact ⟨.flag true, t', by simp [show t₁.insert (ops extNum hash) l.1 v (hash (l.1, extNum v))
        = some t' from h'], hload'⟩
  | remove l =>
    have hspec := Table.rm_toMap ops_lawful hinv l
    rw [step, remove]
    cases hrm : t.rm (ops extNum hash) l (hash l) with
    | none => exact ⟨_, _, rfl, hload⟩
    | some r =>
      obtain ⟨v, t₁⟩ := r
      rw [hrm] at hspec
      refine ⟨_, _, rfl, ?_⟩
      rw [Table.Loaded, Table.size, hspec.2.1]
      exact (Nat.le.intro hspec.2.2.1).trans hload
  | lookup l => exact ⟨_, _, rfl, hload⟩
  | replace l v => cases hlegal
  | resize n =>
    obtain ⟨hres, hsome⟩ := Table.resize_spec ops_lawful hinv n
    obtain ⟨⟨ok, t₁⟩, h₁⟩ := Option.isSome_iff_exists.mp
      (hsome (le_trans hroomy (Table.loadLimit_le _)))
    refine ⟨.flag ok, t₁, by simp [step, h₁], ?_⟩
    obtain ⟨-, hcount, hfalse, htrue, -⟩ := hres ok t₁ h₁
    cases ok with
    | false => exact (hfalse rfl).2 ▸ hload
    | true =>
      have hpos := Nat.one_le_two_pow (n := n)
      have hsize : t₁.size = 2 ^ n := by rw [Table.size, (htrue rfl).2]; omega
      rw [Table.Loaded, hcount, hsize]
      exact hroomy
  | clear => exact ⟨_, _, rfl, Nat.zero_le _⟩
  | iterate => exact ⟨_, _, rfl, hload⟩

end ExtTable

end Upb
