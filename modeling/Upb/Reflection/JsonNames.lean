import Mathlib.Data.List.Perm.Basic
import Upb.Reflection.FieldLookup

/-!
# JSON names

A message whose JSON names must not conflict: when a field is inserted, its JSON name is looked up among
the names and the JSON names of the fields before it, but its name is not looked up among their JSON
names. So a field whose JSON name is the name of another field is accepted if it comes first.
-/

namespace Upb.Reflection

/-- `upb_MessageDef_FindByJsonNameWithSize`. -/
def MessageDef.findByJsonName (strhash : List UInt8 → ℕ) (m : MessageDef) (name : List UInt8) : Option ℕ :=
  match StrTable.lookup2 strhash m.jtof name with
  | some i => some i
  | none => (StrTable.lookup2 strhash m.ntof name).bind NameEntry.unpackField

/-- The options of a message without legacy conflicts, with `json_format` `ALLOW`. -/
def strictOptions : MessageOptions := ⟨false, true⟩

/-- The names of a field fit into a table, and its number is one that fields can have. -/
structure FieldDef.Valid (oneofs : List (List UInt8)) (f : FieldDef) : Prop where
  number : 0 < f.number ∧ f.number ≤ maxFieldNumber
  nameLength : f.name.length ≤ uint32Max
  jsonLength : f.jsonName.length ≤ uint32Max
  name : f.name ∉ oneofs
  json : f.jsonName ∉ oneofs

/-- A field can be inserted behind another one. -/
structure Compatible (g f : FieldDef) : Prop where
  name : g.name ≠ f.name
  json : g.jsonName ≠ f.jsonName
  number : g.number ≠ f.number
  jsonName : g.name ≠ f.jsonName

/-- The oneofs and fields of a message pass all checks, and there are not more of them than a table can
hold. -/
structure Acceptable (oneofs : List (List UInt8)) (fields : List FieldDef) : Prop where
  size : log2Ceiling (entriesNeededFor (oneofs.length + fields.length)) < 32
  oneofNames : oneofs.Nodup ∧ ∀ name ∈ oneofs, name.length ≤ uint32Max
  valid : ∀ f ∈ fields, f.Valid oneofs
  pairwise : fields.Pairwise Compatible

/-- No field's JSON name is the name of another field. -/
def NoCrossNames (fields : List FieldDef) : Prop :=
  fields.Pairwise fun g f => g.jsonName ≠ f.name ∧ f.jsonName ≠ g.name

/-- Every field is found by its JSON name and by its name. -/
def FoundByJsonName (strhash : List UInt8 → ℕ) (m : MessageDef) (fields : List FieldDef) : Prop :=
  ∀ i f, fields[i]? = some f →
    m.findByJsonName strhash f.jsonName = some i ∧ m.findByJsonName strhash f.name = some i

section Ready

variable {strhash : List UInt8 → ℕ} {inthash : ℕ → ℕ} {ν : Type} [Inhabited ν]

/-- A string table with so many entries. -/
structure StrReady (strhash : List UInt8 → ℕ) (t : StrTable ν) (n : ℕ) : Prop where
  inv : StrTable.Inv strhash t
  loaded : t.Loaded
  count : t.count = n

theorem StrReady.init {n : ℕ} {t : StrTable ν} (h : StrTable.init strhash n = some t) :
    StrReady strhash t 0 := by
  obtain ⟨hinv, hload, -⟩ := StrTable.inv_of_init h
  obtain ⟨-, hcount, -⟩ := Table.init_spec StrTable.ops_lawful h
  exact ⟨hinv, hload, hcount⟩

/-- A new string that fits into the table is inserted. -/
theorem StrReady.insert {t : StrTable ν} {n : ℕ} (ht : StrReady strhash t n) {k : List UInt8} (v : ν)
    (hnew : StrTable.lookup2 strhash t k = none) (hlen : k.length ≤ uint32Max)
    (hroom : n < Table.loadLimit (2 ^ 31)) :
    ∃ t', orOom (StrTable.insert strhash t k v) = .ok t' ∧ StrReady strhash t' (n + 1) ∧
      StrTable.lookup2 strhash t' = Function.update (StrTable.lookup2 strhash t) k (some v) := by
  obtain ⟨t₁, t', hres, hins, hload, hcount⟩ := Table.reserve_insert_count (k := some k) (v := v)
    StrTable.ops_lawful ht.inv rfl hnew ht.loaded (by rw [ht.count]; exact hroom)
  have hins : t₁.insert (StrTable.ops strhash) (some k) v (strhash k) = some t' := hins
  have hok : orOom (StrTable.insert strhash t k v) = .ok t' := by
    rw [StrTable.insert, hres, Option.bind_some]
    dsimp only
    rw [if_neg (by simp), if_neg (by omega), hins]
    rfl
  obtain ⟨hinv, hlookup⟩ := insert_orOom ht.inv hnew hok
  exact ⟨t', hok, ⟨hinv, hload, by rw [hcount, ht.count]⟩, hlookup⟩

/-- Only a string that is not too long is inserted. -/
theorem length_le_of_insert {t t' : StrTable ν} {k : List UInt8} {v : ν}
    (h : orOom (StrTable.insert strhash t k v) = .ok t') : k.length ≤ uint32Max := by
  rw [StrTable.insert] at h
  cases hres : t.reserve (StrTable.ops strhash) with
  | none =>
    rw [hres] at h
    cases h
  | some r =>
    obtain ⟨ok, t₁⟩ := r
    rw [hres, Option.bind_some] at h
    dsimp only at h
    split at h
    · cases h
    · split at h
      · cases h
      · omega

/-- A table of fields by number with so many entries. -/
structure IntReady (inthash : ℕ → ℕ) (t : IntTable ν) (n : ℕ) : Prop where
  inv : Uncompacted inthash t
  count : t.t.count = n

/-- A new number is inserted. -/
theorem IntReady.insert {t : IntTable ν} {n : ℕ} (ht : IntReady inthash t n) {k : ℕ} (v : ν) (hk : 0 < k)
    (hnew : IntTable.lookup inthash t k = none) (hroom : n < Table.loadLimit (2 ^ 31)) :
    ∃ t', orOom (IntTable.insert inthash t k v) = .ok t' ∧ IntReady inthash t' (n + 1) ∧
      IntTable.lookup inthash t' = Function.update (IntTable.lookup inthash t) k (some v) := by
  have hlarge : ¬ k < t.arraySize := by rw [ht.inv.arraySize]; omega
  have hnone : t.t.toMap (IntTable.ops inthash) inthash k = none := by
    rw [IntTable.lookup, if_neg hlarge] at hnew
    exact hnew
  have hempty : (IntTable.ops inthash : KeyOps ℕ ν ℕ).isempty k = false := by
    simp [IntTable.ops]
    omega
  obtain ⟨t₁, t', hres, hins, hload, hcount⟩ := Table.reserve_insert_count (k := k) (v := v)
    IntTable.ops_lawful ht.inv.inv.wf hempty hnone ht.inv.loaded (by rw [ht.count]; exact hroom)
  have hins : t₁.insert (IntTable.ops inthash) k v (inthash k) = some t' := hins
  have hok : orOom (IntTable.insert inthash t k v) = .ok { t with t := t' } := by
    rw [IntTable.insert, if_neg hlarge, hres, Option.bind_some]
    dsimp only
    rw [if_neg (by simp), hins]
    rfl
  obtain ⟨hinv, hlookup⟩ := ht.inv.insert hk hnew hok
  exact ⟨_, hok, ⟨hinv, by rw [← ht.count]; exact hcount⟩, hlookup⟩

end Ready

section Fields

variable {strhash : List UInt8 → ℕ} {inthash : ℕ → ℕ} {oneofs : List (List UInt8)} {done fs : List FieldDef}
  {f : FieldDef} {m m' : MessageDef} {i : ℕ}

/-- The tables after the oneofs and the fields `done`. -/
structure MessageDef.Ready (strhash : List UInt8 → ℕ) (inthash : ℕ → ℕ) (oneofs : List (List UInt8))
    (done : List FieldDef) (m : MessageDef) : Prop where
  ntof : StrReady strhash m.ntof (oneofs.length + done.length)
  jtof : StrReady strhash m.jtof done.length
  itof : IntReady inthash m.itof done.length
  number_pos : ∀ f ∈ done, 0 < f.number
  name : ∀ name, StrTable.lookup2 strhash m.ntof name = none ↔ name ∉ oneofs ∧ ∀ f ∈ done, f.name ≠ name
  json : ∀ name, StrTable.lookup2 strhash m.jtof name = none ↔ ∀ f ∈ done, f.jsonName ≠ name
  number : ∀ k, IntTable.lookup inthash m.itof k = none ↔ ∀ f ∈ done, f.number.toNat ≠ k

theorem check_true (e : DefError) : check true e = .ok () := rfl

/-- A field that is inserted passes the checks. -/
theorem MessageDef.Ready.valid_of_insertField (hm : m.Ready strhash inthash oneofs done)
    (h : insertField strhash inthash strictOptions m i f = .ok m') :
    f.Valid oneofs ∧ ∀ g ∈ done, Compatible g f := by
  obtain ⟨_, hnumber, h⟩ := bind_eq_ok.mp h
  obtain ⟨_, hname, h⟩ := bind_eq_ok.mp h
  obtain ⟨ntof, hntof, h⟩ := bind_eq_ok.mp h
  obtain ⟨_, hcross, h⟩ := bind_eq_ok.mp h
  obtain ⟨⟨v, jtof⟩, hjson, h⟩ := bind_eq_ok.mp h
  obtain ⟨_, hnewNumber, h⟩ := bind_eq_ok.mp h
  have hnumber := check_eq_ok hnumber
  simp only [Bool.and_eq_true, decide_eq_true_eq] at hnumber
  have hname := Option.isNone_iff_eq_none.mp (check_eq_ok hname)
  obtain ⟨-, hntofLookup⟩ := insert_orOom hm.ntof.inv hname hntof
  obtain ⟨hnotOneof, hnames⟩ := (hm.name f.name).mp hname
  -- the JSON name is looked up unless it is the name
  have hjsonName : f.jsonName ∉ oneofs ∧ ∀ g ∈ done, g.name ≠ f.jsonName := by
    by_cases hsame : f.name = f.jsonName
    · rw [← hsame]
      exact ⟨hnotOneof, hnames⟩
    · have hnone := check_eq_ok hcross
      simp only [strictOptions, Bool.false_or, Bool.not_true, Bool.or_false, Bool.or_eq_true, beq_iff_eq, hsame,
        false_or, Option.isNone_iff_eq_none] at hnone
      rw [hntofLookup, Function.update_of_ne (Ne.symm hsame)] at hnone
      exact (hm.name f.jsonName).mp hnone
  have hjsonNew : StrTable.lookup2 strhash m.jtof f.jsonName = none ∧ f.jsonName.length ≤ uint32Max := by
    rw [insertJsonName] at hjson
    cases hlookup : StrTable.lookup2 strhash m.jtof f.jsonName with
    | some e =>
      rw [hlookup] at hjson
      cases hjson
    | none =>
      rw [hlookup] at hjson
      obtain ⟨new, hnew, -⟩ := bind_eq_ok.mp hjson
      exact ⟨rfl, length_le_of_insert hnew⟩
  have hnumbers := (hm.number f.number.toNat).mp (Option.isNone_iff_eq_none.mp (check_eq_ok hnewNumber))
  refine ⟨⟨hnumber, length_le_of_insert hntof, hjsonNew.2, hnotOneof, hjsonName.1⟩, fun g hg => ?_⟩
  refine ⟨hnames g hg, (hm.json f.jsonName).mp hjsonNew.1 g hg, fun heq => ?_, hjsonName.2 g hg⟩
  exact hnumbers g hg (by rw [heq])

/-- A field that passes the checks is inserted. -/
theorem MessageDef.Ready.insertField_of_valid (hm : m.Ready strhash inthash oneofs done)
    (hroom : oneofs.length + done.length < Table.loadLimit (2 ^ 31)) (hf : f.Valid oneofs)
    (hcompatible : ∀ g ∈ done, Compatible g f) (i : ℕ) :
    ∃ m', insertField strhash inthash strictOptions m i f = .ok m' ∧
      m'.Ready strhash inthash oneofs (done ++ [f]) := by
  have hname := (hm.name f.name).mpr ⟨hf.name, fun g hg => (hcompatible g hg).name⟩
  have hjson := (hm.json f.jsonName).mpr fun g hg => (hcompatible g hg).json
  have hnumbers : ∀ g ∈ done, g.number.toNat ≠ f.number.toNat := by
    intro g hg heq
    have hne := (hcompatible g hg).number
    have hpos := hm.number_pos g hg
    have hpos' := hf.number.1
    omega
  have hnumber := (hm.number f.number.toNat).mpr hnumbers
  have hnumberPos := hf.number.1
  obtain ⟨ntof, hntof, hntofReady, hntofLookup⟩ :=
    hm.ntof.insert (NameEntry.field i) hname hf.nameLength hroom
  obtain ⟨jtof, hjtof, hjtofReady, hjtofLookup⟩ := hm.jtof.insert i hjson hf.jsonLength (by omega)
  obtain ⟨itof, hitof, hitofReady, hitofLookup⟩ :=
    hm.itof.insert i (show 0 < f.number.toNat by omega) hnumber (by omega)
  have hcross : f.name = f.jsonName ∨ StrTable.lookup2 strhash ntof f.jsonName = none := by
    by_cases hsame : f.name = f.jsonName
    · exact .inl hsame
    · refine .inr ?_
      rw [hntofLookup, Function.update_of_ne (Ne.symm hsame)]
      exact (hm.name f.jsonName).mpr ⟨hf.json, fun g hg => (hcompatible g hg).jsonName⟩
  refine ⟨⟨itof, ntof, jtof⟩, ?_, ⟨?_, ?_, ?_, ?_, ?_, ?_, ?_⟩⟩
  · rw [insertField]
    refine bind_eq_ok.mpr ⟨(), ?_, bind_eq_ok.mpr ⟨(), ?_, bind_eq_ok.mpr ⟨ntof, hntof,
      bind_eq_ok.mpr ⟨(), ?_, bind_eq_ok.mpr ⟨(i, jtof), ?_, bind_eq_ok.mpr ⟨(), ?_,
        bind_eq_ok.mpr ⟨itof, hitof, rfl⟩⟩⟩⟩⟩⟩⟩
    · rw [show (decide (0 < f.number) && decide (f.number ≤ maxFieldNumber)) = true by
        simpa using hf.number, check_true]
    · rw [hname]
      rfl
    · rcases hcross with hsame | hnone
      · simp [hsame, check_true]
      · simp [hnone, check_true]
    · rw [insertJsonName, hjson]
      exact bind_eq_ok.mpr ⟨jtof, hjtof, rfl⟩
    · rw [hnumber]
      rfl
  · rw [List.length_append, ← Nat.add_assoc]
    exact hntofReady
  · rw [List.length_append]
    exact hjtofReady
  · rw [List.length_append]
    exact hitofReady
  · intro g hg
    rcases List.mem_append.mp hg with hg | hg
    · exact hm.number_pos g hg
    · obtain rfl := List.mem_singleton.mp hg
      exact hnumberPos
  · intro name
    rw [hntofLookup, Function.update_apply]
    split
    · next heq => simp [heq]
    · next hne =>
      rw [hm.name name, List.forall_mem_append]
      simp [Ne.symm hne]
  · intro name
    rw [hjtofLookup, Function.update_apply]
    split
    · next heq => simp [heq]
    · next hne =>
      rw [hm.json name, List.forall_mem_append]
      simp [Ne.symm hne]
  · intro k
    rw [hitofLookup, Function.update_apply]
    split
    · next heq => simp [heq]
    · next hne =>
      rw [hm.number k, List.forall_mem_append]
      simp [Ne.symm hne]

/-- The remaining fields are inserted just when each of them passes the checks. -/
theorem MessageDef.Ready.fieldDefsNew (hm : m.Ready strhash inthash oneofs done) (fs : List FieldDef) (i : ℕ)
    (hroom : oneofs.length + done.length + fs.length ≤ Table.loadLimit (2 ^ 31)) :
    ((∀ f ∈ fs, f.Valid oneofs ∧ ∀ g ∈ done, Compatible g f) ∧ fs.Pairwise Compatible →
      ∃ m', fieldDefsNew strhash inthash strictOptions m i fs = .ok m') ∧
    ∀ m', fieldDefsNew strhash inthash strictOptions m i fs = .ok m' →
      (∀ f ∈ fs, f.Valid oneofs ∧ ∀ g ∈ done, Compatible g f) ∧ fs.Pairwise Compatible ∧
        m'.Ready strhash inthash oneofs (done ++ fs) := by
  induction fs generalizing m done i with
  | nil =>
    refine ⟨fun _ => ⟨m, rfl⟩, fun m' h => ?_⟩
    cases h
    rw [List.append_nil]
    exact ⟨nofun, .nil, hm⟩
  | cons f fs ih =>
    rw [List.length_cons] at hroom
    have hrest : ∀ {m₁ : MessageDef}, m₁.Ready strhash inthash oneofs (done ++ [f]) → _ := fun h =>
      ih h (i + 1) (by rw [List.length_append, List.length_singleton]; omega)
    rw [List.forall_mem_cons, List.pairwise_cons]
    constructor
    · rintro ⟨⟨⟨hvalid, hcompatible⟩, hall⟩, hfirst, hpairwise⟩
      obtain ⟨m₁, hinsert, hready⟩ := hm.insertField_of_valid (by omega) hvalid hcompatible i
      have hothers : ∀ f' ∈ fs, f'.Valid oneofs ∧ ∀ g ∈ done ++ [f], Compatible g f' := by
        intro f' hf'
        refine ⟨(hall f' hf').1, fun g hg => ?_⟩
        rcases List.mem_append.mp hg with hg | hg
        · exact (hall f' hf').2 g hg
        · obtain rfl := List.mem_singleton.mp hg
          exact hfirst f' hf'
      obtain ⟨m', hnew⟩ := (hrest hready).1 ⟨hothers, hpairwise⟩
      exact ⟨m', bind_eq_ok.mpr ⟨m₁, hinsert, hnew⟩⟩
    · intro m' h
      obtain ⟨m₁, hinsert, h⟩ := bind_eq_ok.mp h
      obtain ⟨hvalid, hcompatible⟩ := hm.valid_of_insertField hinsert
      obtain ⟨m₂, hinsert', hready⟩ := hm.insertField_of_valid (by omega) hvalid hcompatible i
      cases hinsert.symm.trans hinsert'
      obtain ⟨hall, hpairwise, hready'⟩ := (hrest hready).2 m' h
      rw [List.append_assoc] at hready'
      refine ⟨⟨⟨hvalid, hcompatible⟩, fun f' hf' => ⟨(hall f' hf').1, fun g hg => ?_⟩⟩,
        ⟨fun f' hf' => ?_, hpairwise⟩, hready'⟩
      · exact (hall f' hf').2 g (List.mem_append_left _ hg)
      · exact (hall f' hf').2 f (by simp)

end Fields

section Message

variable {strhash : List UInt8 → ℕ} {inthash : ℕ → ℕ} {names oneofs : List (List UInt8)}
  {fields : List FieldDef} {name : List UInt8} {m m' : MessageDef} {i : ℕ}

/-- A oneof whose name is new and not too long is inserted, and no other. -/
theorem MessageDef.Ready.createOneofdef (hm : m.Ready strhash inthash names []) (name : List UInt8) (i : ℕ)
    (hroom : names.length < Table.loadLimit (2 ^ 31)) :
    (name ∉ names ∧ name.length ≤ uint32Max → ∃ m', createOneofdef strhash m i name = .ok m') ∧
    ∀ m', createOneofdef strhash m i name = .ok m' →
      name ∉ names ∧ name.length ≤ uint32Max ∧ m'.Ready strhash inthash (names ++ [name]) [] := by
  have hinsert : name ∉ names → name.length ≤ uint32Max → ∃ ntof,
      Reflection.createOneofdef strhash m i name = .ok { m with ntof := ntof } ∧
      ({ m with ntof := ntof } : MessageDef).Ready strhash inthash (names ++ [name]) [] := by
    intro hnew hlen
    have hnone := (hm.name name).mpr ⟨hnew, nofun⟩
    obtain ⟨ntof, hntof, hready, hlookup⟩ := hm.ntof.insert (NameEntry.oneof i) hnone hlen hroom
    refine ⟨ntof, ?_, ⟨?_, hm.jtof, hm.itof, hm.number_pos, ?_, hm.json, hm.number⟩⟩
    · rw [Reflection.createOneofdef, hnone]
      exact bind_eq_ok.mpr ⟨(), rfl, bind_eq_ok.mpr ⟨ntof, hntof, rfl⟩⟩
    · rw [List.length_append]
      exact hready
    · intro name'
      change StrTable.lookup2 strhash ntof name' = none ↔ _
      rw [hlookup, Function.update_apply]
      split
      · next heq => simp [heq]
      · next hne =>
        rw [hm.name name']
        simp [hne]
  refine ⟨fun ⟨hnew, hlen⟩ => ?_, fun m' h => ?_⟩
  · obtain ⟨ntof, hok, -⟩ := hinsert hnew hlen
    exact ⟨_, hok⟩
  · obtain ⟨_, hcheck, hins⟩ := bind_eq_ok.mp h
    obtain ⟨ntof, hntof, -⟩ := bind_eq_ok.mp hins
    have hnew := ((hm.name name).mp (Option.isNone_iff_eq_none.mp (check_eq_ok hcheck))).1
    have hlen := length_le_of_insert hntof
    obtain ⟨ntof', hok, hready⟩ := hinsert hnew hlen
    cases hok.symm.trans h
    exact ⟨hnew, hlen, hready⟩

/-- The remaining oneofs are inserted just when their names are new and not too long. -/
theorem MessageDef.Ready.oneofDefsNew (hm : m.Ready strhash inthash names []) (oneofs : List (List UInt8))
    (i : ℕ) (hroom : names.length + oneofs.length ≤ Table.loadLimit (2 ^ 31)) :
    ((∀ name ∈ oneofs, name ∉ names ∧ name.length ≤ uint32Max) ∧ oneofs.Nodup →
      ∃ m', oneofDefsNew strhash m i oneofs = .ok m') ∧
    ∀ m', oneofDefsNew strhash m i oneofs = .ok m' →
      (∀ name ∈ oneofs, name ∉ names ∧ name.length ≤ uint32Max) ∧ oneofs.Nodup ∧
        m'.Ready strhash inthash (names ++ oneofs) [] := by
  induction oneofs generalizing m names i with
  | nil =>
    refine ⟨fun _ => ⟨m, rfl⟩, fun m' h => ?_⟩
    cases h
    rw [List.append_nil]
    exact ⟨nofun, .nil, hm⟩
  | cons name oneofs ih =>
    rw [List.length_cons] at hroom
    obtain ⟨hcreate, hcreated⟩ := hm.createOneofdef name i (by omega)
    have hrest : ∀ {m₁ : MessageDef}, m₁.Ready strhash inthash (names ++ [name]) [] → _ := fun h =>
      ih h (i + 1) (by rw [List.length_append, List.length_singleton]; omega)
    rw [List.forall_mem_cons, List.nodup_cons]
    refine ⟨?_, fun m' h => ?_⟩
    · rintro ⟨⟨hfirst, hall⟩, hnot, hnodup⟩
      obtain ⟨m₁, h₁⟩ := hcreate hfirst
      have hothers : ∀ name' ∈ oneofs, name' ∉ names ++ [name] ∧ name'.length ≤ uint32Max := by
        intro name' hname'
        refine ⟨fun hmem => ?_, (hall name' hname').2⟩
        rcases List.mem_append.mp hmem with hmem | hmem
        · exact (hall name' hname').1 hmem
        · obtain rfl := List.mem_singleton.mp hmem
          exact hnot hname'
      obtain ⟨m', h'⟩ := (hrest (hcreated m₁ h₁).2.2).1 ⟨hothers, hnodup⟩
      exact ⟨m', bind_eq_ok.mpr ⟨m₁, h₁, h'⟩⟩
    · obtain ⟨m₁, h₁, h⟩ := bind_eq_ok.mp h
      obtain ⟨hnew, hlen, hready⟩ := hcreated m₁ h₁
      obtain ⟨hothers, hnodup, hready'⟩ := (hrest hready).2 m' h
      rw [List.append_assoc] at hready'
      refine ⟨⟨⟨hnew, hlen⟩, fun name' hname' => ?_⟩, ⟨fun hmem => ?_, hnodup⟩, hready'⟩
      · exact ⟨fun hmem => (hothers name' hname').1 (List.mem_append_left _ hmem), (hothers name' hname').2⟩
      · exact (hothers name hmem).1 (by simp)

theorem log2Ceiling_lt_iff (n : ℕ) : log2Ceiling n < 32 ↔ n ≤ 2 ^ 31 := by
  rw [log2Ceiling]
  split
  · next h => exact ⟨fun _ => by omega, fun _ => by decide⟩
  · next h =>
    have hlog := Nat.log2_lt (n := n - 1) (k := 31) (by omega)
    omega

theorem room_of_size {n : ℕ} (h : log2Ceiling (entriesNeededFor n) < 32) :
    n < Table.loadLimit (2 ^ 31) := by
  rw [log2Ceiling_lt_iff, entriesNeededFor] at h
  rw [Table.loadLimit, Nat.shiftRight_eq_div_pow]
  omega

theorem strTable_init_isSome (strhash : List UInt8 → ℕ) (ν : Type) [Inhabited ν] {n : ℕ}
    (h : log2Ceiling (entriesNeededFor n) < 32) : ∃ t : StrTable ν, StrTable.init strhash n = some t := by
  rw [StrTable.init, Table.init, if_neg (by omega)]
  exact ⟨_, rfl⟩

theorem size_of_strTable_init {n : ℕ} {ν : Type} [Inhabited ν] {t : StrTable ν}
    (h : StrTable.init strhash n = some t) : log2Ceiling (entriesNeededFor n) < 32 := by
  rw [StrTable.init, Table.init] at h
  split at h
  · cases h
  · omega

/-- A message is accepted just when its oneofs and fields pass all checks. -/
theorem createMsgdef_isOk_iff :
    (∃ m, createMsgdef strhash inthash strictOptions oneofs fields = .ok m) ↔ Acceptable oneofs fields := by
  have hready : ∀ {itof : IntTable ℕ} {ntof : StrTable NameEntry} {jtof : StrTable ℕ},
      IntTable.init inthash = some itof → StrTable.init strhash (oneofs.length + fields.length) = some ntof →
        StrTable.init strhash fields.length = some jtof →
          (⟨itof, ntof, jtof⟩ : MessageDef).Ready strhash inthash [] [] := by
    intro itof ntof jtof hitof hntof hjtof
    obtain ⟨hitofInv, hitofEmpty⟩ := uncompacted_init hitof
    obtain ⟨-, -, hntofEmpty⟩ := StrTable.inv_of_init hntof
    obtain ⟨-, -, hjtofEmpty⟩ := StrTable.inv_of_init hjtof
    have hcount : itof.t.count = 0 := by
      rw [IntTable.init, IntTable.sizedinit] at hitof
      obtain ⟨base, hbase, rfl⟩ := Option.map_eq_some_iff.mp hitof
      exact (Table.init_spec IntTable.ops_lawful hbase).2.1
    exact ⟨.init hntof, .init hjtof, ⟨hitofInv, hcount⟩, by rintro _ ⟨⟩, by simp [hntofEmpty],
      by simp [hjtofEmpty], by simp [hitofEmpty]⟩
  constructor
  · rintro ⟨m, h⟩
    obtain ⟨itof, hitof, h⟩ := bind_eq_ok.mp h
    obtain ⟨ntof, hntof, h⟩ := bind_eq_ok.mp h
    obtain ⟨jtof, hjtof, h⟩ := bind_eq_ok.mp h
    obtain ⟨m₁, honeofs, h⟩ := bind_eq_ok.mp h
    obtain ⟨m₀, hfields, h⟩ := bind_eq_ok.mp h
    have hsize := size_of_strTable_init (initOrOom_eq_ok hntof)
    have hroom := room_of_size hsize
    have hm := hready (initOrOom_eq_ok hitof) (initOrOom_eq_ok hntof) (initOrOom_eq_ok hjtof)
    obtain ⟨hall, hnodup, hm₁⟩ := (hm.oneofDefsNew oneofs 0 (by rw [List.length_nil]; omega)).2 m₁ honeofs
    obtain ⟨hvalid, hpairwise, -⟩ := (hm₁.fieldDefsNew fields 0
      (by rw [List.length_nil, List.nil_append]; omega)).2 m₀ hfields
    exact ⟨hsize, ⟨hnodup, fun name hname => (hall name hname).2⟩, fun f hf => (hvalid f hf).1, hpairwise⟩
  · intro h
    have hroom := room_of_size h.size
    have hjsize : log2Ceiling (entriesNeededFor fields.length) < 32 := by
      have hsize := h.size
      rw [log2Ceiling_lt_iff, entriesNeededFor] at hsize ⊢
      omega
    obtain ⟨itof, hitof⟩ : ∃ itof : IntTable ℕ, IntTable.init inthash = some itof := ⟨_, rfl⟩
    obtain ⟨ntof, hntof⟩ := strTable_init_isSome strhash NameEntry h.size
    obtain ⟨jtof, hjtof⟩ := strTable_init_isSome strhash ℕ hjsize
    have hm := hready hitof hntof hjtof
    obtain ⟨hcreates, hcreated⟩ := hm.oneofDefsNew oneofs 0 (by rw [List.length_nil]; omega)
    obtain ⟨m₁, honeofs⟩ := hcreates ⟨fun name hname => ⟨List.not_mem_nil, h.oneofNames.2 name hname⟩, h.oneofNames.1⟩
    have hm₁ := (hcreated m₁ honeofs).2.2
    obtain ⟨hinserts, hinserted⟩ := hm₁.fieldDefsNew fields 0
      (by rw [List.length_nil, List.nil_append]; omega)
    obtain ⟨m₀, hfields⟩ := hinserts ⟨fun f hf => ⟨h.valid f hf, by rintro _ ⟨⟩⟩, h.pairwise⟩
    have hitofInv := (hinserted m₀ hfields).2.2.itof.inv
    obtain ⟨itof', hcompact, -⟩ := hitofInv.compact_returns
    refine ⟨_, bind_eq_ok.mpr ⟨itof, by rw [hitof]; rfl, bind_eq_ok.mpr ⟨ntof, by rw [hntof]; rfl,
      bind_eq_ok.mpr ⟨jtof, by rw [hjtof]; rfl, bind_eq_ok.mpr ⟨m₁, honeofs, bind_eq_ok.mpr ⟨m₀, hfields,
        bind_eq_ok.mpr ⟨itof', hcompact, rfl⟩⟩⟩⟩⟩⟩⟩

end Message

section Unambiguous

variable {strhash : List UInt8 → ℕ} {inthash : ℕ → ℕ} {oneofs : List (List UInt8)}
  {fields fields' : List FieldDef} {m : MessageDef}

/-- Without cross names, the JSON names and the names of the fields of a message find them. -/
theorem foundByJsonName_of_noCrossNames (h : createMsgdef strhash inthash strictOptions oneofs fields = .ok m)
    (hcross : NoCrossNames fields) : FoundByJsonName strhash m fields := by
  have hacceptable := createMsgdef_isOk_iff.mp ⟨m, h⟩
  obtain ⟨m₀, -, hfilled, hntof, hjtof⟩ := createMsgdef_filled h
  have hnodup : (fields.map FieldDef.jsonName).Nodup :=
    List.pairwise_map.mpr (hacceptable.pairwise.imp fun hpair => hpair.json)
  have hfirst := findIdx?_jsonName_iff.mpr hnodup
  intro i f hi
  constructor
  · rw [MessageDef.findByJsonName, hjtof, hfilled.json, hfirst i f hi]
  · rw [MessageDef.findByJsonName, hjtof, hfilled.json]
    cases hfind : fields.findIdx? fun g => g.jsonName == f.name with
    | none =>
      rw [hntof, hfilled.name i f hi]
      rfl
    | some j =>
      -- the field with that JSON name is the field itself
      obtain ⟨hlt, hname, -⟩ := List.findIdx?_eq_some_iff_getElem.mp hfind
      have hname : fields[j].jsonName = f.name := by simpa using hname
      obtain ⟨hilt, rfl⟩ := List.getElem?_eq_some_iff.mp hi
      have hpairs := List.pairwise_iff_getElem.mp hcross
      rcases Nat.lt_trichotomy j i with hji | rfl | hij
      · exact absurd hname (hpairs j i hlt hilt hji).1
      · rfl
      · exact absurd hname (hpairs i j hilt hlt hij).2

/-- Without cross names, the order of the fields does not matter to the checks. -/
theorem Acceptable.perm (h : Acceptable oneofs fields) (hcross : NoCrossNames fields)
    (hperm : fields.Perm fields') : Acceptable oneofs fields' := by
  have hsymmetric := h.pairwise.and hcross
  have hpairwise := (hperm.pairwise_iff fun {g f} hgf =>
    ⟨⟨hgf.1.name.symm, hgf.1.json.symm, hgf.1.number.symm, hgf.2.1.symm⟩, hgf.2.2, hgf.2.1⟩).mp hsymmetric
  refine ⟨?_, h.oneofNames, fun f hf => h.valid f (hperm.mem_iff.mpr hf), hpairwise.imp fun hgf => hgf.1⟩
  rw [← hperm.length_eq]
  exact h.size

/-- No field's JSON name is another one's name if both orders pass the checks. -/
theorem noCrossNames_of_reverse (h : Acceptable oneofs fields) (hreverse : Acceptable oneofs fields.reverse) :
    NoCrossNames fields := by
  have hback := List.pairwise_reverse.mp hreverse.pairwise
  exact (h.pairwise.and hback).imp fun hgf => ⟨hgf.2.jsonName.symm, hgf.1.jsonName.symm⟩

/-- The JSON names of a message are unambiguous, and its acceptance does not depend on the order of its
fields, just when no field's JSON name is the name of another one; or else the fields pass the checks in
no order. -/
theorem jsonNames_unambiguous_iff (strhash : List UInt8 → ℕ) (inthash : ℕ → ℕ) (oneofs : List (List UInt8))
    (fields : List FieldDef) :
    ((∀ m, createMsgdef strhash inthash strictOptions oneofs fields = .ok m → FoundByJsonName strhash m fields) ∧
      ∀ fields', fields.Perm fields' →
        ((∃ m, createMsgdef strhash inthash strictOptions oneofs fields = .ok m) ↔
          ∃ m, createMsgdef strhash inthash strictOptions oneofs fields' = .ok m)) ↔
    NoCrossNames fields ∨ ∀ fields', fields.Perm fields' → ¬ Acceptable oneofs fields' := by
  simp only [createMsgdef_isOk_iff]
  constructor
  · rintro ⟨-, horder⟩
    rcases Classical.em (Acceptable oneofs fields) with h | h
    · exact .inl (noCrossNames_of_reverse h ((horder _ (List.reverse_perm fields).symm).mp h))
    · exact .inr fun fields' hperm h' => h ((horder fields' hperm).mpr h')
  · rintro (hcross | hnone)
    · refine ⟨fun m h => foundByJsonName_of_noCrossNames h hcross, fun fields' hperm => ?_⟩
      refine ⟨fun h => h.perm hcross hperm, fun h' => h'.perm ?_ hperm.symm⟩
      exact (hperm.pairwise_iff fun {_ _} hgf => ⟨hgf.2, hgf.1⟩).mp hcross
    · refine ⟨fun m h => ?_, fun fields' hperm => ?_⟩
      · exact absurd (createMsgdef_isOk_iff.mp ⟨m, h⟩) (hnone fields (List.Perm.refl fields))
      · exact ⟨fun h => absurd h (hnone fields (List.Perm.refl fields)), fun h => absurd h (hnone fields' hperm)⟩

/-- Fields `x = 1` with the JSON name `foo`, and `foo = 2` with the JSON name `bar`. -/
def crossFields : List FieldDef :=
  [⟨1, [120], [102, 111, 111]⟩, ⟨2, [102, 111, 111], [98, 97, 114]⟩]

/-- The fields are accepted in this order, the name `foo` finds the field `x`, and in the other order they
are rejected. -/
theorem crossFields_ambiguous :
    (createMsgdef (fun _ => 0) (fun _ => 0) strictOptions [] crossFields).toOption.map
        (fun m => m.findByJsonName (fun _ => 0) [102, 111, 111]) = some (some 0) ∧
      (createMsgdef (fun _ => 0) (fun _ => 0) strictOptions [] crossFields.reverse).isOk = false := by
  constructor <;> decide +kernel

end Unambiguous

end Upb.Reflection
