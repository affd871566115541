import Upb.Hash.Compact
import Upb.Hash.StrTable

/-!
# Field lookup in a message definition

`upb/reflection/message_def.c` fills three tables while it creates the fields of a message: fields and
oneofs by name, fields by JSON name and fields by number. A definition is referred to by its index in
the message. The variable that goes into the table by number is also the output of the lookups of the
JSON name, so that with `deprecated_legacy_json_field_conflicts` a field whose JSON name was taken is
entered under its number as the field that took it.
-/

namespace Upb.Reflection

/-- What the lookup tables of a message depend on of a field. -/
structure FieldDef where
  number : ℤ
  name : List UInt8
  jsonName : List UInt8

/-- The options of a message that its lookup tables depend on. -/
structure MessageOptions where
  deprecatedLegacyJsonFieldConflicts : Bool
  /-- The resolved feature `json_format` is `ALLOW`. -/
  jsonFormatAllow : Bool

/-- A value of the table by name, tagged as by `_upb_DefType_Pack`. -/
inductive NameEntry where
  | field (i : ℕ)
  | oneof (i : ℕ)
  deriving Inhabited, DecidableEq

/-- `_upb_DefType_Unpack` of a field. -/
def NameEntry.unpackField : NameEntry → Option ℕ
  | .field i => some i
  | .oneof _ => none

/-- The errors that creating a message can end in here: those of `_upb_DefBuilder_Errf`, out of memory,
and a failed assertion of a hash table. -/
inductive DefError where
  | invalidFieldNumber (number : ℤ)
  | duplicateFieldName (name : List UInt8)
  | duplicateJsonNameWithFieldName (name jsonName : List UInt8)
  | duplicateJsonName (jsonName : List UInt8)
  | duplicateFieldNumber (number : ℤ)
  | duplicateOneofName (name : List UInt8)
  | oom
  | assertion

/-- The lookup tables of a `upb_MessageDef`. -/
structure MessageDef where
  itof : IntTable ℕ
  ntof : StrTable NameEntry
  jtof : StrTable ℕ

/-- `kUpb_MaxFieldNumber`. -/
def maxFieldNumber : ℤ := 2 ^ 29 - 1

/-- `_upb_DefBuilder_Errf` unless the condition holds. -/
def check (ok : Bool) (e : DefError) : Except DefError Unit := if ok then .ok () else .error e

/-- An insertion whose failure is reported as out of memory. -/
def orOom {α : Type} : Option (Bool × α) → Except DefError α
  | some (true, t) => .ok t
  | some (false, _) => .error .oom
  | none => .error .assertion

section

variable (strhash : List UInt8 → ℕ) (inthash : ℕ → ℕ)

/-- `upb_MessageDef_FindFieldByNumber`. -/
def MessageDef.findFieldByNumber (m : MessageDef) (number : ℕ) : Option ℕ :=
  IntTable.lookup inthash m.itof number

/-- `upb_MessageDef_FindFieldByNameWithSize`. -/
def MessageDef.findFieldByName (m : MessageDef) (name : List UInt8) : Option ℕ :=
  (StrTable.lookup2 strhash m.ntof name).bind NameEntry.unpackField

/-- The JSON name of the field with index `i` in `_upb_MessageDef_InsertField`: the value for the table by
number, which the lookup overwrites if the JSON name is taken, and the table by JSON name. -/
def insertJsonName (skipJsonConflicts : Bool) (jtof : StrTable ℕ) (i : ℕ) (jsonName : List UInt8) :
    Except DefError (ℕ × StrTable ℕ) :=
  match StrTable.lookup2 strhash jtof jsonName with
  | some v => do
    check skipJsonConflicts (.duplicateJsonName jsonName)
    .ok (v, jtof)
  | none => do
    let jtof ← orOom (StrTable.insert strhash jtof jsonName i)
    .ok (i, jtof)

/-- `_upb_MessageDef_InsertField` of the field with index `i`. -/
def insertField (opts : MessageOptions) (m : MessageDef) (i : ℕ) (f : FieldDef) :
    Except DefError MessageDef := do
  check (0 < f.number && f.number ≤ maxFieldNumber) (.invalidFieldNumber f.number)
  check (StrTable.lookup2 strhash m.ntof f.name).isNone (.duplicateFieldName f.name)
  let ntof ← orOom (StrTable.insert strhash m.ntof f.name (.field i))
  let skipJsonConflicts := opts.deprecatedLegacyJsonFieldConflicts
  check (skipJsonConflicts || f.name == f.jsonName || !opts.jsonFormatAllow ||
    (StrTable.lookup2 strhash ntof f.jsonName).isNone) (.duplicateJsonNameWithFieldName f.name f.jsonName)
  let (v, jtof) ← insertJsonName strhash skipJsonConflicts m.jtof i f.jsonName
  check (IntTable.lookup inthash m.itof f.number.toNat).isNone (.duplicateFieldNumber f.number)
  let itof ← orOom (IntTable.insert inthash m.itof f.number.toNat v)
  .ok ⟨itof, ntof, jtof⟩

/-- `create_oneofdef` of the oneof with index `i`. -/
def createOneofdef (m : MessageDef) (i : ℕ) (name : List UInt8) : Except DefError MessageDef := do
  check (StrTable.lookup2 strhash m.ntof name).isNone (.duplicateOneofName name)
  let ntof ← orOom (StrTable.insert strhash m.ntof name (.oneof i))
  .ok { m with ntof := ntof }

/-- `_upb_OneofDefs_New`, from the index `i` on. -/
def oneofDefsNew (m : MessageDef) (i : ℕ) : List (List UInt8) → Except DefError MessageDef
  | [] => .ok m
  | name :: names => do
    let m ← createOneofdef strhash m i name
    oneofDefsNew m (i + 1) names

/-- The insertions of `_upb_FieldDefs_New`, from the index `i` on. -/
def fieldDefsNew (opts : MessageOptions) (m : MessageDef) (i : ℕ) : List FieldDef → Except DefError MessageDef
  | [] => .ok m
  | f :: fs => do
    let m ← insertField strhash inthash opts m i f
    fieldDefsNew opts m (i + 1) fs

/-- A table that cannot be initialised is reported as out of memory. -/
def initOrOom {α : Type} : Option α → Except DefError α
  | some t => .ok t
  | none => .error .oom

/-- `create_msgdef`, as far as it concerns the lookup tables. -/
def createMsgdef (opts : MessageOptions) (oneofs : List (List UInt8)) (fields : List FieldDef) :
    Except DefError MessageDef := do
  let itof ← initOrOom (IntTable.init inthash)
  let ntof ← initOrOom (StrTable.init strhash (oneofs.length + fields.length))
  let jtof ← initOrOom (StrTable.init strhash fields.length)
  let m ← oneofDefsNew strhash ⟨itof, ntof, jtof⟩ 0 oneofs
  let m ← fieldDefsNew strhash inthash opts m 0 fields
  let itof ← orOom (IntTable.compact inthash m.itof)
  .ok { m with itof := itof }

end

section Spec

theorem bind_eq_ok {α β : Type} {x : Except DefError α} {f : α → Except DefError β} {b : β} :
    (x >>= f) = .ok b ↔ ∃ a, x = .ok a ∧ f a = .ok b := by
  constructor
  · intro h
    cases x with
    | error e => cases h
    | ok a => exact ⟨a, rfl, h⟩
  · rintro ⟨a, rfl, h⟩
    exact h

theorem check_eq_ok {ok : Bool} {e : DefError} {u : Unit} (h : check ok e = .ok u) : ok = true := by
  rw [check] at h
  split at h
  · assumption
  · cases h

theorem initOrOom_eq_ok {α : Type} {o : Option α} {t : α} (h : initOrOom o = .ok t) : o = some t := by
  cases o with
  | none => cases h
  | some t' =>
    cases h
    rfl

variable {strhash : List UInt8 → ℕ} {inthash : ℕ → ℕ} {ν : Type} [Inhabited ν]

/-- An insertion of a new string that succeeds adds it. -/
theorem insert_orOom {t t' : StrTable ν} {k : List UInt8} {v : ν} (hinv : StrTable.Inv strhash t)
    (hnew : StrTable.lookup2 strhash t k = none) (h : orOom (StrTable.insert strhash t k v) = .ok t') :
    StrTable.Inv strhash t' ∧
      StrTable.lookup2 strhash t' = Function.update (StrTable.lookup2 strhash t) k (some v) := by
  cases hins : StrTable.insert strhash t k v with
  | none =>
    rw [hins] at h
    cases h
  | some r =>
    obtain ⟨ok, t₁⟩ := r
    rw [hins] at h
    cases ok with
    | false => cases h
    | true =>
      cases h
      have hstep : StrTable.step strhash t (.insert k v) = some (.flag true, t') := by
        rw [StrTable.step, hins]
        rfl
      exact StrTable.step_meets t (.insert k v) _ t' hinv hnew hstep

/-- The table of fields by number before it is compacted: no key is in the array part. -/
structure Uncompacted (inthash : ℕ → ℕ) (t : IntTable ν) : Prop where
  inv : IntTable.Inv inthash t
  loaded : t.t.Loaded
  arraySize : t.arraySize = 1
  zero : t.presence 0 = false

theorem uncompacted_init {t : IntTable ν} (h : IntTable.init inthash = some t) :
    Uncompacted inthash t ∧ IntTable.lookup inthash t = fun _ => none := by
  rw [IntTable.init] at h
  obtain ⟨hinv, hload, hempty⟩ := IntTable.inv_of_sizedinit h
  rw [IntTable.sizedinit] at h
  obtain ⟨base, hbase, rfl⟩ := Option.map_eq_some_iff.mp h
  exact ⟨⟨hinv, hload, rfl, rfl⟩, hempty⟩

/-- An insertion of a new positive number that succeeds adds it. -/
theorem Uncompacted.insert {t t' : IntTable ν} {k : ℕ} {v : ν} (ht : Uncompacted inthash t) (hk : 0 < k)
    (hnew : IntTable.lookup inthash t k = none) (h : orOom (IntTable.insert inthash t k v) = .ok t') :
    Uncompacted inthash t' ∧
      IntTable.lookup inthash t' = Function.update (IntTable.lookup inthash t) k (some v) := by
  obtain ⟨o, t₁, hstep, hinv₁, hload₁⟩ := IntTable.step_returns t (.insert k v) ⟨ht.inv, ht.loaded⟩ hnew
  obtain ⟨-, hmeets⟩ := IntTable.step_meets t (.insert k v) o t₁ ht.inv hnew hstep
  obtain ⟨⟨ok, t₂⟩, hins, heq⟩ := Option.map_eq_some_iff.mp hstep
  cases heq
  rw [hins] at h
  cases ok with
  | false => cases h
  | true =>
    cases h
    have harray : t'.arraySize = t.arraySize ∧ t'.presence = t.presence := by
      rw [IntTable.insert, if_neg (by rw [ht.arraySize]; omega)] at hins
      obtain ⟨⟨b, new⟩, -, hnext⟩ := Option.bind_eq_some_iff.mp hins
      simp only at hnext
      split at hnext
      · cases hnext
      · obtain ⟨new', -, heq⟩ := Option.map_eq_some_iff.mp hnext
        cases heq
        exact ⟨rfl, rfl⟩
    exact ⟨⟨hinv₁, hload₁, harray.1.trans ht.arraySize, by rw [harray.2, ht.zero]⟩, hmeets⟩

/-- Compaction returns, and keeps the fields by number. -/
theorem Uncompacted.compact_returns {t : IntTable ν} (ht : Uncompacted inthash t) :
    ∃ t', orOom (IntTable.compact inthash t) = .ok t' ∧ IntTable.lookup inthash t' = IntTable.lookup inthash t := by
  have hroom : (t.pairs inthash).length ≤ Table.loadLimit (2 ^ 31) := by
    obtain ⟨k, hk, hmask⟩ := ht.inv.wf.mask_eq
    have hload := ht.loaded
    have hpow : 2 ^ k ≤ 2 ^ 31 := Nat.pow_le_pow_right (by omega) (by omega)
    have hpos := Nat.one_le_two_pow (n := k)
    have hsize : t.t.size = 2 ^ k := by rw [Table.size, hmask]; omega
    rw [Table.Loaded, hsize, Table.loadLimit, Nat.shiftRight_eq_div_pow] at hload
    rw [IntTable.pairs_eq, List.length_append, Table.length_iterate ht.inv.wf, ht.arraySize, Table.loadLimit,
      Nat.shiftRight_eq_div_pow]
    have hnil : (List.range 1).filter t.presence = [] := by simp [ht.zero]
    simp only [hnil, List.map_nil, List.length_nil]
    omega
  obtain ⟨t', hcompact, -, -, hlookup⟩ := IntTable.compact_spec ht.inv hroom
  refine ⟨t', ?_, hlookup⟩
  rw [hcompact]
  rfl

/-- Compaction keeps the fields by number. -/
theorem Uncompacted.compact {t t' : IntTable ν} (ht : Uncompacted inthash t)
    (h : orOom (IntTable.compact inthash t) = .ok t') : IntTable.lookup inthash t' = IntTable.lookup inthash t := by
  obtain ⟨t₁, hcompact, hlookup⟩ := ht.compact_returns
  cases hcompact.symm.trans h
  exact hlookup

end Spec

section Fill

variable {strhash : List UInt8 → ℕ} {inthash : ℕ → ℕ} {opts : MessageOptions} {m m' : MessageDef}

/-- The invariant of the tables of a message that is being created. -/
structure MessageDef.Inv (strhash : List UInt8 → ℕ) (inthash : ℕ → ℕ) (m : MessageDef) : Prop where
  itof : Uncompacted inthash m.itof
  ntof : StrTable.Inv strhash m.ntof
  jtof : StrTable.Inv strhash m.jtof

/-- A JSON name keeps the first field that has it. -/
theorem insertJsonName_spec {skip : Bool} {jtof jtof' : StrTable ℕ} {i v : ℕ} {jsonName : List UInt8}
    (hinv : StrTable.Inv strhash jtof) (h : insertJsonName strhash skip jtof i jsonName = .ok (v, jtof')) :
    StrTable.Inv strhash jtof' ∧ v = (StrTable.lookup2 strhash jtof jsonName).getD i ∧
      StrTable.lookup2 strhash jtof' = Function.update (StrTable.lookup2 strhash jtof) jsonName
        (some ((StrTable.lookup2 strhash jtof jsonName).getD i)) := by
  rw [insertJsonName] at h
  cases hlookup : StrTable.lookup2 strhash jtof jsonName with
  | some e =>
    rw [hlookup] at h
    obtain ⟨_, -, heq⟩ := bind_eq_ok.mp h
    cases heq
    refine ⟨hinv, rfl, ?_⟩
    rw [Option.getD_some, ← hlookup, Function.update_eq_self]
  | none =>
    rw [hlookup] at h
    obtain ⟨new, hnew, heq⟩ := bind_eq_ok.mp h
    cases heq
    obtain ⟨hinv', hlookup'⟩ := insert_orOom hinv hlookup hnew
    exact ⟨hinv', rfl, hlookup'⟩

/-- What a field that is inserted does to the tables. -/
structure Inserted (strhash : List UInt8 → ℕ) (inthash : ℕ → ℕ) (m m' : MessageDef) (i : ℕ) (f : FieldDef) :
    Prop where
  inv : m'.Inv strhash inthash
  number_pos : 0 < f.number
  newName : StrTable.lookup2 strhash m.ntof f.name = none
  ntof : StrTable.lookup2 strhash m'.ntof =
    Function.update (StrTable.lookup2 strhash m.ntof) f.name (some (.field i))
  newNumber : IntTable.lookup inthash m.itof f.number.toNat = none
  jtof : StrTable.lookup2 strhash m'.jtof = Function.update (StrTable.lookup2 strhash m.jtof) f.jsonName
    (some ((StrTable.lookup2 strhash m.jtof f.jsonName).getD i))
  itof : IntTable.lookup inthash m'.itof = Function.update (IntTable.lookup inthash m.itof) f.number.toNat
    (some ((StrTable.lookup2 strhash m.jtof f.jsonName).getD i))

theorem insertField_inserted {i : ℕ} {f : FieldDef} (hm : m.Inv strhash inthash)
    (h : insertField strhash inthash opts m i f = .ok m') : Inserted strhash inthash m m' i f := by
  obtain ⟨_, hnumber, h⟩ := bind_eq_ok.mp h
  obtain ⟨_, hname, h⟩ := bind_eq_ok.mp h
  obtain ⟨ntof, hntof, h⟩ := bind_eq_ok.mp h
  obtain ⟨_, -, h⟩ := bind_eq_ok.mp h
  obtain ⟨⟨v, jtof⟩, hjson, h⟩ := bind_eq_ok.mp h
  obtain ⟨_, hnewNumber, h⟩ := bind_eq_ok.mp h
  obtain ⟨itof, hitof, heq⟩ := bind_eq_ok.mp h
  cases heq
  have hpos : 0 < f.number := by
    have := check_eq_ok hnumber
    simp only [Bool.and_eq_true, decide_eq_true_eq] at this
    exact this.1
  have hname := Option.isNone_iff_eq_none.mp (check_eq_ok hname)
  have hnewNumber := Option.isNone_iff_eq_none.mp (check_eq_ok hnewNumber)
  obtain ⟨hntofInv, hntofLookup⟩ := insert_orOom hm.ntof hname hntof
  obtain ⟨hjtofInv, hv, hjtofLookup⟩ := insertJsonName_spec hm.jtof hjson
  obtain ⟨hitofInv, hitofLookup⟩ := hm.itof.insert (by omega) hnewNumber hitof
  rw [hv] at hitofLookup
  exact ⟨⟨hitofInv, hntofInv, hjtofInv⟩, hpos, hname, hntofLookup, hnewNumber, hjtofLookup, hitofLookup⟩

/-- The tables after the fields `done`. -/
structure Filled (strhash : List UInt8 → ℕ) (inthash : ℕ → ℕ) (m : MessageDef) (done : List FieldDef) : Prop where
  inv : m.Inv strhash inthash
  name : ∀ i f, done[i]? = some f → StrTable.lookup2 strhash m.ntof f.name = some (.field i)
  noName : ∀ name, (∀ f ∈ done, f.name ≠ name) → m.findFieldByName strhash name = none
  json : ∀ jsonName, StrTable.lookup2 strhash m.jtof jsonName = done.findIdx? fun f => f.jsonName == jsonName
  number : ∀ f ∈ done, IntTable.lookup inthash m.itof f.number.toNat =
    done.findIdx? fun g => g.jsonName == f.jsonName
  noNumber : ∀ number : ℕ, (∀ f ∈ done, f.number ≠ number) → IntTable.lookup inthash m.itof number = none

/-- The first field with a JSON name, with one more field behind. -/
theorem findIdx?_concat (done : List FieldDef) (f : FieldDef) (jsonName : List UInt8) :
    (done ++ [f]).findIdx? (fun g => g.jsonName == jsonName) =
      if f.jsonName = jsonName then some ((done.findIdx? fun g => g.jsonName == jsonName).getD done.length)
      else done.findIdx? fun g => g.jsonName == jsonName := by
  rw [List.findIdx?_append]
  by_cases hf : f.jsonName = jsonName
  · cases hidx : done.findIdx? fun g => g.jsonName == jsonName <;> simp [List.findIdx?_cons, hf]
  · cases hidx : done.findIdx? fun g => g.jsonName == jsonName <;> simp [List.findIdx?_cons, hf]

/-- One more field. -/
theorem Filled.insertField {done : List FieldDef} {f : FieldDef} (hm : Filled strhash inthash m done)
    (h : insertField strhash inthash opts m done.length f = .ok m') :
    Filled strhash inthash m' (done ++ [f]) := by
  have hf := insertField_inserted hm.inv h
  have hnames : ∀ g ∈ done, g.name ≠ f.name := by
    intro g hg heq
    obtain ⟨i, hi⟩ := List.mem_iff_getElem?.mp hg
    have hname := hm.name i g hi
    rw [heq, hf.newName] at hname
    cases hname
  have hnumbers : ∀ g ∈ done, g.number.toNat ≠ f.number.toNat := by
    intro g hg heq
    have hnumber := hm.number g hg
    rw [heq, hf.newNumber] at hnumber
    have hnone := List.findIdx?_eq_none_iff.mp hnumber.symm g hg
    simp at hnone
  have hlast : (StrTable.lookup2 strhash m.jtof f.jsonName).getD done.length =
      (done.findIdx? fun g => g.jsonName == f.jsonName).getD done.length := by rw [hm.json]
  refine ⟨hf.inv, ?_, ?_, ?_, ?_, ?_⟩
  · intro i g hi
    rw [hf.ntof]
    rcases Nat.lt_trichotomy i done.length with hlt | heq | hgt
    · rw [List.getElem?_append_left hlt] at hi
      rw [Function.update_of_ne (hnames g (List.mem_of_getElem? hi)), hm.name i g hi]
    · subst heq
      obtain rfl : f = g := by simpa using hi
      rw [Function.update_self]
    · rw [List.getElem?_eq_none (by simp; omega)] at hi
      cases hi
  · intro name hname
    rw [MessageDef.findFieldByName, hf.ntof, Function.update_of_ne (fun h => hname f (by simp) h.symm)]
    exact hm.noName name fun g hg => hname g (List.mem_append_left _ hg)
  · intro jsonName
    rw [hf.jtof, Function.update_apply, findIdx?_concat, hlast]
    by_cases heq : jsonName = f.jsonName
    · subst heq
      rw [if_pos rfl, if_pos rfl]
    · rw [if_neg heq, if_neg (Ne.symm heq), hm.json]
  · intro g hg
    rw [hf.itof, findIdx?_concat, hlast]
    rcases List.mem_append.mp hg with hg | hg
    · rw [Function.update_of_ne (hnumbers g hg), hm.number g hg]
      -- a JSON name that is there keeps its first field
      obtain ⟨i, hi⟩ := Option.isSome_iff_exists.mp (List.findIdx?_isSome.trans
        (List.any_eq_true.mpr ⟨g, hg, by simp⟩) : (done.findIdx? fun h => h.jsonName == g.jsonName).isSome)
      rw [hi]
      split <;> rfl
    · obtain rfl := List.mem_singleton.mp hg
      rw [Function.update_self, if_pos rfl]
  · intro number hnumber
    have hne : number ≠ f.number.toNat := by
      have := hnumber f (by simp)
      have := hf.number_pos
      omega
    rw [hf.itof, Function.update_of_ne hne]
    exact hm.noNumber number fun g hg => hnumber g (List.mem_append_left _ hg)

/-- All remaining fields. -/
theorem Filled.fieldDefsNew {done fs : List FieldDef} (hm : Filled strhash inthash m done)
    (h : fieldDefsNew strhash inthash opts m done.length fs = .ok m') :
    Filled strhash inthash m' (done ++ fs) := by
  induction fs generalizing m done with
  | nil =>
    cases h
    rwa [List.append_nil]
  | cons f fs ih =>
    obtain ⟨m₁, hinsert, hrest⟩ := bind_eq_ok.mp h
    have hlen : done.length + 1 = (done ++ [f]).length := by simp
    rw [hlen] at hrest
    have := ih (hm.insertField hinsert) hrest
    rwa [List.append_assoc] at this

/-- The oneofs leave no field in the table by name. -/
theorem Filled.oneofDefsNew {names : List (List UInt8)} {i : ℕ} (hm : Filled strhash inthash m [])
    (h : oneofDefsNew strhash m i names = .ok m') : Filled strhash inthash m' [] := by
  induction names generalizing m i with
  | nil =>
    cases h
    exact hm
  | cons name names ih =>
    obtain ⟨m₁, hcreate, hrest⟩ := bind_eq_ok.mp h
    obtain ⟨_, hnew, hcreate⟩ := bind_eq_ok.mp hcreate
    obtain ⟨ntof, hntof, heq⟩ := bind_eq_ok.mp hcreate
    cases heq
    obtain ⟨hinv, hlookup⟩ := insert_orOom hm.inv.ntof (Option.isNone_iff_eq_none.mp (check_eq_ok hnew)) hntof
    refine ih (m := { m with ntof := ntof })
      ⟨⟨hm.inv.itof, hinv, hm.inv.jtof⟩, by simp, ?_, hm.json, by simp, hm.noNumber⟩ hrest
    intro name' _
    have hold := hm.noName name' (by simp)
    rw [MessageDef.findFieldByName] at hold ⊢
    rw [hlookup, Function.update_apply]
    split
    · rfl
    · exact hold

end Fill

/-- The lookups are right: each field is found by its number and by its name, and nothing is found
under other numbers and names. -/
structure LookupsExact (strhash : List UInt8 → ℕ) (inthash : ℕ → ℕ) (m : MessageDef) (fields : List FieldDef) :
    Prop where
  number : ∀ i f, fields[i]? = some f → m.findFieldByNumber inthash f.number.toNat = some i
  name : ∀ i f, fields[i]? = some f → m.findFieldByName strhash f.name = some i
  noNumber : ∀ number : ℕ, (∀ f ∈ fields, f.number ≠ number) → m.findFieldByNumber inthash number = none
  noName : ∀ name, (∀ f ∈ fields, f.name ≠ name) → m.findFieldByName strhash name = none

/-- The tables of a message that was created, before the table by number was compacted. -/
theorem createMsgdef_filled {strhash : List UInt8 → ℕ} {inthash : ℕ → ℕ} {opts : MessageOptions}
    {oneofs : List (List UInt8)} {fields : List FieldDef} {m : MessageDef}
    (h : createMsgdef strhash inthash opts oneofs fields = .ok m) :
    ∃ m₀, orOom (IntTable.compact inthash m₀.itof) = .ok m.itof ∧ Filled strhash inthash m₀ fields ∧
      m.ntof = m₀.ntof ∧ m.jtof = m₀.jtof := by
  obtain ⟨itof, hitof, h⟩ := bind_eq_ok.mp h
  obtain ⟨ntof, hntof, h⟩ := bind_eq_ok.mp h
  obtain ⟨jtof, hjtof, h⟩ := bind_eq_ok.mp h
  obtain ⟨m₁, honeofs, h⟩ := bind_eq_ok.mp h
  obtain ⟨m₀, hfields, h⟩ := bind_eq_ok.mp h
  obtain ⟨itof', hcompact, heq⟩ := bind_eq_ok.mp h
  cases heq
  obtain ⟨hitofInv, hitofEmpty⟩ := uncompacted_init (initOrOom_eq_ok hitof)
  obtain ⟨hntofInv, -, hntofEmpty⟩ := StrTable.inv_of_init (initOrOom_eq_ok hntof)
  obtain ⟨hjtofInv, -, hjtofEmpty⟩ := StrTable.inv_of_init (initOrOom_eq_ok hjtof)
  have hempty : Filled strhash inthash ⟨itof, ntof, jtof⟩ [] :=
    ⟨⟨hitofInv, hntofInv, hjtofInv⟩, by simp, by simp [MessageDef.findFieldByName, hntofEmpty],
      by simp [hjtofEmpty], by simp, by simp [hitofEmpty]⟩
  have hfilled := (hempty.oneofDefsNew honeofs).fieldDefsNew hfields
  exact ⟨m₀, hcompact, hfilled, rfl, rfl⟩

/-- Every field is the first with its JSON name when no two have the same. -/
theorem findIdx?_jsonName_iff {fields : List FieldDef} :
    (∀ i f, fields[i]? = some f → (fields.findIdx? fun g => g.jsonName == f.jsonName) = some i) ↔
      (fields.map FieldDef.jsonName).Nodup := by
  rw [List.nodup_iff_getElem?_ne_getElem?]
  simp only [List.length_map, List.getElem?_map]
  constructor
  · intro hfirst i j hij hj heq
    rw [List.getElem?_eq_getElem hj, List.getElem?_eq_getElem (by omega)] at heq
    have hi := hfirst i _ (List.getElem?_eq_getElem (by omega))
    have hj := hfirst j _ (List.getElem?_eq_getElem hj)
    simp only [Option.map_some, Option.some.injEq] at heq
    rw [heq, hj, Option.some.injEq] at hi
    omega
  · intro hne i f hi
    obtain ⟨hlt, rfl⟩ := List.getElem?_eq_some_iff.mp hi
    rw [List.findIdx?_eq_some_iff_getElem]
    refine ⟨hlt, by simp, fun j hji => ?_⟩
    have := hne j i hji hlt
    rw [List.getElem?_eq_getElem hlt, List.getElem?_eq_getElem (by omega)] at this
    simpa using this

/-- In a message that was created, the lookups by number and by name are right if and only if no two
fields have one JSON name. -/
theorem createMsgdef_lookupsExact_iff (strhash : List UInt8 → ℕ) (inthash : ℕ → ℕ) (opts : MessageOptions)
    (oneofs : List (List UInt8)) (fields : List FieldDef) (m : MessageDef)
    (h : createMsgdef strhash inthash opts oneofs fields = .ok m) :
    LookupsExact strhash inthash m fields ↔ (fields.map FieldDef.jsonName).Nodup := by
  obtain ⟨m₀, hcompact, hfilled, hntof, -⟩ := createMsgdef_filled h
  have hlookup := hfilled.inv.itof.compact hcompact
  rw [← findIdx?_jsonName_iff]
  constructor
  · intro hexact i f hi
    have hnumber := hexact.number i f hi
    rw [MessageDef.findFieldByNumber, hlookup, hfilled.number f (List.mem_of_getElem? hi)] at hnumber
    exact hnumber
  · intro hfirst
    refine ⟨fun i f hi => ?_, fun i f hi => ?_, fun number hnumber => ?_, fun name hname => ?_⟩
    · rw [MessageDef.findFieldByNumber, hlookup, hfilled.number f (List.mem_of_getElem? hi)]
      exact hfirst i f hi
    · rw [MessageDef.findFieldByName, hntof, hfilled.name i f hi]
      rfl
    · rw [MessageDef.findFieldByNumber, hlookup]
      exact hfilled.noNumber number hnumber
    · rw [MessageDef.findFieldByName, hntof]
      exact hfilled.noName name hname

/-- A field and a oneof by name, and two fields by number in the array part after compaction. -/
theorem createMsgdef_lookupsExact_two :
    ∃ m, createMsgdef (fun _ => 0) (fun _ => 0) ⟨true, true⟩ [[111]] [⟨1, [97], [97]⟩, ⟨2, [98], [98]⟩] = .ok m ∧
      LookupsExact (fun _ => 0) (fun _ => 0) m [⟨1, [97], [97]⟩, ⟨2, [98], [98]⟩] := by
  have hok : (createMsgdef (fun _ => 0) (fun _ => 0) ⟨true, true⟩ [[111]]
      [⟨1, [97], [97]⟩, ⟨2, [98], [98]⟩]).isOk = true := by decide +kernel
  cases hm : createMsgdef (fun _ => 0) (fun _ => 0) ⟨true, true⟩ [[111]]
      [⟨1, [97], [97]⟩, ⟨2, [98], [98]⟩] with
  | error e =>
    rw [hm] at hok
    cases hok
  | ok m => exact ⟨m, rfl, (createMsgdef_lookupsExact_iff _ _ _ _ _ m hm).mpr (by decide)⟩

/-- Fields `a_b = 1` and `aB = 2`, both with the JSON name `aB`. -/
def conflictingFields : List FieldDef :=
  [⟨1, [97, 95, 98], [97, 66]⟩, ⟨2, [97, 66], [97, 66]⟩]

/-- With the option for legacy conflicts the field with number 2 is found as the field with number 1. -/
theorem conflictingFields_lookup :
    ∃ m, createMsgdef (fun _ => 0) (fun _ => 0) ⟨true, true⟩ [] conflictingFields = .ok m ∧
      m.findFieldByNumber (fun _ => 0) 2 = some 0 ∧ ¬ LookupsExact (fun _ => 0) (fun _ => 0) m conflictingFields := by
  have hok : (createMsgdef (fun _ => 0) (fun _ => 0) ⟨true, true⟩ [] conflictingFields).toOption.map
      (fun m => m.findFieldByNumber (fun _ => 0) 2) = some (some 0) := by decide +kernel
  cases hm : createMsgdef (fun _ => 0) (fun _ => 0) ⟨true, true⟩ [] conflictingFields with
  | error e =>
    rw [hm] at hok
    cases hok
  | ok m =>
    rw [hm] at hok
    have hnumber : m.findFieldByNumber (fun _ => 0) 2 = some 0 := Option.some.inj hok
    refine ⟨m, rfl, hnumber, fun hexact => ?_⟩
    have := hexact.number 1 ⟨2, [97, 66], [97, 66]⟩ rfl
    rw [show (2 : ℤ).toNat = 2 from rfl, hnumber] at this
    cases this

end Upb.Reflection
