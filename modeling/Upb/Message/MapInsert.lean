import Upb.Hash.Allocation
import Upb.Message.Map

/-!
# Insertion into a map when memory runs out

`_upb_Map_Insert` removes the key before it inserts it. A table of integers that held the key has
room for it again, so that no allocation is left to fail; a table of strings copies the key once
more, and if there is no memory for the copy the entry is lost.
-/

namespace Upb

/-- `upb_MapInsertStatus`. -/
inductive MapInsertStatus where
  | inserted
  | replaced
  | outOfMemory
  deriving DecidableEq

namespace MapTable

open Upb.Common (MapCmd MapOut)

variable (hash : Hashes)

/-- `_upb_map_tovalue`: whether the value can be stored; a string (of size 0) needs a cell. -/
def tovalue (valSize : ℕ) (mem : Memory) : Bool × Memory :=
  if valSize = 0 then (mem.head, mem.tail) else (true, mem)

/-- The status of an insertion that succeeds. -/
def insertStatus (removed : Bool) : MapInsertStatus := if removed then .replaced else .inserted

/-- `upb_strtable_remove2` with no place for the value. -/
def removeStr (t : StrTable ℕ) (k : List UInt8) : Bool × StrTable ℕ :=
  match StrTable.remove2 hash.str t k with
  | some (_, t) => (true, t)
  | none => (false, t)

/-- `_upb_Map_Insert`. The word `val` is what the table stores: the bits of a number or message
pointer, or the address of the cell of a string. -/
def insertIn (key : MapKey) (valSize val : ℕ) (mem : Memory) (m : MapTable) :
    Option ((MapInsertStatus × MapTable) × Memory) :=
  let (ok, mem) := tovalue valSize mem
  if !ok then some ((.outOfMemory, m), mem)
  else
    match m, key with
    | .strtable t, .str k =>
      let (removed, t) := removeStr hash t k
      (StrTable.insertIn hash.str t k val mem).map fun ((ok, t), mem) =>
        ((if ok then insertStatus removed else .outOfMemory, .strtable t), mem)
    | .inttable t, .int k =>
      let (removed, t) := IntTable.remove hash.int t k
      (IntTable.insertIn hash.int t k val mem).map fun ((ok, t), mem) =>
        ((if ok then insertStatus removed.isSome else .outOfMemory, .inttable t), mem)
    | _, _ => none

/-- `_upb_Map_Delete`. -/
def delete (key : MapKey) : MapTable → MapTable
  | .inttable t =>
    match key with
    | .int k => .inttable (IntTable.remove hash.int t k).2
    | .str _ => .inttable t
  | .strtable t =>
    match key with
    | .str k => .strtable (removeStr hash t k).2
    | .int _ => .strtable t

/-- `_upb_Map_Clear`. -/
def clear : MapTable → MapTable
  | .inttable t => .inttable (IntTable.clear hash.int t)
  | .strtable t => .strtable (t.clear (StrTable.ops hash.str))

/-- `upb_Map_SetEntryValue` at the iterator of a key. -/
def setEntryValue (key : MapKey) (val : ℕ) : MapTable → MapTable
  | .inttable t =>
    match key with
    | .int k => .inttable (IntTable.replace hash.int t k val).2
    | .str _ => .inttable t
  | .strtable t =>
    match key with
    | .str k => .strtable ((StrTable.findIter hash.str t k).elim t fun i => t.setentryvalue i val)
    | .int _ => .strtable t

/-- The key is of the kind of the map's keys. -/
def TakesKey : MapTable → MapKey → Prop
  | .inttable _, .int _ => True
  | .strtable _, .str _ => True
  | _, _ => False

/-- The maps that the functions of `map.h` can produce, whatever the allocator answers. -/
inductive Reachable : MapTable → Prop where
  | new {keySize : ℕ} {m : MapTable} (h : new hash keySize = some m) : Reachable m
  | insert {m m' : MapTable} {key : MapKey} {valSize val : ℕ} {mem mem' : Memory} {s : MapInsertStatus}
      (h : Reachable m) (hins : insertIn hash key valSize val mem m = some ((s, m'), mem')) : Reachable m'
  | delete {m : MapTable} (key : MapKey) (h : Reachable m) : Reachable (delete hash key m)
  | clear {m : MapTable} (h : Reachable m) : Reachable (clear hash m)
  | setEntryValue {m : MapTable} (key : MapKey) (val : ℕ) (h : Reachable m) :
      Reachable (setEntryValue hash key val m)

/-- The invariant of maps: that of the table, with a hash part within its load factor, and string
keys that were copied. -/
def Inv : MapTable → Prop
  | .inttable t => IntTable.Inv hash.int t ∧ t.t.Loaded
  | .strtable t => StrTable.Inv hash.str t ∧ t.Loaded ∧
    ∀ k, StrTable.lookup2 hash.str t k ≠ none → k.length ≤ uint32Max

/-- The two maps have the same keys and values, to a lookup and to an iteration. -/
def SameEntries (m m' : MapTable) : Prop :=
  (∀ key, m'.get hash key = m.get hash key) ∧ (m'.pairs hash).Perm (m.pairs hash)

/-- The allocation for the copy of the key, behind that for the value's cell, succeeds. -/
def keyCopied (valSize : ℕ) (mem : Memory) : Bool := (tovalue valSize mem).2.head

variable {hash}

section Table

variable {t : StrTable ℕ} {u : IntTable ℕ}

/-- A string table without a key has room for it again. -/
theorem removeStr_spec (hinv : StrTable.Inv hash.str t) (hload : t.Loaded) (k : List UInt8) :
    StrTable.Inv hash.str (removeStr hash t k).2 ∧ (removeStr hash t k).2.Loaded ∧
      StrTable.lookup2 hash.str (removeStr hash t k).2 = Function.update (StrTable.lookup2 hash.str t) k none ∧
      (StrTable.lookup2 hash.str t k = none → (removeStr hash t k).2 = t) ∧
      (StrTable.lookup2 hash.str t k ≠ none → (removeStr hash t k).2.isfull = false) := by
  have hspec := Table.rm_toMap StrTable.ops_lawful hinv k
  unfold removeStr StrTable.remove2
  cases hrm : t.rm (StrTable.ops hash.str) k (hash.str k) with
  | none =>
    rw [hrm] at hspec
    have hnone : StrTable.lookup2 hash.str t k = none := hspec
    exact ⟨hinv, hload, (Function.update_eq_self_iff.mpr hnone.symm).symm, fun _ => rfl,
      fun h => absurd hnone h⟩
  | some r =>
    obtain ⟨v, t'⟩ := r
    rw [hrm] at hspec
    obtain ⟨hwf, hmask, hcount, hv, hmap⟩ := hspec
    have hsome : StrTable.lookup2 hash.str t k = some v := hv
    have hsize : t'.size = t.size := by rw [Table.size, hmask, Table.size]
    have hlt : t'.count < Table.loadLimit t'.size := hsize ▸ lt_of_lt_of_le (Nat.lt_of_succ_le hcount.le) hload
    refine ⟨hwf, hlt.le, hmap, fun h => by simp [hsome] at h, fun _ => ?_⟩
    rw [Table.isfull, beq_eq_false_iff_ne]
    exact hlt.ne

/-- An integer table without a key has room for it again. -/
theorem remove_spec (hinv : IntTable.Inv hash.int u) (hload : u.t.Loaded) (k : ℕ) :
    IntTable.Inv hash.int (IntTable.remove hash.int u k).2 ∧ (IntTable.remove hash.int u k).2.t.Loaded ∧
      IntTable.lookup hash.int (IntTable.remove hash.int u k).2 =
        Function.update (IntTable.lookup hash.int u) k none ∧
      (IntTable.lookup hash.int u k = none → (IntTable.remove hash.int u k).2 = u) ∧
      (IntTable.lookup hash.int u k ≠ none → k < (IntTable.remove hash.int u k).2.arraySize ∨
        (IntTable.remove hash.int u k).2.t.isfull = false) := by
  have hstep : IntTable.step hash.int u (.remove k) = some (.value (IntTable.remove hash.int u k).1,
    (IntTable.remove hash.int u k).2) := rfl
  obtain ⟨hinv', -, hmap⟩ := IntTable.step_meets u (.remove k) _ _ hinv trivial hstep
  obtain ⟨o, u', hret, -, hload'⟩ := IntTable.step_returns u (.remove k) ⟨hinv, hload⟩ trivial
  rw [hstep] at hret
  cases hret
  refine ⟨hinv', hload', hmap, ?_⟩
  unfold IntTable.remove IntTable.lookup
  by_cases hk : k < u.arraySize
  · rw [if_pos hk, if_pos hk]
    cases hp : u.presence k with
    | true => simp [IntTable.arrayGet, hp, hk]
    | false => simp [IntTable.arrayGet, hp]
  · rw [if_neg hk, if_neg hk]
    have hspec := Table.rm_toMap IntTable.ops_lawful hinv.wf k
    cases hrm : u.t.rm (IntTable.ops hash.int) k (hash.int k) with
    | none =>
      rw [hrm] at hspec
      exact ⟨fun _ => rfl, fun h => absurd hspec h⟩
    | some r =>
      obtain ⟨v, t'⟩ := r
      rw [hrm] at hspec
      obtain ⟨-, hmask, hcount, hv, -⟩ := hspec
      have hsome : u.t.lookup (IntTable.ops hash.int) k (hash.int k) = some v := hv
      have hsize : t'.size = u.t.size := by rw [Table.size, hmask, Table.size]
      have hlt : t'.count < Table.loadLimit t'.size := hsize ▸ lt_of_lt_of_le (Nat.lt_of_succ_le hcount.le) hload
      refine ⟨fun h => by simp [hsome] at h, fun _ => .inr ?_⟩
      rw [Table.isfull, beq_eq_false_iff_ne]
      exact hlt.ne

end Table

/-- An iteration lists the entries that the lookups find, with every key once. -/
theorem pairs_spec {m : MapTable} (hinv : Inv hash m) :
    ((m.pairs hash).map Prod.fst).Nodup ∧ ∀ key v, (key, v) ∈ m.pairs hash ↔ m.get hash key = some v := by
  cases m with
  | inttable t =>
    obtain ⟨hnodup, hmem⟩ := IntTable.pairs_spec hinv.1
    simp only [pairs, List.map_map, Function.comp_def]
    refine ⟨?_, fun key v => ?_⟩
    · rw [show (fun p : ℕ × ℕ => MapKey.int p.1) = MapKey.int ∘ Prod.fst from rfl, ← List.map_map]
      exact hnodup.map fun _ _ h => MapKey.int.inj h
    · cases key with
      | int k => simp [get, ← hmem]
      | str k => simp [get]
  | strtable t =>
    obtain ⟨hnodup, hmem⟩ := Table.iterate_toMap StrTable.ops_lawful hinv.1
    simp only [pairs, List.map_map, Function.comp_def]
    refine ⟨?_, fun key v => ?_⟩
    · rw [show (fun p : List UInt8 × ℕ => MapKey.str p.1) = MapKey.str ∘ Prod.fst from rfl, ← List.map_map]
      exact List.Nodup.map (fun _ _ h => MapKey.str.inj h) hnodup
    · cases key with
      | int k => simp [get]
      | str k =>
        rw [show get hash (.str k) (.strtable t) = StrTable.lookup2 hash.str t k from rfl]
        rw [show StrTable.lookup2 hash.str t k = some v ↔ _ from (hmem k v).symm, StrTable.pairs]
        simp

/-- Maps with the same lookups have the same entries. -/
theorem sameEntries_of_get {m m' : MapTable} (hinv : Inv hash m) (hinv' : Inv hash m')
    (h : ∀ key, m'.get hash key = m.get hash key) : SameEntries hash m m' := by
  obtain ⟨hnodup, hmem⟩ := pairs_spec hinv
  obtain ⟨hnodup', hmem'⟩ := pairs_spec hinv'
  refine ⟨h, (List.perm_ext_iff_of_nodup hnodup'.of_map hnodup.of_map).mpr fun p => ?_⟩
  rw [hmem, hmem', h]

/-- The entry of the key is removed and not put back. -/
def LosesEntry (hash : Hashes) (key : MapKey) (valSize : ℕ) (mem : Memory) (m : MapTable) : Prop :=
  (∃ t, m = .strtable t) ∧ m.get hash key ≠ none ∧ (tovalue valSize mem).1 = true ∧
    keyCopied valSize mem = false

/-- The finite map that a map stands for. -/
def toMap (hash : Hashes) (m : MapTable) (key : MapKey) : Option ℕ := m.get hash key

/-- What an insertion does: it succeeds, or it refuses and leaves the map as it was, unless it loses
the entry. -/
structure Inserts (hash : Hashes) (key : MapKey) (valSize val : ℕ) (mem : Memory) (m m' : MapTable)
    (s : MapInsertStatus) : Prop where
  inv : Inv hash m'
  done : s ≠ .outOfMemory → m'.toMap hash = Function.update (m.toMap hash) key (some val)
  refused : s = .outOfMemory → ¬ LosesEntry hash key valSize mem m → m'.toMap hash = m.toMap hash
  lost : LosesEntry hash key valSize mem m →
    s = .outOfMemory ∧ m'.toMap hash = Function.update (m.toMap hash) key none

/-- An update of a string table as an update of the map. -/
theorem toMap_strtable {t t' : StrTable ℕ} {k : List UInt8} {o : Option ℕ}
    (h : StrTable.lookup2 hash.str t' = Function.update (StrTable.lookup2 hash.str t) k o) :
    (strtable t').toMap hash = Function.update ((strtable t).toMap hash) (.str k) o := by
  funext key
  cases key with
  | int l => simp [toMap, get]
  | str l =>
    have hl := congrFun h l
    rw [Function.update_apply] at hl ⊢
    rw [show (strtable t').toMap hash (.str l) = StrTable.lookup2 hash.str t' l from rfl, hl]
    simp [toMap, get]

/-- An update of an integer table as an update of the map. -/
theorem toMap_inttable {t t' : IntTable ℕ} {k : ℕ} {o : Option ℕ}
    (h : IntTable.lookup hash.int t' = Function.update (IntTable.lookup hash.int t) k o) :
    (inttable t').toMap hash = Function.update ((inttable t).toMap hash) (.int k) o := by
  funext key
  cases key with
  | str l => simp [toMap, get]
  | int l =>
    have hl := congrFun h l
    rw [Function.update_apply] at hl ⊢
    rw [show (inttable t').toMap hash (.int l) = IntTable.lookup hash.int t' l from rfl, hl]
    simp [toMap, get]

theorem insertStatus_ne (removed : Bool) : insertStatus removed ≠ .outOfMemory := by
  cases removed <;> decide

/-- An insertion into a string table. -/
private theorem insertIn_strtable {t : StrTable ℕ} (hinv : Inv hash (.strtable t)) (k : List UInt8)
    (valSize val : ℕ) (mem : Memory) :
    ∃ s m' mem', insertIn hash (.str k) valSize val mem (.strtable t) = some ((s, m'), mem') ∧
      Inserts hash (.str k) valSize val mem (.strtable t) m' s := by
  unfold insertIn
  cases hcell : (tovalue valSize mem).1 with
  | false =>
    refine ⟨.outOfMemory, .strtable t, (tovalue valSize mem).2, by simp [hcell], hinv, by simp, fun _ _ => rfl, ?_⟩
    rintro ⟨-, -, hok, -⟩
    simp [hcell] at hok
  | true =>
    obtain ⟨hinv₀, hload₀, hshort⟩ := hinv
    obtain ⟨hinv₁, hload₁, hmap₁, habsent, hroom⟩ := removeStr_spec hinv₀ hload₀ k
    have hnew : StrTable.lookup2 hash.str (removeStr hash t k).2 k = none := by
      rw [hmap₁, Function.update_self]
    obtain ⟨ok, t₂, mem₂, hins, hinv₂, hload₂, hmap₂, hlen, hcopy⟩ :=
      StrTable.insertIn_spec hinv₁ hload₁ val hnew (tovalue valSize mem).2
    refine ⟨if ok then insertStatus (removeStr hash t k).1 else .outOfMemory, .strtable t₂, mem₂, ?_, ?_⟩
    · simp [hcell, hins]
    have hput (hok : ok = true) : StrTable.lookup2 hash.str t₂ =
        Function.update (StrTable.lookup2 hash.str t) k (some val) := by
      rw [hmap₂, if_pos hok, hmap₁, Function.update_idem]
    have hgone (hok : ok = false) : StrTable.lookup2 hash.str t₂ =
        Function.update (StrTable.lookup2 hash.str t) k none := by
      rw [hmap₂, hok, ← hmap₁]
      rfl
    have hlost (h : LosesEntry hash (.str k) valSize mem (.strtable t)) : ok = false := by
      obtain ⟨-, hpresent, -, hkey⟩ := h
      rw [hcopy (hroom hpresent), StrTable.copyKey]
      split
      · rfl
      · exact hkey
    refine ⟨⟨hinv₂, hload₂, fun l hl => ?_⟩, fun hs => ?_, fun hs hkeep => ?_, fun h => ?_⟩
    · cases hok : ok with
      | false =>
        rw [hgone hok, Function.update_apply] at hl
        split at hl
        · exact absurd rfl hl
        · exact hshort l hl
      | true =>
        rw [hput hok, Function.update_apply] at hl
        split at hl
        · next heq => exact heq ▸ hlen hok
        · exact hshort l hl
    · cases hok : ok with
      | false => simp [hok] at hs
      | true => exact toMap_strtable (hput hok)
    · cases hok : ok with
      | true => exact absurd hs (by simp [hok, insertStatus_ne])
      | false =>
        have hnone : StrTable.lookup2 hash.str t k = none := by
          by_contra hpresent
          refine hkeep ⟨⟨t, rfl⟩, hpresent, hcell, ?_⟩
          have hfail := hcopy (hroom hpresent)
          rw [hok, StrTable.copyKey, if_neg (by have := hshort k hpresent; omega)] at hfail
          exact hfail.symm
        rw [toMap_strtable (hgone hok)]
        exact Function.update_eq_self_iff.mpr hnone.symm
    · rw [hlost h]
      exact ⟨rfl, toMap_strtable (hgone (hlost h))⟩

/-- An insertion into an integer table. -/
private theorem insertIn_inttable {t : IntTable ℕ} (hinv : Inv hash (.inttable t)) (k valSize val : ℕ)
    (mem : Memory) :
    ∃ s m' mem', insertIn hash (.int k) valSize val mem (.inttable t) = some ((s, m'), mem') ∧
      Inserts hash (.int k) valSize val mem (.inttable t) m' s := by
  have hkeeps : ¬ LosesEntry hash (.int k) valSize mem (.inttable t) := by
    rintro ⟨⟨u, hu⟩, -⟩
    cases hu
  unfold insertIn
  cases hcell : (tovalue valSize mem).1 with
  | false =>
    exact ⟨.outOfMemory, .inttable t, (tovalue valSize mem).2, by simp [hcell], hinv, by simp, fun _ _ => rfl,
      fun h => absurd h hkeeps⟩
  | true =>
    obtain ⟨hinv₁, hload₁, hmap₁, habsent, hroom⟩ := remove_spec hinv.1 hinv.2 k
    have hnew : IntTable.lookup hash.int (IntTable.remove hash.int t k).2 k = none := by
      rw [hmap₁, Function.update_self]
    obtain ⟨ok, t₂, mem₂, hins, hinv₂, hload₂, -, hmap₂, hfull⟩ :=
      IntTable.insertIn_spec hinv₁ hload₁ val hnew (tovalue valSize mem).2
    refine ⟨if ok then insertStatus (IntTable.remove hash.int t k).1.isSome else .outOfMemory, .inttable t₂, mem₂,
      ?_, ⟨hinv₂, hload₂⟩, fun hs => ?_, fun hs _ => ?_, fun h => absurd h hkeeps⟩
    · simp [hcell, hins]
    · cases hok : ok with
      | false => simp [hok] at hs
      | true =>
        refine toMap_inttable ?_
        rw [hmap₂, if_pos hok, hmap₁, Function.update_idem]
    · cases hok : ok with
      | true => exact absurd hs (by simp [hok, insertStatus_ne])
      | false =>
        obtain ⟨hge, hfull⟩ := hfull hok
        -- a table that held the key has room for it
        have hnone : IntTable.lookup hash.int t k = none := by
          by_contra hpresent
          rcases hroom hpresent with hlt | hroom
          · exact hge hlt
          · rw [hroom] at hfull
            cases hfull
        rw [hok, habsent hnone] at hmap₂
        funext key
        cases key with
        | str l => rfl
        | int l => exact congrFun hmap₂ l

/-- An insertion of a key of the right kind returns. -/
theorem insertIn_spec {m : MapTable} (hinv : Inv hash m) {key : MapKey} (hkey : TakesKey m key)
    (valSize val : ℕ) (mem : Memory) :
    ∃ s m' mem', insertIn hash key valSize val mem m = some ((s, m'), mem') ∧
      Inserts hash key valSize val mem m m' s := by
  cases m with
  | inttable t =>
    cases key with
    | int k => exact insertIn_inttable hinv k valSize val mem
    | str k => exact hkey.elim
  | strtable t =>
    cases key with
    | int k => exact hkey.elim
    | str k => exact insertIn_strtable hinv k valSize val mem

/-- A new map. -/
private theorem inv_of_new {keySize : ℕ} {m : MapTable} (h : new hash keySize = some m) : Inv hash m := by
  rw [new] at h
  split at h
  · obtain ⟨t, ht, rfl⟩ := Option.map_eq_some_iff.mp h
    obtain ⟨hinv, hload, -⟩ := IntTable.inv_of_sizedinit ht
    exact ⟨hinv, hload⟩
  · obtain ⟨t, ht, rfl⟩ := Option.map_eq_some_iff.mp h
    obtain ⟨hinv, hload, hempty⟩ := StrTable.inv_of_init ht
    exact ⟨hinv, hload, fun k hk => absurd (congrFun hempty k) hk⟩

/-- A step of an integer table keeps the invariant. -/
private theorem inv_inttable {t t' : IntTable ℕ} {c : MapCmd ℕ ℕ} {o : MapOut ℕ ℕ}
    (hinv : Inv hash (.inttable t)) (hlegal : IntTable.Legal hash.int t c)
    (hstep : IntTable.step hash.int t c = some (o, t')) : Inv hash (.inttable t') := by
  obtain ⟨o₁, t₁, hstep₁, hinv'⟩ := IntTable.step_returns t c hinv hlegal
  rw [hstep] at hstep₁
  cases hstep₁
  exact hinv'

/-- A step of a string table that adds no key keeps the invariant. -/
private theorem inv_strtable {t t' : StrTable ℕ} {c : MapCmd (List UInt8) ℕ} {o : MapOut (List UInt8) ℕ}
    (hinv : Inv hash (.strtable t)) (hroomy : StrTable.Roomy hash.str t c) (hstep : StrTable.step hash.str t c = some (o, t'))
    (hkeys : ∀ k, StrTable.lookup2 hash.str t k = none → StrTable.lookup2 hash.str t' k = none) :
    Inv hash (.strtable t') := by
  obtain ⟨hinv, hload, hshort⟩ := hinv
  obtain ⟨o₁, t₁, hstep₁, hinv', hload'⟩ := StrTable.step_returns t c ⟨hinv, hload⟩ hroomy
  rw [hstep] at hstep₁
  cases hstep₁
  exact ⟨hinv', hload', fun k hk => hshort k fun hnone => hk (hkeys k hnone)⟩

/-- Every map that the functions can produce meets the invariant. -/
theorem Reachable.inv {m : MapTable} (h : Reachable hash m) : Inv hash m := by
  induction h with
  | new h => exact inv_of_new h
  | @insert m m' key valSize val mem mem' s h hins ih =>
    by_cases hkey : TakesKey m key
    · obtain ⟨s₁, m₁, mem₁, hins₁, hspec⟩ := insertIn_spec ih hkey valSize val mem
      rw [hins] at hins₁
      cases hins₁
      exact hspec.inv
    · unfold insertIn at hins
      cases hcell : (tovalue valSize mem).1 with
      | false =>
        simp only [hcell, Bool.not_false, ↓reduceIte, Option.some.injEq, Prod.mk.injEq] at hins
        exact hins.1.2 ▸ ih
      | true =>
        cases m <;> cases key <;> simp [hcell, TakesKey] at hins hkey
  | @delete m key h ih =>
    cases m with
    | inttable t =>
      cases key with
      | int k => exact inv_inttable (c := .remove k) ih trivial rfl
      | str k => exact ih
    | strtable t =>
      cases key with
      | int k => exact ih
      | str k =>
        obtain ⟨hinv', hload', hmap, -⟩ := removeStr_spec ih.1 ih.2.1 k
        refine ⟨hinv', hload', fun l hl => ih.2.2 l fun hnone => hl ?_⟩
        rw [hmap, Function.update_apply, hnone]
        exact ite_self _
  | @clear m h ih =>
    cases m with
    | inttable t => exact inv_inttable (c := .clear) ih trivial rfl
    | strtable t =>
      obtain ⟨-, hempty⟩ := (StrTable.step_meets t .clear _ _ ih.1 trivial rfl).2
      exact inv_strtable (c := .clear) ih trivial rfl fun k _ => congrFun hempty k
  | @setEntryValue m key val h ih =>
    cases m with
    | inttable t =>
      cases key with
      | int k => exact inv_inttable (c := .replace k val) ih trivial rfl
      | str k => exact ih
    | strtable t =>
      cases key with
      | int k => exact ih
      | str k =>
        have hstep : ∃ ok, StrTable.step hash.str t (.replace k val) = some (.flag ok,
            (StrTable.findIter hash.str t k).elim t fun i => t.setentryvalue i val) := by
          rw [StrTable.step]
          cases StrTable.findIter hash.str t k with
          | none => exact ⟨false, rfl⟩
          | some i => exact ⟨true, rfl⟩
        obtain ⟨ok, hstep⟩ := hstep
        obtain ⟨hok, hmap⟩ := (StrTable.step_meets t (.replace k val) _ _ ih.1 trivial hstep).2
        refine inv_strtable (c := .replace k val) ih trivial hstep fun l hl => ?_
        rw [hmap]
        cases hk : StrTable.lookup2 hash.str t k with
        | none => simp [hok, hk, hl]
        | some v =>
          rw [hok, hk, if_pos Option.isSome_some, Function.update_apply]
          have hne : l ≠ k := by
            rintro rfl
            rw [hl] at hk
            cases hk
          simp [hne, hl]

/-- An insertion that runs out of memory leaves the map with the same keys and values if and only if
it is not the replacement of a string key for whose copy there is no memory. -/
theorem insertIn_outOfMemory_iff {m : MapTable} (hm : Reachable hash m) {key : MapKey} (hkey : TakesKey m key)
    (valSize val : ℕ) (mem : Memory) :
    (∀ m' mem', insertIn hash key valSize val mem m = some ((.outOfMemory, m'), mem') → SameEntries hash m m') ↔
      ¬ LosesEntry hash key valSize mem m := by
  obtain ⟨s, m₁, mem₁, hins, hspec⟩ := insertIn_spec hm.inv hkey valSize val mem
  constructor
  · intro hsame hlost
    obtain ⟨rfl, hgone⟩ := hspec.lost hlost
    have hkept := (hsame m₁ mem₁ hins).1 key
    have hnone := congrFun hgone key
    rw [Function.update_self] at hnone
    exact hlost.2.1 (hkept ▸ hnone)
  · intro hkeep m' mem' h
    rw [hins] at h
    cases h
    exact sameEntries_of_get hm.inv hspec.inv fun l => congrFun (hspec.refused rfl hkeep) l

/-- The empty map with string keys, where every hash is 0. -/
private def emptyStrMap : MapTable :=
  .strtable { entries := Table.zeroed (StrTable.ops fun _ => 0), count := 0, mask := 7 }

private theorem new_emptyStrMap : new ⟨fun _ => 0, fun _ => 0⟩ 0 = some emptyStrMap := by
  have hlog : log2Ceiling (entriesNeededFor 4) = 3 := by decide +kernel
  rw [new, if_neg (by decide), StrTable.init, hlog]
  rfl

/-- A failed insertion into a fresh map, whose key it does not have. -/
theorem insertIn_outOfMemory_emptyStrMap :
    emptyStrMap.get ⟨fun _ => 0, fun _ => 0⟩ (.str [97]) = none ∧ ∀ m' mem',
      insertIn ⟨fun _ => 0, fun _ => 0⟩ (.str [97]) 4 1 (fun _ => false) emptyStrMap =
        some ((.outOfMemory, m'), mem') → SameEntries ⟨fun _ => 0, fun _ => 0⟩ emptyStrMap m' := by
  have hnone : emptyStrMap.get ⟨fun _ => 0, fun _ => 0⟩ (.str [97]) = none := by decide +kernel
  have hkey : TakesKey emptyStrMap (.str [97]) := trivial
  exact ⟨hnone, (insertIn_outOfMemory_iff (.new new_emptyStrMap) hkey 4 1 fun _ => false).mpr
    fun h => h.2.1 hnone⟩

/-- The value of a string key is replaced without memory for the copy of the key: the entry is lost. -/
theorem insertIn_loses_entry : ∃ m m' mem', Reachable ⟨fun _ => 0, fun _ => 0⟩ m ∧
    TakesKey m (.str [97]) ∧ m.get ⟨fun _ => 0, fun _ => 0⟩ (.str [97]) = some 1 ∧
    insertIn ⟨fun _ => 0, fun _ => 0⟩ (.str [97]) 4 2 (fun _ => false) m = some ((.outOfMemory, m'), mem') ∧
    m'.get ⟨fun _ => 0, fun _ => 0⟩ (.str [97]) = none ∧ ¬ SameEntries ⟨fun _ => 0, fun _ => 0⟩ m m' := by
  have hempty : TakesKey emptyStrMap (.str [97]) := trivial
  obtain ⟨s, m, mem, hins, hspec⟩ := insertIn_spec (inv_of_new new_emptyStrMap) hempty 4 1 fun _ => true
  have hm : Reachable ⟨fun _ => 0, fun _ => 0⟩ m := .insert (.new new_emptyStrMap) hins
  have hstatus : (insertIn ⟨fun _ => 0, fun _ => 0⟩ (.str [97]) 4 1 (fun _ => true) emptyStrMap).map (·.1.1) =
    some .inserted := by decide +kernel
  rw [hins] at hstatus
  have hget : m.toMap ⟨fun _ => 0, fun _ => 0⟩ (.str [97]) = some 1 := by
    rw [hspec.done (by cases hstatus; decide), Function.update_self]
  obtain ⟨t, rfl⟩ : ∃ t, m = .strtable t := by
    cases m with
    | inttable t => cases hget
    | strtable t => exact ⟨t, rfl⟩
  have hkey : TakesKey (.strtable t) (.str [97]) := trivial
  obtain ⟨s', m', mem', hins', hspec'⟩ := insertIn_spec hm.inv hkey 4 2 fun _ => false
  obtain ⟨rfl, hgone⟩ := hspec'.lost ⟨⟨t, rfl⟩, by rw [show get _ _ _ = _ from hget]; simp, rfl, rfl⟩
  have hnone : m'.toMap ⟨fun _ => 0, fun _ => 0⟩ (.str [97]) = none := by rw [hgone, Function.update_self]
  refine ⟨_, m', mem', hm, hkey, hget, hins', hnone, fun hsame => ?_⟩
  have hkept : m'.toMap ⟨fun _ => 0, fun _ => 0⟩ (.str [97]) = some 1 := (hsame.1 _).trans hget
  rw [hnone] at hkept
  cases hkept

end MapTable

end Upb
