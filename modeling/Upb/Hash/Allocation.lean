import Mathlib.Data.Stream.Defs
import Upb.Hash.ExtTable
import Upb.Hash.IntTableInvariant
import Upb.Hash.StrTable

/-!
# Tables whose allocations may fail

The operations that allocate, with the answers of the allocator as an argument. An insertion may ask
for a larger entry array and, in a string table, for a copy of the key; an insertion that is refused
leaves the map that the table stands for as it was.
-/

namespace Upb

/-- The answers of the allocator to the calls to come, false for null. -/
abbrev Memory := Stream' Bool

namespace Table

variable {κ ν ℓ : Type} [Inhabited ν] (ops : KeyOps κ ν ℓ)

/-- `init`. -/
def initIn (sizeLg2 : ℕ) (mem : Memory) : Option (Table κ ν) × Memory :=
  if 32 ≤ sizeLg2 then (none, mem)
  else (if mem.head then init ops sizeLg2 else none, mem.tail)

/-- `upb_strtable_resize`, and the growth of the hash part in `upb_inttable_insert`. -/
def resizeIn (t : Table κ ν) (sizeLg2 : ℕ) (mem : Memory) : Option ((Bool × Table κ ν) × Memory) :=
  match initIn ops sizeLg2 mem with
  | (none, mem) => some ((false, t), mem)
  | (some new, mem) => (new.insertAll ops (t.iterate ops)).map fun new => ((true, new), mem)

/-- The growth step of the insert functions. -/
def reserveIn (t : Table κ ν) (mem : Memory) : Option ((Bool × Table κ ν) × Memory) :=
  if t.isfull then t.resizeIn ops (t.log2TableSize + 1) mem else some ((true, t), mem)

/-- A table that is not full does not grow. -/
theorem reserveIn_of_not_full {t : Table κ ν} (h : t.isfull = false) (mem : Memory) :
    t.reserveIn ops mem = some ((true, t), mem) := by simp [reserveIn, h]

/-- The growth step is that of an allocator which does not fail, or it refuses. -/
theorem reserveIn_cases (t : Table κ ν) (mem : Memory) :
    ∃ mem', t.reserveIn ops mem = (t.reserve ops).map (·, mem') ∨
      t.reserveIn ops mem = some ((false, t), mem') ∧ t.isfull = true := by
  unfold reserveIn reserve
  cases hfull : t.isfull with
  | false => exact ⟨mem, .inl rfl⟩
  | true =>
    simp only [↓reduceIte, resizeIn, resize, initIn]
    by_cases hsize : 32 ≤ t.log2TableSize + 1
    · exact ⟨mem, .inl (by simp [hsize, init])⟩
    · rw [if_neg hsize]
      cases mem.head with
      | false => exact ⟨mem.tail, .inr ⟨rfl, trivial⟩⟩
      | true =>
        refine ⟨mem.tail, .inl ?_⟩
        simp only [↓reduceIte]
        cases init ops (t.log2TableSize + 1) with
        | none => rfl
        | some new => simp [Function.comp_def]

end Table

open Upb.Common (MapCmd MapOut)

namespace IntTable

variable {ν : Type} [Inhabited ν] (hash : ℕ → ℕ)

/-- `upb_inttable_sizedinit`. -/
def sizedinitIn (asize hsizeLg2 : ℕ) (mem : Memory) : Option (IntTable ν) × Memory :=
  match Table.initIn (ops hash) hsizeLg2 mem with
  | (none, mem) => (none, mem)
  | (some t, mem) =>
    if mem.head then
      (some
        { t, array := fun _ => default, presence := fun _ => false, arraySize := max 1 asize,
          arrayCount := 0 }, mem.tail)
    else (none, mem.tail)

/-- `upb_inttable_insert`; the array part allocates nothing. -/
def insertIn (t : IntTable ν) (key : ℕ) (val : ν) (mem : Memory) :
    Option ((Bool × IntTable ν) × Memory) :=
  if key < t.arraySize then (insert hash t key val).map (·, mem)
  else
    (t.t.reserveIn (ops hash) mem).bind fun ((ok, new), mem) =>
      if !ok then some ((false, { t with t := new }), mem)
      else (new.insert (ops hash) key val (hash key)).map fun new => ((true, { t with t := new }), mem)

variable {hash} {t t' : IntTable ν}

/-- A table that is made is one that an allocator which does not fail makes. -/
theorem sizedinit_of_sizedinitIn {asize hsizeLg2 : ℕ} {mem mem' : Memory}
    (h : sizedinitIn hash asize hsizeLg2 mem = (some t, mem')) :
    sizedinit hash asize hsizeLg2 = some t := by
  rw [sizedinitIn, Table.initIn] at h
  by_cases hsize : 32 ≤ hsizeLg2
  · simp [hsize] at h
  · rw [if_neg hsize] at h
    cases hhead : mem.head with
    | false => simp [hhead] at h
    | true =>
      rw [sizedinit]
      cases hinit : (Table.init (ops hash) hsizeLg2 : Option (Table ℕ ν)) with
      | none => simp [hhead, hinit] at h
      | some base =>
        cases htail : mem.tail.head with
        | false => simp [hhead, hinit, htail] at h
        | true =>
          simp only [hhead, hinit, htail, ↓reduceIte, Prod.mk.injEq, Option.some.injEq] at h
          exact congrArg some h.1

/-- An insertion keeps the size of the array part. -/
theorem arraySize_insert {k : ℕ} {v : ν} {ok : Bool} (h : insert hash t k v = some (ok, t')) :
    t'.arraySize = t.arraySize := by
  rw [insert] at h
  split at h
  · cases h
    rfl
  · obtain ⟨⟨b, new⟩, -, h⟩ := Option.bind_eq_some_iff.mp h
    simp only at h
    split at h
    · cases h
      rfl
    · obtain ⟨new', -, heq⟩ := Option.map_eq_some_iff.mp h
      cases heq
      rfl

/-- An insertion is that of an allocator which does not fail, or it refuses because the hash part
could not grow. -/
theorem insertIn_cases (hash : ℕ → ℕ) (t : IntTable ν) (k : ℕ) (v : ν) (mem : Memory) :
    ∃ mem', insertIn hash t k v mem = (insert hash t k v).map (·, mem') ∨
      insertIn hash t k v mem = some ((false, t), mem') ∧ ¬ k < t.arraySize ∧ t.t.isfull = true := by
  by_cases hk : k < t.arraySize
  · exact ⟨mem, .inl (by rw [insertIn, if_pos hk])⟩
  · obtain ⟨mem', hres | ⟨hres, hfull⟩⟩ := Table.reserveIn_cases (ops hash) t.t mem
    · refine ⟨mem', .inl ?_⟩
      rw [insertIn, if_neg hk, insert, if_neg hk, hres]
      cases t.t.reserve (ops hash) with
      | none => rfl
      | some r =>
        obtain ⟨ok, new⟩ := r
        cases ok <;> simp [Function.comp_def]
    · refine ⟨mem', .inr ⟨?_, hk, hfull⟩⟩
      rw [insertIn, if_neg hk, hres]
      rfl

/-- The insertion of a new key. -/
theorem insertIn_spec (hinv : Inv hash t) (hload : t.t.Loaded) {k : ℕ} (v : ν)
    (hnew : lookup hash t k = none) (mem : Memory) :
    ∃ ok t' mem', insertIn hash t k v mem = some ((ok, t'), mem') ∧ Inv hash t' ∧ t'.t.Loaded ∧
      t'.arraySize = t.arraySize ∧
      lookup hash t' = (if ok then Function.update (lookup hash t) k (some v) else lookup hash t) ∧
      (ok = false → ¬ k < t.arraySize ∧ t.t.isfull = true) := by
  obtain ⟨mem', hins | ⟨hins, hrefused⟩⟩ := insertIn_cases hash t k v mem
  · obtain ⟨o, t', hstep, hinv', hload'⟩ := step_returns t (.insert k v) ⟨hinv, hload⟩ hnew
    obtain ⟨⟨ok, t₁⟩, hret, heq⟩ := Option.map_eq_some_iff.mp hstep
    cases heq
    obtain ⟨-, hmeets⟩ := step_meets t (.insert k v) _ t' hinv hnew hstep
    rw [hret] at hins
    refine ⟨ok, t', mem', hins, hinv', hload', arraySize_insert hret, hmeets, fun hok => ?_⟩
    subst hok
    refine ⟨fun hk => ?_, (insert_refuses hinv hnew hstep).2⟩
    simp [insert, hk] at hret
  · exact ⟨false, t, mem', hins, hinv, hload, rfl, rfl, fun _ => hrefused⟩

end IntTable

namespace StrTable

variable {ν : Type} [Inhabited ν] (hash : List UInt8 → ℕ)

/-- `upb_SizePrefixString_Copy`: whether the copy is made. -/
def copyKey (k : List UInt8) (mem : Memory) : Bool × Memory :=
  if uint32Max < k.length then (false, mem) else (mem.head, mem.tail)

/-- `upb_strtable_insert`. -/
def insertIn (t : StrTable ν) (k : List UInt8) (v : ν) (mem : Memory) :
    Option ((Bool × StrTable ν) × Memory) :=
  (t.reserveIn (ops hash) mem).bind fun ((ok, t), mem) =>
    if !ok then some ((false, t), mem)
    else
      let (copied, mem) := copyKey k mem
      if !copied then some ((false, t), mem)
      else (Table.insert (ops hash) t (some k) v (hash k)).map fun t => ((true, t), mem)

variable {hash} {t : StrTable ν}

/-- The insertion of a new key. -/
theorem insertIn_spec (hinv : Inv hash t) (hload : t.Loaded) {k : List UInt8} (v : ν)
    (hnew : lookup2 hash t k = none) (mem : Memory) :
    ∃ ok t' mem', insertIn hash t k v mem = some ((ok, t'), mem') ∧ Inv hash t' ∧ t'.Loaded ∧
      lookup2 hash t' = (if ok then Function.update (lookup2 hash t) k (some v) else lookup2 hash t) ∧
      (ok = true → k.length ≤ uint32Max) ∧
      (t.isfull = false → ok = (copyKey k mem).1) := by
  obtain ⟨b, t₁, hres, hwf₁, hmap, -, hload₁, hspec, hret⟩ := Table.reserve_insert_spec (k := some k) (v := v)
    ops_lawful hinv rfl hnew
  obtain ⟨mem₁, hcases⟩ := Table.reserveIn_cases (ops hash) t mem
  rw [hres, Option.map_some] at hcases
  rcases hcases with hin | ⟨hin, hfull⟩
  · have hmem₁ (h : t.isfull = false) : b = true ∧ mem₁ = mem := by
      rw [Table.reserveIn_of_not_full (ops hash) h] at hin
      cases hin
      exact ⟨rfl, rfl⟩
    rw [insertIn, hin, Option.bind_some]
    cases b with
    | false => exact ⟨false, t₁, mem₁, rfl, hwf₁, hload₁ hload, hmap, by simp, fun h => by
        cases (hmem₁ h).1⟩
    | true =>
      cases hcopy : (copyKey k mem₁).1 with
      | false =>
        refine ⟨false, t₁, (copyKey k mem₁).2, by simp [hcopy], hwf₁, hload₁ hload, hmap, by simp, fun h => ?_⟩
        rw [← (hmem₁ h).2, hcopy]
      | true =>
        obtain ⟨t', h', hload'⟩ := hret hload rfl
        obtain ⟨hwf', hmap', -⟩ := hspec t' h'
        have h'' : t₁.insert (ops hash) (some k) v (hash k) = some t' := h'
        refine ⟨true, t', (copyKey k mem₁).2, by simp [hcopy, h''], hwf', hload', hmap', fun _ => ?_, fun h => ?_⟩
        · by_contra hlong
          simp [copyKey, show uint32Max < k.length by omega] at hcopy
        · rw [← (hmem₁ h).2, hcopy]
  · refine ⟨false, t, mem₁, by rw [insertIn, hin]; rfl, hinv, hload, rfl, by simp, fun h => ?_⟩
    rw [h] at hfull
    cases hfull

end StrTable

namespace ExtTable

variable {ν : Type} [Inhabited ν] (extNum : ν → ℕ) (hash : ℕ × ℕ → ℕ)

/-- `upb_exttable_init`. -/
def initIn (expectedSize : ℕ) (mem : Memory) : Option (ExtTable ν) × Memory :=
  Table.initIn (ops extNum hash) (log2Ceiling (entriesNeededFor expectedSize)) mem

/-- `upb_exttable_insert`, with its assertions. -/
def insertIn (t : ExtTable ν) (k : ℕ) (v : ν) (mem : Memory) : Option ((Bool × ExtTable ν) × Memory) :=
  if k = 0 ∨ extNum v = 0 then none
  else
    (t.reserveIn (ops extNum hash) mem).bind fun ((ok, t), mem) =>
      if !ok then some ((false, t), mem)
      else (Table.insert (ops extNum hash) t k v (hash (k, extNum v))).map fun t => ((true, t), mem)

variable {extNum hash} {t : ExtTable ν}

/-- A table that is made is empty. -/
theorem initIn_spec {n : ℕ} {mem mem' : Memory} (h : initIn extNum hash n mem = (some t, mem')) :
    Inv extNum hash t ∧ t.Loaded := by
  rw [initIn, Table.initIn] at h
  split at h
  · cases h
  · split at h
    · obtain ⟨hinv, hload, -⟩ := inv_of_init (Prod.mk.inj h).1
      exact ⟨hinv, hload⟩
    · cases h

/-- The insertion of a new key. -/
theorem insertIn_spec (hinv : Inv extNum hash t) (hload : t.Loaded) {k : ℕ} {v : ν} (hk : k ≠ 0)
    (hv : extNum v ≠ 0) (hnew : lookup extNum hash t (k, extNum v) = none) (mem : Memory) :
    ∃ ok t' mem', insertIn extNum hash t k v mem = some ((ok, t'), mem') ∧ Inv extNum hash t' ∧
      t'.Loaded ∧
      if ok then lookup extNum hash t' = Function.update (lookup extNum hash t) (k, extNum v) (some v) ∧
        t'.count = t.count + 1
      else lookup extNum hash t' = lookup extNum hash t ∧ t'.count = t.count := by
  have hempty : (ops extNum hash).isempty k = false := by simpa [ops] using hk
  obtain ⟨b, t₁, hres, hwf₁, hmap, -, hload₁, hspec, hret⟩ := Table.reserve_insert_spec ops_lawful hinv
    hempty hnew
  obtain ⟨mem₁, hin | ⟨hin, -⟩⟩ := Table.reserveIn_cases (ops extNum hash) t mem
  · rw [hres, Option.map_some] at hin
    rw [insertIn, if_neg (by simp [hk, hv]), hin, Option.bind_some]
    cases b with
    | false =>
      have hcount := ((Table.reserve_spec ops_lawful hinv).1 _ _ hres).2.1
      exact ⟨false, t₁, mem₁, rfl, hwf₁, hload₁ hload, hmap, hcount⟩
    | true =>
      obtain ⟨t', h', hload'⟩ := hret hload rfl
      obtain ⟨hwf', hmap', hcount'⟩ := hspec t' h'
      have h'' : t₁.insert (ops extNum hash) k v (hash (k, extNum v)) = some t' := h'
      exact ⟨true, t', mem₁, by simp [h''], hwf', hload', hmap', hcount'⟩
  · exact ⟨false, t, mem₁, by rw [insertIn, if_neg (by simp [hk, hv]), hin]; rfl, hinv, hload, rfl, rfl⟩

omit [Inhabited ν] in
/-- A removal empties its key; the count goes down by one if the key was present. -/
theorem remove_spec (hinv : Inv extNum hash t) (hload : t.Loaded) (l : ℕ × ℕ) :
    match remove extNum hash t l with
    | none => lookup extNum hash t l = none
    | some (_, t') => Inv extNum hash t' ∧ t'.Loaded ∧ t'.count + 1 = t.count ∧
        lookup extNum hash t' = Function.update (lookup extNum hash t) l none := by
  have hspec := Table.rm_toMap ops_lawful hinv l
  rw [remove]
  cases hrm : t.rm (ops extNum hash) l (hash l) with
  | none =>
    rw [hrm] at hspec
    exact hspec
  | some r =>
    rw [hrm] at hspec
    obtain ⟨hwf, hmask, hcount, -, hmap⟩ := hspec
    refine ⟨hwf, ?_, hcount, hmap⟩
    rw [Table.Loaded, Table.size, hmask]
    exact (Nat.le.intro hcount).trans hload

end ExtTable

end Upb
