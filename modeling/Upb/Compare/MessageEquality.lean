import Mathlib.Data.List.Perm.Subperm
import Upb.Compare.SameContent
import Upb.Hash.CompactSizes
import Upb.Wire.EpsCopyInputStream

/-!
# `upb_Message_IsEqual` decides equality by content

Each function of the comparison decides the part of `SameContent` that is its own, by induction over
the first message. Maps and extensions are compared by lookups from one side and a count: as many
keys as on the other side, all of them found there, are all keys.
-/

namespace Upb.Compare

open Upb.Common

variable {sch : Schema} {hash : Hashes} {same : Slot → Slot → Bool} {σ : Type} {S : Wire.Stream σ}
  {includeUnknownFields : Bool}

/-- Keys found on the other side, in equal number, are the keys of the other side. -/
theorem keys_iff {α β γ : Type} {l1 : List (α × β)} {l2 : List (α × γ)}
    (h1 : (l1.map Prod.fst).Nodup) (h2 : (l2.map Prod.fst).Nodup) :
    (l1.length = l2.length ∧ ∀ p ∈ l1, p.1 ∈ l2.map Prod.fst) ↔
      ∀ k, k ∈ l1.map Prod.fst ↔ k ∈ l2.map Prod.fst := by
  constructor
  · rintro ⟨hlen, hsub⟩ k
    have hsubset : l1.map Prod.fst ⊆ l2.map Prod.fst := by
      intro k hk
      obtain ⟨p, hp, rfl⟩ := List.mem_map.mp hk
      exact hsub p hp
    have hperm := (List.subperm_of_subset h1 hsubset).perm_of_length_le (by simp [hlen])
    exact hperm.mem_iff
  · intro h
    have hperm := (List.perm_ext_iff_of_nodup h1 h2).mpr h
    refine ⟨by simpa using hperm.length_eq, fun p hp => (h p.1).mp (List.mem_map_of_mem hp)⟩

/-- The value of a key that is listed once. -/
theorem lookup_eq_some_iff_mem {α β : Type} [BEq α] [LawfulBEq α] {l : List (α × β)} {k : α} {v : β}
    (nodup : (l.map Prod.fst).Nodup) : l.lookup k = some v ↔ (k, v) ∈ l := by
  refine ⟨mem_of_lookup, fun h => ?_⟩
  induction l with
  | nil => exact absurd h List.not_mem_nil
  | cons p l ih =>
    rw [List.map_cons, List.nodup_cons] at nodup
    rcases List.mem_cons.mp h with rfl | h
    · rw [List.lookup_cons, beq_self_eq_true]
    · have hne : (k == p.1) = false := by
        refine beq_eq_false_iff_ne.mpr fun hk => nodup.1 ?_
        rw [← hk]
        exact List.mem_map.mpr ⟨(k, v), h, rfl⟩
      rw [List.lookup_cons, hne]
      exact ih nodup.2 h

/-- The two iterations agree if they go through the same fields and the contents of each are
equal. -/
theorem decides_lockstep {eq : ℕ → ℕ → Option Bool} {p : ℕ → Prop} {l1 l2 : List ℕ}
    (h : ∀ i ∈ l1, i ∈ l2 → Decides (fun fuel => eq fuel i) (p i)) :
    Decides (fun fuel => lockstep (eq fuel) l1 l2) (l1 = l2 ∧ ∀ i ∈ l1, p i) := by
  induction l1 generalizing l2 with
  | nil =>
    cases l2 with
    | nil => exact Decides.const (iff_of_true rfl ⟨rfl, fun i hi => absurd hi List.not_mem_nil⟩)
    | cons j js => exact Decides.const (iff_of_false Bool.false_ne_true fun hh => nomatch hh.1)
  | cons i is ih =>
    cases l2 with
    | nil => exact Decides.const (iff_of_false Bool.false_ne_true fun hh => nomatch hh.1)
    | cons j js =>
      by_cases hij : i = j
      · subst hij
        have hhead := h i List.mem_cons_self List.mem_cons_self
        have htail := ih fun k hk hk' =>
          h k (List.mem_cons_of_mem i hk) (List.mem_cons_of_mem i hk')
        refine ((hhead.thenTest fun _ => htail).congr ?_).of_eq fun fuel => ?_
        · rw [List.cons.injEq, List.forall_mem_cons]
          tauto
        · rw [lockstep, if_neg (fun hne => hne rfl)]
      · refine (Decides.const ?_).of_eq fun fuel => if_pos hij
        exact iff_of_false Bool.false_ne_true fun hh => hij (List.cons.inj hh.1).1

/-- `upb_MessageValue_IsEqual` of numbers. -/
theorem valueIsEqual_number {sub : TableId → Slot → Slot → Option Bool} {f : LinkedField}
    (type : IsNumberType f) {s1 s2 : Slot}
    (h1 : s1.toBits < 2 ^ numberBits f.field.descriptortype)
    (h2 : s2.toBits < 2 ^ numberBits f.field.descriptortype) :
    valueIsEqual sub f s1 s2 = some (s1.toBits == s2.toBits) := by
  obtain ⟨hstring, hbytes, hsub⟩ := type
  have hmessage : f.field.descriptortype ≠ .message := fun h => by
    rw [MiniTableField.isSubMessage, h] at hsub
    cases hsub
  have hgroup : f.field.descriptortype ≠ .group := fun h => by
    rw [MiniTableField.isSubMessage, h] at hsub
    cases hsub
  unfold valueIsEqual
  split
  · next h => exact absurd h hstring
  · next h => exact absurd h hbytes
  · next h => exact absurd h hmessage
  · next h => exact absurd h hgroup
  · rw [Nat.mod_eq_of_lt h1, Nat.mod_eq_of_lt h2]

/-- `upb_MessageValue_IsEqual` of strings. -/
theorem valueIsEqual_string {sub : TableId → Slot → Slot → Option Bool} {f : LinkedField}
    (type : IsStringType f) (s1 s2 : Slot) :
    valueIsEqual sub f s1 s2 = some (s1.toStr == s2.toStr) := by
  rcases type with h | h <;> rw [valueIsEqual, h]

/-- `upb_MessageValue_IsEqual` of messages. -/
theorem valueIsEqual_message {sub : TableId → Slot → Slot → Option Bool} {f : LinkedField}
    (type : f.field.isSubMessage = true) {t : TableId} (table : f.sub.message = some t)
    (s1 s2 : Slot) : valueIsEqual sub f s1 s2 = sub t s1 s2 := by
  rw [MiniTableField.isSubMessage, Bool.or_eq_true, beq_iff_eq, beq_iff_eq] at type
  rcases type with h | h <;> rw [valueIsEqual, h, table]

/-- The size of a map is the number of its entries. -/
theorem length_pairs {table : MapTable} (inv : MapTable.Inv hash table) :
    (table.pairs hash).length = table.size := by
  cases table with
  | inttable t =>
    rw [MapTable.pairs, List.length_map, IntTable.length_pairs inv.1]
    rfl
  | strtable t =>
    rw [MapTable.pairs, List.length_map, StrTable.pairs, List.length_map]
    exact Table.length_iterate inv.1

/-- The entries of a map are its keys, each once, with their values. -/
theorem mapEntries_spec (keySize : ℕ) {table : MapTable} (values : List Slot)
    (inv : MapTable.Inv hash table) :
    (((Slot.map keySize table values).mapEntries hash).map Prod.fst).Nodup ∧
      (∀ p, p ∈ (Slot.map keySize table values).mapEntries hash →
        (Slot.map keySize table values).mapGet hash p.1 = some p.2) ∧
      (∀ k, k ∈ ((Slot.map keySize table values).mapEntries hash).map Prod.fst ↔
        (Slot.map keySize table values).mapGet hash k ≠ none) ∧
      ((Slot.map keySize table values).mapEntries hash).length = mapSize (Slot.map keySize table values) := by
  obtain ⟨hnodup, hmem⟩ := MapTable.pairs_spec inv
  have hkeys : ((Slot.map keySize table values).mapEntries hash).map Prod.fst =
      (table.pairs hash).map Prod.fst := by
    rw [Slot.mapEntries, List.map_map]
    rfl
  refine ⟨hkeys ▸ hnodup, ?_, fun k => ?_, ?_⟩
  · intro p hp
    obtain ⟨q, hq, rfl⟩ := List.mem_map.mp hp
    rw [Slot.mapGet, (hmem q.1 q.2).mp hq]
    rfl
  · rw [hkeys, Slot.mapGet, ne_eq, Option.map_eq_none_iff]
    constructor
    · intro hk
      obtain ⟨q, hq, rfl⟩ := List.mem_map.mp hk
      rw [(hmem q.1 q.2).mp hq]
      exact Option.some_ne_none _
    · intro hk
      obtain ⟨v, hv⟩ := Option.ne_none_iff_exists'.mp hk
      exact List.mem_map.mpr ⟨(k, v), (hmem k v).mpr hv, rfl⟩
  · rw [Slot.mapEntries, List.length_map, mapSize, length_pairs inv]

/-- The extensions that are set, each once, with their values. -/
theorem extensions_spec (sch : Schema) (hash : Hashes) {m : Message} (nodup : (m.exts.map Prod.fst).Nodup) :
    ((extensions sch hash m).map Prod.fst).Nodup ∧
      (∀ p, p ∈ extensions sch hash m → setExtension sch hash m p.1 = some p.2) ∧
      (∀ e, e ∈ (extensions sch hash m).map Prod.fst ↔ setExtension sch hash m e ≠ none) := by
  have hmem : ∀ p, p ∈ extensions sch hash m ↔ setExtension sch hash m p.1 = some p.2 := by
    intro p
    rw [extensions, List.mem_filter, setExtension, Option.filter_eq_some_iff, Message.getext,
      lookup_eq_some_iff_mem nodup]
  refine ⟨nodup.sublist (List.Sublist.map _ List.filter_sublist), fun p => (hmem p).mp, fun e => ?_⟩
  constructor
  · intro he
    obtain ⟨p, hp, rfl⟩ := List.mem_map.mp he
    rw [(hmem p).mp hp]
    exact Option.some_ne_none _
  · intro he
    obtain ⟨v, hv⟩ := Option.ne_none_iff_exists'.mp he
    exact List.mem_map.mpr ⟨(e, v), (hmem (e, v)).mpr hv, rfl⟩

/-- A comparison that takes equal pointers for equal contents. -/
theorem decides_same (hsame : ∀ s1 s2, same s1 s2 = true → s1 = s2) {place : Place} {s1 s2 : Slot}
    (h1 : WellFormed sch hash place s1) {r : ℕ → Option Bool} {P : Prop} (hr : Decides r P)
    (hP : P ↔ SameContent sch hash place s1 s2) :
    Decides (fun fuel => if same s1 s2 then some true else r fuel) (SameContent sch hash place s1 s2) := by
  by_cases hs : same s1 s2 = true
  · obtain rfl := hsame s1 s2 hs
    exact (Decides.const (iff_of_true rfl (SameContent.refl h1))).of_eq fun fuel => if_pos hs
  · exact (hr.congr hP).of_eq fun fuel => if_neg hs

/-- A well-formed map. -/
theorem WellFormed.map_eq {f key value : LinkedField} {entry : TableId} {s : Slot}
    (h : WellFormed sch hash (.field f) s) (mode : f.field.mode.fieldMode = .map)
    (hentry : f.sub.message = some entry) (hkey : sch.field entry 0 = some key)
    (hvalue : sch.field entry 1 = some value) :
    ∃ table values, s = .map (Wire.sizeInMap key.field.descriptortype) table values ∧
      MapTable.Inv hash table ∧
      (∀ k v, s.mapGet hash k = some v →
        (k.toSlot (Wire.sizeInMap key.field.descriptortype)).toKey
          (Wire.sizeInMap key.field.descriptortype) = k) ∧
      ∀ k v, s.mapGet hash k = some v → WellFormed sch hash (.value value) v := by
  cases h with
  | scalar mode' => exact nomatch mode.symm.trans mode'
  | array mode' => exact nomatch mode.symm.trans mode'
  | map _ hentry' hkey' hvalue' hs inv keys vals =>
    obtain rfl := Option.some.inj (hentry.symm.trans hentry')
    obtain rfl := Option.some.inj (hkey.symm.trans hkey')
    obtain rfl := Option.some.inj (hvalue.symm.trans hvalue')
    exact ⟨_, _, hs, inv, keys, vals⟩

section

variable (eq : ℕ → Slot → Slot → Option Bool)

/-- `_upb_Array_IsEqual`. -/
theorem decides_array (hsame : ∀ s1 s2, same s1 s2 = true → s1 = s2) {f : LinkedField} {s1 s2 : Slot}
    (mode : f.field.mode.fieldMode = .array) (h1 : WellFormed sch hash (.field f) s1)
    (helems : ∀ v1 ∈ s1.toArray, ∀ v2 ∈ s2.toArray,
      Decides (fun fuel => eq fuel v1 v2) (SameContent sch hash (.value f) v1 v2)) :
    Decides (fun fuel => arrayIsEqual same (eq fuel) s1 s2) (SameContent sch hash (.field f) s1 s2) := by
  refine decides_same hsame h1 ?_ Iff.rfl
  by_cases hlen : s1.toArray.length = s2.toArray.length
  · have hall : Decides
        (fun fuel => allTest (fun val => eq fuel val.1 val.2) (s1.toArray.zip s2.toArray))
        (∀ val ∈ s1.toArray.zip s2.toArray, SameContent sch hash (.value f) val.1 val.2) :=
      Decides.allTest fun p hp => helems p.1 (List.of_mem_zip hp).1 p.2 (List.of_mem_zip hp).2
    refine (hall.congr ?_).of_eq fun fuel => if_neg (fun hne => hne hlen)
    constructor
    · intro h
      refine .array mode hlen fun i v1 v2 hv1 hv2 => ?_
      have hzip : (s1.toArray.zip s2.toArray)[i]? = some (v1, v2) := by
        rw [List.getElem?_zip_eq_some]
        exact ⟨hv1, hv2⟩
      exact h (v1, v2) (List.mem_of_getElem? hzip)
    · intro h
      cases h with
      | array _ _ elems =>
        intro p hp
        obtain ⟨i, hi⟩ := List.mem_iff_getElem?.mp hp
        rw [List.getElem?_zip_eq_some] at hi
        exact elems i p.1 p.2 hi.1 hi.2
      | scalar mode' => exact nomatch mode.symm.trans mode'
      | map mode' => exact nomatch mode.symm.trans mode'
  · refine (Decides.const ?_).of_eq fun fuel => if_pos hlen
    refine iff_of_false Bool.false_ne_true fun h => ?_
    cases h with
    | array _ length => exact hlen length
    | scalar mode' => exact nomatch mode.symm.trans mode'
    | map mode' => exact nomatch mode.symm.trans mode'

/-- `_upb_Map_IsEqual`. -/
theorem decides_map (hsame : ∀ s1 s2, same s1 s2 = true → s1 = s2) {f : LinkedField} {s1 s2 : Slot}
    (mode : f.field.mode.fieldMode = .map) {entry : TableId} {key value : LinkedField}
    (hentry : f.sub.message = some entry) (hkey : sch.field entry 0 = some key)
    (hvalue : sch.field entry 1 = some value)
    (h1 : WellFormed sch hash (.field f) s1) (h2 : WellFormed sch hash (.field f) s2)
    (hvals : ∀ k v1 v2, s1.mapGet hash k = some v1 → s2.mapGet hash k = some v2 →
      Decides (fun fuel => eq fuel v1 v2) (SameContent sch hash (.value value) v1 v2)) :
    Decides (fun fuel => mapIsEqual hash same (eq fuel) s1 s2) (SameContent sch hash (.field f) s1 s2) := by
  obtain ⟨table1, values1, rfl, inv1, keys1, -⟩ := h1.map_eq mode hentry hkey hvalue
  obtain ⟨table2, values2, rfl, inv2, -, -⟩ := h2.map_eq mode hentry hkey hvalue
  set keySize := Wire.sizeInMap key.field.descriptortype with hks
  set m1 := Slot.map keySize table1 values1 with hm1
  set m2 := Slot.map keySize table2 values2 with hm2
  obtain ⟨nodup1, get1, mem1, size1⟩ := mapEntries_spec keySize values1 inv1
  obtain ⟨nodup2, -, mem2, size2⟩ := mapEntries_spec keySize values2 inv2
  refine decides_same hsame h1 (P := mapSize m1 = mapSize m2 ∧ ∀ ent ∈ m1.mapEntries hash,
    ∃ v2, m2.mapGet hash ent.1 = some v2 ∧ SameContent sch hash (.value value) ent.2 v2) ?_ ?_
  · by_cases hsize : mapSize m1 = mapSize m2
    · have hall : Decides
          (fun fuel => allTest
            (fun ent => (m2.mapGet hash (keyIn m1 m2 ent.1)).elim (some false) (eq fuel ent.2))
            (m1.mapEntries hash))
          (∀ ent ∈ m1.mapEntries hash, ∃ v2, m2.mapGet hash ent.1 = some v2 ∧
            SameContent sch hash (.value value) ent.2 v2) := by
        refine Decides.allTest fun ent hent => ?_
        have hk : keyIn m1 m2 ent.1 = ent.1 := keys1 ent.1 ent.2 (get1 ent hent)
        rw [hk]
        cases hget : m2.mapGet hash ent.1 with
        | none =>
          refine Decides.const (iff_of_false Bool.false_ne_true ?_)
          rintro ⟨v2, hv2, -⟩
          cases hv2
        | some v2 =>
          refine (hvals ent.1 ent.2 v2 (get1 ent hent) hget).congr ⟨fun h => ⟨v2, rfl, h⟩, ?_⟩
          rintro ⟨v2', hv2', h⟩
          obtain rfl := Option.some.inj hv2'
          exact h
      refine (hall.congr ⟨fun h => ⟨hsize, h⟩, And.right⟩).of_eq fun fuel => ?_
      rw [if_neg (not_not_intro hsize)]
      refine congrArg (fun test => allTest test (m1.mapEntries hash)) (funext fun ent => ?_)
      cases m2.mapGet hash (keyIn m1 m2 ent.1) <;> rfl
    · refine (Decides.const ?_).of_eq fun fuel => if_pos hsize
      exact iff_of_false Bool.false_ne_true fun h => hsize h.1
  · have hcount := keys_iff nodup1 nodup2
    rw [size1, size2] at hcount
    constructor
    · rintro ⟨hsize, hall⟩
      have hkeys := hcount.mp ⟨hsize, fun ent hent => by
        obtain ⟨v2, hv2, -⟩ := hall ent hent
        exact (mem2 ent.1).mpr (by rw [hv2]; exact Option.some_ne_none _)⟩
      refine .map mode hentry hvalue (fun k => ?_) fun k v1 v2 hv1 hv2 => ?_
      · rw [← not_iff_not]
        exact (mem1 k).symm.trans ((hkeys k).trans (mem2 k))
      · obtain ⟨ent, hent, rfl⟩ := List.mem_map.mp ((mem1 k).mpr (by rw [hv1]; exact Option.some_ne_none _))
        obtain ⟨v2', hv2', hsame'⟩ := hall ent hent
        obtain rfl := Option.some.inj (hv2'.symm.trans hv2)
        obtain rfl := Option.some.inj ((get1 ent hent).symm.trans hv1)
        exact hsame'
    · intro h
      cases h with
      | scalar mode' => cases mode.symm.trans mode'
      | array mode' => cases mode.symm.trans mode'
      | map _ hentry' hvalue' keys vals =>
        obtain rfl := Option.some.inj (hentry.symm.trans hentry')
        obtain rfl := Option.some.inj (hvalue.symm.trans hvalue')
        have hkeys : ∀ k, k ∈ (m1.mapEntries hash).map Prod.fst ↔ k ∈ (m2.mapEntries hash).map Prod.fst :=
          fun k => (mem1 k).trans ((not_iff_not.mpr (keys k)).trans (mem2 k).symm)
        refine ⟨(hcount.mpr hkeys).1, fun ent hent => ?_⟩
        have hne := (mem2 ent.1).mp ((hcount.mpr hkeys).2 ent hent)
        obtain ⟨v2, hv2⟩ := Option.ne_none_iff_exists'.mp hne
        exact ⟨v2, hv2, vals ent.1 ent.2 v2 (get1 ent hent) hv2⟩

end

theorem mem_baseFields {t : TableId} {m : Message} {i : ℕ} :
    i ∈ baseFields sch t m ↔ ∃ f, IsBaseField sch t i f ∧ isSetBaseField m f.field = true := by
  rw [baseFields, List.mem_filter, List.mem_range, Option.any_eq_true]
  constructor
  · rintro ⟨hi, f, hf, hset⟩
    exact ⟨f, ⟨hi, hf⟩, hset⟩
  · rintro ⟨f, ⟨hi, hf⟩, hset⟩
    exact ⟨hi, f, hf, hset⟩

/-- The iterations go through the same fields if the same fields are set. -/
theorem baseFields_eq_iff {t : TableId} {m1 m2 : Message} :
    baseFields sch t m1 = baseFields sch t m2 ↔ ∀ i f, IsBaseField sch t i f →
      (isSetBaseField m1 f.field = true ↔ isSetBaseField m2 f.field = true) := by
  have hmem : ∀ m i f, IsBaseField sch t i f →
      (i ∈ baseFields sch t m ↔ isSetBaseField m f.field = true) := by
    intro m i f hf
    rw [mem_baseFields]
    constructor
    · rintro ⟨g, hg, hset⟩
      obtain rfl := Option.some.inj (hf.2.symm.trans hg.2)
      exact hset
    · exact fun hset => ⟨f, hf, hset⟩
  constructor
  · intro heq i f hf
    rw [← hmem m1 i f hf, ← hmem m2 i f hf, heq]
  · intro h
    refine List.filter_congr fun i hi => ?_
    cases hf : sch.field t i with
    | none => rfl
    | some f => exact Bool.eq_iff_iff.mpr (h i f ⟨List.mem_range.mp hi, hf⟩)

/-- Fields with equal contents are empty together. -/
theorem extensionIsEmpty_congr {e : ExtId} {v1 v2 : Slot}
    (notMap : (sch.ext e).field.mode.fieldMode ≠ .map)
    (h : SameContent sch hash (.field (sch.ext e)) v1 v2) :
    Wire.extensionIsEmpty sch hash (e, v1) = Wire.extensionIsEmpty sch hash (e, v2) := by
  cases h with
  | scalar mode => rw [Wire.extensionIsEmpty, Wire.extensionIsEmpty, mode]
  | array mode length =>
    rw [Wire.extensionIsEmpty, Wire.extensionIsEmpty, mode]
    show v1.toArray.isEmpty = v2.toArray.isEmpty
    rw [Bool.eq_iff_iff, List.isEmpty_iff_length_eq_zero, List.isEmpty_iff_length_eq_zero, length]
  | map mode => exact absurd mode notMap

/-- What the comparison of extensions finds is that the same extensions are set to equal contents. -/
theorem extensions_iff {m1 m2 : Message} (nodup1 : (m1.exts.map Prod.fst).Nodup)
    (nodup2 : (m2.exts.map Prod.fst).Nodup)
    (notMap : ∀ p ∈ m1.exts, (sch.ext p.1).field.mode.fieldMode ≠ .map) :
    ((∀ p ∈ extensions sch hash m1, ∃ v2, m2.getext p.1 = some v2 ∧
          SameContent sch hash (.field (sch.ext p.1)) p.2 v2) ∧
        (extensions sch hash m1).length = (extensions sch hash m2).length) ↔
      (∀ e, setExtension sch hash m1 e = none ↔ setExtension sch hash m2 e = none) ∧
        ∀ e v1 v2, setExtension sch hash m1 e = some v1 → setExtension sch hash m2 e = some v2 →
          SameContent sch hash (.field (sch.ext e)) v1 v2 := by
  obtain ⟨hn1, hget1, hmem1⟩ := extensions_spec sch hash nodup1
  obtain ⟨hn2, hget2, hmem2⟩ := extensions_spec sch hash nodup2
  have hcount := keys_iff hn1 hn2
  constructor
  · rintro ⟨hall, hlen⟩
    have hset : ∀ p ∈ extensions sch hash m1, ∃ v2, setExtension sch hash m2 p.1 = some v2 ∧
        SameContent sch hash (.field (sch.ext p.1)) p.2 v2 := by
      intro p hp
      obtain ⟨v2, hv2, hsame⟩ := hall p hp
      obtain ⟨hpm, hpe⟩ := List.mem_filter.mp hp
      refine ⟨v2, Option.filter_eq_some_iff.mpr ⟨hv2, ?_⟩, hsame⟩
      rw [← extensionIsEmpty_congr (notMap p hpm) hsame]
      exact hpe
    have hkeys := hcount.mp ⟨hlen, fun p hp => by
      obtain ⟨v2, hv2, -⟩ := hset p hp
      exact (hmem2 p.1).mpr (by rw [hv2]; exact Option.some_ne_none _)⟩
    refine ⟨fun e => ?_, fun e v1 v2 h1 h2 => ?_⟩
    · rw [← not_iff_not]
      exact (hmem1 e).symm.trans ((hkeys e).trans (hmem2 e))
    · obtain ⟨p, hp, rfl⟩ := List.mem_map.mp ((hmem1 e).mpr (by rw [h1]; exact Option.some_ne_none _))
      obtain ⟨v2', hv2', hsame⟩ := hset p hp
      obtain rfl := Option.some.inj (hv2'.symm.trans h2)
      obtain rfl := Option.some.inj ((hget1 p hp).symm.trans h1)
      exact hsame
  · rintro ⟨hset, hsame⟩
    have hkeys : ∀ e, e ∈ (extensions sch hash m1).map Prod.fst ↔
        e ∈ (extensions sch hash m2).map Prod.fst := fun e =>
      (hmem1 e).trans ((not_iff_not.mpr (hset e)).trans (hmem2 e).symm)
    obtain ⟨hlen, hsub⟩ := hcount.mpr hkeys
    refine ⟨fun p hp => ?_, hlen⟩
    obtain ⟨v2, hv2⟩ := Option.ne_none_iff_exists'.mp ((hmem2 p.1).mp (hsub p hp))
    exact ⟨v2, (Option.filter_eq_some_iff.mp hv2).1, hsame p.1 p.2 v2 (hget1 p hp) hv2⟩

/-- The comparison of contents of a place. -/
def compareAt (sch : Schema) (hash : Hashes) (same : Slot → Slot → Bool) (S : Wire.Stream σ)
    (includeUnknownFields : Bool) (fuel : ℕ) : Place → Slot → Slot → Option Bool
  | .message t => isEqualMessage sch hash same S includeUnknownFields fuel t
  | .field f =>
    contentsAreEqual sch hash same (isEqualMessage sch hash same S includeUnknownFields fuel) f
  | .value f => valueIsEqual (isEqualMessage sch hash same S includeUnknownFields fuel) f

/-- `_upb_Message_ExtensionsAreEqual`. -/
theorem decides_extensions {sub : ℕ → TableId → Slot → Slot → Option Bool} {m1 m2 : Message}
    (nodup1 : (m1.exts.map Prod.fst).Nodup) (nodup2 : (m2.exts.map Prod.fst).Nodup)
    (notMap : ∀ p ∈ m1.exts, (sch.ext p.1).field.mode.fieldMode ≠ .map)
    (hexts : ∀ p ∈ m1.exts, ∀ v2, m2.getext p.1 = some v2 →
      Decides (fun fuel => contentsAreEqual sch hash same (sub fuel) (sch.ext p.1) p.2 v2)
        (SameContent sch hash (.field (sch.ext p.1)) p.2 v2)) :
    Decides (fun fuel => extensionsAreEqual sch hash same (sub fuel) m1 m2)
      ((∀ e, setExtension sch hash m1 e = none ↔ setExtension sch hash m2 e = none) ∧
        ∀ e v1 v2, setExtension sch hash m1 e = some v1 → setExtension sch hash m2 e = some v2 →
          SameContent sch hash (.field (sch.ext e)) v1 v2) := by
  refine Decides.congr ?_ (extensions_iff nodup1 nodup2 notMap)
  refine Decides.thenTest ?_ fun _ => Decides.const beq_iff_eq
  refine Decides.allTest fun p hp => ?_
  obtain ⟨hpm, -⟩ := List.mem_filter.mp hp
  cases hget : m2.getext p.1 with
  | none => exact Decides.const (iff_of_false Bool.false_ne_true fun ⟨v2, hv2, _⟩ => nomatch hv2)
  | some v2 =>
    have hmode : ∀ fuel, extensionIsEqual sch hash same (sub fuel) p.1 p.2 v2 =
        contentsAreEqual sch hash same (sub fuel) (sch.ext p.1) p.2 v2 := by
      intro fuel
      unfold extensionIsEqual
      split
      · next h => exact absurd h (notMap p hpm)
      · rfl
    refine ((hexts p hpm v2 hget).congr ⟨fun h => ⟨v2, rfl, h⟩, ?_⟩).of_eq hmode
    rintro ⟨v2', hv2', h⟩
    obtain rfl := Option.some.inj hv2'
    exact h

/-- `_upb_Message_BaseFieldsAreEqual`. -/
theorem decides_baseFields {sub : ℕ → TableId → Slot → Slot → Option Bool} {t : TableId}
    {m1 m2 : Message}
    (hfields : ∀ i f, IsBaseField sch t i f → isSetBaseField m1 f.field = true →
      isSetBaseField m2 f.field = true →
      Decides (fun fuel => contentsAreEqual sch hash same (sub fuel) f (m1.data f.field) (m2.data f.field))
        (SameContent sch hash (.field f) (m1.data f.field) (m2.data f.field))) :
    Decides (fun fuel => baseFieldsAreEqual sch hash same (sub fuel) t m1 m2)
      ((∀ i f, IsBaseField sch t i f →
          (isSetBaseField m1 f.field = true ↔ isSetBaseField m2 f.field = true)) ∧
        ∀ i f, IsBaseField sch t i f → isSetBaseField m1 f.field = true →
          SameContent sch hash (.field f) (m1.data f.field) (m2.data f.field)) := by
  have hlock : Decides (fun fuel => baseFieldsAreEqual sch hash same (sub fuel) t m1 m2)
      (baseFields sch t m1 = baseFields sch t m2 ∧ ∀ i ∈ baseFields sch t m1, ∀ f,
        sch.field t i = some f →
          SameContent sch hash (.field f) (m1.data f.field) (m2.data f.field)) := by
    refine decides_lockstep fun i hi1 hi2 => ?_
    obtain ⟨f, hf, hset1⟩ := mem_baseFields.mp hi1
    obtain ⟨f2, hf2, hset2⟩ := mem_baseFields.mp hi2
    obtain rfl := Option.some.inj (hf.2.symm.trans hf2.2)
    refine ((hfields i f hf hset1 hset2).congr ⟨fun h g hg => ?_, fun h => h f hf.2⟩).of_eq fun fuel => ?_
    · obtain rfl := Option.some.inj (hf.2.symm.trans hg)
      exact h
    · rw [hf.2]
      rfl
  refine hlock.congr ?_
  rw [baseFields_eq_iff]
  refine and_congr_right fun _ => ⟨fun h i f hf hset => ?_, fun h i hi f hf => ?_⟩
  · exact h i (mem_baseFields.mpr ⟨f, hf, hset⟩) f hf.2
  · obtain ⟨g, hg, hset⟩ := mem_baseFields.mp hi
    obtain rfl := Option.some.inj (hg.2.symm.trans hf)
    exact h i g hg hset

/-- Messages without unknown fields agree in them. -/
theorem unknownIsEqual_nil (S : Wire.Stream σ) (includeUnknownFields : Bool) {m1 m2 : Message}
    (h1 : m1.unknown = []) (h2 : m2.unknown = []) :
    unknownIsEqual S includeUnknownFields m1 m2 = some true := by
  rw [unknownIsEqual, unknownChunks, unknownChunks, if_pos h1, if_pos h2]
  cases includeUnknownFields <;> rfl

section

variable {f : LinkedField} {s s1 s2 : Slot}

theorem SameContent.toBits_eq (h : SameContent sch hash (.value f) s1 s2) (type : IsNumberType f) :
    s1.toBits = s2.toBits := by
  cases h with
  | number _ val => exact val
  | string type' => exact absurd type' type.not_string
  | submessage type' => exact absurd type' (by rw [type.2.2]; exact Bool.false_ne_true)

theorem SameContent.toStr_eq (h : SameContent sch hash (.value f) s1 s2) (type : IsStringType f) :
    s1.toStr = s2.toStr := by
  cases h with
  | number type' => exact absurd type type'.not_string
  | string _ val => exact val
  | submessage type' => exact absurd type' (by rw [type.not_message]; exact Bool.false_ne_true)

theorem SameContent.of_submessage (h : SameContent sch hash (.value f) s1 s2)
    (type : f.field.isSubMessage = true) {t : TableId} (table : f.sub.message = some t) :
    SameContent sch hash (.message t) s1 s2 := by
  cases h with
  | number type' => exact absurd type (by rw [type'.2.2]; exact Bool.false_ne_true)
  | string type' => exact absurd type (by rw [type'.not_message]; exact Bool.false_ne_true)
  | submessage _ table' sub =>
    obtain rfl := Option.some.inj (table.symm.trans table')
    exact sub

theorem SameContent.of_scalar (h : SameContent sch hash (.field f) s1 s2)
    (mode : f.field.mode.fieldMode = .scalar) : SameContent sch hash (.value f) s1 s2 := by
  cases h with
  | scalar _ val => exact val
  | array mode' => exact nomatch mode.symm.trans mode'
  | map mode' => exact nomatch mode.symm.trans mode'

theorem WellFormed.of_scalar (h : WellFormed sch hash (.field f) s)
    (mode : f.field.mode.fieldMode = .scalar) : WellFormed sch hash (.value f) s := by
  cases h with
  | scalar _ val => exact val
  | array mode' => exact nomatch mode.symm.trans mode'
  | map mode' => exact nomatch mode.symm.trans mode'

theorem WellFormed.of_array (h : WellFormed sch hash (.field f) s)
    (mode : f.field.mode.fieldMode = .array) : ∀ v ∈ s.toArray, WellFormed sch hash (.value f) v := by
  cases h with
  | scalar mode' => exact nomatch mode.symm.trans mode'
  | array _ elems => exact elems
  | map mode' => exact nomatch mode.symm.trans mode'

end

/-- The comparison decides equality by content. -/
theorem decides_compareAt (hsame : ∀ s1 s2, same s1 s2 = true → s1 = s2) {place : Place} {s1 : Slot}
    (h1 : WellFormed sch hash place s1) : ∀ {s2 : Slot}, WellFormed sch hash place s2 →
    Decides (fun fuel => compareAt sch hash same S includeUnknownFields fuel place s1 s2)
      (SameContent sch hash place s1 s2) := by
  induction h1 with
  | @message t s1 m1 hs1 unknown1 nodup1 fields1 notMap1 exts1 ihf ihe =>
    intro s2 h2
    have h1 : WellFormed sch hash (.message t) s1 :=
      .message hs1 unknown1 nodup1 fields1 notMap1 exts1
    cases h2 with
    | @message _ _ m2 hs2 unknown2 nodup2 fields2 notMap2 exts2 =>
      have hcall : ∀ fuel,
          compareAt sch hash same S includeUnknownFields (fuel + 1) (.message t) s1 s2 =
            if same s1 s2 then some true
            else
              thenTest (baseFieldsAreEqual sch hash same
                  (isEqualMessage sch hash same S includeUnknownFields fuel) t m1 m2)
                (thenTest (extensionsAreEqual sch hash same
                  (isEqualMessage sch hash same S includeUnknownFields fuel) m1 m2) (some true)) := by
        intro fuel
        show messageIsEqual _ _ _ _ _ _ _ _ _ = _
        rw [messageIsEqual, hs1, hs2]
        simp only [unknownIsEqual_nil S includeUnknownFields unknown1 unknown2]
      refine Decides.succ ?_ hcall
      refine decides_same hsame h1 (Decides.thenTest (decides_baseFields ?_) fun _ =>
        Decides.thenTest (decides_extensions nodup1 nodup2 notMap1 ?_) fun _ =>
          Decides.const (P := True) (iff_of_true rfl trivial)) ?_
      · exact fun i f hf hset1 hset2 => ihf i f hf hset1 (fields2 i f hf hset2)
      · exact fun p hp v2 hget => ihe p hp (exts2 (p.1, v2) (mem_of_lookup hget))
      · constructor
        · rintro ⟨⟨set, fields⟩, ⟨setExts, exts⟩, -⟩
          exact .message hs1 hs2 set fields setExts exts
        · intro h
          cases h with
          | message hs1' hs2' set fields setExts exts =>
            obtain rfl := Option.some.inj (hs1.symm.trans hs1')
            obtain rfl := Option.some.inj (hs2.symm.trans hs2')
            exact ⟨⟨set, fields⟩, ⟨setExts, exts⟩, trivial⟩
  | number type range1 =>
    intro s2 h2
    cases h2 with
    | number _ range2 =>
      refine (Decides.const ?_).of_eq fun fuel => valueIsEqual_number type range1 range2
      rw [beq_iff_eq]
      exact ⟨fun h => .number type h, fun h => h.toBits_eq type⟩
    | string type' => exact absurd type' type.not_string
    | submessage type' => exact absurd type' (by rw [type.2.2]; exact Bool.false_ne_true)
  | string type =>
    intro s2 h2
    refine (Decides.const ?_).of_eq fun fuel => valueIsEqual_string type _ _
    rw [beq_iff_eq]
    exact ⟨fun h => .string type h, fun h => h.toStr_eq type⟩
  | submessage type table sub ih =>
    intro s2 h2
    cases h2 with
    | number type' => exact absurd type (by rw [type'.2.2]; exact Bool.false_ne_true)
    | string type' => exact absurd type (by rw [type'.not_message]; exact Bool.false_ne_true)
    | submessage _ table' sub' =>
      obtain rfl := Option.some.inj (table.symm.trans table')
      refine ((ih sub').congr ⟨fun h => .submessage type table h, fun h => ?_⟩).of_eq fun fuel =>
        valueIsEqual_message type table _ _
      exact h.of_submessage type table
  | scalar mode val ih =>
    intro s2 h2
    refine ((ih (h2.of_scalar mode)).congr ⟨fun h => .scalar mode h, fun h => h.of_scalar mode⟩).of_eq
      fun fuel => ?_
    show contentsAreEqual _ _ _ _ _ _ _ = _
    rw [contentsAreEqual, mode]
    rfl
  | @array f s mode elems ih =>
    intro s2 h2
    refine (decides_array (fun fuel => compareAt sch hash same S includeUnknownFields fuel (.value f))
      hsame mode (.array mode elems) fun v1 hv1 v2 hv2 => ?_).of_eq fun fuel => ?_
    · exact ih v1 hv1 (h2.of_array mode v2 hv2)
    · show contentsAreEqual _ _ _ _ _ _ _ = _
      rw [contentsAreEqual, mode]
      rfl
  | @map f key value entry s _ _ mode hentry hkey hvalue hs inv keys vals ih =>
    intro s2 h2
    obtain ⟨_, _, hs2, -, -, vals2⟩ := h2.map_eq mode hentry hkey hvalue
    refine (decides_map (fun fuel => compareAt sch hash same S includeUnknownFields fuel (.value value))
      hsame mode hentry hkey hvalue (.map mode hentry hkey hvalue hs inv keys vals) h2
      fun k v1 v2 hv1 hv2 => ?_).of_eq fun fuel => ?_
    · exact ih k v1 hv1 (vals2 k v2 hv2)
    · show contentsAreEqual _ _ _ _ _ _ _ = _
      rw [contentsAreEqual, mode]
      simp only [hentry, hvalue]
      rfl

/-- `upb_Message_IsEqual` returns, for well-formed messages of one table, and returns `true` exactly if
the messages have equal contents; so it is symmetric and transitive. -/
theorem isEqualMessage_iff_sameContent (hsame : ∀ s1 s2, same s1 s2 = true → s1 = s2) (t : TableId) :
    (∀ s1 s2, WellFormed sch hash (.message t) s1 → WellFormed sch hash (.message t) s2 →
      ∃ n, ∀ fuel, n ≤ fuel →
        ∃ b, isEqualMessage sch hash same S includeUnknownFields fuel t s1 s2 = some b ∧
          (b = true ↔ SameContent sch hash (.message t) s1 s2)) ∧
    (∀ s1 s2, WellFormed sch hash (.message t) s1 → WellFormed sch hash (.message t) s2 →
      ∃ n, ∀ fuel, n ≤ fuel → isEqualMessage sch hash same S includeUnknownFields fuel t s1 s2 =
        isEqualMessage sch hash same S includeUnknownFields fuel t s2 s1) ∧
    (∀ s1 s2 s3, WellFormed sch hash (.message t) s1 → WellFormed sch hash (.message t) s2 →
      WellFormed sch hash (.message t) s3 → ∃ n, ∀ fuel, n ≤ fuel →
        isEqualMessage sch hash same S includeUnknownFields fuel t s1 s2 = some true →
        isEqualMessage sch hash same S includeUnknownFields fuel t s2 s3 = some true →
        isEqualMessage sch hash same S includeUnknownFields fuel t s1 s3 = some true) := by
  have hdec : ∀ {s1 s2}, WellFormed sch hash (.message t) s1 → WellFormed sch hash (.message t) s2 →
      Decides (fun fuel => isEqualMessage sch hash same S includeUnknownFields fuel t s1 s2)
        (SameContent sch hash (.message t) s1 s2) := fun h1 h2 => decides_compareAt hsame h1 h2
  refine ⟨fun s1 s2 h1 h2 => hdec h1 h2, fun s1 s2 h1 h2 => ?_, fun s1 s2 s3 h1 h2 h3 => ?_⟩
  · have hswap := (hdec h2 h1).congr ⟨SameContent.symm, SameContent.symm⟩
    obtain ⟨n, hn⟩ := (hdec h1 h2).agree hswap
    exact ⟨n, fun fuel hfuel => (hn fuel hfuel).2⟩
  · obtain ⟨n12, hn12⟩ := hdec h1 h2
    obtain ⟨n23, hn23⟩ := hdec h2 h3
    obtain ⟨n13, hn13⟩ := hdec h1 h3
    refine ⟨max n12 (max n23 n13), fun fuel hfuel heq12 heq23 => ?_⟩
    obtain ⟨b12, hb12, hiff12⟩ := hn12 fuel (by omega)
    obtain ⟨b23, hb23, hiff23⟩ := hn23 fuel (by omega)
    obtain ⟨b13, hb13, hiff13⟩ := hn13 fuel (by omega)
    have h12 := hiff12.mp (Option.some.inj (hb12.symm.trans heq12))
    have h23 := hiff23.mp (Option.some.inj (hb23.symm.trans heq23))
    exact hb13.trans (congrArg some (hiff13.mpr (h12.trans h23)))

/-- A schema with no base fields, whose extensions are 32-bit numbers. -/
def numberExtensions : Schema where
  table _ := { fields := [], fieldCount := 0, size := 8, ext := ⟨true, false, false⟩, denseBelow := 0
               requiredCount := 0 }
  sub _ _ := .null
  ext e :=
    { field := { number := e + 1, offset := 0, presence := 0, submsgOfs := noSub
                 descriptortype := .int32
                 mode := { fieldMode := .scalar, isPacked := false, isExtension := true
                           isAlternate := false, rep := .rep4Byte } }
      sub := .null }
  extreg := none

/-- A message with extensions only. -/
def withExtensions (exts : List (ExtId × Slot)) : Slot := .ofMessage { Message.new with exts }

theorem wellFormed_withExtensions (hash : Hashes) {exts : List (ExtId × Slot)}
    (nodup : (exts.map Prod.fst).Nodup) (range : ∀ p ∈ exts, p.2.toBits < 2 ^ 32) :
    WellFormed numberExtensions hash (.message 0) (withExtensions exts) := by
  refine .message (Slot.toMessage_ofMessage _) rfl nodup ?_ (fun _ _ h => nomatch h) fun p hp => ?_
  · exact fun i f hf => absurd hf.1 (Nat.not_lt_zero i)
  · exact .scalar rfl (.number ⟨nofun, nofun, rfl⟩ (range p hp))

/-- Two extensions in either order are equal contents. -/
theorem sameContent_extension_order (hash : Hashes) :
    SameContent numberExtensions hash (.message 0) (withExtensions [(0, .bits 5), (1, .bits 7)])
      (withExtensions [(1, .bits 7), (0, .bits 5)]) := by
  refine .message (Slot.toMessage_ofMessage _) (Slot.toMessage_ofMessage _) ?_ ?_ (fun e => ?_)
    fun e v1 v2 h1 h2 => ?_
  · exact fun i f hf => absurd hf.1 (Nat.not_lt_zero i)
  · exact fun i f hf => absurd hf.1 (Nat.not_lt_zero i)
  · match e with
    | 0 => exact iff_of_false nofun nofun
    | 1 => exact iff_of_false nofun nofun
    | _ + 2 => exact Iff.rfl
  · have hv : v1 = v2 :=
      match e with
      | 0 => Option.some.inj (h1.symm.trans h2)
      | 1 => Option.some.inj (h1.symm.trans h2)
      | _ + 2 => nomatch h1
    rw [hv]
    exact .scalar rfl (.number ⟨nofun, nofun, rfl⟩ rfl)

/-- Two extensions in either order compare equal. -/
theorem isEqualMessage_extension_order :
    ∃ n, ∀ fuel, n ≤ fuel →
      isEqualMessage numberExtensions ⟨fun _ => 0, fun _ => 0⟩ (fun _ _ => false)
        Wire.EpsCopyInputStream.stream false fuel 0
        (withExtensions [(0, .bits 5), (1, .bits 7)]) (withExtensions [(1, .bits 7), (0, .bits 5)]) =
          some true := by
  have hfalse : ∀ s1 s2 : Slot, (fun _ _ => false : Slot → Slot → Bool) s1 s2 = true → s1 = s2 :=
    fun _ _ h => absurd h Bool.false_ne_true
  have h57 : WellFormed numberExtensions ⟨fun _ => 0, fun _ => 0⟩ (.message 0)
      (withExtensions [(0, .bits 5), (1, .bits 7)]) := wellFormed_withExtensions _ (by decide) (by decide)
  have h75 : WellFormed numberExtensions ⟨fun _ => 0, fun _ => 0⟩ (.message 0)
      (withExtensions [(1, .bits 7), (0, .bits 5)]) := wellFormed_withExtensions _ (by decide) (by decide)
  obtain ⟨n, hn⟩ := (isEqualMessage_iff_sameContent hfalse 0).1 _ _ h57 h75
  refine ⟨n, fun fuel hfuel => ?_⟩
  obtain ⟨b, hb, hiff⟩ := hn fuel hfuel
  rw [hb, hiff.mpr (sameContent_extension_order _)]

end Upb.Compare
