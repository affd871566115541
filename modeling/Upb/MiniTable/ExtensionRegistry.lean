import Upb.Hash.Allocation
import Upb.MiniTable.Schema

/-!
# Registries of extensions

`upb_ExtensionRegistry` over the extension table. An array of extensions is added one after the other;
when one of them cannot be added, those before it are removed again by their keys. Whatever the hash
function and the allocator do, the registry then finds what it found before.
-/

namespace Upb

/-- The extensions of a program and the tables that they extend; every extension extends a table. -/
structure Extensions where
  /-- `upb_MiniTableExtension_Number`. -/
  number : ExtId → ℕ
  /-- `upb_MiniTableExtension_Extendee`. -/
  extendee : ExtId → TableId
  table : TableId → MiniTable
  extendee_ne_zero : ∀ e, extendee e ≠ 0

/-- The key of an extension. -/
def Extensions.key (x : Extensions) (e : ExtId) : TableId × ℕ := (x.extendee e, x.number e)

/-- `upb_ExtensionRegistryStatus`. -/
inductive ExtensionRegistryStatus where
  | ok
  | duplicateEntry
  | outOfMemory
  | invalidExtension
  deriving DecidableEq

/-- `upb_ExtensionRegistry`. -/
structure ExtensionRegistry where
  exts : ExtTable ExtId

namespace ExtensionRegistry

/-- `kMaxFieldNumber`. -/
def maxFieldNumber : ℕ := 2 ^ 29 - 1

variable (x : Extensions) (hash : TableId × ℕ → ℕ)

/-- `upb_ExtensionRegistry_New`, after the allocation of the registry itself. -/
def new (mem : Memory) : Option ExtensionRegistry × Memory :=
  let (exts, mem) := ExtTable.initIn x.number hash 8 mem
  (exts.map mk, mem)

/-- `upb_ExtensionRegistry_Lookup`. -/
def lookup (r : ExtensionRegistry) (t : TableId) (num : ℕ) : Option ExtId :=
  ExtTable.lookup x.number hash r.exts (t, num)

/-- `upb_ExtensionRegistry_Size`. -/
def size (r : ExtensionRegistry) : ℕ := r.exts.count

/-- `upb_ExtensionRegistry_Add`. -/
def add (r : ExtensionRegistry) (e : ExtId) (mem : Memory) :
    Option ((ExtensionRegistryStatus × ExtensionRegistry) × Memory) :=
  let fieldnum := x.number e
  let extendee := x.extendee e
  if fieldnum = 0 ∨ (maxFieldNumber < fieldnum ∧ (x.table extendee).ext.isMessageSet = false) then
    some ((.invalidExtension, r), mem)
  else if (lookup x hash r extendee fieldnum).isSome then some ((.duplicateEntry, r), mem)
  else
    (ExtTable.insertIn x.number hash r.exts extendee e mem).map fun ((inserted, exts), mem) =>
      ((if inserted then .ok else .outOfMemory, ⟨exts⟩), mem)

/-- The loop of `upb_ExtensionRegistry_AddArray`: the status, the number of extensions added, and the
registry. -/
def addLoop : ExtensionRegistry → List ExtId → ℕ → Memory →
    Option ((ExtensionRegistryStatus × ℕ × ExtensionRegistry) × Memory)
  | r, [], i, mem => some ((.ok, i, r), mem)
  | r, e :: es, i, mem =>
    (add x hash r e mem).bind fun ((status, r), mem) =>
      if status = .ok then addLoop r es (i + 1) mem else some ((status, i, r), mem)

/-- `upb_exttable_remove` of the key of an extension, whose result is not used. -/
def remove (r : ExtensionRegistry) (e : ExtId) : ExtensionRegistry :=
  match ExtTable.remove x.number hash r.exts (x.extendee e, x.number e) with
  | some (_, exts) => ⟨exts⟩
  | none => r

/-- `upb_ExtensionRegistry_AddArray`. -/
def addArray (r : ExtensionRegistry) (es : List ExtId) (mem : Memory) :
    Option ((ExtensionRegistryStatus × ExtensionRegistry) × Memory) :=
  (addLoop x hash r es 0 mem).map fun ((status, i, r), mem) =>
    if status = .ok then ((.ok, r), mem)
    -- back out the entries previously added
    else ((status, (es.take i).foldl (remove x hash) r), mem)

/-- The registries that a program can have. -/
inductive Reachable : ExtensionRegistry → Prop
  | new {r mem mem'} (h : new x hash mem = (some r, mem')) : Reachable r
  | add {r e mem status r' mem'} (hr : Reachable r)
    (h : add x hash r e mem = some ((status, r'), mem')) : Reachable r'
  | addArray {r es mem status r' mem'} (hr : Reachable r)
    (h : addArray x hash r es mem = some ((status, r'), mem')) : Reachable r'

/-- The table of the registry is well formed and within its load factor. -/
structure Valid (r : ExtensionRegistry) : Prop where
  inv : ExtTable.Inv x.number hash r.exts
  loaded : r.exts.Loaded

/-- The registry `r'` finds what `r` finds and the extensions `es`, whose keys are new and distinct. -/
structure Added (r r' : ExtensionRegistry) (es : List ExtId) : Prop where
  new : ∀ e ∈ es, lookup x hash r (x.extendee e) (x.number e) = none
  nodup : (es.map x.key).Nodup
  lookup_iff : ∀ t num e, lookup x hash r' t num = some e ↔
    lookup x hash r t num = some e ∨ e ∈ es ∧ x.key e = (t, num)
  size_eq : r'.size = r.size + es.length

/-- Both registries find the same extensions, and are of the same size. -/
structure Unchanged (r r' : ExtensionRegistry) : Prop where
  lookup_eq : ∀ t num, lookup x hash r' t num = lookup x hash r t num
  size_eq : r'.size = r.size

variable {x hash} {r r' : ExtensionRegistry}

theorem Unchanged.refl (r : ExtensionRegistry) : Unchanged x hash r r := ⟨fun _ _ => rfl, rfl⟩

/-- A new registry is valid. -/
theorem valid_of_new {mem mem' : Memory} (h : new x hash mem = (some r, mem')) : Valid x hash r := by
  obtain ⟨hexts, -⟩ := Prod.mk.inj h
  obtain ⟨exts, hinit, rfl⟩ := Option.map_eq_some_iff.mp hexts
  have hinit : ExtTable.initIn x.number hash 8 mem = (some exts, _) := Prod.ext hinit rfl
  obtain ⟨hinv, hload⟩ := ExtTable.initIn_spec hinit
  exact ⟨hinv, hload⟩

/-- Nothing is added by the empty list. -/
theorem Added.nil (r : ExtensionRegistry) : Added x hash r r [] where
  new e he := by cases he
  nodup := List.nodup_nil
  lookup_iff t num e := by simp
  size_eq := rfl

/-- An extension with a new key is added to the table. -/
theorem Added.one {e : ExtId} (hnew : lookup x hash r (x.extendee e) (x.number e) = none)
    (hlookup : ExtTable.lookup x.number hash r'.exts =
      Function.update (ExtTable.lookup x.number hash r.exts) (x.key e) (some e))
    (hcount : r'.exts.count = r.exts.count + 1) : Added x hash r r' [e] where
  new e' he' := by rwa [List.mem_singleton.mp he']
  nodup := List.nodup_singleton _
  lookup_iff t num e' := by
    rw [lookup, hlookup, Function.update_apply, lookup]
    by_cases hkey : (t, num) = x.key e
    · have hnone : ExtTable.lookup x.number hash r.exts (t, num) = none := by rw [hkey]; exact hnew
      rw [if_pos hkey, hnone]
      constructor
      · rintro heq
        cases heq
        exact .inr ⟨List.mem_singleton_self e, hkey.symm⟩
      · rintro (h | ⟨he', -⟩)
        · cases h
        · rw [List.mem_singleton.mp he']
    · rw [if_neg hkey]
      constructor
      · exact .inl
      · rintro (h | ⟨he', hkey'⟩)
        · exact h
        · rw [List.mem_singleton.mp he'] at hkey'
          exact absurd hkey'.symm hkey
  size_eq := hcount

/-- What is added after something else was added. -/
theorem Added.cons {r₁ : ExtensionRegistry} {e : ExtId} {es : List ExtId} (h₁ : Added x hash r r₁ [e])
    (h : Added x hash r₁ r' es) : Added x hash r r' (e :: es) := by
  have hold : ∀ t num, lookup x hash r₁ t num = none →
      lookup x hash r t num = none ∧ x.key e ≠ (t, num) := by
    intro t num hnone
    constructor
    · rw [Option.eq_none_iff_forall_ne_some]
      intro e' he'
      rw [(h₁.lookup_iff t num e').mpr (.inl he')] at hnone
      cases hnone
    · intro hkey
      rw [(h₁.lookup_iff t num e).mpr (.inr ⟨List.mem_singleton_self e, hkey⟩)] at hnone
      cases hnone
  refine ⟨?_, ?_, ?_, ?_⟩
  · intro e' he'
    rcases List.mem_cons.mp he' with rfl | he'
    · exact h₁.new _ (List.mem_singleton_self _)
    · exact (hold _ _ (h.new e' he')).1
  · rw [List.map_cons, List.nodup_cons]
    refine ⟨fun hmem => ?_, h.nodup⟩
    obtain ⟨e', he', hkey⟩ := List.mem_map.mp hmem
    exact (hold _ _ (h.new e' he')).2 hkey.symm
  · intro t num e'
    rw [h.lookup_iff, h₁.lookup_iff, or_assoc, ← or_and_right, List.mem_singleton, List.mem_cons]
  · rw [h.size_eq, h₁.size_eq, List.length_singleton, List.length_cons]
    omega

/-- Adding one extension. -/
theorem add_spec (hr : Valid x hash r) (e : ExtId) (mem : Memory) :
    ∃ status r' mem', add x hash r e mem = some ((status, r'), mem') ∧ Valid x hash r' ∧
      if status = .ok then Added x hash r r' [e] else Unchanged x hash r r' := by
  rw [add]
  dsimp only
  split
  · exact ⟨.invalidExtension, r, mem, rfl, hr, .refl r⟩
  · next hvalid =>
    have hnumber : x.number e ≠ 0 := fun h => hvalid (.inl h)
    split
    · exact ⟨.duplicateEntry, r, mem, rfl, hr, .refl r⟩
    · next hnone =>
      have hnew : lookup x hash r (x.extendee e) (x.number e) = none := by simpa using hnone
      obtain ⟨inserted, exts, mem', hins, hinv, hload, hspec⟩ := ExtTable.insertIn_spec hr.inv hr.loaded
        (x.extendee_ne_zero e) hnumber hnew mem
      rw [hins]
      cases inserted with
      | false => exact ⟨.outOfMemory, ⟨exts⟩, mem', rfl, ⟨hinv, hload⟩,
          fun t num => congrFun hspec.1 (t, num), hspec.2⟩
      | true => exact ⟨.ok, ⟨exts⟩, mem', rfl, ⟨hinv, hload⟩, Added.one hnew hspec.1 hspec.2⟩

/-- The loop adds a prefix of the list, and all of it exactly if it ends well. -/
theorem addLoop_spec (hr : Valid x hash r) (es : List ExtId) (i : ℕ) (mem : Memory) :
    ∃ status n r' mem', addLoop x hash r es i mem = some ((status, i + n, r'), mem') ∧
      Valid x hash r' ∧ (status = .ok → n = es.length) ∧
      ∃ r₁, Added x hash r r₁ (es.take n) ∧ Unchanged x hash r₁ r' := by
  induction es generalizing r i mem with
  | nil => exact ⟨.ok, 0, r, mem, rfl, hr, fun _ => rfl, r, .nil r, .refl r⟩
  | cons e es ih =>
    obtain ⟨status, r₁, mem₁, hadd, hr₁, hspec⟩ := add_spec hr e mem
    rw [addLoop, hadd, Option.bind_some]
    by_cases hok : status = .ok
    · subst hok
      obtain ⟨status, n, r', mem', hloop, hr', hall, r₂, hadded, hsame⟩ := ih hr₁ (i + 1) mem₁
      refine ⟨status, n + 1, r', mem', ?_, hr', fun h => congrArg (· + 1) (hall h), r₂, ?_, hsame⟩
      · rw [show i + (n + 1) = i + 1 + n by omega]
        exact hloop
      · exact Added.cons hspec hadded
    · refine ⟨status, 0, r₁, mem₁, if_neg hok, hr₁, fun h => absurd h hok, r, .nil r, ?_⟩
      rwa [if_neg hok] at hspec

/-- Removing an extension that was added leaves the others. -/
theorem remove_spec (hr' : Valid x hash r') {e : ExtId} {es : List ExtId}
    (h : Added x hash r r' (e :: es)) :
    Valid x hash (remove x hash r' e) ∧ Added x hash r (remove x hash r' e) es := by
  have hspec := ExtTable.remove_spec hr'.inv hr'.loaded (x.key e)
  have hin : lookup x hash r' (x.extendee e) (x.number e) = some e :=
    (h.lookup_iff _ _ e).mpr (.inr ⟨List.mem_cons_self, rfl⟩)
  obtain ⟨hkey, hnodup⟩ := List.nodup_cons.mp h.nodup
  cases hrm : ExtTable.remove x.number hash r'.exts (x.key e) with
  | none =>
    rw [hrm] at hspec
    cases hin.symm.trans hspec
  | some v =>
    obtain ⟨v, exts⟩ := v
    rw [hrm] at hspec
    obtain ⟨hinv, hload, hcount, hmap⟩ := hspec
    have hremove : remove x hash r' e = ⟨exts⟩ := by rw [remove, show ExtTable.remove x.number hash
      r'.exts (x.extendee e, x.number e) = some (v, exts) from hrm]
    rw [hremove]
    refine ⟨⟨hinv, hload⟩, fun e' he' => h.new e' (List.mem_cons_of_mem _ he'), hnodup, ?_, ?_⟩
    · intro t num e'
      rw [lookup, hmap, Function.update_apply]
      by_cases hl : (t, num) = x.key e
      · have hnone : lookup x hash r t num = none := by
          obtain ⟨rfl, rfl⟩ := Prod.mk.inj hl
          exact h.new e List.mem_cons_self
        rw [if_pos hl, hnone]
        constructor
        · rintro ⟨⟩
        · rintro (heq | ⟨he', hkey'⟩)
          · cases heq
          · exact absurd (List.mem_map.mpr ⟨e', he', hkey'.trans hl⟩) hkey
      · rw [if_neg hl]
        refine (h.lookup_iff t num e').trans (or_congr Iff.rfl ?_)
        rw [List.mem_cons]
        constructor
        · rintro ⟨rfl | he', hkey'⟩
          · exact absurd hkey'.symm hl
          · exact ⟨he', hkey'⟩
        · rintro ⟨he', hkey'⟩
          exact ⟨.inr he', hkey'⟩
    · have hsize : r'.size = r.size + (es.length + 1) := h.size_eq
      change exts.count + 1 = r'.size at hcount
      change exts.count = r.size + es.length
      omega

/-- Backing out what was added leads back to what the registry found before. -/
theorem backOut_spec (hr' : Valid x hash r') {es : List ExtId} (h : Added x hash r r' es) :
    Valid x hash (es.foldl (remove x hash) r') ∧ Unchanged x hash r (es.foldl (remove x hash) r') := by
  induction es generalizing r' with
  | nil =>
    refine ⟨hr', fun t num => ?_, h.size_eq⟩
    ext e
    simpa using h.lookup_iff t num e
  | cons e es ih =>
    obtain ⟨hvalid, hadded⟩ := remove_spec hr' h
    exact ih hvalid hadded

/-- Extensions added to a registry are added to every registry that finds the same. -/
theorem Added.of_unchanged {r₁ : ExtensionRegistry} {es : List ExtId} (h : Added x hash r r₁ es)
    (hsame : Unchanged x hash r₁ r') : Added x hash r r' es where
  new := h.new
  nodup := h.nodup
  lookup_iff t num e := by rw [hsame.lookup_eq, h.lookup_iff]
  size_eq := hsame.size_eq.trans h.size_eq

/-- Adding an array to a valid registry. -/
theorem addArray_spec (hr : Valid x hash r) (es : List ExtId) (mem : Memory) :
    ∃ status r' mem', addArray x hash r es mem = some ((status, r'), mem') ∧ Valid x hash r' ∧
      if status = .ok then Added x hash r r' es else Unchanged x hash r r' := by
  obtain ⟨status, n, r', mem', hloop, hr', hall, r₁, hadded, hsame⟩ := addLoop_spec hr es 0 mem
  have hadded := hadded.of_unchanged hsame
  rw [addArray, hloop, Option.map_some, Nat.zero_add]
  by_cases hok : status = .ok
  · rw [hall hok, List.take_length] at hadded
    exact ⟨.ok, r', mem', congrArg some (if_pos hok), hr', hadded⟩
  · obtain ⟨hvalid, hback⟩ := backOut_spec hr' hadded
    exact ⟨status, _, mem', congrArg some (if_neg hok), hvalid, by rwa [if_neg hok]⟩

/-- Every registry of a program is valid. -/
theorem Reachable.valid (h : Reachable x hash r) : Valid x hash r := by
  induction h with
  | new h => exact valid_of_new h
  | add _ h ih =>
    obtain ⟨status, r', mem', hadd, hr', -⟩ := add_spec ih _ _
    rw [hadd] at h
    cases h
    exact hr'
  | addArray _ h ih =>
    obtain ⟨status, r', mem', hadd, hr', -⟩ := addArray_spec ih _ _
    rw [hadd] at h
    cases h
    exact hr'

/-- An array of extensions is added as a whole or not at all. -/
theorem addArray_allOrNothing (x : Extensions) (hash : TableId × ℕ → ℕ) {r : ExtensionRegistry}
    (hr : Reachable x hash r) (es : List ExtId) (mem : Memory) :
    ∃ status r' mem', addArray x hash r es mem = some ((status, r'), mem') ∧
      if status = .ok then Added x hash r r' es else Unchanged x hash r r' := by
  obtain ⟨status, r', mem', hadd, -, hspec⟩ := addArray_spec hr.valid es mem
  exact ⟨status, r', mem', hadd, hspec⟩

/-- Extensions of one table, two of which have the same number. -/
def someExtensions : Extensions where
  number e := if e = 3 then 1 else e
  extendee _ := 7
  table _ := ⟨[], 0, 8, ⟨true, false, false⟩, 0, 0⟩
  extendee_ne_zero _ := by decide

/-- A hash with many collisions. -/
def someHash (l : TableId × ℕ) : ℕ := l.2 % 2

/-- A new registry. -/
def someRegistry : ExtensionRegistry := ⟨Table.zeroed (ExtTable.ops someExtensions.number someHash), 0, 15⟩

theorem addArray_allOrNothing_duplicate :
    ∃ status r' mem', addArray someExtensions someHash someRegistry [2, 1, 3] (Stream'.const true) =
      some ((status, r'), mem') ∧
      if status = .ok then Added someExtensions someHash someRegistry r' [2, 1, 3]
      else Unchanged someExtensions someHash someRegistry r' :=
  addArray_allOrNothing someExtensions someHash
    (.new (show new someExtensions someHash (Stream'.const true) =
      (some someRegistry, (Stream'.const true).tail) from rfl)) [2, 1, 3] (Stream'.const true)

end ExtensionRegistry

end Upb
