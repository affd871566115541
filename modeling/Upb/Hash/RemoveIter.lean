import Upb.Hash.Compact
import Upb.Hash.StrTable

/-!
# Removal at an iterator

`upb_strtable_removeiter` and `upb_inttable_removeiter` erase the entry at an iterator. They look for
the entry before it by scanning the whole array for a pointer to it, which also finds pointers that
were left behind in freed entries, and they erase the head of a chain without moving its successor.
In the array part of an integer table the presence bit is left set. Where none of this happens, the
key at the iterator is erased and nothing else.
-/

namespace Upb

open Upb.Common (MapCmd MapOut)

variable {κ ν ℓ : Type}

namespace Table

variable (ops : KeyOps κ ν ℓ)

/-- The first entry that points to the entry at `i`. -/
def pointerTo (t : Table κ ν) (i : ℕ) : Option ℕ :=
  (List.range t.size).find? fun e => t.next e == some i

/-- `upb_strtable_removeiter`, and the table part of `upb_inttable_removeiter`. -/
def removeiter (t : Table κ ν) (i : ℕ) : Table κ ν :=
  let t := match t.pointerTo i with
    | some prev => t.setNext prev (t.next i)
    | none => t
  { t with count := t.count - 1 }.set i { t.entries i with key := ops.empty, next := none }

/-- The first pointer to the entry at `i` is in an entry in use, or the entry is a chain by itself. -/
def Unlinks (t : Table κ ν) (i : ℕ) : Prop :=
  (∃ prev, t.pointerTo i = some prev ∧ t.isempty ops prev = false) ∨ (t.mainpos ops i = i ∧ t.next i = none)

variable {ops} {keyOf : κ → ν → ℓ} {hash : ℓ → ℕ} {t : Table κ ν} {i : ℕ}

theorem pointerTo_eq_some {prev : ℕ} (h : t.pointerTo i = some prev) :
    prev < t.size ∧ t.next prev = some i := by
  have hmem := List.mem_range.mp (List.mem_of_find?_eq_some h)
  have hnext := List.find?_some h
  exact ⟨hmem, by simpa using hnext⟩

/-- No entry in use points to the head of a chain. -/
theorem next_ne_of_mainpos (hwf : t.Wf ops keyOf) (hself : t.mainpos ops i = i) {prev : ℕ}
    (hprev : t.Occ ops prev) : t.next prev ≠ some i := by
  intro hlink
  obtain ⟨c, hseg, hnodup, hsame, -⟩ := hwf.chained.rest hprev
  obtain ⟨d, rfl, hd⟩ := hseg.exists_cons
  rw [hlink] at hd
  obtain ⟨r, rfl, -⟩ := hd.exists_cons
  have hi := hsame i (by simp)
  obtain ⟨hocc, hmain⟩ := hwf.chained.head prev hprev
  obtain ⟨c, hseg', hnodup', hmem⟩ := hwf.chained.chain _ hocc hmain
  -- `i` is the head of the chain of `prev`, and also stands behind `prev`
  have hhead : t.mainpos ops prev = i := hi.2.symm.trans hself
  obtain ⟨l, r', rfl⟩ := List.append_of_mem ((hmem prev).mpr ⟨hprev, rfl⟩)
  obtain ⟨u, -, hr⟩ := Common.seg_append.mp hseg'
  have htail := hr.2
  rw [hlink] at htail
  obtain ⟨r'', rfl, -⟩ := htail.exists_cons
  cases l with
  | nil =>
    have : prev = i := (Option.some.inj hseg'.head_eq).symm.trans hhead
    subst this
    simp at hnodup'
  | cons b l =>
    have : b = i := (Option.some.inj hseg'.head_eq).symm.trans hhead
    subst this
    simp at hnodup'

/-- The contents of the other entries stay in place. -/
theorem content_removeiter (ops : KeyOps κ ν ℓ) (t : Table κ ν) {i j : ℕ} (hj : j ≠ i) : (t.removeiter ops i).content j = t.content j := by
  rw [content, content, removeiter]
  cases t.pointerTo i with
  | none => simp [hj]
  | some prev =>
    by_cases hjp : j = prev
    · subst hjp
      simp [setNext, hj]
    · simp [setNext, hj, hjp]

theorem removeiter_mask : (t.removeiter ops i).mask = t.mask := by
  rw [removeiter]
  cases t.pointerTo i <;> rfl

theorem removeiter_count : (t.removeiter ops i).count = t.count - 1 := by
  rw [removeiter]
  cases t.pointerTo i <;> rfl

/-- The successors after a removal at the iterator. -/
theorem next_removeiter {j : ℕ} (hj : j ≠ i) :
    (t.removeiter ops i).next j = if t.pointerTo i = some j then t.next i else t.next j := by
  rw [next, removeiter]
  cases h : t.pointerTo i with
  | none => simp [hj, next]
  | some prev =>
    by_cases hjp : j = prev
    · subst hjp
      simp [setNext, hj]
    · simp [setNext, hj, hjp, Ne.symm hjp, next]

/-- A removal at the iterator that unlinks its entry removes exactly the pair there. -/
theorem removeiter_spec (hops : ops.Lawful keyOf hash) (hwf : t.Wf ops keyOf) (hi : t.Occ ops i)
    (hclean : t.Unlinks ops i) :
    Removed ops keyOf t (t.removeiter ops i) (t.keyAt keyOf i) (t.entries i).val := by
  have hmask : (t.removeiter ops i).mask = t.mask := removeiter_mask
  have hsize : (t.removeiter ops i).size = t.size := by rw [size, size, hmask]
  have hempty : (t.removeiter ops i).isempty ops i = true := by
    rw [isempty, removeiter]
    simpa using hops.isempty_empty
  have hsame : ∀ j, j ≠ i → (t.removeiter ops i).isempty ops j = t.isempty ops j := fun j hj =>
    congrArg (fun c : κ × ν => ops.isempty c.1) (content_removeiter ops t hj)
  have hocc : ∀ j, (t.removeiter ops i).Occ ops j ↔ t.Occ ops j ∧ j ≠ i := by
    intro j
    rw [Occ, Occ, hsize]
    by_cases hji : j = i
    · subst hji
      simp [hempty]
    · simp [hsame j hji, hji]
  have hmain : ∀ j, j ≠ i → (t.removeiter ops i).mainpos ops j = t.mainpos ops j := by
    intro j hj
    have h := content_removeiter ops t hj
    rw [content, content, Prod.mk.injEq] at h
    rw [mainpos, mainpos, h.1, h.2, getentry, getentry, hmask]
  have hchain : Common.Chained ((t.removeiter ops i).Occ ops) ((t.removeiter ops i).mainpos ops)
      (t.removeiter ops i).next := by
    rcases hclean with ⟨prev, hprev, hused⟩ | ⟨hself, hnil⟩
    · obtain ⟨hlt, hlink⟩ := pointerTo_eq_some hprev
      have hne : prev ≠ i := by
        -- an entry that follows itself would make its chain endless
        rintro rfl
        obtain ⟨c, hseg, hnodup, -, -⟩ := hwf.chained.rest hi
        obtain ⟨d, rfl, hd⟩ := hseg.exists_cons
        rw [hlink] at hd
        obtain ⟨r, rfl, -⟩ := hd.exists_cons
        simp at hnodup
      refine hwf.chained.unlink ⟨hlt, hused⟩ hlink hocc hmain ?_ ?_
      · rw [next_removeiter hne, if_pos hprev]
      · intro j hj hjp
        rw [next_removeiter hj, if_neg]
        rw [hprev]
        exact fun h => hjp (Option.some.inj h).symm
    · -- only freed entries point to the head of a chain
      have hlone : Common.Chained ((t.removeiter ops i).Occ ops) ((t.removeiter ops i).mainpos ops) t.next :=
        hwf.chained.removeLone hself hi hnil hocc hmain fun _ _ => rfl
      refine hlone.congr fun j hj => ?_
      obtain ⟨hoj, hji⟩ := (hocc j).mp hj
      rw [next_removeiter hji, if_neg]
      intro h
      exact next_ne_of_mainpos hwf hself hoj (pointerTo_eq_some h).2
  have hloses : Loses ops t (t.removeiter ops i) i id := by
    refine ⟨fun j hj => ?_, fun j hj hoj => ⟨j, (hocc j).mpr ⟨hoj, hj⟩, rfl⟩, fun _ _ _ _ h => h⟩
    obtain ⟨hoj, hji⟩ := (hocc j).mp hj
    exact ⟨hoj, hji, content_removeiter ops t hji⟩
  exact .of_loses hwf hmask removeiter_count hchain hloses hi rfl rfl hi hempty hsame

/-- The rest of an iteration is the same after a removal at the iterator. -/
theorem entriesFrom_removeiter (ops : KeyOps κ ν ℓ) (t : Table κ ν) (i fuel : ℕ) {j : ℤ} (hj : i ≤ j) :
    (t.removeiter ops i).entriesFrom ops fuel j = t.entriesFrom ops fuel j := by
  have hsize : (t.removeiter ops i).size = t.size := by rw [size, size, removeiter_mask]
  induction fuel generalizing j with
  | zero => rfl
  | succ fuel ih =>
    have hne : ∀ k ∈ List.range' (j + 1).toNat (t.size - (j + 1).toNat), k ≠ i := by
      intro k hk
      have := (List.mem_range'_1.mp hk).1
      omega
    have hnext : (t.removeiter ops i).nextIndex ops j = t.nextIndex ops j := by
      rw [nextIndex, nextIndex, hsize, ← List.head?_filter, ← List.head?_filter]
      refine congrArg List.head? (List.filter_congr fun k hk => ?_)
      have hcont := content_removeiter ops t (hne k hk)
      rw [isempty, isempty, (Prod.mk.inj hcont).1]
    rw [entriesFrom, entriesFrom, hnext]
    cases hk : t.nextIndex ops j with
    | none => rfl
    | some k =>
      have hmem := List.mem_of_find?_eq_some hk
      have hcont := Prod.mk.inj (content_removeiter ops t (hne k hmem))
      have hik : (i : ℤ) ≤ k := by
        have := (List.mem_range'_1.mp hmem).1
        omega
      simp only [hcont.1, hcont.2]
      rw [ih hik]

/-- An iterator position is an entry in use. -/
theorem occ_of_nextIndex {j : ℤ} (h : t.nextIndex ops j = some i) : t.Occ ops i := by
  have hmem := (List.mem_range'_1.mp (List.mem_of_find?_eq_some h))
  have hused := List.find?_some h
  exact ⟨by omega, by simpa using hused⟩

/-- A full iteration is what comes before a position, the pair at the position, and the rest. -/
theorem iterate_split (hi : t.Occ ops i) :
    ∃ visited, t.iterate ops = visited ++ t.content i :: t.entriesFrom ops t.size i := by
  have hrest := entriesFrom_eq ops t (t.size - (i + 1)) (i + 1) t.size rfl (by omega)
  rw [show ((i + 1 : ℕ) - 1 : ℤ) = (i : ℤ) by omega] at hrest
  have hrange : List.range t.size = List.range i ++ i :: List.range' (i + 1) (t.size - (i + 1)) := by
    have hsplit : List.range' 0 i ++ List.range' (0 + 1 * i) (t.size - i) = _ := List.range'_append
    rw [Nat.add_sub_cancel' (le_of_lt hi.1)] at hsplit
    rw [List.range_eq_range', List.range_eq_range', ← hsplit]
    obtain ⟨n, hn⟩ : ∃ n, t.size - i = n + 1 := ⟨t.size - i - 1, by have := hi.1; omega⟩
    rw [hn, show t.size - (i + 1) = n by omega, List.range'_succ]
    simp
  refine ⟨((List.range i).filter fun i => !t.isempty ops i).map t.content, ?_⟩
  rw [iterate_eq, hrange, hrest, List.filter_append, List.map_append, List.filter_cons]
  simp [hi.2]

end Table

/-- What a removal at the position of the key `l` with the value `v` is to do: every other key stays,
the key is gone, and of the full iteration `pairs` the part behind the position is still to come. -/
structure ErasesAt (lookup lookup' : ℓ → Option ν) (count count' : ℕ) (pairs rest' : List (ℓ × ν))
    (l : ℓ) (v : ν) : Prop where
  others : ∀ k, k ≠ l → lookup' k = lookup k
  gone : lookup' l = none
  count_eq : count' + 1 = count
  rest : ∃ visited, pairs = visited ++ (l, v) :: rest'

variable [Inhabited ν]

namespace StrTable

variable (hash : List UInt8 → ℕ)

/-- `upb_strtable_removeiter`. -/
def removeiter (t : StrTable ν) (iter : ℕ) : StrTable ν := Table.removeiter (ops hash) t iter

/-- The iteration with `upb_strtable_next2` behind a position. -/
def pairsFrom (t : StrTable ν) (iter : ℕ) : List (List UInt8 × ν) :=
  (t.entriesFrom (ops hash) t.size iter).map fun e => (keyOf e.1 e.2, e.2)

/-- The tables that runs reach whose removals at an iterator unlink their entry. -/
inductive Reachable : StrTable ν → Prop where
  | init {n : ℕ} {t : StrTable ν} (h : init hash n = some t) : Reachable t
  | step {t t' : StrTable ν} {c : MapCmd (List UInt8) ν} {o : MapOut (List UInt8) ν} (h : Reachable t)
      (hlegal : Legal hash t c) (hstep : step hash t c = some (o, t')) : Reachable t'
  | removeiter {t : StrTable ν} {j : ℤ} {i : ℕ} (h : Reachable t)
      (hnext : t.nextIndex (ops hash) j = some i) (hclean : t.Unlinks (ops hash) i) :
      Reachable (removeiter hash t i)

variable {hash} {t : StrTable ν}

omit [Inhabited ν] in
theorem removeiter_meets {i : ℕ} (hinv : Inv hash t) (hi : t.Occ (ops hash) i)
    (hclean : t.Unlinks (ops hash) i) : Inv hash (removeiter hash t i) ∧
      ErasesAt (lookup2 hash t) (lookup2 hash (removeiter hash t i)) t.count (removeiter hash t i).count
        (pairs hash t) (pairsFrom hash (removeiter hash t i) i) (t.keyAt keyOf i) (t.entries i).val := by
  have hspec := Table.removeiter_spec ops_lawful hinv hi hclean
  obtain ⟨-, hmap⟩ := hspec.toMap_eq ops_lawful hinv
  have hlookup : lookup2 hash (removeiter hash t i) =
      Function.update (lookup2 hash t) (t.keyAt keyOf i) none := hmap
  refine ⟨hspec.wf, fun k hk => ?_, ?_, hspec.count_eq, ?_⟩
  · rw [hlookup, Function.update_of_ne hk]
  · rw [hlookup, Function.update_self]
  · obtain ⟨visited, hsplit⟩ := Table.iterate_split hi
    have hsize : (removeiter hash t i).size = t.size := congrArg (· + 1) hspec.mask_eq
    refine ⟨visited.map fun e => (keyOf e.1 e.2, e.2), ?_⟩
    rw [pairs, pairsFrom, hsize, removeiter, Table.entriesFrom_removeiter (ops hash) t i _ le_rfl, hsplit,
      List.map_append, List.map_cons]
    rfl

theorem Reachable.inv (h : Reachable hash t) : Inv hash t := by
  induction h with
  | init h => exact (inv_of_init h).1
  | step _ hlegal hstep ih => exact (step_meets _ _ _ _ ih hlegal hstep).1
  | removeiter _ hnext hclean ih => exact (removeiter_meets ih (Table.occ_of_nextIndex hnext) hclean).1

end StrTable

namespace IntTable

variable (hash : ℕ → ℕ)

/-- `upb_inttable_removeiter`; the default value is the sentinel, and the presence mask is not
touched. -/
def removeiter (t : IntTable ν) (iter : ℕ) : IntTable ν :=
  if iter < t.arraySize then
    { t with arrayCount := t.arrayCount - 1, array := Function.update t.array iter default }
  else { t with t := t.t.removeiter (ops hash) (iter - t.arraySize) }

/-- `upb_inttable_count`. -/
def count (t : IntTable ν) : ℕ := t.t.count + t.arrayCount

/-- The position is in the hash part, where its entry is unlinked. -/
def Unlinks (t : IntTable ν) (iter : ℕ) : Prop :=
  t.arraySize ≤ iter ∧ t.t.Unlinks (ops hash) (iter - t.arraySize)

/-- The tables that runs reach whose removals at an iterator unlink their entry. -/
inductive Reachable : IntTable ν → Prop where
  | init {asize n : ℕ} {t : IntTable ν} (h : sizedinit hash asize n = some t) : Reachable t
  | step {t t' : IntTable ν} {c : MapCmd ℕ ν} {o : MapOut ℕ ν} (h : Reachable t)
      (hlegal : Legal hash t c) (hstep : step hash t c = some (o, t')) : Reachable t'
  | removeiter {t : IntTable ν} {j : ℤ} {k i : ℕ} {v : ν} (h : Reachable t)
      (hnext : next hash t j = some (k, v, (i : ℤ))) (hclean : Unlinks hash t i) :
      Reachable (removeiter hash t i)
  | compact {t t' : IntTable ν} {ok : Bool} (h : Reachable t) (hcompact : compact hash t = some (ok, t')) :
      Reachable t'

variable {hash} {t : IntTable ν}

omit [Inhabited ν] in
/-- A position is a present slot of the array part or an entry in use of the hash part. -/
theorem next_eq_some {j i : ℤ} {k : ℕ} {v : ν} (h : next hash t j = some (k, v, i)) :
    (i = k ∧ k < t.arraySize ∧ t.presence k = true ∧ v = t.array k) ∨
      ∃ e : ℕ, i = e + t.arraySize ∧ t.t.Occ (ops hash) e ∧ t.t.content e = (k, v) := by
  rw [next] at h
  simp only at h
  split at h
  · next m hfind =>
    obtain ⟨rfl, rfl, rfl⟩ : m = k ∧ t.array m = v ∧ (m : ℤ) = i := by simpa using h
    have hmem := List.mem_range'_1.mp (List.mem_of_find?_eq_some hfind)
    exact .inl ⟨rfl, by omega, List.find?_some hfind, rfl⟩
  · obtain ⟨e, he, heq⟩ := Option.map_eq_some_iff.mp h
    obtain ⟨hk, hv, hi⟩ : (t.t.entries e).key = k ∧ (t.t.entries e).val = v ∧ (e : ℤ) + t.arraySize = i := by
      simpa using heq
    exact .inr ⟨e, hi.symm, Table.occ_of_nextIndex he, by rw [Table.content, hk, hv]⟩

theorem removeiter_meets {j : ℤ} {k i : ℕ} {v : ν} (hinv : Inv hash t)
    (hnext : next hash t j = some (k, v, (i : ℤ))) (hclean : Unlinks hash t i) :
    Inv hash (removeiter hash t i) ∧
      ErasesAt (lookup hash t) (lookup hash (removeiter hash t i)) t.count (removeiter hash t i).count
        (pairs hash t) (pairsFrom hash (removeiter hash t i) t.t.size i) k v := by
  obtain ⟨hge, hclean⟩ := hclean
  rcases next_eq_some hnext with ⟨hik, hlt, -, -⟩ | ⟨e, hie, hocc, hcontent⟩
  · omega
  have hi : i - t.arraySize = e := by omega
  obtain ⟨hk, hv⟩ := Prod.mk.inj hcontent
  rw [hi] at hclean
  have hspec := Table.removeiter_spec ops_lawful hinv.wf hocc hclean
  have hkey : t.t.keyAt keyOf e = k := hk
  rw [hkey, hv] at hspec
  have heq : removeiter hash t i = { t with t := t.t.removeiter (ops hash) e } := by
    rw [removeiter, if_neg (by omega), hi]
  have hkge : ¬ k < t.arraySize := by
    have := hinv.key_ge e hocc
    omega
  obtain ⟨-, hmap⟩ := hspec.toMap_eq ops_lawful hinv.wf
  have hlookup := lookup_with_table hkge hmap
  rw [heq]
  refine ⟨hinv.with_table hspec.wf (le_of_update hinv hkge hspec.wf hmap), fun l hl => ?_, ?_, ?_, ?_⟩
  · rw [hlookup, Function.update_of_ne hl]
  · rw [hlookup, Function.update_self]
  · have := hspec.count_eq
    simp only [count]
    omega
  · obtain ⟨visited, hsplit⟩ := Table.iterate_split hocc
    refine ⟨((List.range t.arraySize).filter t.presence).map (fun i => (i, t.array i)) ++ visited, ?_⟩
    have hrest := pairsFrom_table hash { t with t := t.t.removeiter (ops hash) e } t.t.size e (by omega)
    rw [show ((t.arraySize : ℤ) + e) = i by omega, Table.entriesFrom_removeiter (ops hash) t.t e _ le_rfl]
      at hrest
    rw [hrest, pairs_eq, hsplit, hcontent, List.append_assoc]

theorem Reachable.inv (h : Reachable hash t) : Inv hash t := by
  induction h with
  | init h => exact (inv_of_sizedinit h).1
  | step _ hlegal hstep ih => exact (step_meets _ _ _ _ ih hlegal hstep).1
  | removeiter _ hnext hclean ih => exact (removeiter_meets ih hnext hclean).1
  | compact _ hcompact ih => exact compact_inv ih hcompact

/-- In the array part the key stays present. -/
theorem lookup_removeiter_array {j : ℤ} {k i : ℕ} {v : ν} (hnext : next hash t j = some (k, v, (i : ℤ)))
    (hi : i < t.arraySize) : lookup hash (removeiter hash t i) k = some default := by
  rcases next_eq_some hnext with ⟨hik, hlt, hpresent, -⟩ | ⟨e, hie, -, -⟩
  · obtain rfl : i = k := by omega
    simp [removeiter, lookup, arrayGet, hi, hpresent]
  · omega

end IntTable

/-- In every run whose removals at an iterator unlink their entry, every command acts on the lookups as
on a finite map, and such a removal erases exactly the key at the iterator. In the array part of an
integer table a removal at the iterator never erases its key. -/
theorem removeiter_erases (strhash : List UInt8 → ℕ) (inthash : ℕ → ℕ) :
    (∀ t : StrTable ν, StrTable.Reachable strhash t →
      (∀ c o t', StrTable.Legal strhash t c → StrTable.step strhash t c = some (o, t') →
        c.Meets (StrTable.lookup2 strhash t) o (StrTable.lookup2 strhash t')) ∧
      ∀ j i, t.nextIndex (StrTable.ops strhash) j = some i → t.Unlinks (StrTable.ops strhash) i →
        ErasesAt (StrTable.lookup2 strhash t) (StrTable.lookup2 strhash (StrTable.removeiter strhash t i))
          t.count (StrTable.removeiter strhash t i).count (StrTable.pairs strhash t)
          (StrTable.pairsFrom strhash (StrTable.removeiter strhash t i) i)
          (t.keyAt StrTable.keyOf i) (t.entries i).val) ∧
    ∀ t : IntTable ν, IntTable.Reachable inthash t →
      (∀ c o t', IntTable.Legal inthash t c → IntTable.step inthash t c = some (o, t') →
        c.Meets (IntTable.lookup inthash t) o (IntTable.lookup inthash t')) ∧
      ∀ j k v (i : ℕ), IntTable.next inthash t j = some (k, v, (i : ℤ)) →
        (IntTable.Unlinks inthash t i →
          ErasesAt (IntTable.lookup inthash t) (IntTable.lookup inthash (IntTable.removeiter inthash t i))
            t.count (IntTable.removeiter inthash t i).count (IntTable.pairs inthash t)
            (IntTable.pairsFrom inthash (IntTable.removeiter inthash t i) t.t.size i) k v) ∧
        (i < t.arraySize → IntTable.lookup inthash (IntTable.removeiter inthash t i) k ≠ none) := by
  refine ⟨fun t ht => ⟨?_, ?_⟩, fun t ht => ⟨?_, ?_⟩⟩
  · intro c o t' hlegal hstep
    exact (StrTable.step_meets t c o t' ht.inv hlegal hstep).2
  · intro j i hnext hclean
    exact (StrTable.removeiter_meets ht.inv (Table.occ_of_nextIndex hnext) hclean).2
  · intro c o t' hlegal hstep
    exact (IntTable.step_meets t c o t' ht.inv hlegal hstep).2
  · intro j k v i hnext
    refine ⟨fun hclean => (IntTable.removeiter_meets ht.inv hnext hclean).2, fun hi => ?_⟩
    rw [IntTable.lookup_removeiter_array hnext hi]
    exact Option.some_ne_none _

/-- Two keys with one hash: erasing the first at the iterator loses the second. In the array part of an
integer table the erased key is still found. -/
theorem removeiter_loses_chain :
    (∃ t : StrTable ℕ, (∃ t₀ t₁ o₁ o₂, StrTable.init (fun _ => 0) 4 = some t₀ ∧
        StrTable.Legal (fun _ => 0) t₀ (.insert [97] 1) ∧
        StrTable.step (fun _ => 0) t₀ (.insert [97] 1) = some (o₁, t₁) ∧
        StrTable.Legal (fun _ => 0) t₁ (.insert [98] 2) ∧
        StrTable.step (fun _ => 0) t₁ (.insert [98] 2) = some (o₂, t)) ∧
      t.nextIndex (StrTable.ops fun _ => 0) (-1) = some 0 ∧ t.keyAt StrTable.keyOf 0 = [97] ∧
      StrTable.lookup2 (fun _ => 0) t [98] = some 2 ∧
      StrTable.lookup2 (fun _ => 0) (StrTable.removeiter (fun _ => 0) t 0) [98] = none) ∧
    ∃ t₀ t : IntTable ℕ, ∃ o, IntTable.init (fun _ => 0) = some t₀ ∧
      IntTable.Legal (fun _ => 0) t₀ (.insert 0 7) ∧
      IntTable.step (fun _ => 0) t₀ (.insert 0 7) = some (o, t) ∧
      IntTable.next (fun _ => 0) t (-1) = some (0, 7, 0) ∧
      IntTable.lookup (fun _ => 0) (IntTable.removeiter (fun _ => 0) t 0) 0 ≠ none := by
  constructor
  · refine ⟨_, ⟨_, _, _, _, rfl, ?_, rfl, ?_, rfl⟩, ?_, ?_, ?_, ?_⟩ <;> rfl
  · refine ⟨_, _, _, rfl, ?_, rfl, ?_, ?_⟩
    · rfl
    · rfl
    · decide +kernel

end Upb
