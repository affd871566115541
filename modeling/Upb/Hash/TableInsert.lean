import Upb.Hash.TableUpdate

/-!
# Insertion into the base hash table

An insertion either takes a free main position, threads a new entry behind the head of its chain, or
evicts a foreign entry from its main position. In each case the invariant is kept and exactly the
new pair is added; a free entry is all the insertion needs.
-/

namespace Upb

namespace Table

variable {κ ν ℓ : Type} {ops : KeyOps κ ν ℓ} {keyOf : κ → ν → ℓ} {hash : ℓ → ℕ} {t t' : Table κ ν}
  {k : κ} {v : ν}

/-- `emptyent` returns a free entry. -/
theorem isempty_of_emptyent {e q : ℕ} (h : t.emptyent ops e = some q) :
    q < t.size ∧ t.isempty ops q = true := by
  refine ⟨?_, List.find?_some h⟩
  have hmem := List.mem_of_find?_eq_some h
  simp only [List.mem_append, List.mem_range', List.mem_range] at hmem
  omega

/-- `emptyent` finds a free entry if there is one. -/
theorem emptyent_isSome {e q : ℕ} (hq : q < t.size) (hempty : t.isempty ops q = true) :
    (t.emptyent ops e).isSome := by
  rw [emptyent, List.find?_isSome]
  exact ⟨q, List.mem_append_right _ (List.mem_range.mpr hq), hempty⟩

/-- What an insertion must establish besides the chains: one fresh entry `q` is in use and the
contents are those before with the new one. -/
theorem Wf.of_gains (hwf : t.Wf ops keyOf) {a q : ℕ} {r : ℕ → ℕ} (hmask : t'.mask = t.mask)
    (hcount : t'.count = t.count + 1)
    (hchain : Common.Chained (t'.Occ ops) (t'.mainpos ops) t'.next)
    (hgains : Gains ops t t' a r (k, v)) (hnew : ∀ w, ¬ t.Stored ops keyOf (keyOf k v) w)
    (hq : q < t.size) (hempty : t.isempty ops q = true) (hused : t'.isempty ops q = false)
    (hsame : ∀ i, i ≠ q → t'.isempty ops i = t.isempty ops i) : t'.Wf ops keyOf where
  mask_eq := hmask ▸ hwf.mask_eq
  chained := hchain
  keys := hgains.keys hwf.keys hnew
  count_eq := by
    have hsize : t'.size = t.size := by rw [size, size, hmask]
    rw [hcount, hwf.count_eq, hsize]
    exact (countP_range_add_one hq (by simp [hempty]) (by simp [hused])
      (fun i hi => by rw [hsame i hi])).symm

/-- The effect of an insertion of the pair `(k, v)`. -/
structure Inserted (ops : KeyOps κ ν ℓ) (keyOf : κ → ν → ℓ) (t t' : Table κ ν) (k : κ) (v : ν) :
    Prop where
  mask_eq : t'.mask = t.mask
  count_eq : t'.count = t.count + 1
  wf : t'.Wf ops keyOf
  stored_iff : ∀ l w, t'.Stored ops keyOf l w ↔
    (l = keyOf k v ∧ w = v) ∨ t.Stored ops keyOf l w

section Cases

variable (hops : ops.Lawful keyOf hash) (hwf : t.Wf ops keyOf) (hk : ops.isempty k = false)
  (hnew : ∀ w, ¬ t.Stored ops keyOf (keyOf k v) w)

include hops hwf hk hnew

/-- The main position is free. -/
private theorem insert_free (hempty : t.isempty ops (t.getentry (hash (keyOf k v))) = true)
    (hmask : t'.mask = t.mask) (hcount : t'.count = t.count + 1)
    (hent : ∀ i, t'.entries i =
      if i = t.getentry (hash (keyOf k v)) then ⟨v, k, none⟩ else t.entries i) :
    Inserted ops keyOf t t' k v := by
  set p := t.getentry (hash (keyOf k v)) with hp
  have hsize : t'.size = t.size := by rw [size, size, hmask]
  have hpe : t'.entries p = ⟨v, k, none⟩ := by rw [hent, if_pos rfl]
  have hne : ∀ i, i ≠ p → t'.entries i = t.entries i := fun i hi => by rw [hent, if_neg hi]
  have hlt : p < t.size := getentry_lt t _
  have hused : t'.isempty ops p = false := by rw [isempty, hpe]; exact hk
  have hsame : ∀ i, i ≠ p → t'.isempty ops i = t.isempty ops i := fun i hi => by
    rw [isempty, isempty, hne i hi]
  have hocc : ∀ i, t'.Occ ops i ↔ t.Occ ops i ∨ i = p := by
    intro i
    rw [Occ, Occ, hsize]
    by_cases hip : i = p
    · subst hip; simp [hlt, hused]
    · simp [hsame i hip, hip]
  have hchain : Common.Chained (t'.Occ ops) (t'.mainpos ops) t'.next := by
    refine hwf.chained.insertHead (p := p) (fun h => by simp [h.2] at hempty) hocc ?_ ?_ ?_ ?_
    · rw [mainpos, hpe, getentry, hmask, hops.hashfunc_eq k v hk]; rfl
    · intro i hi; rw [mainpos, mainpos, hne i hi, getentry, getentry, hmask]
    · rw [next, hpe]
    · intro i hi; rw [next, next, hne i hi]
  have hgains : Gains ops t t' p id (k, v) := by
    refine ⟨(hocc p).mpr (.inr rfl), by rw [content, hpe], ?_, ?_, fun _ _ _ _ h => h⟩
    · intro i hi hoi
      exact ⟨((hocc i).mp hoi).resolve_right hi, by rw [id, content, content, hne i hi]⟩
    · intro j hj
      exact ⟨j, fun h => by simp [← h, hj.2] at hempty, (hocc j).mpr (.inl hj), rfl⟩
  exact ⟨hmask, hcount, hwf.of_gains hmask hcount hchain hgains hnew hlt hempty hused hsame,
    fun l w => hgains.stored_iff⟩

/-- The main position holds the head of our chain. -/
private theorem insert_behind {q : ℕ} (hq : q < t.size) (hqempty : t.isempty ops q = true)
    (hused : t.isempty ops (t.getentry (hash (keyOf k v))) = false)
    (hself : t.mainpos ops (t.getentry (hash (keyOf k v))) = t.getentry (hash (keyOf k v)))
    (hmask : t'.mask = t.mask) (hcount : t'.count = t.count + 1)
    (hent : ∀ i, t'.entries i =
      if i = q then ⟨v, k, t.next (t.getentry (hash (keyOf k v)))⟩
      else if i = t.getentry (hash (keyOf k v)) then { t.entries i with next := some q }
      else t.entries i) :
    Inserted ops keyOf t t' k v := by
  set p := t.getentry (hash (keyOf k v)) with hp
  have hsize : t'.size = t.size := by rw [size, size, hmask]
  have hpq : p ≠ q := fun h => by rw [h, hqempty] at hused; cases hused
  have hqe : t'.entries q = ⟨v, k, t.next p⟩ := by rw [hent, if_pos rfl]
  have hpe : t'.entries p = { t.entries p with next := some q } := by
    rw [hent, if_neg hpq, if_pos rfl]
  have hne : ∀ i, i ≠ q → i ≠ p → t'.entries i = t.entries i := fun i hi hi' => by
    rw [hent, if_neg hi, if_neg hi']
  have hcont : ∀ i, i ≠ q → t'.content i = t.content i := by
    intro i hi
    by_cases hip : i = p
    · subst hip; rw [content, content, hpe]
    · rw [content, content, hne i hi hip]
  have husedq : t'.isempty ops q = false := by rw [isempty, hqe]; exact hk
  have hsame : ∀ i, i ≠ q → t'.isempty ops i = t.isempty ops i := fun i hi =>
    congrArg (fun c : κ × ν => ops.isempty c.1) (hcont i hi)
  have hocc : ∀ i, t'.Occ ops i ↔ t.Occ ops i ∨ i = q := by
    intro i
    rw [Occ, Occ, hsize]
    by_cases hiq : i = q
    · subst hiq; simp [hq, husedq]
    · simp [hsame i hiq, hiq]
  have hoccp : t.Occ ops p := ⟨getentry_lt t _, hused⟩
  have hchain : Common.Chained (t'.Occ ops) (t'.mainpos ops) t'.next := by
    refine hwf.chained.insertAfter (q := q) hoccp hself (fun h => by simp [h.2] at hqempty) hocc
      ?_ ?_ ?_ ?_ ?_
    · rw [mainpos, hqe, getentry, hmask, hops.hashfunc_eq k v hk]; rfl
    · intro i hi
      have h := hcont i hi
      rw [content, content, Prod.mk.injEq] at h
      rw [mainpos, mainpos, h.1, h.2, getentry, getentry, hmask]
    · rw [next, hpe]
    · rw [next, hqe]
    · intro i hip hiq; rw [next, next, hne i hiq hip]
  have hgains : Gains ops t t' q id (k, v) := by
    refine ⟨(hocc q).mpr (.inr rfl), by rw [content, hqe], ?_, ?_, fun _ _ _ _ h => h⟩
    · intro i hi hoi
      exact ⟨((hocc i).mp hoi).resolve_right hi, hcont i hi⟩
    · intro j hj
      exact ⟨j, fun h => by simp [← h, hj.2] at hqempty, (hocc j).mpr (.inl hj), rfl⟩
  exact ⟨hmask, hcount, hwf.of_gains hmask hcount hchain hgains hnew hq hqempty husedq hsame,
    fun l w => hgains.stored_iff⟩

/-- The main position holds an entry of another chain, whose predecessor is `prev`. -/
private theorem insert_evict {q prev : ℕ} (hq : q < t.size) (hqempty : t.isempty ops q = true)
    (hused : t.isempty ops (t.getentry (hash (keyOf k v))) = false)
    (hfor : t.mainpos ops (t.getentry (hash (keyOf k v))) ≠ t.getentry (hash (keyOf k v)))
    (hprev : t.Occ ops prev) (hlink : t.next prev = some (t.getentry (hash (keyOf k v))))
    (hmprev : t.mainpos ops prev = t.mainpos ops (t.getentry (hash (keyOf k v))))
    (hpp : prev ≠ t.getentry (hash (keyOf k v)))
    (hmask : t'.mask = t.mask) (hcount : t'.count = t.count + 1)
    (hent : ∀ i, t'.entries i =
      if i = t.getentry (hash (keyOf k v)) then ⟨v, k, none⟩
      else if i = prev then { t.entries i with next := some q }
      else if i = q then t.entries (t.getentry (hash (keyOf k v)))
      else t.entries i) :
    Inserted ops keyOf t t' k v := by
  set p := t.getentry (hash (keyOf k v)) with hp
  have hsize : t'.size = t.size := by rw [size, size, hmask]
  have hnq : ∀ i, t.Occ ops i → i ≠ q := fun i hi h => by
    have hi2 := hi.2
    rw [h, hqempty] at hi2
    cases hi2
  have hoccp : t.Occ ops p := ⟨getentry_lt t _, hused⟩
  have hpe : t'.entries p = ⟨v, k, none⟩ := by rw [hent, if_pos rfl]
  have hprevent : t'.entries prev = { t.entries prev with next := some q } := by
    rw [hent, if_neg hpp, if_pos rfl]
  have hqe : t'.entries q = t.entries p := by
    rw [hent, if_neg (hnq p hoccp).symm, if_neg (hnq prev hprev).symm, if_pos rfl]
  have hne : ∀ i, i ≠ p → i ≠ prev → i ≠ q → t'.entries i = t.entries i := fun i h1 h2 h3 => by
    rw [hent, if_neg h1, if_neg h2, if_neg h3]
  have hcont : ∀ i, i ≠ p → i ≠ q → t'.content i = t.content i := by
    intro i hi hiq
    by_cases hip : i = prev
    · subst hip; rw [content, content, hprevent]
    · rw [content, content, hne i hi hip hiq]
  have hcontq : t'.content q = t.content p := by rw [content, content, hqe]
  have husedq : t'.isempty ops q = false := by rw [isempty, hqe]; exact hused
  have hsame : ∀ i, i ≠ q → t'.isempty ops i = t.isempty ops i := by
    intro i hi
    by_cases hip : i = p
    · subst hip; rw [hused, isempty, hpe]; exact hk
    · exact congrArg (fun c : κ × ν => ops.isempty c.1) (hcont i hip hi)
  have hocc : ∀ i, t'.Occ ops i ↔ t.Occ ops i ∨ i = q := by
    intro i
    rw [Occ, Occ, hsize]
    by_cases hiq : i = q
    · subst hiq; simp [hq, husedq]
    · simp [hsame i hiq, hiq]
  have hmainc : ∀ i j, t'.content i = t.content j → t'.mainpos ops i = t.mainpos ops j := by
    intro i j h
    rw [content, content, Prod.mk.injEq] at h
    rw [mainpos, mainpos, h.1, h.2, getentry, getentry, hmask]
  have hchain : Common.Chained (t'.Occ ops) (t'.mainpos ops) t'.next := by
    refine hwf.chained.evict (p := p) (q := q) hoccp hfor
      (fun h => hnq q h rfl) hprev hlink hmprev hocc ?_ (hmainc q p hcontq)
      (fun i h1 h2 => hmainc i i (hcont i h1 h2)) ?_ ?_ ?_ ?_
    · rw [mainpos, hpe, getentry, hmask, hops.hashfunc_eq k v hk]; rfl
    · rw [next, hpe]
    · rw [next, hqe]; rfl
    · rw [next, hprevent]
    · intro i h1 h2 h3; rw [next, next, hne i h1 h3 h2]
  have hgains : Gains ops t t' p (fun i => if i = q then p else i) (k, v) := by
    refine ⟨(hocc p).mpr (.inl hoccp), by rw [content, hpe], ?_, ?_, ?_⟩
    · intro i hi hoi
      by_cases hiq : i = q
      · subst hiq
        simp only [↓reduceIte]
        exact ⟨hoccp, hcontq⟩
      · simp only [hiq, ↓reduceIte]
        exact ⟨((hocc i).mp hoi).resolve_right hiq, hcont i hi hiq⟩
    · intro j hj
      by_cases hjp : j = p
      · exact ⟨q, (hnq p hoccp).symm, (hocc q).mpr (.inr rfl), by simp [hjp]⟩
      · exact ⟨j, hjp, (hocc j).mpr (.inl hj), by simp [hnq j hj]⟩
    · intro i j hi hj h
      by_cases hiq : i = q <;> by_cases hjq : j = q
      · exact hiq.trans hjq.symm
      · simp only [hiq, hjq, ↓reduceIte] at h; exact absurd h.symm hj
      · simp only [hiq, hjq, ↓reduceIte] at h; exact absurd h hi
      · simpa only [hiq, hjq, ↓reduceIte] using h
  exact ⟨hmask, hcount, hwf.of_gains hmask hcount hchain hgains hnew hq hqempty husedq hsame,
    fun l w => hgains.stored_iff⟩

end Cases

/-- The predecessor of a foreign entry, as the walk of the eviction finds it. -/
private theorem walk_prev (hwf : t.Wf ops keyOf) {p q : ℕ} (hp : t.Occ ops p)
    (hfor : t.mainpos ops p ≠ p) (hq : ¬ t.Occ ops q) {e : Tabent κ ν} :
    ∃ prev, Common.walkUntil (t.set q e).next (fun i => (t.set q e).next i == some p) t.size
        (t.mainpos ops p) = some prev ∧
      t.Occ ops prev ∧ t.next prev = some p ∧ t.mainpos ops prev = t.mainpos ops p ∧ prev ≠ p := by
  obtain ⟨l, prev, r, hseg, hnodup, hmem⟩ := hwf.chained.exists_pred hp hfor
  set c := l ++ prev :: p :: r with hc
  have hnext : ∀ i ∈ c, (t.set q e).next i = t.next i := by
    intro i hi
    have hiq : i ≠ q := fun h => hq (h ▸ ((hmem i).mp hi).1)
    simp [next, hiq]
  rw [Common.walkUntil_eq_find? (hseg.congr hnext)
    (chain_length_le hnodup fun i hi => ((hmem i).mp hi).1.1)]
  obtain ⟨u, -, hr⟩ := Common.seg_append.mp hseg
  have hlinked : t.next prev = some p := hr.2.head_eq
  have hprevc : prev ∈ c := by simp [hc]
  cases hfind : c.find? (fun i => (t.set q e).next i == some p) with
  | none =>
    refine absurd ?_ (by simpa using List.find?_eq_none.mp hfind prev hprevc)
    rw [hnext prev hprevc, hlinked]
  | some w =>
    have hw := List.mem_of_find?_eq_some hfind
    have hwp : t.next w = some p := by
      have h := List.find?_some hfind
      rw [hnext w hw] at h
      simpa using h
    obtain ⟨hocc, hmain⟩ := (hmem w).mp hw
    refine ⟨w, rfl, hocc, hwp, hmain, fun hwe => ?_⟩
    -- an entry that follows itself would make its chain endless
    subst hwe
    have htail := hr.2.2
    rw [hwp] at htail
    obtain ⟨r', rfl, -⟩ := htail.exists_cons
    simp [hc, List.nodup_append] at hnodup

/-- The three cases of an insertion, in terms of the table before it. -/
private theorem insert_eq (t : Table κ ν) (k : κ) (v : ν) (h : ℕ) :
    t.insert ops k v h =
      if t.isempty ops (t.getentry h) = true then
        some ({ t with count := t.count + 1 }.set (t.getentry h) ⟨v, k, none⟩)
      else (t.emptyent ops (t.getentry h)).bind fun q =>
        if t.mainpos ops (t.getentry h) = t.getentry h then
          let t₁ := ({ t with count := t.count + 1 }.setNext q (t.next (t.getentry h))).setNext
            (t.getentry h) (some q)
          some (t₁.set q { t₁.entries q with key := k, val := v })
        else
          let t₁ := { t with count := t.count + 1 }.set q (t.entries (t.getentry h))
          (Common.walkUntil (t.set q (t.entries (t.getentry h))).next
            (fun i => (t.set q (t.entries (t.getentry h))).next i == some (t.getentry h)) t.size
            (t.mainpos ops (t.getentry h))).bind fun prev =>
              some ((t₁.setNext prev (some q)).set (t.getentry h) ⟨v, k, none⟩) := rfl

/-- An insertion that returns has added exactly the new pair. -/
theorem insert_spec (hops : ops.Lawful keyOf hash) (hwf : t.Wf ops keyOf)
    (hk : ops.isempty k = false) (hnew : ∀ w, ¬ t.Stored ops keyOf (keyOf k v) w)
    (h : t.insert ops k v (hash (keyOf k v)) = some t') : Inserted ops keyOf t t' k v := by
  rw [insert_eq] at h
  have hlt := getentry_lt t (hash (keyOf k v))
  set p := t.getentry (hash (keyOf k v)) with hp
  split at h
  · next hempty =>
    cases h
    exact insert_free hops hwf hk hnew hempty rfl rfl fun i => by simp [hp]
  · next hused =>
    have hused : t.isempty ops p = false := by simpa using hused
    obtain ⟨q, hqfind, h⟩ := Option.bind_eq_some_iff.mp h
    obtain ⟨hq, hqempty⟩ := isempty_of_emptyent hqfind
    have hpq : p ≠ q := fun he => by
      rw [he, hqempty] at hused; cases hused
    split at h
    · next hself =>
      cases h
      refine insert_behind hops hwf hk hnew hq hqempty hused hself rfl rfl fun i => ?_
      by_cases hiq : i = q
      · subst hiq
        simp [setNext, ← hp, Ne.symm hpq]
      · by_cases hip : i = p <;> simp [setNext, hiq, hip, hpq, ← hp]
    · next hfor =>
      obtain ⟨prev, hwalk, hprev, hlink, hmprev, hpp⟩ := walk_prev hwf (q := q) (e := t.entries p)
        ⟨hlt, hused⟩ hfor (fun hocc => by simp [hocc.2] at hqempty)
      obtain ⟨w, hw, h⟩ := Option.bind_eq_some_iff.mp h
      obtain rfl : prev = w := Option.some.inj (hwalk.symm.trans hw)
      cases h
      have hprevq : prev ≠ q := fun he => by simp [← he, hprev.2] at hqempty
      refine insert_evict hops hwf hk hnew hq hqempty hused hfor hprev hlink hmprev hpp rfl rfl
        fun i => ?_
      by_cases hip : i = p
      · simp [hip, ← hp]
      · by_cases hiprev : i = prev
        · subst hiprev
          simp [setNext, hip, hprevq, ← hp]
        · simp [setNext, hip, hiprev, ← hp]

/-- An insertion with a free entry left returns. -/
theorem insert_isSome (hwf : t.Wf ops keyOf) (hlt : t.count < t.size) (h : ℕ) :
    (t.insert ops k v h).isSome := by
  rw [insert_eq]
  split
  · rfl
  · next hused =>
    have hused : t.isempty ops (t.getentry h) = false := by simpa using hused
    obtain ⟨q, hq, hqempty⟩ := exists_isempty_of_count_lt (hwf.count_eq ▸ hlt)
    obtain ⟨w, hw⟩ := Option.isSome_iff_exists.mp (emptyent_isSome (e := t.getentry h) hq hqempty)
    obtain ⟨hwlt, hwempty⟩ := isempty_of_emptyent hw
    rw [hw, Option.bind_some]
    split
    · rfl
    · next hfor =>
      obtain ⟨prev, hwalk, -⟩ := walk_prev hwf (q := w) (e := t.entries (t.getentry h))
        ⟨getentry_lt t _, hused⟩ hfor (fun hocc => by simp [hocc.2] at hwempty)
      rw [hwalk]
      rfl

end Table

end Upb
