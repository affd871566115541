import Upb.Hash.TableUpdate

/-!
# Removal from the base hash table

`rm` removes a lone head, replaces a head by its successor, or unlinks a later entry; the freed entry
keeps its stale `next`. In each case the invariant is kept and exactly the pair of the key is gone.
-/

namespace Upb

namespace Table

variable {κ ν ℓ : Type} {ops : KeyOps κ ν ℓ} {keyOf : κ → ν → ℓ} {hash : ℓ → ℕ} {t t' : Table κ ν}
  {l : ℓ} {v : ν}

/-- The effect of removing the key `l`, which had the value `v`. -/
structure Removed (ops : KeyOps κ ν ℓ) (keyOf : κ → ν → ℓ) (t t' : Table κ ν) (l : ℓ) (v : ν) :
    Prop where
  mask_eq : t'.mask = t.mask
  count_eq : t'.count + 1 = t.count
  wf : t'.Wf ops keyOf
  stored : t.Stored ops keyOf l v
  stored_iff : ∀ l' w, t'.Stored ops keyOf l' w ↔ l' ≠ l ∧ t.Stored ops keyOf l' w

/-- What a removal must establish besides the chains: the entry `q` is freed and the contents are
those before without the one at `x`. -/
theorem Removed.of_loses (hwf : t.Wf ops keyOf) {x q : ℕ} {r : ℕ → ℕ}
    (hmask : t'.mask = t.mask) (hcount : t'.count = t.count - 1)
    (hchain : Common.Chained (t'.Occ ops) (t'.mainpos ops) t'.next)
    (hloses : Loses ops t t' x r) (hx : t.Occ ops x) (hl : t.keyAt keyOf x = l)
    (hv : (t.entries x).val = v) (hq : t.Occ ops q) (hempty : t'.isempty ops q = true)
    (hsame : ∀ i, i ≠ q → t'.isempty ops i = t.isempty ops i) : Removed ops keyOf t t' l v := by
  have hsize : t'.size = t.size := by rw [size, size, hmask]
  have hdrop : (List.range t.size).countP (fun i => !t.isempty ops i) =
      (List.range t.size).countP (fun i => !t'.isempty ops i) + 1 :=
    countP_range_add_one hq.1 (by simp [hempty]) (by simp [hq.2]) fun i hi => by rw [hsame i hi]
  have htcount := hwf.count_eq
  refine ⟨hmask, by omega, ⟨hmask ▸ hwf.mask_eq, hchain, hloses.keys hwf.keys, ?_⟩,
    ⟨x, hx, hl, hv⟩, fun l' w => ?_⟩
  · rw [hsize]
    omega
  · rw [← hl]
    exact hloses.stored_iff hx hwf.keys

/-- The three results of a removal that finds its key, in terms of the table before it. -/
private theorem rm_eq (t : Table κ ν) (l : ℓ) (h : ℕ) :
    t.rm ops l h =
      if t.isempty ops (t.getentry h) = true then none
      else if t.eqlAt ops l (t.getentry h) = true then
        match t.next (t.getentry h) with
        | some m => some ((t.entries (t.getentry h)).val,
            ({ t with count := t.count - 1 }.set (t.getentry h) (t.entries m)).set m
              { (t.set (t.getentry h) (t.entries m)).entries m with key := ops.empty })
        | none => some ((t.entries (t.getentry h)).val,
            { t with count := t.count - 1 }.set (t.getentry h)
              { t.entries (t.getentry h) with key := ops.empty })
      else (Common.walkUntil t.next (fun e => (t.next e).elim true (t.eqlAt ops l)) t.size
          (t.getentry h)).bind fun prev =>
        (t.next prev).bind fun m =>
          let t₁ := { t with count := t.count - 1 }.set m { t.entries m with key := ops.empty }
          some ((t.entries m).val, t₁.setNext prev (t₁.next m)) := by
  rw [rm]
  rfl

section Cases

variable (hops : ops.Lawful keyOf hash) (hwf : t.Wf ops keyOf)

include hops hwf

/-- The key is in a head without successor. -/
private theorem rm_lone {p : ℕ} (hp : t.Occ ops p) (hself : t.mainpos ops p = p)
    (hnil : t.next p = none) (hl : t.keyAt keyOf p = l) (hmask : t'.mask = t.mask)
    (hcount : t'.count = t.count - 1)
    (hent : ∀ i, t'.entries i = if i = p then { t.entries p with key := ops.empty } else t.entries i) :
    Removed ops keyOf t t' l (t.entries p).val := by
  have hsize : t'.size = t.size := by rw [size, size, hmask]
  have hne : ∀ i, i ≠ p → t'.entries i = t.entries i := fun i hi => by rw [hent, if_neg hi]
  have hempty : t'.isempty ops p = true := by
    rw [isempty, hent, if_pos rfl]; exact hops.isempty_empty
  have hsame : ∀ i, i ≠ p → t'.isempty ops i = t.isempty ops i := fun i hi => by
    rw [isempty, isempty, hne i hi]
  have hocc : ∀ i, t'.Occ ops i ↔ t.Occ ops i ∧ i ≠ p := by
    intro i
    rw [Occ, Occ, hsize]
    by_cases hip : i = p
    · subst hip; simp [hempty]
    · simp [hsame i hip, hip]
  have hchain : Common.Chained (t'.Occ ops) (t'.mainpos ops) t'.next := by
    refine hwf.chained.removeLone hself hp hnil hocc ?_ ?_
    · intro i hi; rw [mainpos, mainpos, hne i hi, getentry, getentry, hmask]
    · intro i hi; rw [next, next, hne i hi]
  have hloses : Loses ops t t' p id := by
    refine ⟨fun i hi => ?_, fun j hj hoj => ⟨j, (hocc j).mpr ⟨hoj, hj⟩, rfl⟩, fun _ _ _ _ h => h⟩
    obtain ⟨hoi, hip⟩ := (hocc i).mp hi
    exact ⟨hoi, hip, by rw [id, content, content, hne i hip]⟩
  exact .of_loses hwf hmask hcount hchain hloses hp hl rfl hp hempty hsame

/-- The key is in a head, and its successor moves into the head's entry. -/
private theorem rm_head {p m : ℕ} (hp : t.Occ ops p) (hself : t.mainpos ops p = p)
    (hlink : t.next p = some m) (hm : t.Occ ops m) (hmm : t.mainpos ops m = p) (hpm : p ≠ m)
    (hl : t.keyAt keyOf p = l) (hmask : t'.mask = t.mask) (hcount : t'.count = t.count - 1)
    (hent : ∀ i, t'.entries i = if i = m then { t.entries m with key := ops.empty }
      else if i = p then t.entries m else t.entries i) :
    Removed ops keyOf t t' l (t.entries p).val := by
  have hsize : t'.size = t.size := by rw [size, size, hmask]
  have hpe : t'.entries p = t.entries m := by rw [hent, if_neg hpm, if_pos rfl]
  have hne : ∀ i, i ≠ m → i ≠ p → t'.entries i = t.entries i := fun i h1 h2 => by
    rw [hent, if_neg h1, if_neg h2]
  have hempty : t'.isempty ops m = true := by
    rw [isempty, hent, if_pos rfl]; exact hops.isempty_empty
  have hsame : ∀ i, i ≠ m → t'.isempty ops i = t.isempty ops i := by
    intro i hi
    by_cases hip : i = p
    · subst hip; rw [isempty, hpe, hp.2]; exact hm.2
    · rw [isempty, isempty, hne i hi hip]
  have hocc : ∀ i, t'.Occ ops i ↔ t.Occ ops i ∧ i ≠ m := by
    intro i
    rw [Occ, Occ, hsize]
    by_cases him : i = m
    · subst him; simp [hempty]
    · simp [hsame i him, him]
  have hchain : Common.Chained (t'.Occ ops) (t'.mainpos ops) t'.next := by
    refine hwf.chained.unlink hp hlink hocc ?_ ?_ ?_
    · intro i hi
      by_cases hip : i = p
      · subst hip
        rw [mainpos, hpe, getentry, hmask, hself]
        exact hmm
      · rw [mainpos, mainpos, hne i hi hip, getentry, getentry, hmask]
    · rw [next, hpe]; rfl
    · intro i h1 h2; rw [next, next, hne i h1 h2]
  have hloses : Loses ops t t' p (fun i => if i = p then m else i) := by
    refine ⟨fun i hi => ?_, fun j hj hoj => ?_, fun i j hi hj h => ?_⟩
    · obtain ⟨hoi, him⟩ := (hocc i).mp hi
      by_cases hip : i = p
      · subst hip
        simp only [↓reduceIte]
        exact ⟨hm, hpm.symm, by rw [content, content, hpe]⟩
      · simp only [hip, ↓reduceIte]
        exact ⟨hoi, hip, by rw [content, content, hne i him hip]⟩
    · by_cases hjm : j = m
      · exact ⟨p, (hocc p).mpr ⟨hp, hpm⟩, by simp [hjm]⟩
      · exact ⟨j, (hocc j).mpr ⟨hoj, hjm⟩, by simp [hj]⟩
    · have him := ((hocc i).mp hi).2
      have hjm := ((hocc j).mp hj).2
      by_cases hip : i = p <;> by_cases hjp : j = p
      · exact hip.trans hjp.symm
      · simp only [hip, hjp, ↓reduceIte] at h; exact absurd h.symm hjm
      · simp only [hip, hjp, ↓reduceIte] at h; exact absurd h him
      · simpa only [hip, hjp, ↓reduceIte] using h
  exact .of_loses hwf hmask hcount hchain hloses hp hl rfl hm hempty hsame

/-- The key is in an entry `m` behind `prev`. -/
private theorem rm_behind {prev m : ℕ} (hprev : t.Occ ops prev) (hlink : t.next prev = some m)
    (hm : t.Occ ops m) (hpm : prev ≠ m) (hl : t.keyAt keyOf m = l) (hmask : t'.mask = t.mask)
    (hcount : t'.count = t.count - 1)
    (hent : ∀ i, t'.entries i = if i = prev then { t.entries prev with next := t.next m }
      else if i = m then { t.entries m with key := ops.empty } else t.entries i) :
    Removed ops keyOf t t' l (t.entries m).val := by
  have hsize : t'.size = t.size := by rw [size, size, hmask]
  have hpe : t'.entries prev = { t.entries prev with next := t.next m } := by rw [hent, if_pos rfl]
  have hcont : ∀ i, i ≠ m → t'.content i = t.content i := by
    intro i hi
    by_cases hip : i = prev
    · subst hip; rw [content, content, hpe]
    · rw [content, content, hent, if_neg hip, if_neg hi]
  have hempty : t'.isempty ops m = true := by
    rw [isempty, hent, if_neg hpm.symm, if_pos rfl]; exact hops.isempty_empty
  have hsame : ∀ i, i ≠ m → t'.isempty ops i = t.isempty ops i := fun i hi =>
    congrArg (fun c : κ × ν => ops.isempty c.1) (hcont i hi)
  have hocc : ∀ i, t'.Occ ops i ↔ t.Occ ops i ∧ i ≠ m := by
    intro i
    rw [Occ, Occ, hsize]
    by_cases him : i = m
    · subst him; simp [hempty]
    · simp [hsame i him, him]
  have hchain : Common.Chained (t'.Occ ops) (t'.mainpos ops) t'.next := by
    refine hwf.chained.unlink hprev hlink hocc ?_ ?_ ?_
    · intro i hi
      have h := hcont i hi
      rw [content, content, Prod.mk.injEq] at h
      rw [mainpos, mainpos, h.1, h.2, getentry, getentry, hmask]
    · rw [next, hpe]
    · intro i h1 h2; rw [next, next, hent, if_neg h2, if_neg h1]
  have hloses : Loses ops t t' m id := by
    refine ⟨fun i hi => ?_, fun j hj hoj => ⟨j, (hocc j).mpr ⟨hoj, hj⟩, rfl⟩, fun _ _ _ _ h => h⟩
    obtain ⟨hoi, him⟩ := (hocc i).mp hi
    exact ⟨hoi, him, hcont i him⟩
  exact .of_loses hwf hmask hcount hchain hloses hm hl rfl hm hempty hsame

end Cases

/-- The main position of a stored key heads a chain, and the key is on it. -/
private theorem mainpos_of_stored (hops : ops.Lawful keyOf hash) (hwf : t.Wf ops keyOf) {i : ℕ}
    (hi : t.Occ ops i) (hil : t.keyAt keyOf i = l) :
    t.Occ ops (t.getentry (hash l)) ∧ t.mainpos ops i = t.getentry (hash l) ∧
      t.mainpos ops (t.getentry (hash l)) = t.getentry (hash l) := by
  have hmain : t.mainpos ops i = t.getentry (hash l) := by rw [mainpos_eq hops hi, hil]
  obtain ⟨hocc, hself⟩ := hwf.chained.head i hi
  rw [hmain] at hocc hself
  exact ⟨hocc, hmain, hself⟩

/-- A removal that returns a value has removed exactly the pair of its key; one that does not return
a value had nothing to remove. -/
theorem rm_spec (hops : ops.Lawful keyOf hash) (hwf : t.Wf ops keyOf) (l : ℓ) :
    match t.rm ops l (hash l) with
    | none => ∀ v, ¬ t.Stored ops keyOf l v
    | some (v, t') => Removed ops keyOf t t' l v := by
  have hlt := getentry_lt t (hash l)
  rw [rm_eq]
  set p := t.getentry (hash l) with hp
  by_cases hempty : t.isempty ops p = true
  · rw [if_pos hempty]
    rintro v ⟨i, hi, hil, -⟩
    simpa [← hp, hempty] using (mainpos_of_stored hops hwf hi hil).1.2
  rw [if_neg hempty]
  have hocc : t.Occ ops p := ⟨hlt, by simpa using hempty⟩
  have heql : ∀ j, t.Occ ops j → (t.eqlAt ops l j = true ↔ t.keyAt keyOf j = l) :=
    fun j hj => hops.eql_iff _ _ _ hj.2
  obtain ⟨c, hseg, hnodup, hsame, hfull⟩ := hwf.chained.rest hocc
  obtain ⟨d, rfl, hd⟩ := hseg.exists_cons
  by_cases hhead : t.eqlAt ops l p = true
  · rw [if_pos hhead]
    have hpl := (heql p hocc).mp hhead
    have hself := (mainpos_of_stored hops hwf hocc hpl).2.2
    cases hnext : t.next p with
    | none =>
      exact rm_lone hops hwf hocc hself hnext hpl rfl rfl fun i => by simp
    | some m =>
      rw [hnext] at hd
      obtain ⟨e, rfl, -⟩ := hd.exists_cons
      have hm := hsame m (by simp)
      have hpm : p ≠ m := by
        rintro he
        simp [he] at hnodup
      refine rm_head hops hwf hocc hself hnext hm.1 (hm.2.trans hself) hpm hpl rfl rfl fun i => ?_
      by_cases him : i = m
      · subst him
        simp [hpm.symm]
      · simp [him]
  · rw [if_neg hhead]
    obtain ⟨prev, hprevc, hwalk, hend, hfound⟩ := Common.walkUntil_before (P := t.eqlAt ops l) hseg
      (chain_length_le hnodup fun j hj => (hsame j hj).1.1)
    rw [hwalk, Option.bind_some]
    cases hnext : t.next prev with
    | none =>
      rintro v ⟨i, hi, hil, -⟩
      obtain ⟨-, hmain, hself⟩ := mainpos_of_stored hops hwf hi hil
      have hic := hfull hself i hi hmain
      have hieql := (heql i hi).mpr hil
      rcases List.mem_cons.mp hic with rfl | hid
      · exact hhead hieql
      · simpa [hieql] using hend hnext i hid
    | some m =>
      obtain ⟨hmd, hmeql⟩ := hfound m hnext
      have hm := (hsame m (List.mem_cons_of_mem p hmd)).1
      have hprev := (hsame prev hprevc).1
      have hpm : prev ≠ m := by
        -- an entry that follows itself would make its chain endless
        rintro rfl
        obtain ⟨l₁, l₂, hsplit⟩ := List.append_of_mem hprevc
        rw [hsplit] at hseg hnodup
        obtain ⟨u, -, hr⟩ := Common.seg_append.mp hseg
        have htail := hr.2
        rw [hnext] at htail
        obtain ⟨r', rfl, -⟩ := htail.exists_cons
        simp [List.nodup_append] at hnodup
      refine rm_behind hops hwf hprev hnext hm hpm ((heql m hm).mp hmeql) rfl rfl fun i => ?_
      by_cases hip : i = prev
      · subst hip
        simp [setNext, next, hpm]
      · simp [setNext, hip]

end Table

end Upb
