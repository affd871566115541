import Mathlib.Data.List.Nodup
import Upb.Hash.TableInsert

/-!
# Iteration, resizing, clearing and replacing in the base hash table

A full iteration lists the contents of the used entries in the order of their indices. Resizing
reinserts that list into an empty table, so it keeps what is stored; it returns whenever the new
table has room for all of it.
-/

namespace Upb

namespace Table

variable {κ ν ℓ : Type} {ops : KeyOps κ ν ℓ} {keyOf : κ → ν → ℓ} {hash : ℓ → ℕ} {t t' : Table κ ν}

section Iterate

/-- The iteration from index `s` on lists the used entries from there. -/
theorem entriesFrom_eq (ops : KeyOps κ ν ℓ) (t : Table κ ν) (n s fuel : ℕ) (hn : t.size - s = n)
    (hfuel : n ≤ fuel) :
    t.entriesFrom ops fuel (s - 1 : ℤ) =
      ((List.range' s n).filter fun i => !t.isempty ops i).map t.content := by
  induction n generalizing s fuel with
  | zero =>
    cases fuel with
    | zero => rfl
    | succ fuel => simp [entriesFrom, nextIndex, hn]
  | succ n ih =>
    obtain ⟨fuel, rfl⟩ : ∃ f, fuel = f + 1 := ⟨fuel - 1, by omega⟩
    have hstart : ((s - 1 : ℤ) + 1).toNat = s := by simp
    have hstart' : ((s : ℤ) + 1).toNat = s + 1 := by omega
    rw [List.range'_succ]
    cases hs : t.isempty ops s with
    | false =>
      have hnext : t.nextIndex ops (s - 1 : ℤ) = some s := by
        simp [nextIndex, hn, List.range'_succ, hs]
      rw [entriesFrom, hnext]
      have htail := ih (s + 1) fuel (by omega) (by omega)
      rw [show ((s + 1 : ℕ) - 1 : ℤ) = (s : ℤ) by omega] at htail
      simp [hs, htail, content]
    | true =>
      have hnext : t.nextIndex ops (s - 1 : ℤ) = t.nextIndex ops s := by
        simp [nextIndex, hn, List.range'_succ, hs, hstart', show t.size - (s + 1) = n by omega]
      have htail := ih (s + 1) (fuel + 1) (by omega) (by omega)
      rw [show ((s + 1 : ℕ) - 1 : ℤ) = (s : ℤ) by omega] at htail
      rw [entriesFrom] at htail ⊢
      rw [hnext, htail]
      simp [hs]

/-- A full iteration lists the contents of the used entries in the order of their indices. -/
theorem iterate_eq (t : Table κ ν) :
    t.iterate ops = ((List.range t.size).filter fun i => !t.isempty ops i).map t.content := by
  have h := entriesFrom_eq ops t t.size 0 t.size (by simp) le_rfl
  rw [List.range_eq_range']
  simpa [iterate] using h

theorem mem_iterate {e : κ × ν} : e ∈ t.iterate ops ↔ ∃ i, t.Occ ops i ∧ t.content i = e := by
  simp [iterate_eq, Occ, and_assoc]

theorem length_iterate (hwf : t.Wf ops keyOf) : (t.iterate ops).length = t.count := by
  rw [iterate_eq, List.length_map, hwf.count_eq, List.countP_eq_length_filter]

/-- A full iteration yields exactly the stored pairs. -/
theorem exists_mem_iterate {l : ℓ} {v : ν} :
    (∃ e ∈ t.iterate ops, keyOf e.1 e.2 = l ∧ e.2 = v) ↔ t.Stored ops keyOf l v := by
  simp only [mem_iterate, Stored]
  constructor
  · rintro ⟨_, ⟨i, hi, rfl⟩, hl, hv⟩
    exact ⟨i, hi, hl, hv⟩
  · rintro ⟨i, hi, hl, hv⟩
    exact ⟨t.content i, ⟨i, hi, rfl⟩, hl, hv⟩

/-- A full iteration yields no key twice. -/
theorem nodup_keys_iterate (hwf : t.Wf ops keyOf) :
    ((t.iterate ops).map fun e => keyOf e.1 e.2).Nodup := by
  rw [iterate_eq, List.map_map]
  refine List.Nodup.map_on ?_ (List.nodup_range.filter _)
  intro i hi j hj h
  simp only [List.mem_filter, List.mem_range, Bool.not_eq_true'] at hi hj
  exact hwf.keys i j hi hj h

end Iterate

section Init

variable [Inhabited ν]

/-- A table without used entries satisfies the invariant and stores nothing. -/
theorem wf_of_zeroed (hops : ops.Lawful keyOf hash) (hent : t.entries = zeroed ops)
    (hcount : t.count = 0) (hmask : ∃ k < 32, t.mask = 2 ^ k - 1) :
    t.Wf ops keyOf ∧ ∀ l v, ¬ t.Stored ops keyOf l v := by
  have hempty : ∀ i, t.isempty ops i = true := fun i => by
    rw [isempty, hent]; exact hops.isempty_empty
  have hocc : ∀ i, ¬ t.Occ ops i := fun i hi => by simpa [hempty i] using hi.2
  refine ⟨⟨hmask, ⟨fun i hi => absurd hi (hocc i), fun i hi => absurd hi (hocc i)⟩,
    fun i _ hi => absurd hi (hocc i), ?_⟩, fun l v h => hocc _ h.choose_spec.1⟩
  rw [hcount, eq_comm, List.countP_eq_zero]
  simp [hempty]

theorem init_spec (hops : ops.Lawful keyOf hash) {n : ℕ} (h : init ops n = some t) :
    t.Wf ops keyOf ∧ t.count = 0 ∧ t.mask = 2 ^ n - 1 ∧ ∀ l v, ¬ t.Stored ops keyOf l v := by
  rw [init] at h
  split at h
  · cases h
  · next hn =>
    cases h
    obtain ⟨hwf, hstored⟩ := wf_of_zeroed (t := ⟨zeroed ops, 0, 2 ^ n - 1⟩) hops rfl rfl
      ⟨n, by omega, rfl⟩
    exact ⟨hwf, rfl, rfl, hstored⟩

theorem clear_spec (hops : ops.Lawful keyOf hash) (hwf : t.Wf ops keyOf) :
    (t.clear ops).Wf ops keyOf ∧ ∀ l v, ¬ (t.clear ops).Stored ops keyOf l v :=
  wf_of_zeroed hops rfl rfl hwf.mask_eq

end Init

section Resize

/-- The reinsertion of a list of pairs with distinct keys. -/
private theorem insertAll_spec (hops : ops.Lawful keyOf hash) {es : List (κ × ν)}
    (hk : ∀ e ∈ es, ops.isempty e.1 = false)
    (hnodup : (es.map fun e => keyOf e.1 e.2).Nodup) (hwf : t.Wf ops keyOf)
    (hnew : ∀ e ∈ es, ∀ w, ¬ t.Stored ops keyOf (keyOf e.1 e.2) w) :
    (∀ t', t.insertAll ops es = some t' →
      t'.Wf ops keyOf ∧ t'.mask = t.mask ∧ t'.count = t.count + es.length ∧
      ∀ l v, t'.Stored ops keyOf l v ↔
        t.Stored ops keyOf l v ∨ ∃ e ∈ es, keyOf e.1 e.2 = l ∧ e.2 = v) ∧
    (t.count + es.length ≤ t.size →
      (t.insertAll ops es).isSome) := by
  induction es generalizing t with
  | nil =>
    refine ⟨fun t' h => ?_, fun _ => rfl⟩
    cases h
    exact ⟨hwf, rfl, rfl, by simp⟩
  | cons e es ih =>
    have hke := hk e List.mem_cons_self
    rw [List.map_cons, List.nodup_cons] at hnodup
    have hcons : t.insertAll ops (e :: es) =
        (t.insert ops e.1 e.2 (hash (keyOf e.1 e.2))).bind fun t₁ => t₁.insertAll ops es := by
      rw [insertAll, List.foldlM_cons, hops.hashfunc_eq e.1 e.2 hke]
      rfl
    rw [hcons]
    -- after the first insertion the remaining keys are still new
    have hstep : ∀ t₁, t.insert ops e.1 e.2 (hash (keyOf e.1 e.2)) = some t₁ →
        Inserted ops keyOf t t₁ e.1 e.2 ∧
        ∀ e' ∈ es, ∀ w, ¬ t₁.Stored ops keyOf (keyOf e'.1 e'.2) w := by
      intro t₁ h₁
      have hins := insert_spec hops hwf hke (hnew e List.mem_cons_self) h₁
      refine ⟨hins, fun e' he' w hs => ?_⟩
      rcases (hins.stored_iff _ _).mp hs with ⟨heq, -⟩ | hs
      · exact hnodup.1 (heq ▸ List.mem_map_of_mem (f := fun e => keyOf e.1 e.2) he')
      · exact hnew e' (List.mem_cons_of_mem _ he') w hs
    have hrest := fun t₁ h₁ => ih (t := t₁) (fun e' he' => hk e' (List.mem_cons_of_mem _ he'))
      hnodup.2 (hstep t₁ h₁).1.wf (hstep t₁ h₁).2
    constructor
    · intro t' h
      obtain ⟨t₁, h₁, h⟩ := Option.bind_eq_some_iff.mp h
      obtain ⟨hins, -⟩ := hstep t₁ h₁
      obtain ⟨hwf', hmask, hcount, hstored⟩ := (hrest t₁ h₁).1 t' h
      refine ⟨hwf', hmask.trans hins.mask_eq, ?_, fun l v => ?_⟩
      · rw [hcount, hins.count_eq, List.length_cons]; omega
      · rw [hstored, hins.stored_iff]
        simp only [List.exists_mem_cons_iff]
        constructor
        · rintro ((⟨rfl, rfl⟩ | h) | h) <;> simp [*]
        · rintro (h | ⟨rfl, rfl⟩ | h) <;> simp [*]
    · intro hroom
      rw [List.length_cons] at hroom
      obtain ⟨t₁, h₁⟩ := Option.isSome_iff_exists.mp
        (insert_isSome (k := e.1) (v := e.2) hwf (by omega) (hash (keyOf e.1 e.2)))
      obtain ⟨hins, -⟩ := hstep t₁ h₁
      have hsize : t₁.size = t.size := by rw [size, size, hins.mask_eq]
      have := (hrest t₁ h₁).2 (by rw [hins.count_eq, hsize]; omega)
      simpa [h₁] using this

/-- Resizing keeps what is stored; it fails exactly for sizes of 2^32 and more, and returns at all
if the new size has room. -/
theorem resize_spec [Inhabited ν] (hops : ops.Lawful keyOf hash) (hwf : t.Wf ops keyOf) (n : ℕ) :
    (∀ b t', t.resize ops n = some (b, t') → t'.Wf ops keyOf ∧ t'.count = t.count ∧
      (b = false → 32 ≤ n ∧ t' = t) ∧ (b = true → n < 32 ∧ t'.mask = 2 ^ n - 1) ∧
      ∀ l v, t'.Stored ops keyOf l v ↔ t.Stored ops keyOf l v) ∧
    (t.count ≤ 2 ^ n → (t.resize ops n).isSome) := by
  have hused : ∀ e ∈ t.iterate ops, ops.isempty e.1 = false := by
    intro e he
    obtain ⟨i, hi, rfl⟩ := mem_iterate.mp he
    exact hi.2
  rw [resize]
  cases hinit : init ops n with
  | none =>
    have hn : 32 ≤ n := by
      by_contra hlt
      simp [init, hlt] at hinit
    refine ⟨fun b t' h => ?_, fun _ => rfl⟩
    cases h
    exact ⟨hwf, rfl, fun _ => ⟨hn, rfl⟩, by simp, fun _ _ => Iff.rfl⟩
  | some new =>
    have hn : n < 32 := by
      by_contra hge
      simp [init, show 32 ≤ n by omega] at hinit
    obtain ⟨hnewwf, hcount, hmask, hnone⟩ := init_spec hops hinit
    obtain ⟨hall, hroom⟩ := insertAll_spec hops hused (nodup_keys_iterate hwf) hnewwf
      (fun e _ w => hnone _ w)
    constructor
    · intro b t' h
      obtain ⟨t₁, h₁, h⟩ := Option.map_eq_some_iff.mp h
      obtain ⟨rfl, rfl⟩ := Prod.mk.inj h
      obtain ⟨hwf', hmask', hcount', hstored⟩ := hall _ h₁
      refine ⟨hwf', ?_, by simp, fun _ => ⟨hn, hmask'.trans hmask⟩, fun l v => ?_⟩
      · rw [hcount', hcount, length_iterate hwf, Nat.zero_add]
      · rw [hstored, exists_mem_iterate]
        simp [hnone]
    · intro hle
      have hsize : new.size = 2 ^ n := by
        have := Nat.one_le_two_pow (n := n)
        rw [size, hmask]; omega
      obtain ⟨t₁, h₁⟩ := Option.isSome_iff_exists.mp
        (hroom (by rw [hcount, length_iterate hwf, hsize]; omega))
      simp [h₁]

end Resize

end Table

end Upb
