import Upb.Hash.TableInvariant

/-!
# Insertion and removal in the base hash table

Every insertion puts the new pair into one entry and keeps the others, at most one of them in another
entry than before; every removal is the reverse. `Gains` and `Loses` say this with a map `r` from
the entries after the update to the entries before it, and the lemmas about the stored keys use only
that. The chains are handled by the updates of `Common.Chained`.
-/

namespace Upb

variable {κ ν ℓ : Type}

namespace Table

/-- Key and value of entry `i`. -/
def content (t : Table κ ν) (i : ℕ) : κ × ν := ((t.entries i).key, (t.entries i).val)

/-- `t'` holds the contents of `t`, moved from `r i` to `i`, and a new content at `a`. -/
structure Gains (ops : KeyOps κ ν ℓ) (t t' : Table κ ν) (a : ℕ) (r : ℕ → ℕ) (new : κ × ν) : Prop where
  new_occ : t'.Occ ops a
  new_content : t'.content a = new
  old : ∀ i, i ≠ a → t'.Occ ops i → t.Occ ops (r i) ∧ t'.content i = t.content (r i)
  kept : ∀ j, t.Occ ops j → ∃ i, i ≠ a ∧ t'.Occ ops i ∧ r i = j
  inj : ∀ i j, i ≠ a → j ≠ a → r i = r j → i = j

section Gains

variable {ops : KeyOps κ ν ℓ} {keyOf : κ → ν → ℓ} {t t' : Table κ ν} {a : ℕ} {r : ℕ → ℕ} {k : κ}
  {v : ν}

theorem keyAt_of_content (keyOf : κ → ν → ℓ) {i j : ℕ} (h : t'.content i = t.content j) :
    t'.keyAt keyOf i = t.keyAt keyOf j ∧ (t'.entries i).val = (t.entries j).val := by
  obtain ⟨hk, hv⟩ := Prod.mk.inj h
  rw [keyAt, keyAt, hk, hv]
  exact ⟨rfl, rfl⟩

/-- The new pair is stored besides the old ones. -/
theorem Gains.stored_iff (h : Gains ops t t' a r (k, v)) {l : ℓ} {w : ν} :
    t'.Stored ops keyOf l w ↔ (l = keyOf k v ∧ w = v) ∨ t.Stored ops keyOf l w := by
  obtain ⟨hk, hv⟩ := Prod.mk.inj h.new_content
  constructor
  · rintro ⟨i, hi, rfl, rfl⟩
    by_cases hia : i = a
    · subst hia
      exact .inl ⟨by rw [keyAt, hk, hv], hv⟩
    · obtain ⟨hocc, hcont⟩ := h.old i hia hi
      obtain ⟨hkey, hval⟩ := keyAt_of_content keyOf hcont
      exact .inr ⟨r i, hocc, hkey.symm, hval.symm⟩
  · rintro (⟨rfl, rfl⟩ | ⟨j, hj, rfl, rfl⟩)
    · exact ⟨a, h.new_occ, by rw [keyAt, hk, hv], hv⟩
    · obtain ⟨i, hia, hi, rfl⟩ := h.kept j hj
      obtain ⟨hkey, hval⟩ := keyAt_of_content keyOf (h.old i hia hi).2
      exact ⟨i, hi, hkey, hval⟩

/-- A new key keeps the keys distinct. -/
theorem Gains.keys (h : Gains ops t t' a r (k, v))
    (hkeys : ∀ i j, t.Occ ops i → t.Occ ops j → t.keyAt keyOf i = t.keyAt keyOf j → i = j)
    (hnew : ∀ w, ¬ t.Stored ops keyOf (keyOf k v) w) (i j : ℕ) (hi : t'.Occ ops i)
    (hj : t'.Occ ops j) (heq : t'.keyAt keyOf i = t'.keyAt keyOf j) : i = j := by
  obtain ⟨hk, hv⟩ := Prod.mk.inj h.new_content
  have hka : t'.keyAt keyOf a = keyOf k v := by rw [keyAt, hk, hv]
  -- an old entry cannot hold the new key
  have hold : ∀ i, i ≠ a → t'.Occ ops i → t'.keyAt keyOf i ≠ keyOf k v := by
    intro i hia hi hik
    obtain ⟨hocc, hcont⟩ := h.old i hia hi
    obtain ⟨hkey, -⟩ := keyAt_of_content keyOf hcont
    exact hnew _ ⟨r i, hocc, hkey.symm.trans hik, rfl⟩
  by_cases hia : i = a
  · by_cases hja : j = a
    · exact hia.trans hja.symm
    · subst hia
      exact absurd (heq.symm.trans hka) (hold j hja hj)
  · by_cases hja : j = a
    · subst hja
      exact absurd (heq.trans hka) (hold i hia hi)
    · obtain ⟨hoi, hci⟩ := h.old i hia hi
      obtain ⟨hoj, hcj⟩ := h.old j hja hj
      have hki := (keyAt_of_content keyOf hci).1
      have hkj := (keyAt_of_content keyOf hcj).1
      exact h.inj i j hia hja (hkeys _ _ hoi hoj (hki.symm.trans (heq.trans hkj)))

end Gains

/-- `t'` holds the contents of `t` except the one at `x`, moved from `r i` to `i`. -/
structure Loses (ops : KeyOps κ ν ℓ) (t t' : Table κ ν) (x : ℕ) (r : ℕ → ℕ) : Prop where
  old : ∀ i, t'.Occ ops i → t.Occ ops (r i) ∧ r i ≠ x ∧ t'.content i = t.content (r i)
  kept : ∀ j, j ≠ x → t.Occ ops j → ∃ i, t'.Occ ops i ∧ r i = j
  inj : ∀ i j, t'.Occ ops i → t'.Occ ops j → r i = r j → i = j

section Loses

variable {ops : KeyOps κ ν ℓ} {keyOf : κ → ν → ℓ} {t t' : Table κ ν} {x : ℕ} {r : ℕ → ℕ}

theorem Loses.keys (h : Loses ops t t' x r)
    (hkeys : ∀ i j, t.Occ ops i → t.Occ ops j → t.keyAt keyOf i = t.keyAt keyOf j → i = j)
    (i j : ℕ) (hi : t'.Occ ops i) (hj : t'.Occ ops j)
    (heq : t'.keyAt keyOf i = t'.keyAt keyOf j) : i = j := by
  obtain ⟨hoi, -, hci⟩ := h.old i hi
  obtain ⟨hoj, -, hcj⟩ := h.old j hj
  have hki := (keyAt_of_content keyOf hci).1
  have hkj := (keyAt_of_content keyOf hcj).1
  exact h.inj i j hi hj (hkeys _ _ hoi hoj (hki.symm.trans (heq.trans hkj)))

/-- Exactly the pairs of the other keys stay stored. -/
theorem Loses.stored_iff (h : Loses ops t t' x r) (hx : t.Occ ops x)
    (hkeys : ∀ i j, t.Occ ops i → t.Occ ops j → t.keyAt keyOf i = t.keyAt keyOf j → i = j)
    {l : ℓ} {w : ν} :
    t'.Stored ops keyOf l w ↔ l ≠ t.keyAt keyOf x ∧ t.Stored ops keyOf l w := by
  constructor
  · rintro ⟨i, hi, rfl, rfl⟩
    obtain ⟨hocc, hne, hcont⟩ := h.old i hi
    obtain ⟨hkey, hval⟩ := keyAt_of_content keyOf hcont
    exact ⟨fun he => hne (hkeys _ _ hocc hx (hkey.symm.trans he)), r i, hocc, hkey.symm, hval.symm⟩
  · rintro ⟨hne, j, hj, rfl, rfl⟩
    obtain ⟨i, hi, rfl⟩ := h.kept j (fun he => hne (by rw [he])) hj
    obtain ⟨hkey, hval⟩ := keyAt_of_content keyOf (h.old i hi).2.2
    exact ⟨i, hi, hkey, hval⟩

end Loses

end Table

end Upb
