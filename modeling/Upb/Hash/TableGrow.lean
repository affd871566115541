import Upb.Hash.TableIterate

/-!
# Growing a table before an insertion

`Loaded t` says that the table holds at most seven eighths of its size. A table that is not full and
loaded has a free entry, a full one is doubled, and doubling keeps it loaded, so an insertion after
`reserve` always finds room.
-/

namespace Upb

namespace Table

variable {κ ν ℓ : Type} {ops : KeyOps κ ν ℓ} {keyOf : κ → ν → ℓ} {hash : ℓ → ℕ} {t t' : Table κ ν}

/-- The number of entries at which a table of size `n` is full. -/
def loadLimit (n : ℕ) : ℕ := n - n >>> 3

/-- The table is within its load factor. -/
def Loaded (t : Table κ ν) : Prop := t.count ≤ loadLimit t.size

theorem loadLimit_le (n : ℕ) : loadLimit n ≤ n := Nat.sub_le _ _

/-- A table of twice the size holds more. -/
theorem loadLimit_lt_double {n : ℕ} (hn : 0 < n) : loadLimit n < loadLimit (2 * n) := by
  simp only [loadLimit, Nat.shiftRight_eq_div_pow]
  omega

/-- The population count of a mask of `k` ones. -/
theorem popcnt32_two_pow_sub_one {k : ℕ} (hk : k < 32) : popcnt32 (2 ^ k - 1) = k := by
  have hsplit : List.range 32 = List.range k ++ List.range' k (32 - k) := by
    rw [List.range_eq_range', List.range_eq_range',
      show List.range' k (32 - k) = List.range' (0 + k) (32 - k) by simp, List.range'_append_1]
    congr 1
    omega
  simp only [popcnt32, Nat.testBit_two_pow_sub_one, hsplit, List.countP_append]
  have hlow : (List.range k).countP (fun i => decide (i < k)) = (List.range k).length :=
    List.countP_eq_length.mpr fun i hi => by simpa using hi
  have hhigh : (List.range' k (32 - k)).countP (fun i => decide (i < k)) = 0 :=
    List.countP_eq_zero.mpr fun i hi => by
      have := (List.mem_range'_1.mp hi).1
      simpa using this
  rw [hlow, hhigh, List.length_range]
  rfl

/-- A doubled table keeps what is stored and has room for one more; only a table of 2^31 entries
cannot be doubled. -/
theorem reserve_spec [Inhabited ν] (hops : ops.Lawful keyOf hash) (hwf : t.Wf ops keyOf) :
    (∀ b t', t.reserve ops = some (b, t') → t'.Wf ops keyOf ∧ t'.count = t.count ∧
      (∀ l v, t'.Stored ops keyOf l v ↔ t.Stored ops keyOf l v) ∧
      (b = false → t.mask = 2 ^ 31 - 1 ∧ t.isfull = true) ∧
      (t.Loaded → t'.Loaded ∧ (b = true → t'.count < loadLimit t'.size))) ∧
    (t.reserve ops).isSome := by
  obtain ⟨k, hk, hmask⟩ := hwf.mask_eq
  have hpos := Nat.one_le_two_pow (n := k)
  have hsize : t.size = 2 ^ k := by rw [size, hmask]; omega
  rw [reserve]
  by_cases hfull : t.isfull = true
  · have hcount : t.count = loadLimit t.size := by simpa [isfull, loadLimit] using hfull
    have hlog : t.log2TableSize = k := by rw [log2TableSize, hmask, popcnt32_two_pow_sub_one hk]
    rw [if_pos hfull, hlog]
    obtain ⟨hres, hroom⟩ := resize_spec hops hwf (k + 1)
    have hlt := loadLimit_lt_double (n := 2 ^ k) hpos
    have hle := loadLimit_le (2 ^ k)
    rw [← Nat.pow_succ'] at hlt
    refine ⟨fun b t' h => ?_, hroom (by rw [hcount, hsize, Nat.pow_succ]; omega)⟩
    obtain ⟨hwf', hcount', hfalse, htrue, hstored⟩ := hres b t' h
    refine ⟨hwf', hcount', hstored, fun hb => ?_, fun hload => ?_⟩
    · obtain rfl : k = 31 := by have := (hfalse hb).1; omega
      exact ⟨hmask, hfull⟩
    cases b with
    | false =>
      rw [(hfalse rfl).2]
      exact ⟨hload, by simp⟩
    | true =>
      have hsize' : t'.size = 2 ^ (k + 1) := by
        have := Nat.one_le_two_pow (n := k + 1)
        rw [size, (htrue rfl).2]; omega
      have hroom' : t'.count < loadLimit t'.size := by rw [hcount', hcount, hsize, hsize']; exact hlt
      exact ⟨hroom'.le, fun _ => hroom'⟩
  · rw [if_neg hfull]
    refine ⟨fun b t' h => ?_, rfl⟩
    cases h
    refine ⟨hwf, rfl, fun _ _ => Iff.rfl, by simp, fun hload => ⟨hload, fun _ => ?_⟩⟩
    have hne : t.count ≠ loadLimit t.size := by simpa [isfull, loadLimit] using hfull
    exact lt_of_le_of_ne hload hne

/-- Overwriting a value in place, where the key does not depend on the value. -/
theorem setentryvalue_spec (hops : ops.Lawful keyOf hash) (hwf : t.Wf ops keyOf)
    (hkey : ∀ k v w, keyOf k v = keyOf k w) {i : ℕ} (hi : t.Occ ops i) (v : ν) :
    (t.setentryvalue i v).Wf ops keyOf ∧
    ∀ l w, (t.setentryvalue i v).Stored ops keyOf l w ↔
      (l = t.keyAt keyOf i ∧ w = v) ∨ (l ≠ t.keyAt keyOf i ∧ t.Stored ops keyOf l w) := by
  set t' := t.setentryvalue i v with ht'
  have hkeyEq : ∀ j, (t'.entries j).key = (t.entries j).key := by
    intro j
    by_cases hj : j = i <;> simp [ht', setentryvalue, hj]
  have hval : ∀ j, j ≠ i → (t'.entries j).val = (t.entries j).val := by
    intro j hj
    simp [ht', setentryvalue, hj]
  have hvali : (t'.entries i).val = v := by simp [ht', setentryvalue]
  have hempty : ∀ j, t'.isempty ops j = t.isempty ops j := fun j => by
    rw [isempty, isempty, hkeyEq]
  have hocc : t'.Occ ops = t.Occ ops := by
    funext j
    rw [Occ, Occ, hempty]
    rfl
  have hkeyAt : ∀ j, t'.keyAt keyOf j = t.keyAt keyOf j := fun j => by
    rw [keyAt, keyAt, hkeyEq]
    exact hkey _ _ _
  have hmain : ∀ j, t.Occ ops j → t'.mainpos ops j = t.mainpos ops j := by
    intro j hj
    rw [mainpos_eq hops (hocc ▸ hj), mainpos_eq hops hj, hkeyAt]
    rfl
  have hnext : t'.next = t.next := by
    funext j
    by_cases hj : j = i <;> simp [ht', setentryvalue, next, hj]
  refine ⟨⟨hwf.mask_eq, ?_, ?_, ?_⟩, fun l w => ?_⟩
  · rw [hocc, hnext]
    refine ⟨fun j hj => ?_, fun j hj hself => ?_⟩
    · obtain ⟨h1, h2⟩ := hwf.chained.head j hj
      rw [hmain j hj, hmain _ h1]
      exact ⟨h1, h2⟩
    · rw [hmain j hj] at hself
      obtain ⟨c, hseg, hnodup, hmem⟩ := hwf.chained.chain j hj hself
      refine ⟨c, hseg, hnodup, fun a => ?_⟩
      rw [hmem a]
      exact and_congr_right fun ha => by rw [hmain a ha]
  · intro a b ha hb h
    rw [hocc] at ha hb
    rw [hkeyAt, hkeyAt] at h
    exact hwf.keys a b ha hb h
  · simp only [hempty]
    exact hwf.count_eq
  · simp only [Stored, hocc, hkeyAt]
    constructor
    · rintro ⟨j, hj, rfl, rfl⟩
      by_cases hji : j = i
      · subst hji
        exact .inl ⟨rfl, hvali⟩
      · exact .inr ⟨fun he => hji (hwf.keys j i hj hi he), j, hj, rfl, (hval j hji).symm⟩
    · rintro (⟨rfl, rfl⟩ | ⟨hne, j, hj, rfl, rfl⟩)
      · exact ⟨i, hi, rfl, hvali⟩
      · exact ⟨j, hj, rfl, hval j fun he => hne (by rw [he])⟩

end Table

end Upb
