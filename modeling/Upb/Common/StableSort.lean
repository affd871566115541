import Mathlib.Data.List.Basic
import Mathlib.Data.Nat.Notation

/-!
# Stable sorting by a key

The stable sort of a list is the one sorted list that keeps, for every key, the elements with that
key in their order.
-/

namespace Upb.Common

variable {α : Type*} (key : α → ℕ)

/-- The keys do not decrease along the list. -/
def SortedBy (l : List α) : Prop := l.Pairwise fun a b => key a ≤ key b

/-- The order of two elements by their keys. -/
def keyLe (a b : α) : Bool := decide (key a ≤ key b)

/-- The stable sort. -/
def stableSort (l : List α) : List α := l.mergeSort (keyLe key)

/-- The elements with one key, in their order. -/
def withKey (k : ℕ) (l : List α) : List α := l.filter fun a => key a = k

variable {key}

theorem keyLe_trans (a b c : α) (hab : keyLe key a b = true) (hbc : keyLe key b c = true) :
    keyLe key a c = true := by
  simp only [keyLe, decide_eq_true_eq] at *
  omega

theorem keyLe_total (a b : α) : (keyLe key a b || keyLe key b a) = true := by
  simp only [keyLe, Bool.or_eq_true, decide_eq_true_eq]
  omega

/-- Being sorted, in terms of the order that is passed to the sorting functions. -/
theorem sortedBy_iff {l : List α} : SortedBy key l ↔ l.Pairwise fun a b => keyLe key a b = true := by
  simp only [SortedBy, keyLe, decide_eq_true_eq]

theorem sortedBy_stableSort (l : List α) : SortedBy key (stableSort key l) :=
  sortedBy_iff.mpr (List.pairwise_mergeSort keyLe_trans keyLe_total l)

theorem stableSort_perm (l : List α) : (stableSort key l).Perm l := List.mergeSort_perm l _

/-- The sort is stable. -/
theorem withKey_stableSort (k : ℕ) (l : List α) :
    withKey key k (stableSort key l) = withKey key k l := by
  have hsorted : (withKey key k l).Pairwise fun a b => keyLe key a b = true := by
    rw [List.pairwise_iff_forall_sublist]
    intro a b hab
    have ha := hab.subset (List.mem_cons_self : a ∈ [a, b])
    have hb := hab.subset (show b ∈ [a, b] by simp)
    simp only [withKey, List.mem_filter, decide_eq_true_eq] at ha hb
    simp only [keyLe, decide_eq_true_eq]
    omega
  have hsub : (withKey key k l).Sublist (stableSort key l) :=
    List.sublist_mergeSort keyLe_trans keyLe_total hsorted List.filter_sublist
  have hfilter : (withKey key k l).Sublist (withKey key k (stableSort key l)) := by
    have := hsub.filter fun a => decide (key a = k)
    simpa [withKey, List.filter_filter] using this
  exact (hfilter.eq_of_length ((stableSort_perm l).filter _).length_eq.symm).symm

/-- A merge keeps the order of the elements with one key. -/
theorem withKey_merge (k : ℕ) {l r : List α} (hl : SortedBy key l) :
    withKey key k (l.merge r (keyLe key)) = withKey key k l ++ withKey key k r := by
  induction l generalizing r with
  | nil => simp [withKey]
  | cons a l ihl =>
    induction r with
    | nil => simp [withKey]
    | cons b r ihr =>
      rw [List.cons_merge_cons]
      by_cases hab : keyLe key a b = true
      · rw [if_pos hab]
        have := ihl hl.of_cons (r := b :: r)
        simp only [withKey, List.filter_cons] at this ⊢
        split <;> simp [this]
      · rw [if_neg hab]
        by_cases hb : key b = k
        · -- no element of the first list has the key of `b`
          have hnone : withKey key k (a :: l) = [] := by
            rw [withKey, List.filter_eq_nil_iff]
            intro c hc
            simp only [keyLe, decide_eq_true_eq] at hab
            rcases List.mem_cons.mp hc with rfl | hc
            · simp only [decide_eq_true_eq]
              omega
            · have := List.rel_of_pairwise_cons hl hc
              simp only [decide_eq_true_eq]
              omega
          rw [hnone, List.nil_append] at ihr ⊢
          simp only [withKey, List.filter_cons, hb, decide_true, if_true] at ihr ⊢
          rw [ihr]
        · simp only [withKey, List.filter_cons (x := b), hb, decide_false, Bool.false_eq_true,
            if_false] at ihr ⊢
          exact ihr

/-- A merge keeps the order of both lists. -/
theorem sublist_merge (le : α → α → Bool) (l r : List α) :
    l.Sublist (l.merge r le) ∧ r.Sublist (l.merge r le) := by
  induction l generalizing r with
  | nil => simp
  | cons a l ihl =>
    induction r with
    | nil => simp
    | cons b r ihr =>
      rw [List.cons_merge_cons]
      split
      · exact ⟨(ihl _).1.cons_cons a, (ihl _).2.cons a⟩
      · exact ⟨ihr.1.cons b, ihr.2.cons_cons b⟩

/-- A sorted list is determined by the elements of each key. -/
theorem eq_of_withKey_eq {l r : List α} (hl : SortedBy key l) (hr : SortedBy key r)
    (h : ∀ k, withKey key k l = withKey key k r) : l = r := by
  induction l generalizing r with
  | nil =>
    cases r with
    | nil => rfl
    | cons b r => simpa [withKey] using h (key b)
  | cons a l ih =>
    cases r with
    | nil => simpa [withKey] using h (key a)
    | cons b r =>
      have ha : a ∈ b :: r := by
        have : a ∈ withKey key (key a) (b :: r) := h (key a) ▸ by simp [withKey]
        exact (List.mem_filter.mp this).1
      have hb : b ∈ a :: l := by
        have : b ∈ withKey key (key b) (a :: l) := h (key b) ▸ by simp [withKey]
        exact (List.mem_filter.mp this).1
      have hkey : key a = key b := by
        have hab : key a ≤ key b := by
          rcases List.mem_cons.mp hb with rfl | hb
          · exact Nat.le_refl _
          · exact List.rel_of_pairwise_cons hl hb
        have hba : key b ≤ key a := by
          rcases List.mem_cons.mp ha with rfl | ha
          · exact Nat.le_refl _
          · exact List.rel_of_pairwise_cons hr ha
        omega
      have hhead : a = b := by
        have := h (key a)
        simp only [withKey, List.filter_cons, hkey, decide_true, if_true] at this
        exact (List.cons.inj this).1
      subst hhead
      congr 1
      apply ih hl.of_cons hr.of_cons
      intro k
      have := h k
      simp only [withKey, List.filter_cons] at this ⊢
      split at this
      · exact (List.cons.inj this).2
      · exact this

/-- A sorted list with the same elements of each key is the stable sort. -/
theorem eq_stableSort {l r : List α} (hr : SortedBy key r)
    (h : ∀ k, withKey key k r = withKey key k l) : r = stableSort key l :=
  eq_of_withKey_eq hr (sortedBy_stableSort l) fun k => by rw [h, withKey_stableSort]

end Upb.Common
