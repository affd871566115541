import Upb.Common.StableSort
import Upb.Compare.UnknownFields

/-!
# What the merge sort sorts

A merge that comes to the end of its first run copies the rest of the second run from its start and
not from where it stands. It is right if it has taken nothing of the second run by then, or all of
it; otherwise its result is not even sorted. So the sort gives the stable sort, or a list that is not
sorted.
-/

namespace Upb.Compare

open Upb.Common UnknownField

/-- The merge of two runs does not end inside the second one: no tag of the second run is smaller than
one of the first, or all of them are smaller than one of the first. -/
def MergesWhole (run₁ run₂ : List UnknownField) : Prop :=
  (∀ f ∈ run₁, ∀ g ∈ run₂, f.tag ≤ g.tag) ∨ ∃ f ∈ run₁, ∀ g ∈ run₂, g.tag < f.tag

/-- This holds of all merges when records are sorted. -/
def SortsWhole (arr : List UnknownField) : Prop :=
  if 1 < arr.length then
    let mid := arr.length / 2
    SortsWhole (arr.take mid) ∧ SortsWhole (arr.drop mid) ∧ MergesWhole (arr.take mid) (arr.drop mid)
  else True
termination_by arr.length
decreasing_by
  · rw [List.length_take]
    omega
  · rw [List.length_drop]
    omega

section MergeLoop

variable {run₁ run₂ out rest₁ rest₂ : List UnknownField}

/-- The results of the loop. -/
theorem exists_mergeLoop (run₁ run₂ : List UnknownField) :
    ∃ out rest₁ rest₂, mergeLoop run₁ run₂ = (out, rest₁, rest₂) := ⟨_, _, _, rfl⟩

/-- The loop starts the stable merge; what it leaves comes behind it. -/
theorem mergeLoop_append (h : mergeLoop run₁ run₂ = (out, rest₁, rest₂)) :
    run₁.merge run₂ (keyLe tag) = out ++ (rest₁ ++ rest₂) := by
  fun_induction mergeLoop run₁ run₂ generalizing out with
  | case1 f fs g gs hle out' r₁ r₂ heq ih =>
    cases h
    rw [List.cons_merge_cons, if_pos (by simpa [keyLe] using hle), ih heq]
    rfl
  | case2 f fs g gs hle out' r₁ r₂ heq ih =>
    cases h
    rw [List.cons_merge_cons, if_neg (by simpa [keyLe] using hle), ih heq]
    rfl
  | case3 fs gs hnil =>
    cases h
    cases rest₁ with
    | nil => simp
    | cons f fs =>
      cases rest₂ with
      | nil => simp
      | cons g gs => exact (hnil f fs g gs rfl rfl).elim

/-- One of the runs is used up, and only one. -/
theorem mergeLoop_rest (h : mergeLoop run₁ run₂ = (out, rest₁, rest₂)) :
    (rest₁ = [] ∨ rest₂ = []) ∧ (run₁ ≠ [] → run₂ ≠ [] → rest₁ ≠ [] ∨ rest₂ ≠ []) := by
  fun_induction mergeLoop run₁ run₂ generalizing out with
  | case1 f fs g gs hle out' r₁ r₂ heq ih =>
    cases h
    obtain ⟨hone, hleft⟩ := ih heq
    refine ⟨hone, fun _ _ => ?_⟩
    cases fs with
    | nil =>
      rw [mergeLoop] at heq
      · cases heq
        exact .inr (List.cons_ne_nil _ _)
      · exact nofun
    | cons f' fs => exact hleft (List.cons_ne_nil _ _) (List.cons_ne_nil _ _)
  | case2 f fs g gs hle out' r₁ r₂ heq ih =>
    cases h
    obtain ⟨hone, hleft⟩ := ih heq
    refine ⟨hone, fun _ _ => ?_⟩
    cases gs with
    | nil =>
      rw [mergeLoop] at heq
      · cases heq
        exact .inl (List.cons_ne_nil _ _)
      · exact nofun
    | cons g' gs => exact hleft (List.cons_ne_nil _ _) (List.cons_ne_nil _ _)
  | case3 fs gs hnil =>
    cases h
    cases rest₁ with
    | nil => exact ⟨.inl rfl, fun h => absurd rfl h⟩
    | cons f fs =>
      cases rest₂ with
      | nil => exact ⟨.inr rfl, fun _ h => absurd rfl h⟩
      | cons g gs => exact (hnil f fs g gs rfl rfl).elim

/-- What the loop takes of the first run. -/
theorem mergeLoop_first (h : mergeLoop run₁ run₂ = (out, rest₁, rest₂)) :
    (∀ f ∈ run₁, f ∈ out ∨ f ∈ rest₁) ∧ ∀ f ∈ rest₁, f ∈ run₁ := by
  fun_induction mergeLoop run₁ run₂ generalizing out with
  | case1 f fs g gs hle out' r₁ r₂ heq ih =>
    cases h
    obtain ⟨htaken, hrest⟩ := ih heq
    refine ⟨fun x hx => ?_, fun x hx => List.mem_cons_of_mem _ (hrest x hx)⟩
    rcases List.mem_cons.mp hx with rfl | hx
    · exact .inl List.mem_cons_self
    · exact (htaken x hx).imp_left (List.mem_cons_of_mem _)
  | case2 f fs g gs hle out' r₁ r₂ heq ih =>
    cases h
    obtain ⟨htaken, hrest⟩ := ih heq
    exact ⟨fun x hx => (htaken x hx).imp_left (List.mem_cons_of_mem _), hrest⟩
  | case3 fs gs hnil =>
    cases h
    exact ⟨fun _ => .inr, fun _ => id⟩

/-- What the loop takes of the second run: a record that it takes first is smaller than one of the
first run, and all of them are smaller than what is left of it. -/
theorem mergeLoop_second (h : mergeLoop run₁ run₂ = (out, rest₁, rest₂)) :
    ∃ taken, run₂ = taken ++ rest₂ ∧ (taken = [] → out ++ rest₁ = run₁) ∧
      (∀ g ∈ taken.head?, ∃ f ∈ run₁, g.tag < f.tag) ∧
      (SortedBy tag run₁ → ∀ g ∈ taken, ∀ f ∈ rest₁, g.tag < f.tag) := by
  fun_induction mergeLoop run₁ run₂ generalizing out with
  | case1 f fs g gs hle out' r₁ r₂ heq ih =>
    cases h
    obtain ⟨taken, htaken, hnone, hfirst, hall⟩ := ih heq
    refine ⟨taken, htaken, fun h => by rw [List.cons_append, hnone h], fun x hx => ?_,
      fun hs => hall hs.of_cons⟩
    obtain ⟨y, hy, hlt⟩ := hfirst x hx
    exact ⟨y, List.mem_cons_of_mem _ hy, hlt⟩
  | case2 f fs g gs hle out' r₁ r₂ heq ih =>
    cases h
    obtain ⟨taken, htaken, -, -, hall⟩ := ih heq
    refine ⟨g :: taken, by rw [htaken, List.cons_append], fun hnil => (List.cons_ne_nil _ _ hnil).elim,
      ?_, fun hs x hx y hy => ?_⟩
    · rintro x ⟨⟩
      exact ⟨f, List.mem_cons_self, by omega⟩
    · rcases List.mem_cons.mp hx with rfl | hx
      · have hfy : f.tag ≤ y.tag := by
          rcases List.mem_cons.mp ((mergeLoop_first heq).2 y hy) with rfl | hy
          · exact Nat.le_refl _
          · exact List.rel_of_pairwise_cons hs hy
        omega
      · exact hall hs x hx y hy
  | case3 fs gs hnil =>
    cases h
    exact ⟨[], rfl, fun _ => rfl, nofun, fun _ => nofun⟩

end MergeLoop

section Merge

variable {run₁ run₂ out rest₁ rest₂ : List UnknownField}

theorem merge_of_rest_first (h : mergeLoop run₁ run₂ = (out, rest₁, rest₂)) (hrest : rest₁ ≠ []) :
    merge run₁ run₂ = out ++ rest₁ := by
  rw [merge, h]
  exact if_pos hrest

theorem merge_of_rest_second (h : mergeLoop run₁ run₂ = (out, [], rest₂)) :
    merge run₁ run₂ = out ++ run₂.take rest₂.length := by
  rw [merge, h]
  cases rest₂ with
  | nil => simp
  | cons g gs => simp

theorem length_merge (run₁ run₂ : List UnknownField) :
    (merge run₁ run₂).length = run₁.length + run₂.length := by
  obtain ⟨out, rest₁, rest₂, h⟩ := exists_mergeLoop run₁ run₂
  have hlen := congrArg List.length (mergeLoop_append h)
  rw [List.length_merge, List.length_append, List.length_append] at hlen
  by_cases hrest : rest₁ = []
  · subst hrest
    obtain ⟨taken, htaken, -⟩ := mergeLoop_second h
    have htake := congrArg List.length htaken
    rw [List.length_append] at htake
    rw [merge_of_rest_second h, List.length_append, List.length_take]
    simp only [List.length_nil] at hlen
    omega
  · rw [merge_of_rest_first h hrest, List.length_append, hlen,
      (mergeLoop_rest h).1.resolve_left hrest, List.length_nil]
    omega

/-- The merge of sorted runs that does not end inside the second one is the stable merge. -/
theorem merge_eq (h₁ : SortedBy tag run₁) (h₂ : SortedBy tag run₂) (hwhole : MergesWhole run₁ run₂) :
    merge run₁ run₂ = run₁.merge run₂ (keyLe tag) := by
  obtain ⟨out, rest₁, rest₂, h⟩ := exists_mergeLoop run₁ run₂
  have happend := mergeLoop_append h
  by_cases hrest : rest₁ = []
  · subst hrest
    obtain ⟨taken, htaken, hnone, hfirst, -⟩ := mergeLoop_second h
    rw [List.nil_append] at happend
    rw [merge_of_rest_second h, happend]
    cases taken with
    | nil => rw [htaken, List.nil_append, List.take_length]
    | cons g taken =>
      obtain ⟨f, hf, hlt⟩ := hfirst g rfl
      cases rest₂ with
      | nil => simp
      | cons x rest =>
        -- the record `x` is not taken, and the first run is used up
        have hx : x ∈ run₂ := by simp [htaken]
        have hsorted : SortedBy tag (out ++ x :: rest) := by
          rw [← happend, sortedBy_iff]
          exact List.pairwise_merge keyLe_trans keyLe_total _ _ (sortedBy_iff.mp h₁)
            (sortedBy_iff.mp h₂)
        have hle : ∀ y ∈ run₁, y.tag ≤ x.tag := by
          intro y hy
          have hout : y ∈ out := ((mergeLoop_first h).1 y hy).resolve_right (by simp)
          exact (List.pairwise_append.mp hsorted).2.2 y hout x List.mem_cons_self
        rcases hwhole with hall | ⟨y, hy, hall⟩
        · have := hall f hf g (by simp [htaken])
          omega
        · have := hle y hy
          have := hall x hx
          omega
  · rw [merge_of_rest_first h hrest, happend, (mergeLoop_rest h).1.resolve_left hrest,
      List.append_nil]

/-- If the result of a merge is sorted, then the runs are, and the merge does not end inside of the
second one. -/
theorem of_sortedBy_merge (hne₁ : run₁ ≠ []) (hne₂ : run₂ ≠ []) (hs : SortedBy tag (merge run₁ run₂)) :
    SortedBy tag run₁ ∧ SortedBy tag run₂ ∧ MergesWhole run₁ run₂ := by
  obtain ⟨out, rest₁, rest₂, h⟩ := exists_mergeLoop run₁ run₂
  obtain ⟨taken, htaken, hnone, hfirst, hall⟩ := mergeLoop_second h
  by_cases hrest : rest₁ = []
  · subst hrest
    rw [merge_of_rest_second h] at hs
    cases taken with
    | nil =>
      obtain rfl : run₂ = rest₂ := htaken
      rw [List.take_length, ← List.append_nil out, hnone rfl] at hs
      obtain ⟨hs₁, hs₂, hle⟩ := List.pairwise_append.mp hs
      exact ⟨hs₁, hs₂, .inl hle⟩
    | cons g taken =>
      -- the first record of the second run comes once more, behind a greater one
      obtain ⟨f, hf, hlt⟩ := hfirst g rfl
      have hout : f ∈ out := ((mergeLoop_first h).1 f hf).resolve_right (by simp)
      have hrest₂ : rest₂ ≠ [] := ((mergeLoop_rest h).2 hne₁ hne₂).resolve_left (by simp)
      have hg : g ∈ run₂.take rest₂.length := by
        rw [htaken, List.cons_append, List.take_cons (List.length_pos_iff.mpr hrest₂)]
        exact List.mem_cons_self
      have := (List.pairwise_append.mp hs).2.2 f hout g hg
      omega
  · obtain rfl := (mergeLoop_rest h).1.resolve_left hrest
    rw [List.append_nil] at htaken
    subst htaken
    have heq : merge run₁ run₂ = run₁.merge run₂ (keyLe tag) := by
      rw [merge_of_rest_first h hrest, mergeLoop_append h, List.append_nil]
    rw [heq] at hs
    have hs₁ : SortedBy tag run₁ := hs.sublist (sublist_merge _ _ _).1
    have hs₂ : SortedBy tag run₂ := hs.sublist (sublist_merge _ _ _).2
    obtain ⟨f, rest, rfl⟩ := List.exists_cons_of_ne_nil hrest
    have hf : f ∈ run₁ := (mergeLoop_first h).2 f List.mem_cons_self
    exact ⟨hs₁, hs₂, .inr ⟨f, hf, fun g hg => hall hs₁ g hg f List.mem_cons_self⟩⟩

end Merge

section SortRecursive

variable {arr : List UnknownField}

/-- The condition on two runs depends on their records only, not on the order. -/
theorem MergesWhole.congr {run₁ run₂ run₁' run₂' : List UnknownField}
    (h : MergesWhole run₁ run₂) (h₁ : ∀ f, f ∈ run₁ ↔ f ∈ run₁') (h₂ : ∀ f, f ∈ run₂ ↔ f ∈ run₂') :
    MergesWhole run₁' run₂' := by
  simpa only [MergesWhole, h₁, h₂] using h

theorem length_sortRecursive (arr : List UnknownField) : (sortRecursive arr).length = arr.length := by
  fun_induction sortRecursive arr with
  | case1 arr hlen mid ih₁ ih₂ =>
    rw [length_merge, ih₁, ih₂, ← List.length_append, List.take_append_drop]
  | case2 arr hlen => rfl

/-- If no merge ends inside its second run, the result is the stable sort. -/
theorem sortRecursive_eq (h : SortsWhole arr) : sortRecursive arr = stableSort tag arr := by
  fun_induction sortRecursive arr with
  | case1 arr hlen mid ih₁ ih₂ =>
    rw [SortsWhole, if_pos hlen] at h
    obtain ⟨h₁, h₂, hwhole⟩ := h
    rw [ih₁ h₁, ih₂ h₂]
    have hs₁ : SortedBy tag (stableSort tag (arr.take mid)) := sortedBy_stableSort _
    have hs₂ : SortedBy tag (stableSort tag (arr.drop mid)) := sortedBy_stableSort _
    have hwhole' : MergesWhole (stableSort tag (arr.take mid)) (stableSort tag (arr.drop mid)) :=
      hwhole.congr (fun _ => (stableSort_perm _).mem_iff.symm)
        fun _ => (stableSort_perm _).mem_iff.symm
    rw [merge_eq hs₁ hs₂ hwhole']
    apply eq_stableSort
    · exact sortedBy_iff.mpr (List.pairwise_merge keyLe_trans keyLe_total _ _
        (sortedBy_iff.mp hs₁) (sortedBy_iff.mp hs₂))
    · intro k
      rw [withKey_merge k hs₁, withKey_stableSort, withKey_stableSort, withKey, withKey,
        ← List.filter_append, List.take_append_drop]
      rfl
  | case2 arr hlen =>
    refine eq_stableSort ?_ fun _ => rfl
    cases arr with
    | nil => exact List.Pairwise.nil
    | cons f fs =>
      obtain rfl : fs = [] := List.eq_nil_of_length_eq_zero (by simpa using hlen)
      exact List.pairwise_singleton _ f

/-- If the result is sorted, no merge ended inside its second run. -/
theorem sortsWhole_of_sortedBy (h : SortedBy tag (sortRecursive arr)) : SortsWhole arr := by
  fun_induction sortRecursive arr with
  | case1 arr hlen mid ih₁ ih₂ =>
    have hne : ∀ l : List UnknownField, 0 < l.length → sortRecursive l ≠ [] := by
      intro l hl
      rw [← List.length_pos_iff, length_sortRecursive]
      exact hl
    have hmid : mid = arr.length / 2 := rfl
    obtain ⟨hs₁, hs₂, hwhole⟩ := of_sortedBy_merge
      (hne _ (by rw [List.length_take]; omega)) (hne _ (by rw [List.length_drop]; omega)) h
    rw [SortsWhole, if_pos hlen]
    refine ⟨ih₁ hs₁, ih₂ hs₂, hwhole.congr (fun f => ?_) fun f => ?_⟩
    · rw [sortRecursive_eq (ih₁ hs₁)]
      exact (stableSort_perm _).mem_iff
    · rw [sortRecursive_eq (ih₂ hs₂)]
      exact (stableSort_perm _).mem_iff
  | case2 arr hlen =>
    rw [SortsWhole, if_neg hlen]
    trivial

/-- Records in order are sorted. -/
theorem sortsWhole_of_sorted (h : SortedBy tag arr) : SortsWhole arr := by
  fun_induction SortsWhole arr with
  | case1 arr hlen mid ih₁ ih₂ =>
    have happend : SortedBy tag (arr.take mid ++ arr.drop mid) := by rwa [List.take_append_drop]
    obtain ⟨h₁, h₂, hle⟩ := List.pairwise_append.mp happend
    exact ⟨ih₁ h₁, ih₂ h₂, .inl hle⟩
  | case2 arr hlen => trivial

theorem mergesWhole_map (φ : UnknownField → UnknownField) (hφ : ∀ f, (φ f).tag = f.tag)
    {run₁ run₂ : List UnknownField} :
    MergesWhole (run₁.map φ) (run₂.map φ) ↔ MergesWhole run₁ run₂ := by
  simp [MergesWhole, hφ]

/-- The condition depends on the tags only. -/
theorem sortsWhole_map (φ : UnknownField → UnknownField) (hφ : ∀ f, (φ f).tag = f.tag) :
    SortsWhole (arr.map φ) ↔ SortsWhole arr := by
  fun_induction SortsWhole arr with
  | case1 arr hlen mid ih₁ ih₂ =>
    have hmid : (arr.map φ).length / 2 = mid := by rw [List.length_map]
    rw [SortsWhole, if_pos (by rwa [List.length_map]), hmid]
    dsimp only
    rw [← List.map_take, ← List.map_drop, ih₁, ih₂]
    rw [mergesWhole_map φ hφ]
  | case2 arr hlen =>
    rw [SortsWhole, if_neg (by rwa [List.length_map])]

end SortRecursive

/-- A builder that claims its records to be in order is right. -/
def Builder.Ok (b : Builder) : Prop :=
  b.sorted = true → SortedBy tag b.fields ∧ ∀ f ∈ b.fields, f.tag ≤ b.lastTag

theorem Builder.ok_init : Builder.init.Ok := fun _ => ⟨List.Pairwise.nil, nofun⟩

theorem Builder.Ok.add {b : Builder} (h : b.Ok) (f : UnknownField) : (b.add f).Ok := by
  intro hsorted
  obtain ⟨hb, hle⟩ := Bool.and_eq_true_iff.mp hsorted
  obtain ⟨hfields, hlast⟩ := h hb
  have hle' : b.lastTag ≤ f.tag := of_decide_eq_true hle
  constructor
  · refine List.pairwise_append.mpr ⟨hfields, List.pairwise_singleton _ f, fun g hg x hx => ?_⟩
    rw [List.mem_singleton.mp hx]
    exact (hlast g hg).trans hle'
  · intro g hg
    rcases List.mem_append.mp hg with hg | hg
    · exact (hlast g hg).trans hle'
    · rw [List.mem_singleton.mp hg]
      exact Nat.le_refl _

/-- The builder after so many records. -/
theorem Builder.foldl_add (b : Builder) (fs : List UnknownField) :
    (fs.foldl Builder.add b).fields = b.fields ++ fs ∧ (b.Ok → (fs.foldl Builder.add b).Ok) := by
  induction fs generalizing b with
  | nil => exact ⟨(List.append_nil _).symm, id⟩
  | cons f fs ih =>
    obtain ⟨hfields, hok⟩ := ih (b.add f)
    refine ⟨?_, fun h => hok (h.add f)⟩
    rw [List.foldl_cons, hfields]
    exact List.append_assoc ..

/-- What is built from records: they are sorted unless they are in order. -/
def buildSort (fs : List UnknownField) : List UnknownField := (fs.foldl Builder.add .init).doBuild

theorem buildSort_eq_or (fs : List UnknownField) :
    (buildSort fs = fs ∧ SortedBy tag fs) ∨ buildSort fs = sortRecursive fs := by
  obtain ⟨hfields, hok⟩ := Builder.init.foldl_add fs
  have hfields : (fs.foldl Builder.add .init).fields = fs := hfields
  have hok := hok Builder.ok_init
  rw [buildSort, Builder.doBuild]
  split
  · next hsorted =>
    refine .inl ⟨hfields, ?_⟩
    rw [← hfields]
    exact (hok hsorted).1
  · rw [hfields]
    exact .inr rfl

theorem buildSort_eq {fs : List UnknownField} (h : SortsWhole fs) :
    buildSort fs = stableSort tag fs := by
  rcases buildSort_eq_or fs with ⟨heq, hsorted⟩ | heq
  · rw [heq]
    exact eq_stableSort hsorted fun _ => rfl
  · rw [heq, sortRecursive_eq h]

theorem sortsWhole_of_buildSort {fs : List UnknownField} (h : SortedBy tag (buildSort fs)) :
    SortsWhole fs := by
  rcases buildSort_eq_or fs with ⟨-, hsorted⟩ | heq
  · exact sortsWhole_of_sorted hsorted
  · rw [heq] at h
    exact sortsWhole_of_sortedBy h

end Upb.Compare
