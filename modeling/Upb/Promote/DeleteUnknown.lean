import Upb.Promote.FindUnknown

/-!
# Deleting the records of a number

Among entries that hold records, the first record of a number is the one that is found, and deleting
it leaves entries that hold the other records.
-/

namespace Upb.Promote

open Upb.Wire BoundedReader

variable {n depth : ℕ}

theorem HoldsRecords.eq_nil {recs : List (List UInt8)} (h : HoldsRecords n depth recs []) : recs = [] := by
  generalize hdata : ([] : List UInt8) = data at h
  cases h with
  | nil => rfl
  | hit htag _ _ =>
    have hpos := htag.varint.length_pos
    have hlen := congrArg List.length hdata
    simp only [List.length_append, List.length_nil] at hlen
    omega
  | miss _ htag _ _ =>
    have hpos := htag.varint.length_pos
    have hlen := congrArg List.length hdata
    simp only [List.length_append, List.length_nil] at hlen
    omega

/-- The first record of the number splits off. -/
theorem HoldsRecords.split {rec : List UInt8} {recs : List (List UInt8)} {data : List UInt8}
    (h : HoldsRecords n depth (rec :: recs) data) :
    ∃ w pre tag v post, rec = tag ++ v ∧ data = pre ++ (tag ++ v) ++ post ∧ HoldsRecords n depth [] pre ∧
      IsTag n w tag ∧ IsSkipped depth n w v ∧ HoldsRecords n depth recs post := by
  generalize hrecs : rec :: recs = all at h
  induction h with
  | nil => cases hrecs
  | @hit _ w tag v rest htag hv hrest _ =>
    cases hrecs
    exact ⟨w, [], tag, v, rest, rfl, rfl, .nil, htag, hv, hrest⟩
  | @miss _ k w tag v rest hk htag hv _ ih =>
    obtain ⟨w', pre, tag', v', post, rfl, rfl, hpre, htag', hv', hpost⟩ := ih hrecs
    refine ⟨w', tag ++ v ++ pre, tag', v', post, rfl, ?_, .miss hk htag hv hpre, htag', hv', hpost⟩
    simp only [List.append_assoc]

/-- Entries that hold records, of which these have the number. -/
inductive EntriesHold (n depth : ℕ) : List (List UInt8) → List AuxPtr → Prop
  | nil : EntriesHold n depth [] []
  | cons {recs recs' : List (List UInt8)} {p : AuxPtr} {aux : List AuxPtr}
      (hp : HoldsRecords n depth recs p.data) (haux : EntriesHold n depth recs' aux) :
      EntriesHold n depth (recs ++ recs') (p :: aux)

namespace EntriesHold

theorem append {recs recs' : List (List UInt8)} {a b : List AuxPtr} (ha : EntriesHold n depth recs a)
    (hb : EntriesHold n depth recs' b) : EntriesHold n depth (recs ++ recs') (a ++ b) := by
  induction ha with
  | nil => exact hb
  | cons hp _ ih =>
    rw [List.append_assoc]
    exact .cons hp ih

theorem singleton {recs : List (List UInt8)} {p : AuxPtr} (hp : HoldsRecords n depth recs p.data) :
    EntriesHold n depth recs [p] := by
  rw [← List.append_nil recs]
  exact .cons hp .nil

/-- What is left of an entry holds its other records. -/
theorem remainder {iter : ℕ} {recs : List (List UInt8)} {pre rec post : List UInt8}
    (hpre : HoldsRecords n depth [] pre) (hpost : HoldsRecords n depth recs post) :
    EntriesHold n depth recs (remainder (pre ++ rec ++ post) ⟨iter, pre.length, rec.length⟩) := by
  have htake : (pre ++ rec ++ post).take pre.length = pre := by
    rw [List.append_assoc, List.take_left]
  have hdrop : (pre ++ rec ++ post).drop (pre.length + rec.length) = post := by
    rw [← List.length_append, List.drop_left]
  rw [Upb.remainder]
  dsimp only
  split
  · next hwhole =>
    have hnil : post = [] := by
      have hlen := hwhole.2
      simp only [List.length_append] at hlen
      exact List.length_eq_zero_iff.mp (by omega)
    subst hnil
    obtain rfl := hpost.eq_nil
    exact .singleton .nil
  · split
    · next hzero =>
      rw [hzero, Nat.zero_add] at hdrop
      rw [hdrop]
      exact .singleton hpost
    · split
      · next hend =>
        have hnil : post = [] := by
          simp only [List.length_append] at hend
          exact List.length_eq_zero_iff.mp (by omega)
        subst hnil
        obtain rfl := hpost.eq_nil
        rw [htake]
        exact .singleton hpre
      · rw [htake, hdrop]
        exact .cons (p := .unknown pre) hpre (.singleton (p := .unknown post) hpost)

/-- The entry with the first record of the number. -/
theorem split {rec : List UInt8} {recs : List (List UInt8)} {aux : List AuxPtr}
    (h : EntriesHold n depth (rec :: recs) aux) :
    ∃ before data after recs₁ recs₂, aux = before ++ .unknown data :: after ∧
      (∀ p ∈ before, HoldsRecords n depth [] p.data) ∧ EntriesHold n depth [] before ∧
      HoldsRecords n depth (rec :: recs₁) data ∧ EntriesHold n depth recs₂ after ∧ recs = recs₁ ++ recs₂ := by
  generalize hrecs : rec :: recs = all at h
  induction h with
  | nil => cases hrecs
  | @cons recs₀ recs' p aux hp haux ih =>
    cases recs₀ with
    | nil =>
      obtain ⟨before, data, after, recs₁, recs₂, rfl, hquiet, hbefore, hdata, hafter, hsum⟩ := ih hrecs
      have hcons := EntriesHold.cons hp hbefore
      refine ⟨p :: before, data, after, recs₁, recs₂, rfl, ?_, hcons, hdata, hafter, hsum⟩
      intro q hq
      rcases List.mem_cons.mp hq with rfl | hq
      · exact hp
      · exact hquiet q hq
    | cons rec' recs₁ =>
      rw [List.cons_append] at hrecs
      cases hrecs
      cases p with
      | null => exact absurd (HoldsRecords.eq_nil hp) nofun
      | extension e => exact absurd (HoldsRecords.eq_nil hp) nofun
      | unknown data => exact ⟨[], data, aux, recs₁, recs', rfl, nofun, .nil, hp, haux, rfl⟩

/-- Without a record of the number, none is found. -/
theorem findUnknownFrom_of_nil {aux : List AuxPtr} (h : EntriesHold n depth [] aux) :
    ∀ i, findUnknownFrom n depth i aux = .notPresent := by
  generalize hrecs : ([] : List (List UInt8)) = recs at h
  induction h with
  | nil => exact fun i => rfl
  | @cons recs recs' p aux hp _ ih =>
    intro i
    obtain ⟨rfl, rfl⟩ := List.append_eq_nil_iff.mp hrecs.symm
    cases p with
    | null => exact ih rfl (i + 1)
    | extension e => exact ih rfl (i + 1)
    | unknown data =>
      obtain ⟨r, hloop⟩ := findRecord_none hp data.length (.init 0 data) rfl le_rfl le_rfl
      have hrec : findRecord stream data.length depth n (.init 0 data) = .ok (none, r) := hloop
      rw [findUnknownFrom, hrec]
      exact ih rfl (i + 1)

/-- The first record of the number is found, and deleting it leaves the others. -/
theorem findUnknown {rec : List UInt8} {recs : List (List UInt8)} {aux : List AuxPtr}
    (h : EntriesHold n depth (rec :: recs) aux) (depthLimit : ℕ)
    (hlimit : (if depthLimit ≠ 0 then depthLimit else 100) = depth) :
    ∃ found, Promote.findUnknown aux n depthLimit = .ok found ∧ recordOf aux found = rec ∧
      ∀ alloc, (deleteUnknown aux found alloc = none ∧ alloc = false) ∨
        ∃ aux', deleteUnknown aux found alloc = some aux' ∧ EntriesHold n depth recs aux' := by
  obtain ⟨before, data, after, recs₁, recs₂, rfl, hquiet, hbefore, hdata, hafter, rfl⟩ := h.split
  obtain ⟨w, pre, tag, v, post, rfl, rfl, hpre, htag, hv, hpost⟩ := hdata.split
  have hpos : 0 < (tag ++ v).length := by
    have := htag.varint.length_pos
    rw [List.length_append]
    omega
  have hin : FindUnknownRet.IsIn ⟨before.length + 1, pre.length, (tag ++ v).length⟩ before
      (pre ++ (tag ++ v) ++ post) :=
    ⟨rfl, by simp only [List.length_append]; omega, hpos⟩
  refine ⟨⟨before.length + 1, pre.length, (tag ++ v).length⟩, ?_, ?_, fun alloc => ?_⟩
  · have hfound : findUnknownFrom n depth 0 (before ++ .unknown (pre ++ (tag ++ v) ++ post) :: after) =
        .ok ⟨0 + before.length + 1, pre.length, (tag ++ v).length⟩ :=
      findUnknownFrom_of_foundAt hpre htag hv hquiet
    rw [Promote.findUnknown, hlimit, hfound, Nat.zero_add]
  · have hget : (before ++ .unknown (pre ++ (tag ++ v) ++ post) :: after)[before.length]? =
        some (.unknown (pre ++ (tag ++ v) ++ post)) := by simp
    rw [recordOf, Nat.add_sub_cancel, hget]
    change ((pre ++ (tag ++ v) ++ post).drop pre.length).take (tag ++ v).length = tag ++ v
    rw [List.append_assoc, List.drop_left, List.take_left]
  · rw [deleteUnknown_eq hin]
    split
    · next hnone => exact .inl ⟨rfl, hnone.2.2⟩
    · have hrem : EntriesHold n depth recs₁ (Upb.remainder (pre ++ (tag ++ v) ++ post)
          ⟨before.length + 1, pre.length, (tag ++ v).length⟩) := .remainder hpre hpost
      exact .inr ⟨_, rfl, (hbefore.append hrem).append hafter⟩

end EntriesHold

end Upb.Promote
