import Upb.Message.Message

/-!
# Extensions of a message

The extensions of a message are a map: writing one is seen by reads of the same extension only.
-/

namespace Upb.Message

/-- The values of one key replaced in an association list. -/
private theorem lookup_replace (l : List (ExtId × Slot)) (e e' : ExtId) (s : Slot) :
    (l.map fun x => if x.1 = e then (e, s) else x).lookup e' =
      if e' = e then (l.lookup e).map fun _ => s else l.lookup e' := by
  induction l with
  | nil => simp
  | cons x l ih =>
    obtain ⟨k, v⟩ := x
    rw [List.map_cons]
    by_cases hk : k = e
    · subst hk
      rw [if_pos rfl, List.lookup_cons, List.lookup_cons, List.lookup_cons, ih]
      by_cases he : e' = k
      · simp [he]
      · simp [he, beq_false_of_ne he]
    · rw [if_neg hk, List.lookup_cons, List.lookup_cons, List.lookup_cons, ih]
      by_cases he : e' = e
      · subst he
        simp [beq_false_of_ne (Ne.symm hk)]
      · simp [he]

/-- Reading an extension after a write. -/
theorem getext_setExt (m : Message) (e e' : ExtId) (s : Slot) :
    (m.setExt e s).getext e' = if e' = e then some s else m.getext e' := by
  rw [getext, setExt]
  simp only
  split
  · next h =>
    rw [lookup_replace]
    split
    · rw [getext] at h
      obtain ⟨v, hv⟩ := Option.isSome_iff_exists.mp h
      rw [hv]
      rfl
    · rfl
  · next h =>
    rw [getext, Option.not_isSome_iff_eq_none] at h
    rw [List.lookup_append]
    by_cases he : e' = e
    · subst he
      simp [h]
    · simp [he, getext, List.lookup_cons, beq_false_of_ne he]

/-- The last write of an extension counts. -/
theorem setExt_setExt (m : Message) (e : ExtId) (s s' : Slot) :
    (m.setExt e s).setExt e s' = m.setExt e s' := by
  have hget : ((m.setExt e s).getext e).isSome := by
    rw [getext_setExt, if_pos rfl]
    rfl
  rw [setExt, if_pos hget, setExt, setExt]
  congr 1
  simp only
  split
  · rw [List.map_map]
    refine List.map_congr_left fun x _ => ?_
    by_cases hx : x.1 = e <;> simp [hx]
  · next h =>
    rw [getext, Option.not_isSome_iff_eq_none, List.lookup_eq_none_iff] at h
    rw [List.map_append]
    congr 1
    · refine (List.map_congr_left fun x hx => ?_).trans (List.map_id _)
      have hne := h x hx
      rw [bne_iff_ne] at hne
      exact if_neg (Ne.symm hne)
    · simp

end Upb.Message
