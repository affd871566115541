import Upb.Common.Chain

/-!
# Chained scatter: chains threaded through one array of slots

Slots are values of `α`; `occ` says which are in use, `main i` is the slot that the content of `i`
hashes to and `next` threads the chains. `Chained occ main next` says that the slot an occupied slot
hashes to is occupied by content of its own, and that the chain starting there visits exactly the
slots that hash to it. Free slots may keep any successor.

The five updates below are the only ways in which an insertion or a removal changes such an array:
a fresh head, a node behind a head, an eviction of a foreign node, the removal of a lone head, and
the unlinking of a node behind another one.
-/

namespace Upb.Common

variable {α : Type*} {occ occ' : α → Prop} {main main' : α → α} {next next' : α → Option α}

/-- Every chain starts at its own main slot and holds exactly the slots hashing there. -/
structure Chained (occ : α → Prop) (main : α → α) (next : α → Option α) : Prop where
  head : ∀ i, occ i → occ (main i) ∧ main (main i) = main i
  chain : ∀ h, occ h → main h = h →
    ∃ c, Seg next (some h) c none ∧ c.Nodup ∧ ∀ i, i ∈ c ↔ occ i ∧ main i = h

/-- The successors of free slots do not matter. -/
theorem Chained.congr (hc : Chained occ main next) (hnext : ∀ i, occ i → next' i = next i) :
    Chained occ main next' where
  head := hc.head
  chain h hh hself := by
    obtain ⟨c, hseg, hnodup, hmem⟩ := hc.chain h hh hself
    exact ⟨c, hseg.congr fun a ha => hnext a ((hmem a).mp ha).1, hnodup, hmem⟩

/-- From any occupied slot the rest of its chain can be followed to the end. -/
theorem Chained.rest (hc : Chained occ main next) {e : α} (he : occ e) :
    ∃ c, Seg next (some e) c none ∧ c.Nodup ∧ (∀ i ∈ c, occ i ∧ main i = main e) ∧
      (main e = e → ∀ i, occ i → main i = e → i ∈ c) := by
  obtain ⟨hocc, hmain⟩ := hc.head e he
  obtain ⟨c, hseg, hnodup, hmem⟩ := hc.chain (main e) hocc hmain
  obtain ⟨l, r, rfl⟩ := List.append_of_mem ((hmem e).mpr ⟨he, rfl⟩)
  obtain ⟨u, -, hr⟩ := seg_append.mp hseg
  obtain rfl := hr.head_eq
  refine ⟨e :: r, hr, (List.nodup_append.mp hnodup).2.1, ?_, ?_⟩
  · intro i hi
    exact (hmem i).mp (List.mem_append_right l hi)
  · intro hself i hi hmi
    -- `e` is its own main slot, so it heads the chain and nothing stands before it
    rw [hself] at hseg
    cases l with
    | nil => exact (hmem i).mpr ⟨hi, hmi.trans hself.symm⟩
    | cons b l =>
      have hb : e = b := Option.some.inj hseg.head_eq
      subst hb
      simp at hnodup

/-- The slot before a node that does not head its chain. -/
theorem Chained.exists_pred (hc : Chained occ main next) {p : α} (hp : occ p) (hne : main p ≠ p) :
    ∃ l prev r, Seg next (some (main p)) (l ++ prev :: p :: r) none ∧
      (l ++ prev :: p :: r).Nodup ∧ ∀ i, i ∈ l ++ prev :: p :: r ↔ occ i ∧ main i = main p := by
  obtain ⟨hocc, hmain⟩ := hc.head p hp
  obtain ⟨c, hseg, hnodup, hmem⟩ := hc.chain (main p) hocc hmain
  obtain ⟨l, r, rfl⟩ := List.append_of_mem ((hmem p).mpr ⟨hp, rfl⟩)
  obtain rfl | ⟨l, prev, rfl⟩ := List.eq_nil_or_concat l
  · exact absurd (Option.some.inj hseg.head_eq) hne
  · simp only [List.concat_eq_append, List.append_assoc, List.singleton_append] at hseg hnodup hmem
    exact ⟨l, prev, r, hseg, hnodup, hmem⟩

/-- A fresh head in a free slot. -/
theorem Chained.insertHead (hc : Chained occ main next) {p : α} (hp : ¬ occ p)
    (hocc : ∀ i, occ' i ↔ occ i ∨ i = p) (hself : main' p = p)
    (hmain : ∀ i, i ≠ p → main' i = main i) (hnil : next' p = none)
    (hnext : ∀ i, i ≠ p → next' i = next i) : Chained occ' main' next' := by
  have hne : ∀ i, occ i → i ≠ p := fun i hi h => hp (h ▸ hi)
  have hmne : ∀ i, occ i → main i ≠ p := fun i hi => hne _ (hc.head i hi).1
  constructor
  · intro i hi
    rcases (hocc i).mp hi with hi | rfl
    · obtain ⟨h1, h2⟩ := hc.head i hi
      rw [hmain i (hne i hi), hmain _ (hmne i hi)]
      exact ⟨(hocc _).mpr (.inl h1), h2⟩
    · rw [hself, hself]
      exact ⟨hi, rfl⟩
  · intro h hh hm
    rcases (hocc h).mp hh with hh | rfl
    · rw [hmain h (hne h hh)] at hm
      obtain ⟨c, hseg, hnodup, hmem⟩ := hc.chain h hh hm
      refine ⟨c, hseg.congr fun a ha => hnext a (hne a ((hmem a).mp ha).1), hnodup, fun i => ?_⟩
      rw [hmem i, hocc i]
      constructor
      · rintro ⟨hi, hmi⟩
        exact ⟨.inl hi, by rw [hmain i (hne i hi)]; exact hmi⟩
      · rintro ⟨hi | rfl, hmi⟩
        · exact ⟨hi, by rw [hmain i (hne i hi)] at hmi; exact hmi⟩
        · exact absurd (hself.symm.trans hmi) (hne h hh).symm
    · refine ⟨[h], ⟨rfl, hnil⟩, by simp, fun i => ?_⟩
      rw [List.mem_singleton, hocc i]
      constructor
      · rintro rfl
        exact ⟨.inr rfl, hself⟩
      · rintro ⟨hi | rfl, hmi⟩
        · rw [hmain i (hne i hi)] at hmi
          exact absurd hmi (hmne i hi)
        · rfl

/-- A new node in a free slot, threaded directly behind the head of its chain. -/
theorem Chained.insertAfter (hc : Chained occ main next) {p q : α} (hp : occ p) (hself : main p = p)
    (hq : ¬ occ q) (hocc : ∀ i, occ' i ↔ occ i ∨ i = q) (hmainq : main' q = p)
    (hmain : ∀ i, i ≠ q → main' i = main i) (hnextp : next' p = some q) (hnextq : next' q = next p)
    (hnext : ∀ i, i ≠ p → i ≠ q → next' i = next i) : Chained occ' main' next' := by
  have hne : ∀ i, occ i → i ≠ q := fun i hi h => hq (h ▸ hi)
  have hmne : ∀ i, occ i → main i ≠ q := fun i hi => hne _ (hc.head i hi).1
  constructor
  · intro i hi
    rcases (hocc i).mp hi with hi | rfl
    · obtain ⟨h1, h2⟩ := hc.head i hi
      rw [hmain i (hne i hi), hmain _ (hmne i hi)]
      exact ⟨(hocc _).mpr (.inl h1), h2⟩
    · rw [hmainq, hmain p (hne p hp)]
      exact ⟨(hocc p).mpr (.inl hp), hself⟩
  · intro h hh hm
    have hhq : h ≠ q := by
      rintro rfl
      exact hne p hp (hmainq.symm.trans hm)
    have hh : occ h := ((hocc h).mp hh).resolve_right hhq
    rw [hmain h hhq] at hm
    obtain ⟨c, hseg, hnodup, hmem⟩ := hc.chain h hh hm
    have hcq : q ∉ c := fun hmq => hq ((hmem q).mp hmq).1
    by_cases hhp : h = p
    · subst hhp
      obtain ⟨d, rfl, hd⟩ := hseg.exists_cons
      have hhd : h ∉ d := (List.nodup_cons.mp hnodup).1
      refine ⟨h :: q :: d, ⟨rfl, hnextp, ?_⟩, ?_, fun i => ?_⟩
      · rw [hnextq]
        exact hd.congr fun a ha => hnext a (fun he => hhd (he ▸ ha))
          (fun he => hcq (List.mem_cons_of_mem h (he ▸ ha)))
      · simp only [List.nodup_cons, List.mem_cons, not_or] at hnodup hcq ⊢
        exact ⟨⟨hhq, hnodup.1⟩, hcq.2, hnodup.2⟩
      · have hi := hmem i
        simp only [List.mem_cons] at hi ⊢
        rw [hocc i]
        by_cases hiq : i = q
        · subst hiq
          simp [hmainq]
        · simp only [hiq, false_or, or_false, hmain i hiq]
          exact hi
    · have hcp : p ∉ c := fun hmp => hhp (((hmem p).mp hmp).2.symm.trans hself)
      refine ⟨c, hseg.congr fun a ha => hnext a (fun he => hcp (he ▸ ha)) (fun he => hcq (he ▸ ha)),
        hnodup, fun i => ?_⟩
      rw [hmem i, hocc i]
      by_cases hiq : i = q
      · subst hiq
        simp only [hq, false_and, or_true, true_and, hmainq, false_iff]
        exact fun he => hhp he.symm
      · simp [hiq, hmain i hiq]

/-- A foreign node moves to a free slot so that a fresh head can take its place. -/
theorem Chained.evict (hc : Chained occ main next) {p q prev : α} (hp : occ p) (hfor : main p ≠ p)
    (hq : ¬ occ q) (hprev : occ prev) (hlink : next prev = some p) (hmprev : main prev = main p)
    (hocc : ∀ i, occ' i ↔ occ i ∨ i = q) (hself : main' p = p) (hmainq : main' q = main p)
    (hmain : ∀ i, i ≠ p → i ≠ q → main' i = main i) (hnil : next' p = none)
    (hnextq : next' q = next p) (hnextprev : next' prev = some q)
    (hnext : ∀ i, i ≠ p → i ≠ q → i ≠ prev → next' i = next i) : Chained occ' main' next' := by
  have hne : ∀ i, occ i → i ≠ q := fun i hi h => hq (h ▸ hi)
  have hpq : p ≠ q := hne p hp
  have hmnq : ∀ i, occ i → main i ≠ q := fun i hi => hne _ (hc.head i hi).1
  -- the evicted node does not head a chain, so no content hashes to its slot
  have hmnp : ∀ i, occ i → main i ≠ p := fun i hi h => hfor (h ▸ (hc.head i hi).2)
  obtain ⟨hmocc, hmm⟩ := hc.head p hp
  have hmm' : main' (main p) = main p := by rw [hmain _ (hmnp p hp) (hmnq p hp), hmm]
  constructor
  · intro i hi
    by_cases hip : i = p
    · subst hip
      rw [hself, hself]
      exact ⟨hi, rfl⟩
    · rcases (hocc i).mp hi with hi | rfl
      · obtain ⟨h1, h2⟩ := hc.head i hi
        rw [hmain i hip (hne i hi), hmain _ (hmnp i hi) (hmnq i hi)]
        exact ⟨(hocc _).mpr (.inl h1), h2⟩
      · rw [hmainq, hmm']
        exact ⟨(hocc _).mpr (.inl hmocc), rfl⟩
  · intro h hh hm
    by_cases hhp : h = p
    · subst hhp
      refine ⟨[h], ⟨rfl, hnil⟩, by simp, fun i => ?_⟩
      rw [List.mem_singleton, hocc i]
      constructor
      · rintro rfl
        exact ⟨.inl hp, hself⟩
      · rintro ⟨hi, hmi⟩
        by_contra hih
        by_cases hiq : i = q
        · subst hiq
          exact hfor (hmainq.symm.trans hmi)
        · rw [hmain i hih hiq] at hmi
          exact hmnp i (hi.resolve_right hiq) hmi
    have hhq : h ≠ q := by
      rintro rfl
      exact hmnq p hp (hmainq.symm.trans hm)
    have hh : occ h := ((hocc h).mp hh).resolve_right hhq
    rw [hmain h hhp hhq] at hm
    obtain ⟨c, hseg, hnodup, hmem⟩ := hc.chain h hh hm
    have hcq : q ∉ c := fun hmq => hq ((hmem q).mp hmq).1
    by_cases hhm : h = main p
    · -- the chain of the evicted node: its slot is replaced by the new one
      obtain ⟨l, r, rfl⟩ := List.append_of_mem ((hmem prev).mpr ⟨hprev, hmprev.trans hhm.symm⟩)
      obtain ⟨u, hl, hr⟩ := seg_append.mp hseg
      obtain ⟨rfl, hr⟩ := hr
      rw [hlink] at hr
      obtain ⟨r, rfl, htail⟩ := hr.exists_cons
      simp only [List.nodup_append, List.nodup_cons, List.mem_cons, List.mem_append, not_or,
        forall_eq_or_imp] at hnodup hcq
      obtain ⟨hln, ⟨⟨hpp, hpr⟩, hp2, hrn⟩, hdis⟩ := hnodup
      refine ⟨l ++ prev :: q :: r, ?_, ?_, fun i => ?_⟩
      · refine seg_append.mpr ⟨some prev, hl.congr fun a ha => ?_, rfl, ?_⟩
        · exact hnext a (hdis a ha).2.1 (fun he => hcq.1 (he ▸ ha)) (hdis a ha).1
        · rw [hnextprev]
          refine ⟨rfl, ?_⟩
          rw [hnextq]
          refine htail.congr fun a ha => ?_
          exact hnext a (fun he => hp2 (he ▸ ha)) (fun he => hcq.2.2.2 (he ▸ ha))
            (fun he => hpr (he ▸ ha))
      · simp only [List.nodup_append, List.nodup_cons, List.mem_cons, not_or, forall_eq_or_imp]
        exact ⟨hln, ⟨⟨(Ne.symm hcq.2.1), hpr⟩, hcq.2.2.2, hrn⟩, fun a ha =>
          ⟨(hdis a ha).1, fun he => hcq.1 (he ▸ ha), (hdis a ha).2.2⟩⟩
      · have hi := hmem i
        simp only [List.mem_append, List.mem_cons] at hi ⊢
        rw [hocc i]
        by_cases hiq : i = q
        · subst hiq
          simp [hmainq, hhm]
        · by_cases hip : i = p
          · subst hip
            have hil : i ∉ l := fun hil => (hdis i hil).2.1 rfl
            simp only [hil, hiq, hp2, hself, (Ne.symm hpp), or_false, false_iff]
            exact fun h' => hhp h'.2.symm
          · simp only [hiq, hip, false_or, or_false, hmain i hip hiq] at hi ⊢
            exact hi
    · have hcp : p ∉ c := fun hmp => hhm (((hmem p).mp hmp).2.symm)
      have hcprev : prev ∉ c := fun hmp => hhm (((hmem prev).mp hmp).2.symm.trans hmprev)
      refine ⟨c, hseg.congr fun a ha => hnext a (fun he => hcp (he ▸ ha)) (fun he => hcq (he ▸ ha))
        (fun he => hcprev (he ▸ ha)), hnodup, fun i => ?_⟩
      rw [hmem i, hocc i]
      by_cases hiq : i = q
      · subst hiq
        simp only [hq, false_and, or_true, true_and, hmainq, false_iff]
        exact fun he => hhm he.symm
      · by_cases hip : i = p
        · subst hip
          simp only [hself, hp, true_or, true_and]
          exact ⟨fun he => absurd he.symm hhm, fun he => absurd he.symm hhp⟩
        · simp [hiq, hmain i hip hiq]

/-- The removal of a head without successor. -/
theorem Chained.removeLone (hc : Chained occ main next) {h : α} (hself : main h = h) (hh : occ h)
    (hnil : next h = none) (hocc : ∀ i, occ' i ↔ occ i ∧ i ≠ h)
    (hmain : ∀ i, i ≠ h → main' i = main i) (hnext : ∀ i, i ≠ h → next' i = next i) :
    Chained occ' main' next' := by
  -- the chain of `h` is `h` alone
  have halone : ∀ i, occ i → main i = h → i = h := by
    intro i hi hmi
    obtain ⟨c, hseg, -, hmem⟩ := hc.chain h hh hself
    obtain ⟨d, rfl, hd⟩ := hseg.exists_cons
    rw [hnil] at hd
    obtain rfl : d = [] := by
      cases d with
      | nil => rfl
      | cons b d => exact absurd hd.head_eq (by simp)
    exact List.mem_singleton.mp ((hmem i).mpr ⟨hi, hmi⟩)
  constructor
  · intro i hi
    obtain ⟨hi, hih⟩ := (hocc i).mp hi
    obtain ⟨h1, h2⟩ := hc.head i hi
    have hmne : main i ≠ h := fun he => hih (halone i hi he)
    rw [hmain i hih, hmain _ hmne]
    exact ⟨(hocc _).mpr ⟨h1, hmne⟩, h2⟩
  · intro g hg hm
    obtain ⟨hg, hgh⟩ := (hocc g).mp hg
    rw [hmain g hgh] at hm
    obtain ⟨c, hseg, hnodup, hmem⟩ := hc.chain g hg hm
    have hch : h ∉ c := fun hmh => hgh (((hmem h).mp hmh).2.symm.trans hself)
    refine ⟨c, hseg.congr fun a ha => hnext a fun he => hch (he ▸ ha), hnodup, fun i => ?_⟩
    rw [hmem i, hocc i]
    by_cases hih : i = h
    · subst hih
      simp only [ne_eq, not_true_eq_false, and_false, false_and, iff_false]
      exact fun he => hgh (he.2.symm.trans hself)
    · simp [hih, hmain i hih]

/-- The node behind `prev` leaves its chain; the contents of the slots that stay keep their main
slots, whichever slot of the chain they now stand in. -/
theorem Chained.unlink (hc : Chained occ main next) {prev m : α} (hprev : occ prev)
    (hlink : next prev = some m) (hocc : ∀ i, occ' i ↔ occ i ∧ i ≠ m)
    (hmain : ∀ i, i ≠ m → main' i = main i) (hnextprev : next' prev = next m)
    (hnext : ∀ i, i ≠ m → i ≠ prev → next' i = next i) : Chained occ' main' next' := by
  obtain ⟨hgocc, hgself⟩ := hc.head prev hprev
  obtain ⟨c, hseg, hnodup, hmem⟩ := hc.chain _ hgocc hgself
  obtain ⟨l, r, rfl⟩ := List.append_of_mem ((hmem prev).mpr ⟨hprev, rfl⟩)
  obtain ⟨u, hl, hr⟩ := seg_append.mp hseg
  obtain ⟨rfl, hr⟩ := hr
  rw [hlink] at hr
  obtain ⟨r, rfl, htail⟩ := hr.exists_cons
  have hmm := (hmem m).mp (by simp)
  simp only [List.nodup_append, List.nodup_cons, List.mem_cons, not_or,
    forall_eq_or_imp] at hnodup
  obtain ⟨hln, ⟨⟨hpm, hpr⟩, hmr, hrn⟩, hdis⟩ := hnodup
  -- `m` stands behind another node, so it heads no chain
  have hmhead : main m ≠ m := by
    intro he
    rw [hmm.2] at he
    cases l with
    | nil => exact hpm (he ▸ (Option.some.inj hseg.head_eq).symm)
    | cons b l =>
      have hb : main prev = b := Option.some.inj hseg.head_eq
      exact (hdis b List.mem_cons_self).2.1 (hb ▸ he)
  have hmne : ∀ i, occ i → main i ≠ m := fun i hi he => hmhead (he ▸ (hc.head i hi).2)
  constructor
  · intro i hi
    obtain ⟨hi, him⟩ := (hocc i).mp hi
    obtain ⟨h1, h2⟩ := hc.head i hi
    rw [hmain i him, hmain _ (hmne i hi)]
    exact ⟨(hocc _).mpr ⟨h1, hmne i hi⟩, h2⟩
  · intro g hg hm
    obtain ⟨hg, hgm⟩ := (hocc g).mp hg
    rw [hmain g hgm] at hm
    by_cases hgp : g = main prev
    · subst hgp
      refine ⟨l ++ prev :: r, ?_, ?_, fun i => ?_⟩
      · refine seg_append.mpr ⟨some prev, hl.congr fun a ha => ?_, rfl, ?_⟩
        · exact hnext a (hdis a ha).2.1 (hdis a ha).1
        · rw [hnextprev]
          exact htail.congr fun a ha => hnext a (fun he => hmr (he ▸ ha)) (fun he => hpr (he ▸ ha))
      · simp only [List.nodup_append, List.nodup_cons, List.mem_cons, forall_eq_or_imp]
        exact ⟨hln, ⟨hpr, hrn⟩, fun a ha => ⟨(hdis a ha).1, (hdis a ha).2.2⟩⟩
      · have hi := hmem i
        simp only [List.mem_append, List.mem_cons] at hi ⊢
        rw [hocc i]
        by_cases him : i = m
        · subst him
          have hil : i ∉ l := fun hil => (hdis i hil).2.1 rfl
          simp [hil, hmr, Ne.symm hpm]
        · simpa [him, hmain i him] using hi
    · obtain ⟨d, hdseg, hdn, hdmem⟩ := hc.chain g hg hm
      have hdm : m ∉ d := fun h => hgp (((hdmem m).mp h).2.symm.trans hmm.2)
      have hdp : prev ∉ d := fun h => hgp ((hdmem prev).mp h).2.symm
      refine ⟨d, hdseg.congr fun a ha => hnext a (fun he => hdm (he ▸ ha)) (fun he => hdp (he ▸ ha)),
        hdn, fun i => ?_⟩
      rw [hdmem i, hocc i]
      by_cases him : i = m
      · subst him
        simp only [ne_eq, not_true_eq_false, and_false, false_and, iff_false]
        exact fun he => hgp (he.2.symm.trans hmm.2)
      · simp [him, hmain i him]

end Upb.Common
