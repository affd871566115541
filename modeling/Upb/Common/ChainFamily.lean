import Upb.Common.Chain
import Mathlib.Data.List.Nodup

/-!
# Families of disjoint chains

`chains h` lists the nodes of the chain that starts at `h`, and is empty where no chain starts. A
family is well formed when the lists are what following `next` visits and no node occurs twice. Two
chains are joined by pointing the last node of one at the head of the other; a chain loses its head
when the head is taken away.
-/

namespace Upb.Common

variable {α : Type*} {next : α → Option α} {chains : α → List α} {a b c h k : α}

/-- The lists of `chains` are the chains of `next`, and no node is in two places. -/
structure ChainFamily (next : α → Option α) (chains : α → List α) : Prop where
  chain : ∀ h, chains h ≠ [] → Seg next (some h) (chains h) none
  nodup : ∀ h, (chains h).Nodup
  disjoint : ∀ {a h k}, a ∈ chains h → a ∈ chains k → h = k

/-- Two nodes lie in one chain. -/
def SameChain (chains : α → List α) (a b : α) : Prop :=
  ∃ h, a ∈ chains h ∧ b ∈ chains h

/-- Lying in one chain is transitive. -/
theorem ChainFamily.sameChain_trans (hf : ChainFamily next chains) (hab : SameChain chains a b)
    (hbc : SameChain chains b c) : SameChain chains a c := by
  obtain ⟨h, ha, hb⟩ := hab
  obtain ⟨k, hb', hc⟩ := hbc
  obtain rfl := hf.disjoint hb hb'
  exact ⟨h, ha, hc⟩

/-- A chain has its name at its head. -/
theorem ChainFamily.exists_cons (hf : ChainFamily next chains) (hne : chains h ≠ []) :
    ∃ rest, chains h = h :: rest ∧ Seg next (next h) rest none :=
  (hf.chain h hne).exists_cons

/-- A chain contains its name. -/
theorem ChainFamily.head_mem (hf : ChainFamily next chains) (hne : chains h ≠ []) : h ∈ chains h := by
  obtain ⟨rest, heq, -⟩ := hf.exists_cons hne
  rw [heq]
  exact List.mem_cons_self

/-- A node inside a chain splits it, and its successor starts the second part. -/
theorem ChainFamily.split (hf : ChainFamily next chains) (ha : a ∈ chains h) :
    ∃ before rest, chains h = before ++ a :: rest ∧ Seg next (some h) before (some a) ∧
      Seg next (next a) rest none := by
  obtain ⟨before, rest, heq⟩ := List.append_of_mem ha
  have hseg := hf.chain h (List.ne_nil_of_mem ha)
  rw [heq, seg_append] at hseg
  obtain ⟨u, hbefore, hu, hrest⟩ := hseg
  subst hu
  exact ⟨before, rest, heq, hbefore, hrest⟩

/-- The successor of a node is in the same chain. -/
theorem ChainFamily.next_mem (hf : ChainFamily next chains) (ha : a ∈ chains h)
    (hb : next a = some b) : b ∈ chains h := by
  obtain ⟨before, rest, heq, -, hrest⟩ := hf.split ha
  rw [hb] at hrest
  obtain ⟨d, rfl, -⟩ := hrest.exists_cons
  rw [heq]
  simp

/-- A node without a successor is the last of its chain. -/
theorem ChainFamily.eq_append_of_last (hf : ChainFamily next chains) (ha : a ∈ chains h)
    (hnext : next a = none) : ∃ before, chains h = before ++ [a] ∧ Seg next (some h) before (some a) := by
  obtain ⟨before, rest, heq, hbefore, hrest⟩ := hf.split ha
  rw [hnext] at hrest
  cases rest with
  | nil => exact ⟨before, heq, hbefore⟩
  | cons b rest => simp [Seg] at hrest

open Classical in
/-- The number of nodes a chain still visits falls from a node to its successor. -/
theorem ChainFamily.exists_rank (hf : ChainFamily next chains) :
    ∃ rank : α → ℕ, ∀ {a b h}, a ∈ chains h → next a = some b → rank b < rank a := by
  refine ⟨fun a => if hc : ∃ c, Seg next (some a) c none then hc.choose.length else 0, ?_⟩
  have hlength {x : α} {c : List α} (hc : Seg next (some x) c none) :
      (if hc : ∃ c, Seg next (some x) c none then hc.choose.length else 0) = c.length := by
    have hex : ∃ c, Seg next (some x) c none := ⟨c, hc⟩
    rw [dif_pos hex, hex.choose_spec.unique hc]
  intro a b h ha hb
  obtain ⟨before, rest, -, -, hrest⟩ := hf.split ha
  have hself : Seg next (some a) (a :: rest) none := ⟨rfl, hrest⟩
  rw [hb] at hrest
  beta_reduce
  rw [hlength hself, hlength hrest]
  simp

/-- The successor of a head is another node, and names no chain yet. -/
theorem ChainFamily.chains_next (hf : ChainFamily next chains) (hh : chains h ≠ [])
    (hb : next h = some b) : b ≠ h ∧ chains b = [] := by
  obtain ⟨rest, heq, hrest⟩ := hf.exists_cons hh
  rw [hb] at hrest
  obtain ⟨d, rfl, -⟩ := hrest.exists_cons
  have hbh : b ≠ h := by
    rintro rfl
    have := hf.nodup b
    simp [heq] at this
  refine ⟨hbh, ?_⟩
  by_contra hne
  exact hbh (hf.disjoint (hf.head_mem hne) (by simp [heq]))

variable [DecidableEq α]

/-- Put the chain of `c` behind the chain of `h`. -/
def splice (chains : α → List α) (h c : α) : α → List α :=
  Function.update (Function.update chains h (chains h ++ chains c)) c []

/-- Where a node is after joining two chains. -/
theorem mem_splice (hne : h ≠ c) : a ∈ splice chains h c k ↔
    k ≠ c ∧ (a ∈ chains k ∨ k = h ∧ a ∈ chains c) := by
  rcases eq_or_ne k c with rfl | hkc
  · simp [splice]
  · rcases eq_or_ne k h with rfl | hkh <;> simp [splice, *]

/-- Chains that held a node still hold one, except the one that was put behind another. -/
theorem splice_ne_nil_iff (hne : h ≠ c) (hh : chains h ≠ []) :
    splice chains h c k ≠ [] ↔ k ≠ c ∧ chains k ≠ [] := by
  rcases eq_or_ne k c with rfl | hkc
  · simp [splice]
  · rcases eq_or_ne k h with rfl | hkh <;> simp [splice, *]

/-- Joining two chains separates no nodes. -/
theorem SameChain.splice (hne : h ≠ c) (hab : SameChain chains a b) :
    SameChain (splice chains h c) a b := by
  obtain ⟨k, ha, hb⟩ := hab
  rcases eq_or_ne k c with rfl | hkc
  · exact ⟨h, (mem_splice hne).mpr ⟨hne, .inr ⟨rfl, ha⟩⟩, (mem_splice hne).mpr ⟨hne, .inr ⟨rfl, hb⟩⟩⟩
  · exact ⟨k, (mem_splice hne).mpr ⟨hkc, .inl ha⟩, (mem_splice hne).mpr ⟨hkc, .inl hb⟩⟩

/-- Pointing the last node of one chain at the head of another joins the two. -/
theorem ChainFamily.splice (hf : ChainFamily next chains) (ha : a ∈ chains h) (hlast : next a = none)
    (hne : h ≠ c) (hc : chains c ≠ []) :
    ChainFamily (Function.update next a (some c)) (splice chains h c) where
  chain k hk := by
    obtain ⟨hkc, hk⟩ := (splice_ne_nil_iff hne (List.ne_nil_of_mem ha)).mp hk
    rcases eq_or_ne k h with rfl | hkh
    · obtain ⟨before, heq, hbefore⟩ := hf.eq_append_of_last ha hlast
      have hnodup := hf.nodup k
      rw [heq, List.nodup_append] at hnodup
      have hbefore' : Seg (Function.update next a (some c)) (some k) before (some a) :=
        hbefore.congr fun b hb => Function.update_of_ne (hnodup.2.2 b hb a (by simp)) ..
      have hc' : Seg (Function.update next a (some c)) (some c) (chains c) none :=
        (hf.chain c hc).congr fun b hb => Function.update_of_ne (by
          rintro rfl
          exact hkc (hf.disjoint ha hb)) ..
      have heq' : Common.splice chains k c k = before ++ a :: chains c := by
        simp [Common.splice, hkc, heq]
      rw [heq', seg_append]
      exact ⟨some a, hbefore', rfl, by rw [Function.update_self]; exact hc'⟩
    · have heq : Common.splice chains h c k = chains k := by simp [Common.splice, hkc, hkh]
      rw [heq]
      refine (hf.chain k hk).congr fun b hb => Function.update_of_ne ?_ ..
      rintro rfl
      exact hkh (hf.disjoint hb ha)
  nodup k := by
    rcases eq_or_ne k c with rfl | hkc
    · simp [Common.splice]
    · rcases eq_or_ne k h with rfl | hkh
      · have heq : Common.splice chains k c k = chains k ++ chains c := by simp [Common.splice, hkc]
        rw [heq, List.nodup_append]
        refine ⟨hf.nodup k, hf.nodup c, ?_⟩
        rintro x hx y hy rfl
        exact hkc (hf.disjoint hx hy)
      · have heq : Common.splice chains h c k = chains k := by simp [Common.splice, hkc, hkh]
        rw [heq]
        exact hf.nodup k
  disjoint {x k l} hk hl := by
    obtain ⟨hkc, hk⟩ := (mem_splice hne).mp hk
    obtain ⟨hlc, hl⟩ := (mem_splice hne).mp hl
    rcases hk with hk | ⟨hkh, hk⟩ <;> rcases hl with hl | ⟨hlh, hl⟩
    · exact hf.disjoint hk hl
    · exact absurd (hf.disjoint hk hl) hkc
    · exact absurd (hf.disjoint hl hk) hlc
    · rw [hkh, hlh]

/-- A new node is a chain of its own. -/
theorem ChainFamily.insert (hf : ChainFamily next chains) (ha : ∀ h, a ∉ chains h) :
    ChainFamily (Function.update next a none) (Function.update chains a [a]) where
  chain k hk := by
    rcases eq_or_ne k a with rfl | hka
    · simp [Seg]
    · rw [Function.update_of_ne hka] at hk ⊢
      refine (hf.chain k hk).congr fun b hb => Function.update_of_ne ?_ ..
      rintro rfl
      exact ha k hb
  nodup k := by
    rcases eq_or_ne k a with rfl | hka
    · simp
    · rw [Function.update_of_ne hka]
      exact hf.nodup k
  disjoint {x k l} hk hl := by
    rcases eq_or_ne k a with rfl | hka <;> rcases eq_or_ne l k with rfl | hlk
    · rfl
    · rw [Function.update_self, List.mem_singleton] at hk
      rw [Function.update_of_ne hlk] at hl
      exact absurd (hk ▸ hl) (ha l)
    · rfl
    · rw [Function.update_of_ne hka] at hk
      rcases eq_or_ne l a with rfl | hla
      · rw [Function.update_self, List.mem_singleton] at hl
        exact absurd (hl ▸ hk) (ha k)
      · rw [Function.update_of_ne hla] at hl
        exact hf.disjoint hk hl

/-- Take the head of a chain away; the rest is named by the head's successor. -/
def behead (next : α → Option α) (chains : α → List α) (h : α) : α → List α :=
  match next h with
  | none => Function.update chains h []
  | some b => Function.update (Function.update chains h []) b (chains h).tail

/-- Where a node is after the head of a chain has gone. -/
theorem ChainFamily.mem_behead (hf : ChainFamily next chains) (hh : chains h ≠ []) :
    a ∈ behead next chains h k ↔
      a ≠ h ∧ (k ≠ h ∧ a ∈ chains k ∨ next h = some k ∧ a ∈ chains h) := by
  obtain ⟨rest, heq, hrest⟩ := hf.exists_cons hh
  have hnodup := hf.nodup h
  rw [heq, List.nodup_cons] at hnodup
  have hnot : a ∈ chains k → k ≠ h → a ≠ h := by
    rintro hak hkh rfl
    exact hkh (hf.disjoint hak (hf.head_mem hh))
  unfold behead
  cases hnext : next h with
  | none =>
    rcases eq_or_ne k h with rfl | hkh
    · simp
    · simp only [Function.update_of_ne hkh, ne_eq, hkh, not_false_eq_true, true_and, reduceCtorEq,
        false_and, or_false]
      exact ⟨fun hak => ⟨hnot hak hkh, hak⟩, fun hak => hak.2⟩
  | some b =>
    obtain ⟨hbh, hb⟩ := hf.chains_next hh hnext
    rcases eq_or_ne k b with rfl | hkb
    · simp only [Function.update_self, hb, heq, List.tail_cons, ne_eq, hbh, not_false_eq_true,
        List.not_mem_nil, and_false, List.mem_cons, true_and, false_or]
      constructor
      · intro ha
        exact ⟨by rintro rfl; exact hnodup.1 ha, .inr ha⟩
      · rintro ⟨hne, rfl | ha⟩
        · exact absurd rfl hne
        · exact ha
    · rcases eq_or_ne k h with rfl | hkh
      · simp [hkb, hbh]
      · simp only [Function.update_of_ne hkb, Function.update_of_ne hkh, ne_eq, hkh,
          not_false_eq_true, true_and, Option.some.injEq, Ne.symm hkb, false_and, or_false]
        exact ⟨fun hak => ⟨hnot hak hkh, hak⟩, fun hak => hak.2⟩

/-- A family stays well formed when the head of a chain goes. -/
theorem ChainFamily.behead {next' : α → Option α} (hf : ChainFamily next chains) (hh : chains h ≠ [])
    (heq : ∀ a, a ≠ h → next' a = next a) : ChainFamily next' (behead next chains h) where
  chain k hk := by
    obtain ⟨a, ha⟩ := List.exists_mem_of_ne_nil _ hk
    have hsame : ∀ x ∈ Common.behead next chains h k, next' x = next x :=
      fun x hx => heq x ((hf.mem_behead hh).mp hx).1
    refine Seg.congr ?_ hsame
    obtain ⟨-, ⟨hkh, hak⟩ | ⟨hnext, -⟩⟩ := (hf.mem_behead hh).mp ha
    · have : Common.behead next chains h k = chains k := by
        unfold Common.behead
        cases hnext : next h with
        | none => exact Function.update_of_ne hkh ..
        | some b =>
          have hkb : k ≠ b := by
            rintro rfl
            simp [(hf.chains_next hh hnext).2] at hak
          simp [hkb, hkh]
      rw [this]
      exact hf.chain k (List.ne_nil_of_mem hak)
    · obtain ⟨rest, hrest, hseg⟩ := hf.exists_cons hh
      have : Common.behead next chains h k = rest := by simp [Common.behead, hnext, hrest]
      rw [this, ← hnext]
      exact hseg
  nodup k := by
    unfold Common.behead
    cases hnext : next h with
    | none =>
      rcases eq_or_ne k h with rfl | hkh
      · simp
      · simpa [hkh] using hf.nodup k
    | some b =>
      rcases eq_or_ne k b with rfl | hkb
      · simpa using (hf.nodup h).tail
      · rcases eq_or_ne k h with rfl | hkh
        · simp [hkb]
        · simpa [hkb, hkh] using hf.nodup k
  disjoint {x k l} hk hl := by
    obtain ⟨hx, hk⟩ := (hf.mem_behead hh).mp hk
    obtain ⟨-, hl⟩ := (hf.mem_behead hh).mp hl
    rcases hk with ⟨hkh, hk⟩ | ⟨hk, hxk⟩ <;> rcases hl with ⟨hlh, hl⟩ | ⟨hl, hxl⟩
    · exact hf.disjoint hk hl
    · exact absurd (hf.disjoint hk hxl) hkh
    · exact absurd (hf.disjoint hl hxk) hlh
    · rw [hk] at hl
      exact Option.some.inj hl

end Upb.Common
