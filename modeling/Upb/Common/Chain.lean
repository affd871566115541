import Mathlib.Data.List.Basic
import Mathlib.Logic.Function.Basic

/-!
# Singly linked chains inside an array of nodes

A node is any value of a type `α` and `next : α → Option α` gives its successor. `Seg next s c t`
says that following `next` from `s` visits exactly the nodes of `c`, in order, and arrives at `t`.
A segment that arrives at `none` is a complete chain. The lemmas describe how a segment splits, when
a change of `next` leaves it alone, and what a bounded walk along it finds.
-/

namespace Upb.Common

variable {α : Type*}

/-- Following `next` from `s` visits the nodes of `c` in order and arrives at `t`. -/
def Seg (next : α → Option α) : Option α → List α → Option α → Prop
  | s, [], t => s = t
  | s, a :: c, t => s = some a ∧ Seg next (next a) c t

/-- A segment splits wherever its list of nodes does. -/
theorem seg_append {next : α → Option α} {s t : Option α} {c d : List α} :
    Seg next s (c ++ d) t ↔ ∃ u, Seg next s c u ∧ Seg next u d t := by
  induction c generalizing s with
  | nil => simp [Seg]
  | cons a c ih => simp [Seg, ih, and_assoc]

/-- Only the successors of the visited nodes matter. -/
theorem Seg.congr {next next' : α → Option α} {s t : Option α} {c : List α}
    (h : Seg next s c t) (heq : ∀ a ∈ c, next' a = next a) : Seg next' s c t := by
  induction c generalizing s with
  | nil => exact h
  | cons a c ih =>
    obtain ⟨rfl, h⟩ := h
    refine ⟨rfl, ?_⟩
    rw [heq a List.mem_cons_self]
    exact ih h fun b hb => heq b (List.mem_cons_of_mem _ hb)

/-- The first node of a non-empty segment is where it starts. -/
theorem Seg.head_eq {next : α → Option α} {s t : Option α} {a : α} {c : List α}
    (h : Seg next s (a :: c) t) : s = some a := h.1

/-- A chain that starts at a node has that node at its head. -/
theorem Seg.exists_cons {next : α → Option α} {a : α} {c : List α}
    (h : Seg next (some a) c none) : ∃ d, c = a :: d ∧ Seg next (next a) d none := by
  cases c with
  | nil => simp [Seg] at h
  | cons b d =>
    obtain ⟨hb, hd⟩ := h
    obtain rfl := Option.some.inj hb
    exact ⟨d, rfl, hd⟩

/-- The chain from a given start is unique. -/
theorem Seg.unique {next : α → Option α} {s : Option α} {c d : List α}
    (hc : Seg next s c none) (hd : Seg next s d none) : c = d := by
  induction c generalizing s d with
  | nil =>
    cases d with
    | nil => rfl
    | cons b d => simp [Seg] at hc hd; simp [hc] at hd
  | cons a c ih =>
    obtain ⟨rfl, hc⟩ := hc
    obtain ⟨e, rfl, he⟩ := hd.exists_cons
    rw [ih hc he]

/-- Walk along `next` from a node until `stop` holds, giving up when the chain or the fuel ends. -/
def walkUntil (next : α → Option α) (stop : α → Bool) : ℕ → α → Option α
  | 0, _ => none
  | fuel + 1, a =>
    if stop a then some a else
      match next a with
      | none => none
      | some b => walkUntil next stop fuel b

/-- A walk with enough fuel finds the first node of the chain at which `stop` holds. -/
theorem walkUntil_eq_find? {next : α → Option α} {stop : α → Bool} {fuel : ℕ} {a : α} {c : List α}
    (h : Seg next (some a) c none) (hfuel : c.length ≤ fuel) :
    walkUntil next stop fuel a = c.find? stop := by
  induction fuel generalizing a c with
  | zero =>
    obtain ⟨d, rfl, -⟩ := h.exists_cons
    simp at hfuel
  | succ fuel ih =>
    obtain ⟨d, rfl, hd⟩ := h.exists_cons
    rw [walkUntil, List.find?_cons]
    cases hstop : stop a with
    | true => simp
    | false =>
      cases hnext : next a with
      | none =>
        rw [hnext] at hd
        cases d with
        | nil => simp
        | cons b d => simp [Seg] at hd
      | some b =>
        rw [hnext] at hd
        simpa using ih hd (by simpa using hfuel)

/-- A walk that stops before the first later node with property `P`, or at the last node. -/
theorem walkUntil_before {next : α → Option α} {P : α → Bool} {fuel : ℕ} {a : α} {c : List α}
    (h : Seg next (some a) c none) (hfuel : c.length ≤ fuel) :
    ∃ e ∈ c, walkUntil next (fun e => (next e).elim true P) fuel a = some e ∧
      (next e = none → ∀ n ∈ c.tail, P n = false) ∧ ∀ n, next e = some n → n ∈ c.tail ∧ P n = true := by
  induction fuel generalizing a c with
  | zero =>
    obtain ⟨d, rfl, -⟩ := h.exists_cons
    simp at hfuel
  | succ fuel ih =>
    obtain ⟨d, rfl, hd⟩ := h.exists_cons
    rw [walkUntil]
    cases hnext : next a with
    | none =>
      rw [hnext] at hd
      cases d with
      | nil => exact ⟨a, by simp, by simp, by simp, by simp [hnext]⟩
      | cons b d => simp [Seg] at hd
    | some b =>
      rw [hnext] at hd
      obtain ⟨d', rfl, -⟩ := hd.exists_cons
      cases hP : P b with
      | true => exact ⟨a, by simp, by simp [hP], by simp [hnext], by simp [hnext, hP]⟩
      | false =>
        obtain ⟨e, hmem, hwalk, hend, hfound⟩ := ih hd (by simpa using hfuel)
        refine ⟨e, List.mem_cons_of_mem _ hmem, by simpa [hP] using hwalk, ?_, ?_⟩
        · intro hn n hin
          rcases List.mem_cons.mp hin with rfl | hin
          · exact hP
          · exact hend hn n hin
        · intro n hn
          exact ⟨List.mem_cons_of_mem _ (hfound n hn).1, (hfound n hn).2⟩

end Upb.Common
