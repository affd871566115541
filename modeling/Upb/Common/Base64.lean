import Mathlib.Data.List.Forall2
import Mathlib.Tactic.SplitIfs

/-!
# Base64

What base64 text is: characters of the standard or of the URL-safe alphabet, six bits each, with all of
the padding or none of it. The bits that do not make up a byte at the end do not count.
-/

namespace Upb.Common.Base64

/-- The six bits of a character. -/
def value (ch : UInt8) : Option ℕ :=
  let n := ch.toNat
  if 65 ≤ n ∧ n ≤ 90 then some (n - 65)
  else if 97 ≤ n ∧ n ≤ 122 then some (n - 71)
  else if 48 ≤ n ∧ n ≤ 57 then some (n + 4)
  else if n = 43 ∨ n = 45 then some 62
  else if n = 47 ∨ n = 95 then some 63
  else none

/-- The character `=`. -/
def padChar : UInt8 := 61

/-- The padding behind a number of characters. -/
def padding (n : ℕ) : List UInt8 := List.replicate ((4 - n % 4) % 4) padChar

/-- The bytes that are made up of groups of six bits. -/
def bytes : List ℕ → List UInt8
  | a :: b :: c :: d :: rest =>
    UInt8.ofNat (a * 4 + b / 16) :: UInt8.ofNat (b % 16 * 16 + c / 4) :: UInt8.ofNat (c % 4 * 64 + d) :: bytes rest
  | [a, b, c] => [UInt8.ofNat (a * 4 + b / 16), UInt8.ofNat (b % 16 * 16 + c / 4)]
  | [a, b] => [UInt8.ofNat (a * 4 + b / 16)]
  | _ => []

/-- The characters stand for the values. -/
abbrev Values (chars : List UInt8) (values : List ℕ) : Prop :=
  List.Forall₂ (fun ch v => value ch = some v) chars values

/-- The text is base64 for the bytes. -/
inductive IsBase64 : List UInt8 → List UInt8 → Prop
  | intro {chars pad : List UInt8} {values : List ℕ} (hvalues : Values chars values)
      (hlength : chars.length % 4 ≠ 1) (hpad : pad = [] ∨ pad = padding chars.length) :
      IsBase64 (chars ++ pad) (bytes values)

variable {ch a b c d : UInt8} {v w x y : ℕ} {text out : List UInt8}

theorem value_lt (h : value ch = some v) : v < 64 := by
  unfold value at h
  dsimp only at h
  split_ifs at h <;> cases h <;> omega

theorem value_padChar : value padChar = none := by decide

/-- Text with a first group of four characters. -/
theorem IsBase64.cons_group (ha : value a = some v) (hb : value b = some w) (hc : value c = some x)
    (hd : value d = some y) (h : IsBase64 text out) :
    IsBase64 (a :: b :: c :: d :: text) (bytes [v, w, x, y] ++ out) := by
  obtain ⟨hvalues, hlength, hpad⟩ := h
  refine IsBase64.intro (.cons ha (.cons hb (.cons hc (.cons hd hvalues)))) ?_ ?_
  · simp only [List.length_cons]
    omega
  · simp only [padding, List.length_cons] at hpad ⊢
    rwa [show ∀ n, (n + 1 + 1 + 1 + 1) % 4 = n % 4 by omega]

/-- Text with at least four characters has a first group, or ends with padding. -/
theorem IsBase64.cases_group (h : IsBase64 (a :: b :: c :: d :: text) out) :
    (∃ v w x y tail, value a = some v ∧ value b = some w ∧ value c = some x ∧ value d = some y ∧
      IsBase64 text tail ∧ out = bytes [v, w, x, y] ++ tail) ∨
    (text = [] ∧ d = padChar ∧ ((c = padChar ∧ IsBase64 [a, b] out) ∨ IsBase64 [a, b, c] out)) := by
  generalize heq : a :: b :: c :: d :: text = all at h
  obtain @⟨chars, pad, values, hvalues, hlength, hpad⟩ := h
  match hvalues with
  | .nil => rcases hpad with rfl | rfl <;> cases heq
  | .cons _ .nil => exact absurd rfl hlength
  | .cons ha (.cons hb .nil) =>
    rcases hpad with rfl | rfl <;> cases heq
    have hpair : IsBase64 [a, b] (bytes [_, _]) := IsBase64.intro (.cons ha (.cons hb .nil)) (by simp) (.inl rfl)
    exact .inr ⟨rfl, rfl, .inl ⟨rfl, hpair⟩⟩
  | .cons ha (.cons hb (.cons hc .nil)) =>
    rcases hpad with rfl | rfl <;> cases heq
    have htriple : IsBase64 [a, b, c] (bytes [_, _, _]) :=
      IsBase64.intro (.cons ha (.cons hb (.cons hc .nil))) (by simp) (.inl rfl)
    exact .inr ⟨rfl, rfl, .inr htriple⟩
  | .cons ha (.cons hb (.cons hc (.cons hd hrest))) =>
    obtain ⟨rfl, rfl, rfl, rfl, rfl⟩ : _ = a ∧ _ = b ∧ _ = c ∧ _ = d ∧ _ ++ pad = text := by
      simpa [eq_comm] using heq
    refine .inl ⟨_, _, _, _, _, ha, hb, hc, hd, .intro hrest ?_ ?_, rfl⟩
    · simp only [List.length_cons] at hlength
      omega
    · simp only [padding, List.length_cons] at hpad ⊢
      rwa [show ∀ n, (n + 1 + 1 + 1 + 1) % 4 = n % 4 by omega] at hpad

/-- Text with fewer than four characters has no padding. -/
theorem IsBase64.short (h : IsBase64 text out) (hshort : text.length < 4) :
    ∃ values, Values text values ∧ text.length ≠ 1 ∧ out = bytes values := by
  obtain @⟨chars, pad, values, hvalues, hlength, hpad⟩ := h
  rw [List.length_append] at hshort
  obtain rfl : pad = [] := by
    rcases hpad with rfl | rfl
    · rfl
    · rw [padding, List.length_replicate] at hshort
      rw [padding, show (4 - chars.length % 4) % 4 = 0 by omega]
      rfl
  rw [List.length_nil, Nat.add_zero] at hshort
  rw [List.append_nil]
  exact ⟨values, hvalues, by omega, rfl⟩

/-- The byte of two characters. -/
def pairBytes (a b : UInt8) : Option (List UInt8) := do return bytes [← value a, ← value b]

/-- The bytes of three characters. -/
def tripleBytes (a b c : UInt8) : Option (List UInt8) := do return bytes [← value a, ← value b, ← value c]

theorem pairBytes_eq_some : pairBytes a b = some out ↔
    ∃ v w, value a = some v ∧ value b = some w ∧ out = bytes [v, w] := by
  rw [pairBytes]
  cases value a <;> cases value b <;> simp [eq_comm]

theorem tripleBytes_eq_some : tripleBytes a b c = some out ↔
    ∃ v w x, value a = some v ∧ value b = some w ∧ value c = some x ∧ out = bytes [v, w, x] := by
  rw [tripleBytes]
  cases value a <;> cases value b <;> cases value c <;> simp [eq_comm]

/-- Two characters, without padding. -/
theorem isBase64_pair : IsBase64 [a, b] out ↔ pairBytes a b = some out := by
  rw [pairBytes_eq_some]
  constructor
  · intro h
    obtain ⟨values, hvalues, -, rfl⟩ := h.short (by simp)
    match hvalues with
    | .cons ha (.cons hb .nil) => exact ⟨_, _, ha, hb, rfl⟩
  · rintro ⟨v, w, ha, hb, rfl⟩
    have h : IsBase64 ([a, b] ++ []) _ := .intro (.cons ha (.cons hb .nil)) (by simp) (.inl rfl)
    exact h

/-- Three characters, without padding. -/
theorem isBase64_triple : IsBase64 [a, b, c] out ↔ tripleBytes a b c = some out := by
  rw [tripleBytes_eq_some]
  constructor
  · intro h
    obtain ⟨values, hvalues, -, rfl⟩ := h.short (by simp)
    match hvalues with
    | .cons ha (.cons hb (.cons hc .nil)) => exact ⟨_, _, _, ha, hb, hc, rfl⟩
  · rintro ⟨v, w, x, ha, hb, hc, rfl⟩
    have h : IsBase64 ([a, b, c] ++ []) _ := .intro (.cons ha (.cons hb (.cons hc .nil))) (by simp) (.inl rfl)
    exact h

/-- Two characters and their padding. -/
theorem isBase64_pair_padded : IsBase64 [a, b, padChar, padChar] out ↔ pairBytes a b = some out := by
  constructor
  · intro h
    rcases h.cases_group with ⟨v, w, x, y, tail, -, -, hc, -⟩ | ⟨-, -, ⟨-, hpair⟩ | htriple⟩
    · rw [value_padChar] at hc
      cases hc
    · exact isBase64_pair.mp hpair
    · obtain ⟨v, w, x, -, -, hc, -⟩ := tripleBytes_eq_some.mp (isBase64_triple.mp htriple)
      rw [value_padChar] at hc
      cases hc
  · intro h
    obtain ⟨v, w, ha, hb, rfl⟩ := pairBytes_eq_some.mp h
    have h : IsBase64 ([a, b] ++ padding 2) _ := .intro (.cons ha (.cons hb .nil)) (by simp) (.inr rfl)
    exact h

/-- Three characters and their padding. -/
theorem isBase64_triple_padded (hc : c ≠ padChar) :
    IsBase64 [a, b, c, padChar] out ↔ tripleBytes a b c = some out := by
  constructor
  · intro h
    rcases h.cases_group with ⟨v, w, x, y, tail, -, -, -, hd, -⟩ | ⟨-, -, ⟨hpad, -⟩ | htriple⟩
    · rw [value_padChar] at hd
      cases hd
    · exact absurd hpad hc
    · exact isBase64_triple.mp htriple
  · intro h
    obtain ⟨v, w, x, ha, hb, hc, rfl⟩ := tripleBytes_eq_some.mp h
    have h : IsBase64 ([a, b, c] ++ padding 3) _ :=
      .intro (.cons ha (.cons hb (.cons hc .nil))) (by simp) (.inr rfl)
    exact h

theorem not_isBase64_triple_padChar : ¬IsBase64 [a, b, padChar] out := by
  intro h
  obtain ⟨v, w, x, -, -, hc, -⟩ := tripleBytes_eq_some.mp (isBase64_triple.mp h)
  rw [value_padChar] at hc
  cases hc

/-- Base64 text stands for one sequence of bytes. -/
theorem IsBase64.unique {text out out' : List UInt8} (h : IsBase64 text out) (h' : IsBase64 text out') :
    out = out' := by
  match text, h, h' with
  | [], h, h' =>
    obtain ⟨values, hvalues, -, rfl⟩ := h.short (by simp)
    obtain ⟨values', hvalues', -, rfl⟩ := h'.short (by simp)
    cases hvalues
    cases hvalues'
    rfl
  | [a], h, _ =>
    obtain ⟨values, -, hlength, -⟩ := h.short (by simp)
    exact absurd rfl hlength
  | [a, b], h, h' =>
    exact Option.some.inj ((isBase64_pair.mp h).symm.trans (isBase64_pair.mp h'))
  | [a, b, c], h, h' =>
    exact Option.some.inj ((isBase64_triple.mp h).symm.trans (isBase64_triple.mp h'))
  | a :: b :: c :: d :: text, h, h' =>
    rcases h.cases_group with ⟨v, w, x, y, tail, ha, hb, hc, hd, ht, rfl⟩ | ⟨-, hpad, hlast⟩
    · rcases h'.cases_group with ⟨v', w', x', y', tail', ha', hb', hc', hd', ht', rfl⟩ | ⟨-, hpad, -⟩
      · rw [ha, Option.some.injEq] at ha'
        rw [hb, Option.some.injEq] at hb'
        rw [hc, Option.some.injEq] at hc'
        rw [hd, Option.some.injEq] at hd'
        rw [ha', hb', hc', hd', IsBase64.unique ht ht']
      · rw [hpad, value_padChar] at hd
        cases hd
    · rcases h'.cases_group with ⟨_, _, _, _, _, -, -, -, hd', -⟩ | ⟨-, -, hlast'⟩
      · rw [hpad, value_padChar] at hd'
        cases hd'
      · rcases hlast with ⟨rfl, hpair⟩ | htriple
        · rcases hlast' with ⟨-, hpair'⟩ | htriple'
          · exact IsBase64.unique hpair hpair'
          · exact absurd htriple' not_isBase64_triple_padChar
        · rcases hlast' with ⟨rfl, -⟩ | htriple'
          · exact absurd htriple not_isBase64_triple_padChar
          · exact IsBase64.unique htriple htriple'
  termination_by text.length

end Upb.Common.Base64
