import Mathlib.Data.Int.Order.Basic
import Mathlib.Tactic.Tauto

/-!
# Checking identifiers

`_upb_DefBuilder_CheckIdentNotFull` and `_upb_DefBuilder_CheckIdentFull` decide without a branch whether a
name is well formed; `_upb_DefBuilder_CheckIdentSlow` is called for the names they reject, to find words for
the error. It goes over the name with a flag for the start of a part, and ends in an assertion that fails.
-/

namespace Upb.Reflection

/-- The value of a `char`, which may be signed. -/
def charValue (signed : Bool) (c : UInt8) : ℤ := if signed ∧ 128 ≤ c.toNat then c.toNat - 256 else c.toNat

/-- `is_alpha`. -/
def isAlpha (signed : Bool) (c : UInt8) : Bool :=
  let d := c ||| 0x20  -- force lowercase
  (97 ≤ charValue signed d && charValue signed d ≤ 122) || charValue signed c == 95

/-- `is_numer`, without its condition on the position. -/
def isNumer (signed : Bool) (c : UInt8) : Bool := 48 ≤ charValue signed c && charValue signed c ≤ 57

/-- `c == '.'`. -/
def isDot (signed : Bool) (c : UInt8) : Bool := charValue signed c == 46

/-- The loop of `_upb_DefBuilder_CheckIdentNotFull`. -/
def identNotFullLoop (signed : Bool) : ℕ → Bool → List UInt8 → Bool
  | _, good, [] => good
  | i, good, c :: rest =>
    identNotFullLoop signed (i + 1) (good && (isAlpha signed c || isNumer signed c && i != 0)) rest

/-- `good` at the end of `_upb_DefBuilder_CheckIdentNotFull`. -/
def identNotFullGood (signed : Bool) (name : List UInt8) : Bool :=
  identNotFullLoop signed 0 (0 < name.length) name

/-- The loop of `_upb_DefBuilder_CheckIdentFull`. -/
def identFullLoop (signed : Bool) : Bool → Bool → List UInt8 → Bool
  | good, _, [] => good
  | good, start, c :: rest =>
    identFullLoop signed
      (good && (isAlpha signed c || isNumer signed c && !start || isDot signed c && !start))
      (isDot signed c && !start) rest

/-- `good` at the end of `_upb_DefBuilder_CheckIdentFull`. -/
def identFullGood (signed : Bool) (name : List UInt8) : Bool :=
  identFullLoop signed (0 < name.length) true name

/-- `upb_isbetween`. -/
def upbIsbetween (c low high : UInt8) : Bool := low ≤ c && c ≤ high

/-- `upb_isletter`. -/
def upbIsletter (signed : Bool) (c : UInt8) : Bool :=
  upbIsbetween (c ||| 0x20) 97 122 || charValue signed c == 95

/-- `upb_isalphanum`. -/
def upbIsalphanum (signed : Bool) (c : UInt8) : Bool := upbIsletter signed c || upbIsbetween c 48 57

/-- The errors of `_upb_DefBuilder_CheckIdentSlow`, each with the name in parentheses behind it. -/
inductive IdentError where
  /-- "invalid name: unexpected '.'" -/
  | unexpectedDot
  /-- "invalid name: path components must start with a letter" -/
  | mustStartWithLetter
  /-- "invalid name: non-alphanumeric character" -/
  | nonAlphanumeric
  /-- "invalid name: empty part" -/
  | emptyPart
  deriving DecidableEq

/-- The rounds of `_upb_DefBuilder_CheckIdentSlow`, and the test behind them: the error that is raised, or
nothing if the final assertion is reached. -/
def checkIdentSlowLoop (signed full : Bool) : Bool → List UInt8 → Option IdentError
  | start, [] => if start then some .emptyPart else none
  | start, c :: rest =>
    if isDot signed c then
      if start || !full then some .unexpectedDot else checkIdentSlowLoop signed full true rest
    else if start then
      if !upbIsletter signed c then some .mustStartWithLetter else checkIdentSlowLoop signed full false rest
    else if !upbIsalphanum signed c then some .nonAlphanumeric
    else checkIdentSlowLoop signed full start rest

/-- `_upb_DefBuilder_CheckIdentSlow`. -/
def checkIdentSlow (signed : Bool) (name : List UInt8) (full : Bool) : Option IdentError :=
  checkIdentSlowLoop signed full true name

/-- What a check of a name comes to. -/
inductive IdentCheck where
  | accepted
  /-- `_upb_DefBuilder_Errf`. -/
  | error (e : IdentError)
  /-- `UPB_ASSERT(false)`. -/
  | assertion
  deriving DecidableEq

/-- A name that a fast check rejects. -/
def IdentCheck.ofSlow : Option IdentError → IdentCheck
  | some e => .error e
  | none => .assertion

/-- `_upb_DefBuilder_CheckIdentNotFull`. -/
def checkIdentNotFull (signed : Bool) (name : List UInt8) : IdentCheck :=
  if identNotFullGood signed name then .accepted else .ofSlow (checkIdentSlow signed name false)

/-- `_upb_DefBuilder_CheckIdentFull`. -/
def checkIdentFull (signed : Bool) (name : List UInt8) : IdentCheck :=
  if identFullGood signed name then .accepted else .ofSlow (checkIdentSlow signed name true)

/-- `[A-Za-z_]`. -/
def IsLetter (c : UInt8) : Prop :=
  65 ≤ c.toNat ∧ c.toNat ≤ 90 ∨ 97 ≤ c.toNat ∧ c.toNat ≤ 122 ∨ c.toNat = 95

/-- `[A-Za-z0-9_]`. -/
def IsAlphanum (c : UInt8) : Prop := IsLetter c ∨ 48 ≤ c.toNat ∧ c.toNat ≤ 57

/-- `[A-Za-z_][A-Za-z0-9_]*`. -/
def IsIdent (name : List UInt8) : Prop :=
  ∃ c rest, name = c :: rest ∧ IsLetter c ∧ ∀ d ∈ rest, IsAlphanum d

/-- Identifiers joined by dots. -/
inductive IsFullIdent : List UInt8 → Prop
  | part {name : List UInt8} : IsIdent name → IsFullIdent name
  | dot {part rest : List UInt8} : IsIdent part → IsFullIdent rest → IsFullIdent (part ++ 46 :: rest)

/-- What may come next, at the start of a part or inside it: whether there may be dots, and whether the last
part may be empty. -/
def Parts (dots emptyEnd : Bool) : Bool → List UInt8 → Prop
  | start, [] => start = true → emptyEnd = true
  | start, c :: rest =>
    c = 46 ∧ dots = true ∧ start = false ∧ Parts dots emptyEnd true rest ∨
      IsLetter c ∧ Parts dots emptyEnd false rest ∨
      (48 ≤ c.toNat ∧ c.toNat ≤ 57) ∧ start = false ∧ Parts dots emptyEnd false rest

section Bytes

variable (signed : Bool) (c : UInt8)

set_option maxRecDepth 4000 in
/-- The forced bit makes a lowercase letter of a letter, and of nothing else. -/
theorem lowercase_iff : 97 ≤ (c ||| 0x20).toNat ∧ (c ||| 0x20).toNat ≤ 122 ↔
    65 ≤ c.toNat ∧ c.toNat ≤ 90 ∨ 97 ≤ c.toNat ∧ c.toNat ≤ 122 := by
  have h : ∀ n < 256, (97 ≤ n ||| 32 ∧ n ||| 32 ≤ 122 ↔ 65 ≤ n ∧ n ≤ 90 ∨ 97 ≤ n ∧ n ≤ 122) := by decide
  rw [UInt8.toNat_or]
  exact h c.toNat c.toNat_lt

/-- A comparison with ASCII characters does not depend on the sign of `char`. -/
theorem charValue_between {low high : ℕ} (hlow : 0 < low) (hhigh : high < 128) :
    (low : ℤ) ≤ charValue signed c ∧ charValue signed c ≤ high ↔ low ≤ c.toNat ∧ c.toNat ≤ high := by
  have hlt := c.toNat_lt
  unfold charValue
  split <;> omega

theorem charValue_eq {n : ℕ} (hn : 0 < n) (hlt : n < 128) : charValue signed c = n ↔ c.toNat = n := by
  have h := charValue_between signed c hn hlt
  omega

theorem isAlpha_iff : isAlpha signed c = true ↔ IsLetter c := by
  have hletter := charValue_between signed (c ||| 0x20) (show 0 < 97 by omega) (show 122 < 128 by omega)
  have hunderscore := charValue_eq signed c (show 0 < 95 by omega) (by omega)
  have hlower := lowercase_iff c
  simp only [isAlpha, Bool.or_eq_true, Bool.and_eq_true, decide_eq_true_eq, beq_iff_eq, IsLetter]
  push_cast at hletter hunderscore
  rw [hletter, hunderscore, hlower]
  omega

theorem isNumer_iff : isNumer signed c = true ↔ 48 ≤ c.toNat ∧ c.toNat ≤ 57 := by
  have h := charValue_between signed c (show 0 < 48 by omega) (show 57 < 128 by omega)
  simp only [isNumer, Bool.and_eq_true, decide_eq_true_eq]
  push_cast at h
  exact h

theorem isDot_iff : isDot signed c = true ↔ c = 46 := by
  have h := charValue_eq signed c (show 0 < 46 by omega) (by omega)
  push_cast at h
  simp only [isDot, beq_iff_eq]
  rw [h]
  exact ⟨fun hc => UInt8.toNat_inj.mp hc, fun hc => by rw [hc]; rfl⟩

theorem upbIsletter_iff : upbIsletter signed c = true ↔ IsLetter c := by
  have hunderscore := charValue_eq signed c (show 0 < 95 by omega) (by omega)
  have hlower := lowercase_iff c
  simp only [upbIsletter, upbIsbetween, Bool.or_eq_true, Bool.and_eq_true, decide_eq_true_eq, beq_iff_eq,
    UInt8.le_iff_toNat_le, IsLetter]
  push_cast at hunderscore
  rw [hunderscore]
  change 97 ≤ _ ∧ _ ≤ 122 ∨ _ ↔ _
  rw [hlower]
  omega

theorem upbIsalphanum_iff : upbIsalphanum signed c = true ↔ IsAlphanum c := by
  simp only [upbIsalphanum, Bool.or_eq_true, upbIsletter_iff, upbIsbetween, Bool.and_eq_true,
    decide_eq_true_eq, UInt8.le_iff_toNat_le, IsAlphanum]
  rfl

/-- A dot is no letter and no digit. -/
theorem not_isAlphanum_dot : ¬IsAlphanum 46 := by
  unfold IsAlphanum IsLetter
  decide

end Bytes

section Names

variable {dots emptyEnd start : Bool} {part rest name : List UInt8} (signed : Bool)

theorem IsIdent.append_singleton {c : UInt8} (h : IsIdent part) (hc : IsAlphanum c) :
    IsIdent (part ++ [c]) := by
  obtain ⟨d, ds, rfl, hd, hds⟩ := h
  refine ⟨d, ds ++ [c], rfl, hd, ?_⟩
  intro e he
  rcases List.mem_append.mp he with he | he
  · exact hds e he
  · rwa [List.mem_singleton.mp he]

theorem isIdent_singleton {c : UInt8} (hc : IsLetter c) : IsIdent [c] :=
  ⟨c, [], rfl, hc, fun _ h => absurd h List.not_mem_nil⟩

/-- Letters and digits do not end a part. -/
theorem Parts.append (h : Parts dots emptyEnd false rest) {cs : List UInt8} (hcs : ∀ c ∈ cs, IsAlphanum c) :
    Parts dots emptyEnd false (cs ++ rest) := by
  induction cs with
  | nil => exact h
  | cons c cs ih =>
    have htail := ih fun d hd => hcs d (.tail _ hd)
    rcases hcs c (.head _) with hc | hc
    · exact .inr (.inl ⟨hc, htail⟩)
    · exact .inr (.inr ⟨hc, rfl, htail⟩)

/-- An identifier at the start of a part. -/
theorem Parts.ident (h : Parts dots emptyEnd false rest) (hpart : IsIdent part) :
    Parts dots emptyEnd true (part ++ rest) := by
  obtain ⟨c, cs, rfl, hc, hcs⟩ := hpart
  exact .inr (.inl ⟨hc, h.append hcs⟩)

/-- Without dots there is one part. -/
theorem parts_isIdent : Parts false false true name ↔ IsIdent name := by
  have hinside (rest : List UInt8) (h : Parts false false false rest) : ∀ c ∈ rest, IsAlphanum c := by
    induction rest with
    | nil => exact fun _ hc => absurd hc List.not_mem_nil
    | cons d ds ih =>
      intro c hc
      rcases h with ⟨-, h, -⟩ | ⟨hd, h⟩ | ⟨hd, -, h⟩
      · cases h
      · rcases List.mem_cons.mp hc with rfl | hc
        · exact .inl hd
        · exact ih h c hc
      · rcases List.mem_cons.mp hc with rfl | hc
        · exact .inr hd
        · exact ih h c hc
  constructor
  · intro h
    cases name with
    | nil => exact absurd (h rfl) (by decide)
    | cons c cs =>
      rcases h with ⟨-, h, -⟩ | ⟨hc, h⟩ | ⟨-, h, -⟩
      · cases h
      · exact ⟨c, cs, rfl, hc, hinside cs h⟩
      · cases h
  · intro h
    rw [← List.append_nil name]
    exact Parts.ident (fun hf => absurd hf Bool.false_ne_true) h

/-- A part that is not empty does not end where it starts. -/
theorem parts_noDots_emptyEnd : Parts false true false rest ↔ Parts false false false rest := by
  induction rest with
  | nil => simp [Parts]
  | cons c cs ih => simp [Parts, ih]

/-- With dots there are parts joined by dots. -/
theorem parts_isFullIdent : Parts true false true name ↔ IsFullIdent name := by
  have hparts (rest : List UInt8) : (Parts true false true rest → IsFullIdent rest) ∧
      (Parts true false false rest → ∀ part, IsIdent part → IsFullIdent (part ++ rest)) := by
    induction rest with
    | nil =>
      refine ⟨fun h => absurd (h rfl) (by decide), fun _ part hpart => ?_⟩
      rw [List.append_nil]
      exact .part hpart
    | cons c cs ih =>
      refine ⟨?_, ?_⟩
      · rintro (⟨-, -, h, -⟩ | ⟨hc, h⟩ | ⟨-, h, -⟩)
        · cases h
        · exact ih.2 h [c] (isIdent_singleton hc)
        · cases h
      · rintro (⟨rfl, -, -, h⟩ | ⟨hc, h⟩ | ⟨hc, -, h⟩) part hpart
        · exact .dot hpart (ih.1 h)
        · rw [← List.singleton_append, ← List.append_assoc]
          exact ih.2 h _ (hpart.append_singleton (.inl hc))
        · rw [← List.singleton_append, ← List.append_assoc]
          exact ih.2 h _ (hpart.append_singleton (.inr hc))
  constructor
  · exact (hparts name).1
  · intro h
    induction h with
    | @part name hpart =>
      rw [← List.append_nil name]
      exact Parts.ident nofun hpart
    | dot hpart _ ih => exact Parts.ident (.inl ⟨rfl, rfl, rfl, ih⟩) hpart

/-- A part that may be empty at the end makes a dot at the end possible. -/
theorem parts_emptyEnd : Parts true true start rest ↔
    Parts true false start rest ∨ rest = [] ∧ start = true ∨
      ∃ front, Parts true false start front ∧ rest = front ++ [46] := by
  induction rest generalizing start with
  | nil =>
    cases start with
    | false => simp [Parts]
    | true => simp [Parts]
  | cons c cs ih =>
    have hfront (P : List UInt8 → Prop) : (∃ front, P front ∧ c :: cs = front ++ [46]) ↔
        P [] ∧ c = 46 ∧ cs = [] ∨ ∃ front, P (c :: front) ∧ cs = front ++ [46] := by
      constructor
      · rintro ⟨front, hP, h⟩
        cases front with
        | nil =>
          cases h
          exact .inl ⟨hP, rfl, rfl⟩
        | cons d front =>
          obtain ⟨rfl, rfl⟩ := List.cons.inj h
          exact .inr ⟨front, hP, rfl⟩
      · rintro (⟨hP, rfl, rfl⟩ | ⟨front, hP, rfl⟩)
        · exact ⟨[], hP, rfl⟩
        · exact ⟨c :: front, hP, rfl⟩
    rw [hfront]
    simp only [Parts, ih, reduceCtorEq, false_and, false_or, and_false, Bool.false_eq_true, imp_false,
      Bool.not_eq_true, true_and]
    constructor
    · rintro (⟨rfl, rfl, h | ⟨rfl, -⟩ | ⟨front, h, rfl⟩⟩ | ⟨hc, h | ⟨front, h, rfl⟩⟩ |
        ⟨hc, rfl, h | ⟨front, h, rfl⟩⟩)
      · exact .inl (.inl ⟨rfl, rfl, h⟩)
      · exact .inr (.inl ⟨rfl, rfl, rfl⟩)
      · exact .inr (.inr ⟨front, .inl ⟨rfl, rfl, h⟩, rfl⟩)
      · exact .inl (.inr (.inl ⟨hc, h⟩))
      · exact .inr (.inr ⟨front, .inr (.inl ⟨hc, h⟩), rfl⟩)
      · exact .inl (.inr (.inr ⟨hc, rfl, h⟩))
      · exact .inr (.inr ⟨front, .inr (.inr ⟨hc, rfl, h⟩), rfl⟩)
    · rintro ((⟨rfl, rfl, h⟩ | ⟨hc, h⟩ | ⟨hc, rfl, h⟩) | ⟨rfl, rfl, rfl⟩ |
        ⟨front, ⟨rfl, rfl, h⟩ | ⟨hc, h⟩ | ⟨hc, rfl, h⟩, rfl⟩)
      · exact .inl ⟨rfl, rfl, .inl h⟩
      · exact .inr (.inl ⟨hc, .inl h⟩)
      · exact .inr (.inr ⟨hc, rfl, .inl h⟩)
      · exact .inl ⟨rfl, rfl, .inr (.inl ⟨rfl, trivial⟩)⟩
      · exact .inl ⟨rfl, rfl, .inr (.inr ⟨front, h, rfl⟩)⟩
      · exact .inr (.inl ⟨hc, .inr ⟨front, h, rfl⟩⟩)
      · exact .inr (.inr ⟨hc, rfl, .inr ⟨front, h, rfl⟩⟩)

/-- The loop of the check of relative names. -/
theorem identNotFullLoop_iff {good : Bool} {i : ℕ} : identNotFullLoop signed i good rest = true ↔
    good = true ∧ Parts false true (i == 0) rest := by
  induction rest generalizing i good with
  | nil => simp [identNotFullLoop, Parts]
  | cons c cs ih =>
    rw [identNotFullLoop, ih]
    simp only [Bool.and_eq_true, Bool.or_eq_true, isAlpha_iff, isNumer_iff, Parts, Bool.false_eq_true,
      false_and, and_false, false_or, beq_eq_false_iff_ne, bne_iff_ne, (show (i + 1 == 0) = false from rfl)]
    tauto

/-- The loop of the check of dotted names. -/
theorem identFullLoop_iff {good : Bool} : identFullLoop signed good start rest = true ↔
    good = true ∧ Parts true true start rest := by
  induction rest generalizing start good with
  | nil => simp [identFullLoop, Parts]
  | cons c cs ih =>
    rw [identFullLoop, ih]
    simp only [Parts]
    by_cases hdot : c = 46
    · subst hdot
      have hletter : ¬IsLetter 46 := fun h => not_isAlphanum_dot (.inl h)
      have hdigit : ¬(48 ≤ (46 : UInt8).toNat ∧ (46 : UInt8).toNat ≤ 57) := by decide
      rw [Bool.eq_false_iff.mpr (mt (isAlpha_iff signed 46).mp hletter),
        Bool.eq_false_iff.mpr (mt (isNumer_iff signed 46).mp hdigit), (isDot_iff signed 46).mpr rfl]
      cases start with
      | true => simp [hletter]
      | false => simp [hletter]
    · rw [Bool.eq_false_iff.mpr (mt (isDot_iff signed c).mp hdot)]
      simp only [Bool.false_and, Bool.or_false, Bool.and_eq_true, Bool.or_eq_true, isAlpha_iff, isNumer_iff,
        hdot, false_and, false_or, Bool.not_eq_true']
      tauto

/-- The slow check finds no error exactly in well formed names. -/
theorem checkIdentSlowLoop_iff : checkIdentSlowLoop signed dots start rest = none ↔
    Parts dots false start rest := by
  induction rest generalizing start with
  | nil => simp [checkIdentSlowLoop, Parts]
  | cons c cs ih =>
    rw [checkIdentSlowLoop]
    by_cases hdot : c = 46
    · subst hdot
      have hletter : ¬IsLetter 46 := fun h => not_isAlphanum_dot (.inl h)
      rw [if_pos ((isDot_iff signed 46).mpr rfl)]
      cases start with
      | true => simp [Parts, hletter]
      | false =>
        cases dots with
        | true => simp [Parts, hletter, ih]
        | false => simp [Parts, hletter]
    · rw [if_neg (mt (isDot_iff signed c).mp hdot)]
      simp only [Parts, hdot, false_and, false_or]
      cases start with
      | true =>
        rw [if_pos rfl]
        by_cases hletter : IsLetter c
        · rw [(upbIsletter_iff signed c).mpr hletter]
          simp [ih, hletter]
        · rw [Bool.eq_false_iff.mpr (mt (upbIsletter_iff signed c).mp hletter)]
          simp [hletter]
      | false =>
        rw [if_neg Bool.false_ne_true]
        by_cases halphanum : IsAlphanum c
        · rw [(upbIsalphanum_iff signed c).mpr halphanum]
          simp only [Bool.not_true, Bool.false_eq_true, if_false, ih, true_and]
          rw [← or_and_right]
          exact (and_iff_right halphanum).symm
        · rw [Bool.eq_false_iff.mpr (mt (upbIsalphanum_iff signed c).mp halphanum)]
          simp only [Bool.not_false, if_true, reduceCtorEq, true_and, false_iff]
          rw [← or_and_right]
          exact fun h => halphanum h.1

/-- The names that the check of relative names accepts. -/
theorem identNotFullGood_iff (name : List UInt8) : identNotFullGood signed name = true ↔ IsIdent name := by
  rw [identNotFullGood, identNotFullLoop_iff, decide_eq_true_eq, ← parts_isIdent]
  cases name with
  | nil => simp [Parts]
  | cons c cs => simp [Parts, parts_noDots_emptyEnd]

/-- The names that the check of dotted names accepts: a dot at the end does not matter. -/
theorem identFullGood_iff (name : List UInt8) : identFullGood signed name = true ↔
    IsFullIdent name ∨ ∃ front, IsFullIdent front ∧ name = front ++ [46] := by
  rw [identFullGood, identFullLoop_iff, decide_eq_true_eq, parts_emptyEnd]
  simp only [parts_isFullIdent, and_true]
  constructor
  · rintro ⟨hlength, h | rfl | h⟩
    · exact .inl h
    · cases hlength
    · exact .inr h
  · rintro (h | ⟨front, h, rfl⟩)
    · refine ⟨?_, .inl h⟩
      cases h with
      | part hpart =>
        obtain ⟨c, cs, rfl, -⟩ := hpart
        simp
      | dot =>
        rw [List.length_append, List.length_cons]
        omega
    · exact ⟨by simp, .inr (.inr ⟨front, h, rfl⟩)⟩

/-- An identifier in parts does not end in a dot. -/
theorem not_isFullIdent_append_dot (front : List UInt8) : ¬IsFullIdent (front ++ [46]) := by
  have hlast {name : List UInt8} (h : IsFullIdent name) : ∃ c, name.getLast? = some c ∧ IsAlphanum c := by
    have hident {part : List UInt8} (h : IsIdent part) : ∃ c, part.getLast? = some c ∧ IsAlphanum c := by
      obtain ⟨c, cs, rfl, hc, hcs⟩ := h
      have hall : ∀ d ∈ c :: cs, IsAlphanum d := List.forall_mem_cons.mpr ⟨.inl hc, hcs⟩
      exact ⟨_, List.getLast?_eq_some_getLast (List.cons_ne_nil c cs), hall _ (List.getLast_mem _)⟩
    induction h with
    | part hpart => exact hident hpart
    | @dot part rest _ _ ih =>
      obtain ⟨c, hc, halphanum⟩ := ih
      refine ⟨c, ?_, halphanum⟩
      rw [List.getLast?_append, List.getLast?_cons, hc]
      rfl
  intro h
  obtain ⟨c, hc, halphanum⟩ := hlast h
  rw [List.getLast?_append, List.getLast?_singleton] at hc
  cases hc
  exact not_isAlphanum_dot halphanum

/-- The check of relative names accepts the identifiers, and raises an error for every other name. -/
def RelativeAgrees (name : List UInt8) : Prop :=
  (checkIdentNotFull signed name = .accepted ↔ IsIdent name) ∧
    (checkIdentNotFull signed name ≠ .accepted → ∃ e, checkIdentNotFull signed name = .error e)

/-- The check of dotted names accepts identifiers joined by dots, and raises an error for every other name. -/
def DottedAgrees (name : List UInt8) : Prop :=
  (checkIdentFull signed name = .accepted ↔ IsFullIdent name) ∧
    (checkIdentFull signed name ≠ .accepted → ∃ e, checkIdentFull signed name = .error e)

theorem ofSlow_ne_accepted (e : Option IdentError) : IdentCheck.ofSlow e ≠ .accepted := by
  cases e <;> exact nofun

/-- The slow check raises an error, if the name is not well formed. -/
theorem ofSlow_error {full : Bool} (h : checkIdentSlow signed name full ≠ none) :
    ∃ e, IdentCheck.ofSlow (checkIdentSlow signed name full) = .error e := by
  obtain ⟨e, he⟩ := Option.ne_none_iff_exists'.mp h
  exact ⟨e, by rw [he]; rfl⟩

theorem relativeAgrees (name : List UInt8) : RelativeAgrees signed name := by
  unfold RelativeAgrees checkIdentNotFull
  by_cases hgood : identNotFullGood signed name = true
  · rw [if_pos hgood]
    exact ⟨iff_of_true rfl ((identNotFullGood_iff signed name).mp hgood), absurd rfl⟩
  · rw [if_neg hgood]
    have hident := mt (identNotFullGood_iff signed name).mpr hgood
    refine ⟨iff_of_false (ofSlow_ne_accepted _) hident, fun _ => ofSlow_error signed ?_⟩
    rwa [checkIdentSlow, Ne, checkIdentSlowLoop_iff, parts_isIdent]

/-- The fast checks accept the well formed names, and the slow check raises an error for the others; the
check of dotted names does so exactly if the name is not a well formed one with a dot behind it. -/
theorem relativeAgrees_and_dottedAgrees_iff (name : List UInt8) : RelativeAgrees signed name ∧
    (DottedAgrees signed name ↔ ¬∃ front, IsFullIdent front ∧ name = front ++ [46]) := by
  refine ⟨relativeAgrees signed name, ?_⟩
  unfold DottedAgrees checkIdentFull
  have hiff := identFullGood_iff signed name
  constructor
  · rintro h ⟨front, hfront, rfl⟩
    rw [if_pos (hiff.mpr (.inr ⟨front, hfront, rfl⟩))] at h
    exact not_isFullIdent_append_dot front (h.1.mp rfl)
  · intro hdot
    rw [or_iff_left hdot] at hiff
    by_cases hgood : identFullGood signed name = true
    · rw [if_pos hgood]
      exact ⟨iff_of_true rfl (hiff.mp hgood), absurd rfl⟩
    · rw [if_neg hgood]
      have hident := mt hiff.mpr hgood
      refine ⟨iff_of_false (ofSlow_ne_accepted _) hident, fun _ => ofSlow_error signed ?_⟩
      rwa [checkIdentSlow, Ne, checkIdentSlowLoop_iff, parts_isFullIdent]

/-- The check of dotted names accepts "a.". -/
theorem dottedAgrees_trailingDot : ¬DottedAgrees true [97, 46] := by
  intro h
  have hfull := h.1.mp (by decide)
  exact not_isFullIdent_append_dot [97] hfull

end Names

end Upb.Reflection
