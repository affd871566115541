import Mathlib.Data.List.Forall2
import Mathlib.Data.Nat.Bitwise
import Upb.Reflection.Unescape

/-!
# What a bytes default stands for

The text of a bytes default splits into characters and escapes in one way. An escape with digits stands
for a byte if its value is at most 255. The code computes the value in an `unsigned int` or in a `char`:
it accepts hex escapes whose value wraps, octal escapes above 255, and, where `char` is unsigned, reads
an octal escape of one or two digits as 255.
-/

namespace Upb.Reflection

/-- The value of a hex digit. -/
def hexDigit (ch : UInt8) : Option ℕ :=
  if 48 ≤ ch.toNat ∧ ch.toNat ≤ 57 then some (ch.toNat - 48)
  else if 65 ≤ ch.toNat ∧ ch.toNat ≤ 70 then some (ch.toNat - 55)
  else if 97 ≤ ch.toNat ∧ ch.toNat ≤ 102 then some (ch.toNat - 87)
  else none

/-- The value of an octal digit. -/
def octalDigit (ch : UInt8) : Option ℕ :=
  if 48 ≤ ch.toNat ∧ ch.toNat ≤ 55 then some (ch.toNat - 48) else none

/-- The number that hex digits spell. -/
def hexValue (digits : List UInt8) : ℕ := digits.foldl (fun v ch => v * 16 + (hexDigit ch).getD 0) 0

/-- The number that octal digits spell. -/
def octalValue (digits : List UInt8) : ℕ := digits.foldl (fun v ch => v * 8 + (octalDigit ch).getD 0) 0

/-- A character or an escape of a text. -/
inductive Token where
  | char (ch : UInt8)
  | simple (ch value : UInt8)
  | hex (digits : List UInt8)
  | octal (digits : List UInt8)

/-- A text and the characters and escapes it consists of; an escape takes all digits it can. -/
inductive Lexes : List Token → List UInt8 → Prop
  | nil : Lexes [] []
  | char {toks : List Token} {ch : UInt8} {rest : List UInt8} (hch : ch ≠ 92) (h : Lexes toks rest) :
      Lexes (.char ch :: toks) (ch :: rest)
  | simple {toks : List Token} {ch value : UInt8} {rest : List UInt8} (hch : simpleEscape ch = some value)
      (h : Lexes toks rest) : Lexes (.simple ch value :: toks) (92 :: ch :: rest)
  | hex {toks : List Token} {x : UInt8} {digits rest : List UInt8} (hx : x = 120 ∨ x = 88)
      (hne : digits ≠ []) (hdigits : ∀ ch ∈ digits, (hexDigit ch).isSome)
      (hend : ∀ ch ∈ rest.head?, hexDigit ch = none) (h : Lexes toks rest) :
      Lexes (.hex digits :: toks) (92 :: x :: (digits ++ rest))
  | octal {toks : List Token} {digits rest : List UInt8} (hne : digits ≠ []) (hlen : digits.length ≤ 3)
      (hdigits : ∀ ch ∈ digits, (octalDigit ch).isSome)
      (hend : digits.length < 3 → ∀ ch ∈ rest.head?, octalDigit ch = none) (h : Lexes toks rest) :
      Lexes (.octal digits :: toks) (92 :: (digits ++ rest))

namespace Token

/-- The byte that a character or an escape stands for. -/
def denotes : Token → Option UInt8
  | .char ch => some ch
  | .simple _ value => some value
  | .hex digits => if hexValue digits ≤ 255 then some (UInt8.ofNat (hexValue digits)) else none
  | .octal digits => if octalValue digits ≤ 255 then some (UInt8.ofNat (octalValue digits)) else none

/-- The byte that the code takes a character or an escape for. -/
def loads (signed : Bool) : Token → Option UInt8
  | .char ch => some ch
  | .simple _ value => some value
  | .hex digits =>
    if hexValue digits % 2 ^ 32 ≤ 255 then some (UInt8.ofNat (hexValue digits % 2 ^ 32)) else none
  | .octal digits =>
    some (if signed = false ∧ digits.length < 3 then 255 else UInt8.ofNat (octalValue digits))

/-- An escape that the code rejects for its value. -/
def Rejected : Token → Prop
  | .hex digits => 255 < hexValue digits % 2 ^ 32
  | _ => False

/-- A hex escape whose value does not wrap to a byte, or an octal escape up to 255, of three digits where
`char` is unsigned. -/
def Proper (signed : Bool) : Token → Prop
  | .hex digits => hexValue digits ≤ 255 ∨ 255 < hexValue digits % 2 ^ 32
  | .octal digits => octalValue digits ≤ 255 ∧ (signed = true ∨ 3 ≤ digits.length)
  | _ => True

end Token

/-- A text stands for a byte string. -/
def Denotes (text out : List UInt8) : Prop :=
  ∃ toks, Lexes toks text ∧ List.Forall₂ (fun t b => t.denotes = some b) toks out

section Digits

variable {signed : Bool} {ch : UInt8} {src rest digits : List UInt8}

theorem charToInt_of_lt (h : ch.toNat < 128) : charToInt signed ch = ch.toNat := by
  rw [charToInt, if_neg (by omega)]

theorem charToInt_eq (signed : Bool) (ch : UInt8) :
    charToInt signed ch = ch.toNat ∧ ch.toNat < 128 ∨ charToInt signed ch < 0 ∧ 128 ≤ ch.toNat ∨
      charToInt signed ch = ch.toNat ∧ 128 ≤ ch.toNat := by
  have hlt := ch.toNat_lt
  rw [charToInt]
  split
  · omega
  · omega

/-- A hex digit in lower case. -/
theorem lower_digit : ∀ n < 256, (97 ≤ (UInt8.ofNat n ||| 0x20).toNat ∧ (UInt8.ofNat n ||| 0x20).toNat ≤ 102) ↔
    (65 ≤ n ∧ n ≤ 70) ∨ (97 ≤ n ∧ n ≤ 102) := by decide +kernel

theorem lower_toNat : ∀ n < 256, (65 ≤ n ∧ n ≤ 70 → (UInt8.ofNat n ||| 0x20).toNat = n + 32) ∧
    (97 ≤ n ∧ n ≤ 102 → (UInt8.ofNat n ||| 0x20).toNat = n) := by decide +kernel

theorem tryGetHexDigit_cons (signed : Bool) (ch : UInt8) (src : List UInt8) :
    tryGetHexDigit signed (ch :: src) =
      match hexDigit ch with
      | some d => ((d : ℤ), src)
      | none => (-1, ch :: src) := by
  have hlt := ch.toNat_lt
  have hlower := lower_digit ch.toNat hlt
  have hvalue := lower_toNat ch.toNat hlt
  rw [UInt8.ofNat_toNat] at hlower hvalue
  have hch := charToInt_eq signed ch
  have hlow := charToInt_eq signed (ch ||| 0x20)
  rw [tryGetHexDigit, hexDigit]
  dsimp only
  generalize charToInt signed (ch ||| 0x20) = low at hlow ⊢
  generalize (ch ||| 0x20).toNat = lowNat at hlow hlower hvalue
  by_cases hdecimal : 48 ≤ ch.toNat ∧ ch.toNat ≤ 57
  · rw [if_pos (by omega), if_pos hdecimal]
    simp only [Prod.mk.injEq, and_true]
    omega
  rw [if_neg (by omega), if_neg hdecimal]
  by_cases hupper : 65 ≤ ch.toNat ∧ ch.toNat ≤ 70
  · have hsame := hvalue.1 hupper
    rw [if_pos (by omega), if_pos hupper]
    simp only [Prod.mk.injEq, and_true]
    omega
  rw [if_neg hupper]
  by_cases hletter : 97 ≤ ch.toNat ∧ ch.toNat ≤ 102
  · have hsame := hvalue.2 hletter
    rw [if_pos (by omega), if_pos hletter]
    simp only [Prod.mk.injEq, and_true]
    omega
  · rw [if_neg (by omega), if_neg hletter]

theorem tryGetOctalDigit_cons (signed : Bool) (ch : UInt8) (src : List UInt8) :
    tryGetOctalDigit signed (ch :: src) =
      if (octalDigit ch).isSome then (ch - 48, src) else (0xff, ch :: src) := by
  have hch := charToInt_eq signed ch
  rw [tryGetOctalDigit, octalDigit]
  by_cases hdigit : 48 ≤ ch.toNat ∧ ch.toNat ≤ 55
  · rw [if_pos (by omega), if_pos hdigit]
    rfl
  · rw [if_neg (by omega), if_neg hdigit]
    rfl

theorem hexDigit_lt {d : ℕ} (h : hexDigit ch = some d) : d < 16 := by
  rw [hexDigit] at h
  split at h
  · cases h
    omega
  · split at h
    · cases h
      omega
    · split at h
      · cases h
        omega
      · cases h

/-- One more hex digit in an `unsigned int`. -/
theorem shiftLeft_four_or {d : ℕ} (v : ℕ) (hd : d < 16) :
    ((v % 2 ^ 32) <<< 4) % 2 ^ 32 ||| d = (v * 16 + d) % 2 ^ 32 := by
  have hshift : ((v % 2 ^ 32) <<< 4) % 2 ^ 32 = (v % 2 ^ 28) <<< 4 := by
    rw [Nat.shiftLeft_eq, Nat.shiftLeft_eq]
    omega
  rw [hshift, ← Nat.shiftLeft_add_eq_or_of_lt hd, Nat.shiftLeft_eq]
  omega

/-- One more octal digit in a `char`. -/
theorem shiftLeft_three_or {d : ℕ} (v : ℕ) (hd : d < 8) :
    UInt8.ofNat v <<< 3 ||| UInt8.ofNat d = UInt8.ofNat (v * 8 + d) := by
  have hshift : ((v % 2 ^ 8) <<< 3) % 2 ^ 8 = (v % 2 ^ 5) <<< 3 := by
    rw [Nat.shiftLeft_eq, Nat.shiftLeft_eq]
    omega
  apply UInt8.toNat_inj.mp
  rw [UInt8.toNat_or, UInt8.toNat_shiftLeft, UInt8.toNat_ofNat', UInt8.toNat_ofNat', UInt8.toNat_ofNat']
  rw [show (3 : UInt8).toNat % 8 = 3 from rfl, hshift, Nat.mod_eq_of_lt (a := d) (by omega),
    ← Nat.shiftLeft_add_eq_or_of_lt hd, Nat.shiftLeft_eq]
  omega

end Digits

section Escapes

variable {signed : Bool} {ch : UInt8} {rest digits : List UInt8}

/-- The digits of a hex escape end. -/
theorem tryGetHexDigit_end (hend : ∀ ch ∈ rest.head?, hexDigit ch = none) :
    tryGetHexDigit signed rest = (-1, rest) := by
  cases rest with
  | nil => rfl
  | cons ch rest => rw [tryGetHexDigit_cons, hend ch rfl]

theorem hexEscapeLoop_eq (signed : Bool) (hend : ∀ ch ∈ rest.head?, hexDigit ch = none)
    (hdigits : ∀ ch ∈ digits, (hexDigit ch).isSome) :
    ∀ (fuel v : ℕ), digits.length ≤ fuel → hexEscapeLoop signed fuel (v % 2 ^ 32) (digits ++ rest) =
      (digits.foldl (fun v ch => v * 16 + (hexDigit ch).getD 0) v % 2 ^ 32, rest) := by
  induction digits with
  | nil =>
    intro fuel v _
    cases fuel with
    | zero => rfl
    | succ fuel =>
      rw [List.nil_append, hexEscapeLoop, tryGetHexDigit_end hend]
      rfl
  | cons ch digits ih =>
    intro fuel v hfuel
    obtain ⟨fuel, rfl⟩ : ∃ n, fuel = n + 1 := ⟨fuel - 1, by simp only [List.length_cons] at hfuel; omega⟩
    obtain ⟨d, hd⟩ := Option.isSome_iff_exists.mp (hdigits ch (List.mem_cons_self ..))
    rw [List.cons_append, hexEscapeLoop, tryGetHexDigit_cons, hd]
    dsimp only
    rw [if_pos (Int.natCast_nonneg d), Int.toNat_natCast, shiftLeft_four_or v (hexDigit_lt hd),
      ih (fun c hc => hdigits c (List.mem_cons_of_mem _ hc)) fuel _ (by simpa using hfuel), List.foldl_cons, hd,
      Option.getD_some]

/-- What a hex escape is taken for. -/
theorem parseHexEscape_eq (hne : digits ≠ []) (hdigits : ∀ ch ∈ digits, (hexDigit ch).isSome)
    (hend : ∀ ch ∈ rest.head?, hexDigit ch = none) :
    parseHexEscape signed (digits ++ rest) =
      if 255 < hexValue digits % 2 ^ 32 then .error .hexTooLarge
      else .ok (UInt8.ofNat (hexValue digits % 2 ^ 32), rest) := by
  cases digits with
  | nil => exact absurd rfl hne
  | cons ch digits =>
    obtain ⟨d, hd⟩ := Option.isSome_iff_exists.mp (hdigits ch (List.mem_cons_self ..))
    have hlt := hexDigit_lt hd
    have hloop := hexEscapeLoop_eq signed hend
      (fun c hc => hdigits c (List.mem_cons_of_mem _ hc)) (digits ++ rest).length d (by simp)
    rw [Nat.mod_eq_of_lt (by omega)] at hloop
    rw [parseHexEscape, List.cons_append, tryGetHexDigit_cons, hd]
    dsimp only
    rw [if_neg (by omega), Int.toNat_natCast, hloop, hexValue, List.foldl_cons, hd, Option.getD_some,
      Nat.zero_mul, Nat.zero_add]

/-- A hex escape needs a digit. -/
theorem parseHexEscape_end (hend : ∀ ch ∈ rest.head?, hexDigit ch = none) :
    parseHexEscape signed rest = .error .noHexDigit := by
  rw [parseHexEscape, tryGetHexDigit_end hend]
  rfl

theorem octalEscapeLoop_digit {d : ℕ} (n v : ℕ) (hd : octalDigit ch = some d) :
    octalEscapeLoop signed (n + 1) (UInt8.ofNat v) (ch :: rest) =
      octalEscapeLoop signed n (UInt8.ofNat (v * 8 + d)) rest := by
  have hdigit : ch - 48 = UInt8.ofNat d ∧ d < 8 := by
    have hlt := ch.toNat_lt
    rw [octalDigit] at hd
    split at hd
    · cases hd
      refine ⟨UInt8.toNat_inj.mp ?_, by omega⟩
      rw [UInt8.toNat_sub, UInt8.toNat_ofNat', show (48 : UInt8).toNat = 48 from rfl]
      omega
    · cases hd
  obtain ⟨hsub, hlt⟩ := hdigit
  have htoNat : (UInt8.ofNat d).toNat = d := by
    rw [UInt8.toNat_ofNat']
    omega
  rw [octalEscapeLoop, tryGetOctalDigit_cons, hd, Option.isSome_some, if_pos rfl]
  dsimp only
  rw [hsub, charToInt_of_lt (by omega), if_pos (Int.natCast_nonneg _), shiftLeft_three_or v hlt]

/-- Behind the digits, a signed `char` tells that there is none, and an unsigned one is taken for a
digit. -/
theorem octalEscapeLoop_end (hend : ∀ ch ∈ rest.head?, octalDigit ch = none) (n : ℕ) (ch : UInt8) :
    octalEscapeLoop signed n ch rest = (if signed = false ∧ 0 < n then 255 else ch, rest) := by
  have hnone : tryGetOctalDigit signed rest = (0xff, rest) := by
    cases rest with
    | nil => rfl
    | cons c rest => rw [tryGetOctalDigit_cons, hend c rfl]; rfl
  induction n generalizing ch with
  | zero =>
    rw [octalEscapeLoop, if_neg (by omega)]
  | succ n ih =>
    rw [octalEscapeLoop, hnone]
    dsimp only
    cases signed with
    | true =>
      rw [show charToInt true 0xff = -1 from rfl, if_neg (by omega), ih, if_neg (by simp), if_neg (by simp)]
    | false =>
      have hor : ch <<< 3 ||| 255 = 255 := by
        apply UInt8.toNat_inj.mp
        have hlt := (ch <<< 3 ||| 255).toNat_lt
        rw [UInt8.toNat_or] at hlt ⊢
        have hle := Nat.right_le_or (n := (ch <<< 3).toNat) (m := (255 : UInt8).toNat)
        rw [show (255 : UInt8).toNat = 255 from rfl] at hlt hle ⊢
        omega
      rw [show charToInt false 0xff = 255 from rfl, if_pos (by omega), ih, hor, ite_self,
        if_pos ⟨rfl, Nat.succ_pos n⟩]

/-- What an octal escape is taken for. -/
theorem parseOctalEscape_eq (signed : Bool) (hlen : digits.length ≤ 3)
    (hdigits : ∀ ch ∈ digits, (octalDigit ch).isSome)
    (hend : digits.length < 3 → ∀ ch ∈ rest.head?, octalDigit ch = none) :
    parseOctalEscape signed (digits ++ rest) =
      (if signed = false ∧ digits.length < 3 then 255 else UInt8.ofNat (octalValue digits), rest) := by
  have hloop : ∀ (digits : List UInt8) (n v : ℕ), (∀ ch ∈ digits, (octalDigit ch).isSome) →
      octalEscapeLoop signed (n + digits.length) (UInt8.ofNat v) (digits ++ rest) = octalEscapeLoop signed n
        (UInt8.ofNat (digits.foldl (fun v ch => v * 8 + (octalDigit ch).getD 0) v)) rest := by
    intro digits
    induction digits with
    | nil => exact fun n v _ => rfl
    | cons ch digits ih =>
      intro n v hall
      obtain ⟨d, hd⟩ := Option.isSome_iff_exists.mp (hall ch (List.mem_cons_self ..))
      rw [List.length_cons, ← Nat.add_assoc, List.cons_append, octalEscapeLoop_digit _ _ hd,
        ih _ _ fun c hc => hall c (List.mem_cons_of_mem _ hc), List.foldl_cons, hd, Option.getD_some]
  have hall := hloop digits (3 - digits.length) 0 hdigits
  rw [Nat.sub_add_cancel hlen] at hall
  rw [parseOctalEscape, show (0 : UInt8) = UInt8.ofNat 0 from rfl, hall, octalValue]
  rcases Nat.lt_or_ge digits.length 3 with hlt | hge
  · rw [octalEscapeLoop_end (hend hlt)]
    simp only [hlt, Nat.sub_pos_iff_lt]
  · rw [Nat.sub_eq_zero_of_le hge, octalEscapeLoop, if_neg (by omega)]

end Escapes

section Lex

variable {signed : Bool} {p : UInt8 → Bool}

/-- The digits at the front of a text, at most `n` of them. -/
theorem exists_digits (p : UInt8 → Bool) (n : ℕ) (src : List UInt8) :
    ∃ digits rest, src = digits ++ rest ∧ digits.length ≤ n ∧ (∀ ch ∈ digits, p ch) ∧
      (digits.length < n → ∀ ch ∈ rest.head?, p ch = false) := by
  induction n generalizing src with
  | zero =>
    exact ⟨[], src, rfl, le_rfl, fun _ h => absurd h List.not_mem_nil, fun h => absurd h (Nat.lt_irrefl 0)⟩
  | succ n ih =>
    cases src with
    | nil =>
      refine ⟨[], [], rfl, Nat.zero_le _, fun _ h => absurd h List.not_mem_nil, fun _ c hc => ?_⟩
      cases hc
    | cons ch src =>
      cases hp : p ch with
      | false =>
        refine ⟨[], ch :: src, rfl, Nat.zero_le _, fun _ h => absurd h List.not_mem_nil, fun _ c hc => ?_⟩
        cases hc
        exact hp
      | true =>
        obtain ⟨digits, rest, rfl, hlen, hdigits, hend⟩ := ih src
        refine ⟨ch :: digits, rest, rfl, Nat.succ_le_succ hlen, ?_, fun h => hend (Nat.lt_of_succ_lt_succ h)⟩
        intro c hc
        rcases List.mem_cons.mp hc with rfl | hc
        · exact hp
        · exact hdigits c hc

/-- Where the digits end is determined. -/
theorem digits_unique {digits digits' rest rest' : List UInt8} {n : ℕ} (hlen : digits.length ≤ n)
    (hlen' : digits'.length ≤ n) (hp : ∀ ch ∈ digits, p ch) (hp' : ∀ ch ∈ digits', p ch)
    (hend : digits.length < n → ∀ ch ∈ rest.head?, p ch = false)
    (hend' : digits'.length < n → ∀ ch ∈ rest'.head?, p ch = false)
    (h : digits ++ rest = digits' ++ rest') : digits = digits' ∧ rest = rest' := by
  induction digits generalizing digits' n with
  | nil =>
    cases digits' with
    | nil => exact ⟨rfl, h⟩
    | cons ch digits' =>
      have hfalse := hend (Nat.lt_of_lt_of_le (Nat.succ_pos _) hlen') ch (by rw [List.nil_append] at h; rw [h]; rfl)
      rw [hp' ch (List.mem_cons_self ..)] at hfalse
      cases hfalse
  | cons ch digits ih =>
    cases digits' with
    | nil =>
      have hfalse := hend' (Nat.lt_of_lt_of_le (Nat.succ_pos _) hlen) ch (by
        rw [List.nil_append] at h
        rw [← h]
        rfl)
      rw [hp ch (List.mem_cons_self ..)] at hfalse
      cases hfalse
    | cons ch' digits' =>
      obtain ⟨n, rfl⟩ : ∃ k, n = k + 1 := ⟨n - 1, by rw [List.length_cons] at hlen; omega⟩
      rw [List.cons_append, List.cons_append, List.cons.injEq] at h
      obtain ⟨rfl, h⟩ := h
      obtain ⟨rfl, rfl⟩ := ih (Nat.le_of_succ_le_succ hlen) (Nat.le_of_succ_le_succ hlen')
        (fun c hc => hp c (List.mem_cons_of_mem _ hc)) (fun c hc => hp' c (List.mem_cons_of_mem _ hc))
        (fun hlt => hend (Nat.succ_lt_succ hlt)) (fun hlt => hend' (Nat.succ_lt_succ hlt)) h
      exact ⟨rfl, rfl⟩

theorem octalDigit_toNat {ch : UInt8} (h : (octalDigit ch).isSome) : 48 ≤ ch.toNat ∧ ch.toNat ≤ 55 := by
  rw [octalDigit] at h
  split at h
  · assumption
  · cases h

theorem simpleEscape_eq_none {ch : UInt8} (h : ch = 120 ∨ ch = 88 ∨ (octalDigit ch).isSome) :
    simpleEscape ch = none := by
  rcases h with rfl | rfl | hdigit
  · rfl
  · rfl
  · obtain ⟨hge, hle⟩ := octalDigit_toNat hdigit
    rw [simpleEscape]
    split <;> first | omega | rfl

/-- What stands behind a backslash of a text that is loaded. -/
theorem exists_token_of_parseEscape {src rest : List UInt8} {value : UInt8}
    (h : parseEscape signed src = .ok (value, rest)) :
    ∃ t : Token, t.loads signed = some value ∧ rest.length < src.length ∧
      ∀ toks, Lexes toks rest → Lexes (t :: toks) (92 :: src) := by
  cases src with
  | nil => cases h
  | cons ch src =>
    rw [parseEscape] at h
    cases hsimple : simpleEscape ch with
    | some v =>
      rw [hsimple] at h
      cases h
      exact ⟨.simple ch value, rfl, Nat.lt_succ_self _, fun toks htoks => .simple hsimple htoks⟩
    | none =>
      rw [hsimple] at h
      dsimp only at h
      split at h
      · next hx =>
        obtain ⟨digits, rest', rfl, hlen, hdigits, hend⟩ :=
          exists_digits (fun c => (hexDigit c).isSome) (src.length + 1) src
        have hend' : ∀ c ∈ rest'.head?, hexDigit c = none := by
          intro c hc
          have hfalse := hend (by simp only [List.length_append]; omega) c hc
          simpa using hfalse
        by_cases hne : digits = []
        · subst hne
          rw [List.nil_append, parseHexEscape_end hend'] at h
          cases h
        · rw [parseHexEscape_eq hne hdigits hend'] at h
          split at h
          · cases h
          · next hle =>
            cases h
            have hloads : (Token.hex digits).loads signed = some (UInt8.ofNat (hexValue digits % 2 ^ 32)) :=
              if_pos (by omega)
            refine ⟨.hex digits, hloads, ?_, fun toks htoks => .hex hx hne hdigits hend' htoks⟩
            simp only [List.length_cons, List.length_append]
            omega
      · split at h
        · next hdigit =>
          have h := Except.ok.inj h
          obtain ⟨digits, rest', hsrc, hlen, hdigits, hend⟩ :=
            exists_digits (fun c => (octalDigit c).isSome) 3 (ch :: src)
          have hfirst : (octalDigit ch).isSome := by
            rw [octalDigit, if_pos (show 48 ≤ ch.toNat ∧ ch.toNat ≤ 55 from hdigit)]
            rfl
          have hend : digits.length < 3 → ∀ c ∈ rest'.head?, octalDigit c = none := by
            intro hlt c hc
            simpa using hend hlt c hc
          have hne : digits ≠ [] := by
            rintro rfl
            have hnone := hend (by decide) ch (by rw [List.nil_append] at hsrc; rw [← hsrc]; rfl)
            rw [hnone] at hfirst
            cases hfirst
          have hparse := parseOctalEscape_eq signed hlen hdigits hend
          rw [← hsrc, h] at hparse
          cases hparse
          refine ⟨.octal digits, rfl, ?_, fun toks htoks => ?_⟩
          · have hpos := List.length_pos_iff.mpr hne
            rw [hsrc, List.length_append]
            omega
          · rw [hsrc]
            exact .octal hne hlen hdigits hend htoks
        · cases h

/-- A text that is loaded is read as its characters and escapes. -/
theorem lexes_of_unescapeLoop : ∀ {fuel : ℕ} {text out : List UInt8}, text.length ≤ fuel →
    unescapeLoop signed fuel text = .ok out →
      ∃ toks, Lexes toks text ∧ List.Forall₂ (fun t b => t.loads signed = some b) toks out := by
  intro fuel
  induction fuel with
  | zero =>
    intro text out hfuel h
    obtain rfl := List.length_eq_zero_iff.mp (Nat.le_zero.mp hfuel)
    cases h
    exact ⟨[], .nil, .nil⟩
  | succ fuel ih =>
    intro text out hfuel h
    cases text with
    | nil =>
      cases h
      exact ⟨[], .nil, .nil⟩
    | cons ch src =>
      rw [List.length_cons] at hfuel
      rw [unescapeLoop] at h
      split at h
      · next hch =>
        subst hch
        cases hescape : parseEscape signed src with
        | error e =>
          rw [hescape] at h
          cases h
        | ok r =>
          obtain ⟨value, rest⟩ := r
          rw [hescape] at h
          cases hloop : unescapeLoop signed fuel rest with
          | error e =>
            have h : (unescapeLoop signed fuel rest >>= fun dst => .ok (value :: dst)) = .ok out := h
            rw [hloop] at h
            cases h
          | ok dst =>
            have h : (unescapeLoop signed fuel rest >>= fun dst => .ok (value :: dst)) = .ok out := h
            rw [hloop] at h
            cases h
            obtain ⟨t, hloads, hlen, hlex⟩ := exists_token_of_parseEscape hescape
            obtain ⟨toks, htoks, hall⟩ := ih (by omega) hloop
            exact ⟨t :: toks, hlex toks htoks, .cons hloads hall⟩
      · next hch =>
        cases hloop : unescapeLoop signed fuel src with
        | error e =>
          rw [hloop] at h
          cases h
        | ok dst =>
          rw [hloop] at h
          cases h
          obtain ⟨toks, htoks, hall⟩ := ih (by omega) hloop
          exact ⟨.char ch :: toks, .char hch htoks, .cons rfl hall⟩

/-- A text is loaded as its characters and escapes are read. -/
theorem unescapeLoop_of_lexes {toks : List Token} {text : List UInt8} (h : Lexes toks text) :
    ∀ {fuel : ℕ} {out : List UInt8}, text.length ≤ fuel →
      List.Forall₂ (fun t b => t.loads signed = some b) toks out → unescapeLoop signed fuel text = .ok out := by
  -- an escape, with the rest of the text behind it
  have hescape : ∀ {fuel : ℕ} {src rest out : List UInt8} {value : UInt8},
      parseEscape signed src = .ok (value, rest) → unescapeLoop signed fuel rest = .ok out →
        unescapeLoop signed (fuel + 1) (92 :: src) = .ok (value :: out) := by
    intro fuel src rest out value hparse hrest
    rw [unescapeLoop, if_pos rfl, hparse]
    change (unescapeLoop signed fuel rest >>= fun dst => .ok (value :: dst)) = _
    rw [hrest]
    rfl
  induction h with
  | nil =>
    intro fuel out _ hall
    cases hall
    cases fuel <;> rfl
  | char hch _ ih =>
    intro fuel out hfuel hall
    obtain ⟨fuel, rfl⟩ : ∃ n, fuel = n + 1 := ⟨fuel - 1, by simp only [List.length_cons] at hfuel; omega⟩
    rw [List.length_cons] at hfuel
    cases hall with
    | cons hload hall =>
      cases hload
      rw [unescapeLoop, if_neg hch, ih (by omega) hall]
      rfl
  | @simple toks ch v rest hch _ ih =>
    intro fuel out hfuel hall
    obtain ⟨fuel, rfl⟩ : ∃ n, fuel = n + 1 := ⟨fuel - 1, by simp only [List.length_cons] at hfuel; omega⟩
    simp only [List.length_cons] at hfuel
    cases hall with
    | cons hload hall =>
      cases hload
      refine hescape ?_ (ih (by omega) hall)
      rw [parseEscape, hch]
  | @hex toks x digits rest hx hne hdigits hend _ ih =>
    intro fuel out hfuel hall
    obtain ⟨fuel, rfl⟩ : ∃ n, fuel = n + 1 := ⟨fuel - 1, by simp only [List.length_cons] at hfuel; omega⟩
    simp only [List.length_cons, List.length_append] at hfuel
    cases hall with
    | cons hload hall =>
      refine hescape ?_ (ih (by omega) hall)
      rw [Token.loads] at hload
      split at hload
      · next hle =>
        cases hload
        rw [parseEscape, simpleEscape_eq_none (by tauto)]
        dsimp only
        rw [if_pos hx, parseHexEscape_eq hne hdigits hend, if_neg (by omega)]
      · cases hload
  | @octal toks digits rest hne hlen hdigits hend _ ih =>
    intro fuel out hfuel hall
    obtain ⟨fuel, rfl⟩ : ∃ n, fuel = n + 1 := ⟨fuel - 1, by simp only [List.length_cons] at hfuel; omega⟩
    simp only [List.length_cons, List.length_append] at hfuel
    cases hall with
    | cons hload hall =>
      refine hescape ?_ (ih (by omega) hall)
      cases hload
      rw [← parseOctalEscape_eq signed hlen hdigits hend]
      cases digits with
      | nil => exact absurd rfl hne
      | cons ch digits =>
        have hdigit := hdigits ch (List.mem_cons_self ..)
        obtain ⟨hge, hle⟩ := octalDigit_toNat hdigit
        rw [List.cons_append, parseEscape, simpleEscape_eq_none (.inr (.inr hdigit))]
        dsimp only
        rw [if_neg, if_pos ⟨hge, hle⟩]
        rintro (rfl | rfl)
        · exact absurd hle (by decide)
        · exact absurd hle (by decide)

/-- A text consists of its characters and escapes in one way. -/
theorem Lexes.unique {toks toks' : List Token} {text : List UInt8} (h : Lexes toks text)
    (h' : Lexes toks' text) : toks = toks' := by
  induction h generalizing toks' with
  | nil =>
    cases h'
    rfl
  | char hch _ ih =>
    cases h' with
    | char _ h' => rw [ih h']
    | simple => exact absurd rfl hch
    | hex => exact absurd rfl hch
    | octal => exact absurd rfl hch
  | @simple toks ch v rest hch _ ih =>
    generalize htext : 92 :: ch :: rest = text at h'
    cases h' with
    | nil => cases htext
    | char hch' =>
      cases htext
      exact absurd rfl hch'
    | simple hch' h' =>
      cases htext
      cases hch.symm.trans hch'
      rw [ih h']
    | hex hx =>
      cases htext
      rw [simpleEscape_eq_none (by tauto)] at hch
      cases hch
    | @octal _ digits _ hne _ hdigits =>
      cases digits with
      | nil => exact absurd rfl hne
      | cons c digits =>
        cases htext
        rw [simpleEscape_eq_none (.inr (.inr (hdigits _ (List.mem_cons_self ..))))] at hch
        cases hch
  | @hex toks x digits rest hx hne hdigits hend _ ih =>
    generalize htext : 92 :: x :: (digits ++ rest) = text at h'
    cases h' with
    | nil => cases htext
    | char hch' =>
      cases htext
      exact absurd rfl hch'
    | simple hch' =>
      cases htext
      rw [simpleEscape_eq_none (by tauto)] at hch'
      cases hch'
    | @hex _ _ digits' _ _ _ hdigits' hend' h' =>
      rw [List.cons.injEq, List.cons.injEq] at htext
      obtain ⟨-, -, htext⟩ := htext
      obtain ⟨rfl, rfl⟩ := digits_unique (p := fun c => (hexDigit c).isSome)
        (n := digits.length + digits'.length + 1) (by omega) (by omega) hdigits hdigits'
        (fun _ c hc => by simp [hend c hc]) (fun _ c hc => by simp [hend' c hc]) htext
      rw [ih h']
    | @octal _ digits' _ hne' _ hdigits' =>
      cases digits' with
      | nil => exact absurd rfl hne'
      | cons c digits' =>
        rw [List.cons_append, List.cons.injEq, List.cons.injEq] at htext
        obtain ⟨-, rfl, -⟩ := htext
        have hdigit := octalDigit_toNat (hdigits' x (List.mem_cons_self ..))
        rcases hx with rfl | rfl
        · exact absurd hdigit.2 (by decide)
        · exact absurd hdigit.2 (by decide)
  | @octal toks digits rest hne hlen hdigits hend _ ih =>
    generalize htext : 92 :: (digits ++ rest) = text at h'
    cases h' with
    | nil => cases htext
    | char hch' =>
      cases htext
      exact absurd rfl hch'
    | simple hch' =>
      cases digits with
      | nil => exact absurd rfl hne
      | cons c digits =>
        cases htext
        rw [simpleEscape_eq_none (.inr (.inr (hdigits _ (List.mem_cons_self ..))))] at hch'
        cases hch'
    | hex hx =>
      cases digits with
      | nil => exact absurd rfl hne
      | cons c digits =>
        rw [List.cons_append, List.cons.injEq, List.cons.injEq] at htext
        obtain ⟨-, rfl, -⟩ := htext
        have hdigit := octalDigit_toNat (hdigits _ (List.mem_cons_self ..))
        rcases hx with rfl | rfl
        · exact absurd hdigit.2 (by decide)
        · exact absurd hdigit.2 (by decide)
    | octal _ hlen' hdigits' hend' h' =>
      rw [List.cons.injEq] at htext
      obtain ⟨rfl, rfl⟩ := digits_unique (p := fun c => (octalDigit c).isSome) hlen hlen' hdigits hdigits'
        (fun hlt c hc => by simp [hend hlt c hc]) (fun hlt c hc => by simp [hend' hlt c hc]) htext.2
      rw [ih h']

end Lex

section Exact

variable {signed : Bool} {toks : List Token} {text out : List UInt8}

/-- A text that is loaded consists of characters and escapes that are loaded. -/
theorem unescape_eq_ok : unescape signed text = .ok out ↔
    ∃ toks, Lexes toks text ∧ List.Forall₂ (fun t b => t.loads signed = some b) toks out :=
  ⟨fun h => lexes_of_unescapeLoop le_rfl h, fun ⟨_, hlex, hall⟩ => unescapeLoop_of_lexes hlex le_rfl hall⟩

theorem Token.loads_eq_none {t : Token} : t.loads signed = none ↔ t.Rejected := by
  cases t with
  | char ch => exact ⟨nofun, False.elim⟩
  | simple ch value => exact ⟨nofun, False.elim⟩
  | octal digits => exact ⟨nofun, False.elim⟩
  | hex digits =>
    rw [loads, Rejected]
    split
    · exact ⟨nofun, fun h => absurd h (by omega)⟩
    · exact ⟨fun _ => by omega, fun _ => rfl⟩

/-- An escape that is loaded stands for its byte just when it is proper. -/
theorem Token.denotes_iff_proper {t : Token} {b : UInt8} (h : t.loads signed = some b) :
    t.denotes = some b ↔ t.Proper signed := by
  cases t with
  | char ch => exact ⟨fun _ => trivial, fun _ => h⟩
  | simple ch value => exact ⟨fun _ => trivial, fun _ => h⟩
  | hex digits =>
    rw [loads] at h
    split at h
    · next hle =>
      cases h
      rw [denotes, Proper]
      split
      · next hsmall =>
        refine ⟨fun _ => .inl hsmall, fun _ => ?_⟩
        rw [Nat.mod_eq_of_lt (by omega)]
      · next hlarge => exact ⟨nofun, fun hproper => by omega⟩
    · cases h
  | octal digits =>
    cases h
    rw [denotes, Proper]
    split
    · next hsmall =>
      by_cases hlen : signed = false ∧ digits.length < 3
      · -- two digits spell less than 255
        have hvalue : octalValue digits < 64 := by
          have hdigit : ∀ ch, (octalDigit ch).getD 0 < 8 := by
            intro ch
            rw [octalDigit]
            split
            · rw [Option.getD_some]
              omega
            · exact Nat.succ_pos 7
          match digits, hlen.2 with
          | [], _ => decide
          | [a], _ =>
            have := hdigit a
            change 0 * 8 + (octalDigit a).getD 0 < 64
            omega
          | [a, b], _ =>
            have := hdigit a
            have := hdigit b
            change (0 * 8 + (octalDigit a).getD 0) * 8 + (octalDigit b).getD 0 < 64
            omega
        rw [if_pos hlen]
        constructor
        · intro heq
          have hnat := congrArg UInt8.toNat (Option.some.inj heq)
          rw [UInt8.toNat_ofNat', show (255 : UInt8).toNat = 255 from rfl] at hnat
          omega
        · rintro ⟨-, hsigned | hthree⟩
          · rw [hsigned] at hlen
            cases hlen.1
          · exact absurd hlen.2 (by omega)
      · rw [if_neg hlen]
        refine ⟨fun _ => ⟨hsmall, ?_⟩, fun _ => rfl⟩
        cases signed with
        | true => exact .inl rfl
        | false => exact .inr (Nat.le_of_not_lt fun hlt => hlen ⟨rfl, hlt⟩)
    · next hlarge => exact ⟨nofun, fun hproper => absurd hproper.1 hlarge⟩

/-- A text that is loaded stands for what it is loaded as just when all of its escapes are proper. -/
theorem forall₂_denotes_iff (h : List.Forall₂ (fun t b => Token.loads signed t = some b) toks out) :
    List.Forall₂ (fun t b => Token.denotes t = some b) toks out ↔ ∀ t ∈ toks, t.Proper signed := by
  induction h with
  | nil => exact ⟨fun _ => nofun, fun _ => .nil⟩
  | cons hload _ ih =>
    rw [List.forall₂_cons, List.forall_mem_cons, ih, Token.denotes_iff_proper hload]

/-- A text without rejected escapes is loaded. -/
theorem exists_forall₂_loads (signed : Bool) (h : ∀ t ∈ toks, ¬ t.Rejected) :
    ∃ out, List.Forall₂ (fun t b => Token.loads signed t = some b) toks out := by
  induction toks with
  | nil => exact ⟨[], .nil⟩
  | cons t toks ih =>
    obtain ⟨out, hout⟩ := ih fun t' ht' => h t' (List.mem_cons_of_mem _ ht')
    have hsome : t.loads signed ≠ none := fun hnone => h t (List.mem_cons_self ..) (Token.loads_eq_none.mp hnone)
    obtain ⟨b, hb⟩ := Option.ne_none_iff_exists'.mp hsome
    exact ⟨b :: out, .cons hb hout⟩

/-- A text that is loaded has no rejected escapes. -/
theorem not_rejected (h : List.Forall₂ (fun t b => Token.loads signed t = some b) toks out) :
    ∀ t ∈ toks, ¬ t.Rejected := by
  induction h with
  | nil => nofun
  | cons hload _ ih =>
    intro t ht
    rcases List.mem_cons.mp ht with rfl | ht
    · intro hrejected
      rw [Token.loads_eq_none.mpr hrejected] at hload
      cases hload
    · exact ih t ht

/-- How a byte is exported. -/
def exportToken (signed : Bool) (ch : UInt8) : Token :=
  match specialEscape ch with
  | some escape => .simple escape ch
  | none =>
    if isprint signed ch then .char ch
    else .octal [(ch >>> 6) + 48, ((ch >>> 3) &&& 0x7) + 48, (ch &&& 0x7) + 48]

/-- An escape of `special_escape` is one of the escapes that are loaded. -/
theorem simpleEscape_specialEscape {ch escape : UInt8} (h : specialEscape ch = some escape) :
    simpleEscape escape = some ch := by
  have hall : ∀ n < 256, ∀ e ∈ specialEscape (UInt8.ofNat n), simpleEscape e = some (UInt8.ofNat n) := by
    decide +kernel
  have hch := hall ch.toNat ch.toNat_lt
  rw [UInt8.ofNat_toNat] at hch
  exact hch escape h

/-- The three octal digits of a byte. -/
theorem octal_digits : ∀ n < 256,
    let digits := [(UInt8.ofNat n >>> 6) + 48, ((UInt8.ofNat n >>> 3) &&& 0x7) + 48, (UInt8.ofNat n &&& 0x7) + 48]
    digits.all (fun ch => (octalDigit ch).isSome) ∧ octalValue digits = n := by decide +kernel

theorem defaultBytes_lexes (signed : Bool) (val : List UInt8) :
    Lexes (val.map (exportToken signed)) (defaultBytes signed val) ∧
      List.Forall₂ (fun t b => Token.loads signed t = some b) (val.map (exportToken signed)) val := by
  induction val with
  | nil => exact ⟨.nil, .nil⟩
  | cons ch val ih =>
    obtain ⟨hlex, hall⟩ := ih
    rw [defaultBytes, List.flatMap_cons, List.map_cons]
    change Lexes _ (defaultByte signed ch ++ defaultBytes signed val) ∧ _
    rw [exportToken, defaultByte]
    cases hspecial : specialEscape ch with
    | some escape => exact ⟨.simple (simpleEscape_specialEscape hspecial) hlex, .cons rfl hall⟩
    | none =>
      dsimp only
      split
      · refine ⟨.char ?_ hlex, .cons rfl hall⟩
        rintro rfl
        cases hspecial
      · obtain ⟨hdigits, hvalue⟩ := octal_digits ch.toNat ch.toNat_lt
        rw [UInt8.ofNat_toNat] at hdigits hvalue
        refine ⟨.octal (List.cons_ne_nil _ _) le_rfl (List.all_eq_true.mp hdigits) (fun h => absurd h (Nat.lt_irrefl 3)) hlex,
          .cons ?_ hall⟩
        rw [Token.loads, if_neg fun h => Nat.lt_irrefl 3 h.2, hvalue, UInt8.ofNat_toNat]

/-- A text is loaded as what it stands for, or not at all, just when all of its hex escapes are below 256
or stay above when they wrap, and its octal escapes are below 256, of three digits where `char` is
unsigned; or when some hex escape is rejected. What is exported is loaded again. -/
theorem unescape_exact_iff (signed : Bool) :
    (∀ text, (∀ out, unescape signed text = .ok out → Denotes text out) ↔
      ∀ toks, Lexes toks text → (∀ t ∈ toks, t.Proper signed) ∨ ∃ t ∈ toks, t.Rejected) ∧
    ∀ val, unescape signed (defaultBytes signed val) = .ok val := by
  refine ⟨fun text => ⟨fun h toks hlex => ?_, fun h out hout => ?_⟩, fun val => ?_⟩
  · rcases Classical.em (∃ t ∈ toks, t.Rejected) with hrejected | hnone
    · exact .inr hrejected
    · obtain ⟨out, hall⟩ :=
        exists_forall₂_loads signed fun t ht hrejected => hnone ⟨t, ht, hrejected⟩
      obtain ⟨toks', hlex', hdenotes⟩ := h out (unescape_eq_ok.mpr ⟨toks, hlex, hall⟩)
      obtain rfl := hlex.unique hlex'
      exact .inl ((forall₂_denotes_iff hall).mp hdenotes)
  · obtain ⟨toks, hlex, hall⟩ := unescape_eq_ok.mp hout
    rcases h toks hlex with hproper | ⟨t, ht, hrejected⟩
    · exact ⟨toks, hlex, (forall₂_denotes_iff hall).mpr hproper⟩
    · exact absurd hrejected (not_rejected hall t ht)
  · exact unescape_eq_ok.mpr ⟨_, defaultBytes_lexes signed val⟩

/-- The hex escape of 2^32 + 0x41 is loaded as `A`, the octal escape of 511 as 255, and, where `char` is
unsigned, the octal escape of 1 as 255. -/
theorem unescape_wraps :
    (unescape true [92, 120, 49, 48, 48, 48, 48, 48, 48, 52, 49] = .ok [0x41] ∧
      ¬ ∃ out, Denotes [92, 120, 49, 48, 48, 48, 48, 48, 48, 52, 49] out) ∧
    (unescape true [92, 55, 55, 55] = .ok [0xff] ∧ ¬ ∃ out, Denotes [92, 55, 55, 55] out) ∧
    unescape false [92, 49] = .ok [0xff] ∧ Denotes [92, 49] [1] := by
  have hdone : ∀ p : UInt8 → Prop, ∀ ch ∈ ([] : List UInt8).head?, p ch := fun _ => nofun
  have hhex := Lexes.hex (.inl rfl) (show [49, 48, 48, 48, 48, 48, 48, 52, 49] ≠ [] by decide)
    (List.all_eq_true.mp (by decide))
    (hdone _) .nil
  have hlarge := Lexes.octal (show [55, 55, 55] ≠ [] by decide) (by decide) (List.all_eq_true.mp (by decide))
    (fun _ => hdone _) .nil
  have hsmall := Lexes.octal (show [49] ≠ [] by decide) (by decide) (List.all_eq_true.mp (by decide))
    (fun _ => hdone _) .nil
  refine ⟨⟨by decide, ?_⟩, ⟨by decide, ?_⟩, by decide, _, hsmall, .cons (by decide) .nil⟩
  · rintro ⟨out, toks, hlex, hall⟩
    obtain rfl := hhex.unique hlex
    cases hall with
    | cons hbyte _ => cases hbyte
  · rintro ⟨out, toks, hlex, hall⟩
    obtain rfl := hlarge.unique hlex
    cases hall with
    | cons hbyte _ => cases hbyte

end Exact

end Upb.Reflection
