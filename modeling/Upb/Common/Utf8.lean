import Mathlib.Data.Nat.Notation
import Mathlib.Data.Nat.Init
import Mathlib.Tactic.SplitIfs

/-!
# UTF-8

What UTF-8 text is: the encodings of Unicode scalar values, one behind the other. The encodings of one
character are told apart by their bytes, and the first byte tells how many there are, so that text is
cut into characters in one way only.
-/

namespace Upb.Common.Utf8

/-- The bytes behind the first byte of a character. -/
abbrev IsTrail (b : UInt8) : Prop := 0x80 ≤ b.toNat ∧ b.toNat ≤ 0xBF

/-- The bytes of one character, by the ranges of the bytes. -/
def IsChar : List UInt8 → Prop
  | [a] => a.toNat < 0x80
  | [a, b] => 0xC2 ≤ a.toNat ∧ a.toNat ≤ 0xDF ∧ IsTrail b
  | [a, b, c] =>
    (a.toNat = 0xE0 ∧ 0xA0 ≤ b.toNat ∨ 0xE1 ≤ a.toNat ∧ a.toNat ≤ 0xEC ∨
      a.toNat = 0xED ∧ b.toNat ≤ 0x9F ∨ 0xEE ≤ a.toNat ∧ a.toNat ≤ 0xEF) ∧ IsTrail b ∧ IsTrail c
  | [a, b, c, d] =>
    (a.toNat = 0xF0 ∧ 0x90 ≤ b.toNat ∨ 0xF1 ≤ a.toNat ∧ a.toNat ≤ 0xF3 ∨
      a.toNat = 0xF4 ∧ b.toNat ≤ 0x8F) ∧ IsTrail b ∧ IsTrail c ∧ IsTrail d
  | _ => False

/-- The text is the encoding of a sequence of characters. -/
def IsText (s : List UInt8) : Prop := ∃ chars : List Char, s = chars.flatMap String.utf8EncodeChar

/-- The number of bytes of a character with the given first byte. -/
def size (a : UInt8) : ℕ :=
  if a.toNat < 0x80 then 1 else if a.toNat < 0xE0 then 2 else if a.toNat < 0xF0 then 3 else 4

variable {a : UInt8} {c c' front s s' x y : List UInt8} {m n : ℕ}

/-- Every scalar value is that of a character. -/
theorem exists_char {v : ℕ} (h : v.isValidChar) : ∃ ch : Char, ch.val.toNat = v := by
  have hlt : v < 2 ^ 32 := by
    rcases h with h | ⟨-, h⟩ <;> omega
  exact ⟨⟨UInt32.ofNatLT v hlt, h⟩, rfl⟩

/-- The encoding of a character is among the bytes of one character. -/
theorem isChar_utf8EncodeChar (ch : Char) : IsChar (String.utf8EncodeChar ch) := by
  have hvalid : ch.val.toNat < 0xD800 ∨ 0xDFFF < ch.val.toNat ∧ ch.val.toNat < 0x110000 := ch.valid
  unfold String.utf8EncodeChar
  dsimp only
  split_ifs
  all_goals
    simp only [IsChar, IsTrail, UInt8.toNat_ofNat']
    omega

theorem utf8EncodeChar_pair {ch : Char} {a b : UInt8} (ha : 0xC2 ≤ a.toNat ∧ a.toNat ≤ 0xDF)
    (hb : IsTrail b) (h : ch.val.toNat = (a.toNat - 0xC0) * 64 + (b.toNat - 0x80)) :
    String.utf8EncodeChar ch = [a, b] := by
  unfold String.utf8EncodeChar
  dsimp only
  rw [if_neg (by omega), if_pos (by omega)]
  congr 1
  · apply UInt8.toNat_inj.mp
    simp only [UInt8.toNat_ofNat']
    omega
  · congr 1
    apply UInt8.toNat_inj.mp
    simp only [UInt8.toNat_ofNat']
    omega

theorem utf8EncodeChar_triple {ch : Char} {a b c : UInt8} (h : IsChar [a, b, c])
    (hval : ch.val.toNat = (a.toNat - 0xE0) * 4096 + (b.toNat - 0x80) * 64 + (c.toNat - 0x80)) :
    String.utf8EncodeChar ch = [a, b, c] := by
  simp only [IsChar, IsTrail] at h
  unfold String.utf8EncodeChar
  dsimp only
  rw [if_neg (by omega), if_neg (by omega), if_pos (by omega)]
  congr 1
  · apply UInt8.toNat_inj.mp
    simp only [UInt8.toNat_ofNat']
    omega
  · congr 1
    · apply UInt8.toNat_inj.mp
      simp only [UInt8.toNat_ofNat']
      omega
    · congr 1
      apply UInt8.toNat_inj.mp
      simp only [UInt8.toNat_ofNat']
      omega

theorem utf8EncodeChar_quadruple {ch : Char} {a b c d : UInt8} (h : IsChar [a, b, c, d])
    (hval : ch.val.toNat = (a.toNat - 0xF0) * 262144 + (b.toNat - 0x80) * 4096 +
      (c.toNat - 0x80) * 64 + (d.toNat - 0x80)) :
    String.utf8EncodeChar ch = [a, b, c, d] := by
  simp only [IsChar, IsTrail] at h
  unfold String.utf8EncodeChar
  dsimp only
  rw [if_neg (by omega), if_neg (by omega), if_neg (by omega)]
  congr 1
  · apply UInt8.toNat_inj.mp
    simp only [UInt8.toNat_ofNat']
    omega
  · congr 1
    · apply UInt8.toNat_inj.mp
      simp only [UInt8.toNat_ofNat']
      omega
    · congr 1
      · apply UInt8.toNat_inj.mp
        simp only [UInt8.toNat_ofNat']
        omega
      · congr 1
        apply UInt8.toNat_inj.mp
        simp only [UInt8.toNat_ofNat']
        omega

/-- The ranges of the bytes are those of the encodings of characters. -/
theorem isChar_iff : IsChar s ↔ ∃ ch : Char, String.utf8EncodeChar ch = s := by
  constructor
  · intro h
    match s, h with
    | [a], h =>
      have ha : a.toNat < 0x80 := h
      obtain ⟨ch, hch⟩ := exists_char (v := a.toNat) (.inl (by omega))
      refine ⟨ch, ?_⟩
      unfold String.utf8EncodeChar
      dsimp only
      rw [if_pos (by omega), hch, UInt8.ofNat_toNat]
    | [a, b], h =>
      have h' : 0xC2 ≤ a.toNat ∧ a.toNat ≤ 0xDF ∧ IsTrail b := h
      obtain ⟨ch, hch⟩ := exists_char (v := (a.toNat - 0xC0) * 64 + (b.toNat - 0x80)) (.inl (by omega))
      exact ⟨ch, utf8EncodeChar_pair ⟨h'.1, h'.2.1⟩ h'.2.2 hch⟩
    | [a, b, c], h =>
      have h' := h
      simp only [IsChar, IsTrail] at h'
      obtain ⟨ch, hch⟩ := exists_char
        (v := (a.toNat - 0xE0) * 4096 + (b.toNat - 0x80) * 64 + (c.toNat - 0x80))
        (show _ ∨ _ from by omega)
      exact ⟨ch, utf8EncodeChar_triple h hch⟩
    | [a, b, c, d], h =>
      have h' := h
      simp only [IsChar, IsTrail] at h'
      obtain ⟨ch, hch⟩ := exists_char
        (v := (a.toNat - 0xF0) * 262144 + (b.toNat - 0x80) * 4096 + (c.toNat - 0x80) * 64 +
          (d.toNat - 0x80)) (show _ ∨ _ from by omega)
      exact ⟨ch, utf8EncodeChar_quadruple h hch⟩
  · rintro ⟨ch, rfl⟩
    exact isChar_utf8EncodeChar ch

/-- The first byte of a character tells its size. -/
theorem IsChar.length_eq (h : IsChar (a :: c)) : (a :: c).length = size a := by
  unfold size
  match c, h with
  | [], h =>
    have ha : a.toNat < 0x80 := h
    rw [if_pos ha, List.length_singleton]
  | [b], h =>
    have h' : 0xC2 ≤ a.toNat ∧ a.toNat ≤ 0xDF ∧ IsTrail b := h
    rw [if_neg (by omega), if_pos (by omega)]
    rfl
  | [b, d], h =>
    simp only [IsChar] at h
    rw [if_neg (by omega), if_neg (by omega), if_pos (by omega)]
    rfl
  | [b, d, e], h =>
    simp only [IsChar] at h
    rw [if_neg (by omega), if_neg (by omega), if_neg (by omega)]
    rfl

theorem IsChar.ne_nil (h : IsChar c) : c ≠ [] := by
  rintro rfl
  exact h

/-- Text starts with one character only. -/
theorem IsChar.eq_of_append (h : IsChar c) (h' : IsChar c') (heq : c ++ s = c' ++ s') : c = c' := by
  obtain ⟨a, t, rfl⟩ := List.exists_cons_of_ne_nil h.ne_nil
  obtain ⟨a', t', rfl⟩ := List.exists_cons_of_ne_nil h'.ne_nil
  have ha : a = a' := by
    rw [List.cons_append, List.cons_append, List.cons.injEq] at heq
    exact heq.1
  have hlength : (a :: t).length = (a' :: t').length := by rw [h.length_eq, h'.length_eq, ha]
  exact (List.append_inj heq hlength).1

theorem isText_nil : IsText [] := ⟨[], rfl⟩

theorem IsText.cons (hc : IsChar c) (h : IsText s) : IsText (c ++ s) := by
  obtain ⟨ch, rfl⟩ := isChar_iff.mp hc
  obtain ⟨chars, rfl⟩ := h
  exact ⟨ch :: chars, by rw [List.flatMap_cons]⟩

theorem IsText.append (hx : IsText x) (hy : IsText y) : IsText (x ++ y) := by
  obtain ⟨cx, rfl⟩ := hx
  obtain ⟨cy, rfl⟩ := hy
  exact ⟨cx ++ cy, by rw [List.flatMap_append]⟩

/-- Text that is not empty starts with a character. -/
theorem IsText.exists_char (h : IsText s) (hs : s ≠ []) : ∃ c s', IsChar c ∧ IsText s' ∧ s = c ++ s' := by
  obtain ⟨chars, rfl⟩ := h
  cases chars with
  | nil => exact absurd rfl hs
  | cons ch chars =>
    refine ⟨_, chars.flatMap String.utf8EncodeChar, isChar_utf8EncodeChar ch, ⟨chars, rfl⟩, ?_⟩
    rw [List.flatMap_cons]

/-- What is behind a character is text if the whole is. -/
theorem isText_append_iff (hc : IsChar c) : IsText (c ++ s) ↔ IsText s := by
  refine ⟨fun h => ?_, .cons hc⟩
  obtain ⟨c', s', hc', hs', heq⟩ := h.exists_char (by simp [hc.ne_nil])
  obtain rfl := hc.eq_of_append hc' heq
  rwa [List.append_cancel_left heq]

/-- A character is ASCII, or none of its bytes is. -/
theorem IsChar.ascii_or_high (h : IsChar c) : (∃ a, c = [a] ∧ a.toNat < 128) ∨ ∀ b ∈ c, ¬b.toNat < 128 := by
  match c, h with
  | [a], h => exact .inl ⟨a, rfl, h⟩
  | [a, b], h =>
    simp only [IsChar, IsTrail] at h
    right
    simp only [List.forall_mem_cons]
    exact ⟨by omega, by omega, nofun⟩
  | [a, b, e], h =>
    simp only [IsChar, IsTrail] at h
    right
    simp only [List.forall_mem_cons]
    exact ⟨by omega, by omega, by omega, nofun⟩
  | [a, b, e, f], h =>
    simp only [IsChar, IsTrail] at h
    right
    simp only [List.forall_mem_cons]
    exact ⟨by omega, by omega, by omega, by omega, nofun⟩

theorem isText_cons_iff (ha : a.toNat < 128) : IsText (a :: s) ↔ IsText s := isText_append_iff (c := [a]) ha

/-- ASCII in front does not matter. -/
theorem isText_ascii_append_iff (hfront : ∀ b ∈ front, b.toNat < 128) : IsText (front ++ s) ↔ IsText s := by
  induction front with
  | nil => rw [List.nil_append]
  | cons a front ih =>
    obtain ⟨ha, hfront⟩ := List.forall_mem_cons.mp hfront
    rw [List.cons_append, isText_cons_iff ha, ih hfront]

theorem isText_of_ascii (h : ∀ b ∈ s, b.toNat < 128) : IsText s := by
  have htext := (isText_ascii_append_iff (s := []) h).mpr isText_nil
  rwa [List.append_nil] at htext

/-- Text may be cut at an ASCII byte. -/
theorem IsText.split (ha : a.toNat < 128) (h : IsText (x ++ a :: y)) : IsText x ∧ IsText y := by
  induction hn : x.length using Nat.strong_induction_on generalizing x with
  | _ n ih =>
    subst hn
    cases x with
    | nil => exact ⟨isText_nil, (isText_cons_iff ha).mp h⟩
    | cons b x =>
      obtain ⟨c, s, hc, hs, heq⟩ := h.exists_char (by simp)
      rcases hc.ascii_or_high with ⟨b', rfl, hb'⟩ | hhigh
      · rw [List.cons_append, List.singleton_append, List.cons.injEq] at heq
        obtain ⟨rfl, rfl⟩ := heq
        obtain ⟨hx, hy⟩ := ih x.length (by simp) hs rfl
        exact ⟨(isText_cons_iff hb').mpr hx, hy⟩
      · -- the byte is behind the character, none of whose bytes is ASCII
        rcases List.append_eq_append_iff.mp heq with ⟨z, hz, hz'⟩ | ⟨z, hz, hz'⟩
        · cases z with
          | nil =>
            rw [List.nil_append] at hz'
            subst hz'
            rw [List.append_nil] at hz
            subst hz
            refine ⟨?_, (isText_cons_iff ha).mp hs⟩
            have hone := IsText.cons hc isText_nil
            rwa [List.append_nil] at hone
          | cons b' z =>
            rw [List.cons_append, List.cons.injEq] at hz'
            obtain ⟨rfl, -⟩ := hz'
            exact absurd ha (hhigh a (by rw [hz]; simp))
        · rw [hz'] at hs
          have hlength : z.length < (b :: x).length := by
            have := List.length_pos_iff.mpr hc.ne_nil
            rw [hz, List.length_append]
            omega
          obtain ⟨hz1, hy⟩ := ih z.length hlength hs rfl
          rw [hz]
          exact ⟨.cons hc hz1, hy⟩

/-- So many bytes at the start are text, and no more. -/
structure LongestText (s : List UInt8) (n : ℕ) : Prop where
  le : n ≤ s.length
  isText : IsText (s.take n)
  longest : ∀ m ≤ s.length, IsText (s.take m) → m ≤ n

/-- Where no character is, the longest text is empty. -/
theorem LongestText.zero (h : ∀ c, IsChar c → ¬c <+: s) : LongestText s 0 := by
  refine ⟨Nat.zero_le _, ?_, fun m hle hm => ?_⟩
  · rw [List.take_zero]
    exact isText_nil
  · rcases Nat.eq_zero_or_pos m with rfl | hpos
    · exact Nat.le_refl 0
    · have hne : s.take m ≠ [] := by
        intro hnil
        rcases List.take_eq_nil_iff.mp hnil with rfl | rfl
        · exact Nat.lt_irrefl 0 hpos
        · exact Nat.lt_irrefl 0 (Nat.lt_of_lt_of_le hpos hle)
      obtain ⟨c, s', hc, -, heq⟩ := hm.exists_char hne
      exact absurd (.trans ⟨s', heq.symm⟩ (List.take_prefix m s)) (h c hc)

/-- A character in front makes the longest text longer. -/
theorem LongestText.cons (hc : IsChar c) (h : LongestText s n) : LongestText (c ++ s) (c.length + n) := by
  refine ⟨?_, ?_, fun m hm htext => ?_⟩
  · have := h.le
    rw [List.length_append]
    omega
  · rw [List.take_length_add_append]
    exact .cons hc h.isText
  · rcases Nat.lt_or_ge m c.length with hlt | hge
    · omega
    · obtain ⟨k, rfl⟩ := Nat.exists_eq_add_of_le hge
      rw [List.take_length_add_append, isText_append_iff hc] at htext
      rw [List.length_append] at hm
      have := h.longest k (by omega) htext
      omega

/-- There is one length of the longest text. -/
theorem LongestText.unique (h : LongestText s m) (h' : LongestText s n) : m = n :=
  Nat.le_antisymm (h'.longest m h.le h.isText) (h.longest n h'.le h'.isText)

/-- All of the bytes are text if the longest text has all of them. -/
theorem LongestText.isText_iff (h : LongestText s n) : IsText s ↔ n = s.length := by
  constructor
  · intro htext
    have := h.longest s.length (Nat.le_refl _) (by rwa [List.take_length])
    exact Nat.le_antisymm h.le this
  · rintro rfl
    have := h.isText
    rwa [List.take_length] at this

/-- Text is what is in a string of Lean. -/
theorem isText_iff_isValidUTF8 : IsText s ↔ (ByteArray.mk s.toArray).IsValidUTF8 := by
  constructor
  · rintro ⟨chars, rfl⟩
    refine ⟨chars, ?_⟩
    rw [List.utf8Encode]
    simp [ByteArray.ext_iff]
  · rintro ⟨chars, h⟩
    refine ⟨chars, ?_⟩
    rw [List.utf8Encode] at h
    simpa [ByteArray.ext_iff] using h

end Upb.Common.Utf8
