import Upb.Json.BoundedBuffer

/-!
# The text is the same for every buffer size

The length that `upb_JsonEncode` returns does not depend on the size of the buffer, and the buffer holds as
much of the text as fits, unless a text that is formatted is too long for `vsnprintf`: `jsonenc_printf` does
not look for its error and takes the negative number for a length.
-/

namespace Upb.Json

open Common

/-- The buffer holds the text, or its beginning, and a NUL. -/
structure HoldsPrefix (text : List UInt8) (mem : ByteMemory) (buf size : ℕ) : Prop where
  complete : text.length < size → mem.load buf (text.length + 1) = text ++ [0]
  cut : 0 < size → size ≤ text.length → mem.load buf size = text.take (size - 1) ++ [0]

/-- Nothing is written outside of the buffer, and the encoding fails for every size or has the same length
for every size, with as much of the text in the buffer as fits. -/
def SameForEverySize (encoding : Encoding) : Prop :=
  ∀ vsnprintf : Vsnprintf,
    (∀ mem buf size, size < 2 ^ 64 →
      UnchangedOutside mem (upbJsonEncode vsnprintf encoding mem buf size).mem buf size) ∧
    ((∀ mem buf size, size < 2 ^ 64 →
        ∃ msg, (upbJsonEncode vsnprintf encoding mem buf size).length = .error msg) ∨
      ∀ mem buf size, size < 2 ^ 64 →
        (upbJsonEncode vsnprintf encoding mem buf size).length = .ok encoding.text.length ∧
        HoldsPrefix encoding.text (upbJsonEncode vsnprintf encoding mem buf size).mem buf size)

/-- Every text that is formatted can be counted by an `int`. -/
def FormatsFit (encoding : Encoding) : Prop :=
  ∀ text, .printf text ∈ encoding.writes → text.length ≤ intMax

section Prefix

variable {mem : ByteMemory} {buf size : ℕ} {text : List UInt8} {e : Jsonenc} {vsnprintf : Vsnprintf}
  {encoding : Encoding}

/-- The length that is returned. -/
theorem Jsonenc.Holds.nullz_length (h : e.Holds mem buf size text) (htext : text.length < 2 ^ 64) :
    (e.nullz buf size).2 = text.length := by
  have hptr := h.ptr
  have hoverflow := h.overflow
  have hret : (e.nullz buf size).2 = (e.ptr - buf + e.overflow) % 2 ^ 64 := by
    unfold Jsonenc.nullz
    dsimp only
    split <;> rfl
  rw [hret]
  omega

theorem Jsonenc.Holds.nullz_mem (h : e.Holds mem buf size text) (hsize : 0 < size) :
    (e.nullz buf size).1 = e.mem.store (buf + min (size - 1) text.length) [0] := by
  have hptr := h.ptr
  have hstop := h.stop
  unfold Jsonenc.nullz
  dsimp only
  rw [if_pos hsize]
  dsimp only
  congr 1
  split <;> omega

/-- The text that fits, with a NUL behind it. -/
theorem Jsonenc.Holds.load_nullz (h : e.Holds mem buf size text) (hsize : 0 < size) :
    (e.nullz buf size).1.load buf (min (size - 1) text.length + 1) = text.take (size - 1) ++ [0] := by
  rw [h.nullz_mem hsize, ByteMemory.load_add, ByteMemory.load_store_of_disjoint (.inl (Nat.le_refl _)),
    h.text]
  exact congrArg _ (ByteMemory.load_store :
    (e.mem.store (buf + min (size - 1) text.length) [0]).load _ ([0] : List UInt8).length = [0])

theorem Jsonenc.Holds.holdsPrefix (h : e.Holds mem buf size text) :
    HoldsPrefix text (e.nullz buf size).1 buf size := by
  constructor
  · intro hlt
    have hload := h.load_nullz (by omega)
    rwa [Nat.min_eq_right (by omega), List.take_of_length_le (by omega)] at hload
  · intro hsize hle
    have hload := h.load_nullz hsize
    rwa [Nat.min_eq_left (by omega), Nat.sub_add_cancel hsize] at hload

/-- The result of an encoding that ends well. -/
theorem upbJsonEncode_of_ok (vsnprintf : Vsnprintf) (herror : encoding.error = none) :
    upbJsonEncode vsnprintf encoding mem buf size =
      ⟨((encoding.writes.foldl (Jsonenc.write vsnprintf) ⟨mem, buf, buf + size, 0⟩).nullz buf size).1,
        .ok ((encoding.writes.foldl (Jsonenc.write vsnprintf) ⟨mem, buf, buf + size, 0⟩).nullz buf size).2⟩ := by
  unfold upbJsonEncode
  rw [herror]

/-- If `vsnprintf` can count every text, an encoding that ends well is the same for every size. -/
theorem sameForEverySize_of_fits (herror : encoding.error = none) (hfits : FormatsFit encoding)
    (hlength : encoding.text.length < 2 ^ 64) : SameForEverySize encoding := by
  intro vsnprintf
  refine ⟨fun mem buf size _ => upbJsonEncode_outside vsnprintf encoding mem buf size, .inr ?_⟩
  intro mem buf size _
  have h := (Jsonenc.holds_start mem buf size).run vsnprintf hfits
  rw [upbJsonEncode_of_ok vsnprintf herror]
  exact ⟨congrArg _ (h.nullz_length hlength), h.holdsPrefix⟩

/-- An encoding that fails does so for every size. -/
theorem sameForEverySize_of_error (herror : encoding.error ≠ none) : SameForEverySize encoding := by
  intro vsnprintf
  refine ⟨fun mem buf size _ => upbJsonEncode_outside vsnprintf encoding mem buf size, .inl ?_⟩
  intro mem buf size _
  cases h : encoding.error with
  | none => exact absurd h herror
  | some msg =>
    refine ⟨msg, ?_⟩
    unfold upbJsonEncode
    rw [h]

/-- A `vsnprintf` that stores a wrong byte when it fails. -/
def garbling : Vsnprintf where
  run text size :=
    if text.length ≤ intMax then
      ((text.length : ℤ), if size = 0 then [] else text.take (size - 1) ++ [0])
    else (-1, [text.headD 0 + 1].take size)
  length_le text size := by
    split
    · dsimp only
      split
      · simp
      · rw [List.length_append, List.length_take, List.length_singleton]
        omega
    · exact List.length_take_le _ _
  of_le text size h := if_pos h
  of_gt text size h := by
    rw [if_neg (by omega)]
    omega

/-- The first text that `vsnprintf` cannot count. -/
theorem exists_first_misfit {writes : List Write} (h : ¬∀ t, .printf t ∈ writes → t.length ≤ intMax) :
    ∃ ws text ws', writes = ws ++ .printf text :: ws' ∧
      (∀ t, .printf t ∈ ws → t.length ≤ intMax) ∧ intMax < text.length := by
  induction writes with
  | nil => exact absurd nofun h
  | cons w writes ih =>
    by_cases hw : ∃ text, w = .printf text ∧ intMax < text.length
    · obtain ⟨text, rfl, htext⟩ := hw
      exact ⟨[], text, writes, rfl, nofun, htext⟩
    · have hw : ∀ text, w = .printf text → text.length ≤ intMax :=
        fun text htext => Nat.le_of_not_lt fun hlt => hw ⟨text, htext, hlt⟩
      have htail : ¬∀ t, .printf t ∈ writes → t.length ≤ intMax := by
        intro hall
        apply h
        intro t ht
        rcases List.mem_cons.mp ht with ht | ht
        · exact hw t ht.symm
        · exact hall t ht
      obtain ⟨ws, text, ws', rfl, hws, htext⟩ := ih htail
      refine ⟨w :: ws, text, ws', rfl, ?_, htext⟩
      intro t ht
      rcases List.mem_cons.mp ht with ht | ht
      · exact hw t ht.symm
      · exact hws t ht

section Full

variable (vsnprintf)

/-- Nothing is stored in a full buffer. -/
theorem Jsonenc.write_full (h : e.ptr = e.stop) (w : Write) :
    (e.write vsnprintf w).mem = e.mem ∧ (e.write vsnprintf w).ptr = e.ptr ∧
      (e.write vsnprintf w).stop = e.stop := by
  have hzero : e.stop - e.ptr = 0 := by omega
  cases w with
  | putbytes data =>
    unfold Jsonenc.write Jsonenc.putbytes
    dsimp only
    rw [hzero]
    split
    next hle =>
      rw [List.length_eq_zero_iff.mp (Nat.le_zero.mp hle), ByteMemory.store_nil]
      exact ⟨rfl, rfl, rfl⟩
    next =>
      rw [List.take_zero, ByteMemory.store_nil]
      exact ⟨rfl, rfl, rfl⟩
  | printf text =>
    have hwritten := vsnprintf.length_le text 0
    unfold Jsonenc.write Jsonenc.printf
    dsimp only
    rw [hzero, List.length_eq_zero_iff.mp (Nat.le_zero.mp hwritten), ByteMemory.store_nil,
      if_neg (Nat.not_lt_zero _)]
    exact ⟨rfl, rfl, rfl⟩

theorem Jsonenc.run_full (h : e.ptr = e.stop) (ws : List Write) :
    (ws.foldl (Jsonenc.write vsnprintf) e).mem = e.mem ∧
      (ws.foldl (Jsonenc.write vsnprintf) e).ptr = e.ptr ∧
      (ws.foldl (Jsonenc.write vsnprintf) e).stop = e.stop := by
  induction ws generalizing e with
  | nil => exact ⟨rfl, rfl, rfl⟩
  | cons w ws ih =>
    obtain ⟨hmem, hptr, hstop⟩ := Jsonenc.write_full vsnprintf h w
    obtain ⟨hmem', hptr', hstop'⟩ := ih (e := e.write vsnprintf w) (by rw [hptr, hstop, h])
    exact ⟨hmem'.trans hmem, hptr'.trans hptr, hstop'.trans hstop⟩

end Full

/-- A text that `vsnprintf` cannot count, when there is room for two bytes. -/
theorem Jsonenc.printf_garbling (htext : intMax < text.length) (hroom : e.stop = e.ptr + 2) :
    (e.printf garbling text).mem = e.mem.store e.ptr [text.headD 0 + 1] ∧
      (e.printf garbling text).ptr = e.stop ∧ (e.printf garbling text).stop = e.stop := by
  have hrun : garbling.run text 2 = (-1, [text.headD 0 + 1]) := if_neg (by omega)
  have hn : ((-1 : ℤ) % 2 ^ 64).toNat = 2 ^ 64 - 1 := by decide
  rw [Jsonenc.printf]
  simp only [show e.stop - e.ptr = 2 by omega, hrun, hn]
  rw [if_neg (by decide)]
  exact ⟨rfl, hroom.symm, rfl⟩

/-- The wrong byte stays in the buffer. -/
theorem Jsonenc.nullz_garbling (htext : intMax < text.length) (hroom : e.stop = e.ptr + 2)
    (hsize : 0 < size) (buf : ℕ) (ws : List Write) :
    ((ws.foldl (Jsonenc.write garbling) (e.printf garbling text)).nullz buf size).1 e.ptr =
      text.headD 0 + 1 := by
  obtain ⟨hmem, hptr, hstop⟩ := Jsonenc.printf_garbling htext hroom
  obtain ⟨hmem', hptr', hstop'⟩ := Jsonenc.run_full garbling (hptr.trans hstop.symm) ws
  unfold Jsonenc.nullz
  dsimp only
  rw [if_pos hsize, hmem', hptr', hstop', hptr, hstop, if_pos rfl, hmem]
  dsimp only
  rw [ByteMemory.store_of_lt (by omega)]
  exact ByteMemory.store_add (i := 0) (by simp)

/-- With a text that `vsnprintf` cannot count, a buffer that ends behind the first byte of that text need
not hold this byte. -/
theorem not_sameForEverySize_of_misfit (herror : encoding.error = none) (hfits : ¬FormatsFit encoding)
    (hlength : encoding.text.length < 2 ^ 64) : ¬SameForEverySize encoding := by
  intro h
  obtain ⟨ws, text, ws', hwrites, hws, htext⟩ := exists_first_misfit hfits
  obtain ⟨before, hbefore⟩ : ∃ before, before = ws.flatMap Write.text := ⟨_, rfl⟩
  have hall : encoding.text = before ++ (text ++ ws'.flatMap Write.text) := by
    rw [Encoding.text, hwrites, List.flatMap_append, List.flatMap_cons, hbefore]
    rfl
  have hsize : before.length + 2 ≤ encoding.text.length := by
    rw [hall, List.length_append, List.length_append]
    unfold intMax at htext
    omega
  rcases (h garbling).2 with hfails | hsame
  · obtain ⟨msg, hmsg⟩ := hfails (fun _ => 0) 0 0 (by decide)
    rw [upbJsonEncode_of_ok garbling herror] at hmsg
    cases hmsg
  obtain ⟨-, hbegin⟩ := hsame (fun _ => 0) 0 (before.length + 2) (by omega)
  have hbyte := congrArg (·[before.length]?) (hbegin.cut (by omega) hsize)
  rw [upbJsonEncode_of_ok garbling herror, hwrites, List.foldl_append, List.foldl_cons] at hbyte
  have hstart := (Jsonenc.holds_start (fun _ => 0) 0 (before.length + 2)).run garbling hws
  rw [List.nil_append, ← hbefore] at hstart
  generalize ws.foldl (Jsonenc.write garbling) _ = e at hstart hbyte
  have hptr : e.ptr = before.length := by
    rw [hstart.ptr]
    omega
  have hstop := hstart.stop
  -- The byte that the buffer holds in the place of the first byte of the text.
  have hwrong := Jsonenc.nullz_garbling (e := e) htext (by omega) (by omega : 0 < before.length + 2) 0 ws'
  rw [hptr] at hwrong
  obtain ⟨ch, text, rfl⟩ : ∃ ch text', text = ch :: text' :=
    List.exists_cons_of_length_pos (Nat.zero_lt_of_lt htext)
  dsimp only at hbyte
  rw [ByteMemory.getElem?_load, if_pos (by omega), Nat.zero_add, Jsonenc.write, hwrong, hall,
    List.getElem?_append_left (by simp), List.getElem?_take_of_lt (by omega),
    List.getElem?_append_right (Nat.le_refl _), Nat.sub_self] at hbyte
  have hsucc : ch + 1 = ch := Option.some.inj hbyte
  have hnat := congrArg UInt8.toNat hsucc
  rw [UInt8.toNat_add] at hnat
  have hlt := ch.toNat_lt
  simp at hnat
  omega

/-- An encoding is the same for every size exactly if it fails, or `vsnprintf` can count every text that is
formatted and the length of all of it is a number of 64 bits. -/
theorem sameForEverySize_iff (encoding : Encoding) :
    SameForEverySize encoding ↔
      encoding.error ≠ none ∨ FormatsFit encoding ∧ encoding.text.length < 2 ^ 64 := by
  constructor
  · intro h
    by_cases herror : encoding.error = none
    · right
      have hlength : encoding.text.length < 2 ^ 64 := by
        rcases (h garbling).2 with hfails | hsame
        · obtain ⟨msg, hmsg⟩ := hfails (fun _ => 0) 0 0 (by decide)
          rw [upbJsonEncode_of_ok garbling herror] at hmsg
          cases hmsg
        · have hlength := (hsame (fun _ => 0) 0 0 (by decide)).1
          rw [upbJsonEncode_of_ok garbling herror] at hlength
          rw [← Except.ok.inj hlength]
          exact Nat.mod_lt _ (by decide)
      exact ⟨by_contra fun hfits => not_sameForEverySize_of_misfit herror hfits hlength h, hlength⟩
    · exact .inl herror
  · intro h
    by_cases herror : encoding.error = none
    · obtain ⟨hfits, hlength⟩ := h.resolve_left (not_not.mpr herror)
      exact sameForEverySize_of_fits herror hfits hlength
    · exact sameForEverySize_of_error herror

end Prefix

/-- An enum with one value, whose name has so many letters. -/
def enumWithName (n : ℕ) : EnumDef := ⟨[ascii 'E'], [(1, List.replicate n (ascii 'A'))]⟩

/-- A message whose field `e` has the value 1 of that enum. -/
def messageWithName (n : ℕ) : Encoding :=
  let options : EncodeOptions := ⟨false, false⟩
  jsonencMsg options
    [(⟨false, [ascii 'M', ascii '.', ascii 'e'], [ascii 'e'], [ascii 'e']⟩,
      jsonencEnum options (enumWithName n) 1)]

theorem writes_messageWithName (n : ℕ) : messageWithName n =
    ⟨[.putbytes [ascii '{'], .printf (['"', 'e', '"', ':'].map ascii),
      .printf (ascii '"' :: List.replicate n (ascii 'A') ++ [ascii '"']), .putbytes [ascii '}']], none⟩ := rfl

/-- A name that is too long for `vsnprintf`. -/
theorem not_sameForEverySize_of_long_name {n : ℕ} (hn : intMax < n + 2) (hlt : n < 2 ^ 63) :
    ¬SameForEverySize (messageWithName n) := by
  apply not_sameForEverySize_of_misfit
  · rfl
  · intro h
    have hle := h (ascii '"' :: List.replicate n (ascii 'A') ++ [ascii '"'])
      (by rw [writes_messageWithName]; exact .tail _ (.tail _ (.head _)))
    rw [List.length_append, List.length_cons, List.length_replicate, List.length_singleton] at hle
    omega
  · rw [writes_messageWithName]
    simp only [Encoding.text, Write.text, List.flatMap_cons, List.flatMap_nil, List.length_append,
      List.length_cons, List.length_replicate, List.length_nil, List.map_cons, List.map_nil]
    omega

theorem messageWithName_not_same : ¬SameForEverySize (messageWithName 2147483648) :=
  not_sameForEverySize_of_long_name (by decide) (by decide)

end Upb.Json
