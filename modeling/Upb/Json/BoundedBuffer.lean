import Mathlib.Algebra.Group.Int.Defs
import Mathlib.Algebra.Group.Nat.Defs
import Upb.Common.ByteMemory
import Upb.Json.Encoder

/-!
# Encoding into a bounded buffer

`upb_JsonEncode` writes into a buffer of any size, counts what does not fit and ends the buffer with a
NUL. `vsnprintf` is part of the C library; it reports the length of the text as an `int`, and a negative
number if the text is longer than an `int` can tell.
-/

namespace Upb.Json

open Common

/-- `INT_MAX`. -/
def intMax : ℕ := 2 ^ 31 - 1

/-- `vsnprintf` on a text and a buffer size: the number it returns and the bytes it stores. -/
structure Vsnprintf where
  run : List UInt8 → ℕ → ℤ × List UInt8
  /-- It does not write beyond the size. -/
  length_le : ∀ text size, (run text size).2.length ≤ size
  /-- A text that an `int` can count is cut off to make room for a NUL. -/
  of_le : ∀ text size, text.length ≤ intMax →
    run text size = ((text.length : ℤ), if size = 0 then [] else text.take (size - 1) ++ [0])
  /-- There is an error if an `int` cannot count the text. -/
  of_gt : ∀ text size, intMax < text.length → -2 ^ 31 ≤ (run text size).1 ∧ (run text size).1 < 0

/-- The output fields of `jsonenc`, and the memory. -/
structure Jsonenc where
  mem : ByteMemory
  ptr : ℕ
  stop : ℕ
  overflow : ℕ

/-- `jsonenc_putbytes` on the buffer. -/
def Jsonenc.putbytes (e : Jsonenc) (data : List UInt8) : Jsonenc :=
  let have' := e.stop - e.ptr
  if data.length ≤ have' then
    { e with mem := e.mem.store e.ptr data, ptr := e.ptr + data.length }
  else
    { e with
      mem := e.mem.store e.ptr (data.take have')
      ptr := e.ptr + have'
      overflow := (e.overflow + (data.length - have')) % 2 ^ 64 }

/-- `jsonenc_printf` on the buffer. -/
def Jsonenc.printf (vsnprintf : Vsnprintf) (e : Jsonenc) (text : List UInt8) : Jsonenc :=
  let have' := e.stop - e.ptr
  let (ret, written) := vsnprintf.run text have'
  let n := (ret % 2 ^ 64).toNat
  let e := { e with mem := e.mem.store e.ptr written }
  if n < have' then { e with ptr := e.ptr + n }
  else { e with ptr := e.ptr + have', overflow := (e.overflow + (n - have')) % 2 ^ 64 }

/-- A write on the buffer. -/
def Jsonenc.write (vsnprintf : Vsnprintf) (e : Jsonenc) : Write → Jsonenc
  | .putbytes data => e.putbytes data
  | .printf text => e.printf vsnprintf text

/-- `jsonenc_nullz`: the memory, and the length that is returned. -/
def Jsonenc.nullz (e : Jsonenc) (buf size : ℕ) : ByteMemory × ℕ :=
  let ret := (e.ptr - buf + e.overflow) % 2 ^ 64
  if 0 < size then
    let ptr := if e.ptr = e.stop then e.ptr - 1 else e.ptr
    (e.mem.store ptr [0], ret)
  else (e.mem, ret)

/-- What `upb_JsonEncode` leaves in the memory, and the length it returns or the message in its status. -/
structure EncodeResult where
  mem : ByteMemory
  length : Except String ℕ

/-- `upb_JsonEncode`, for a message with this encoding. -/
def upbJsonEncode (vsnprintf : Vsnprintf) (encoding : Encoding) (mem : ByteMemory) (buf size : ℕ) :
    EncodeResult :=
  let e := encoding.writes.foldl (Jsonenc.write vsnprintf) ⟨mem, buf, buf + size, 0⟩
  match encoding.error with
  | some msg => ⟨e.mem, .error msg⟩
  | none =>
    let (mem, ret) := e.nullz buf size
    ⟨mem, .ok ret⟩

/-- The memory is unchanged outside of the buffer. -/
def UnchangedOutside (mem mem' : ByteMemory) (buf size : ℕ) : Prop :=
  ∀ a, a < buf ∨ buf + size ≤ a → mem' a = mem a

/-- The output fields after a text was written. -/
structure Jsonenc.Holds (mem : ByteMemory) (buf size : ℕ) (text : List UInt8) (e : Jsonenc) : Prop where
  stop : e.stop = buf + size
  ptr : e.ptr = buf + min size text.length
  overflow : e.overflow = (text.length - size) % 2 ^ 64
  text : e.mem.load buf (min (size - 1) text.length) = text.take (size - 1)
  outside : UnchangedOutside mem e.mem buf size

/-- The output fields stay within the buffer. -/
structure Jsonenc.Inside (mem : ByteMemory) (buf size : ℕ) (e : Jsonenc) : Prop where
  stop : e.stop = buf + size
  buf_le : buf ≤ e.ptr
  ptr_le : e.ptr ≤ e.stop
  outside : UnchangedOutside mem e.mem buf size

section Writes

variable {mem mem' : ByteMemory} {buf size : ℕ} {text data : List UInt8} {e : Jsonenc} {vsnprintf : Vsnprintf}

/-- Storing as much as fits keeps the memory outside of the buffer. -/
theorem UnchangedOutside.store {bs : List UInt8} {ptr : ℕ} (h : UnchangedOutside mem mem' buf size)
    (hptr : buf ≤ ptr) (hbs : bs.length ≤ buf + size - ptr) (hle : ptr ≤ buf + size) :
    UnchangedOutside mem (mem'.store ptr bs) buf size := by
  intro a ha
  rw [← h a ha]
  rcases ha with ha | ha
  · exact ByteMemory.store_of_lt (by omega)
  · exact ByteMemory.store_of_ge (by omega)

/-- `jsonenc_putbytes` stores what fits and counts the rest. -/
theorem Jsonenc.putbytes_eq (h : e.overflow < 2 ^ 64) : e.putbytes data =
    { e with
      mem := e.mem.store e.ptr (data.take (e.stop - e.ptr))
      ptr := e.ptr + min data.length (e.stop - e.ptr)
      overflow := (e.overflow + (data.length - (e.stop - e.ptr))) % 2 ^ 64 } := by
  rw [Jsonenc.putbytes]
  split
  next hle =>
    rw [List.take_of_length_le hle, Nat.min_eq_left hle, Nat.sub_eq_zero_of_le hle, Nat.add_zero,
      Nat.mod_eq_of_lt h]
  next hlt => rw [Nat.min_eq_right (by omega)]

/-- `jsonenc_printf` counts a text that an `int` can count like `jsonenc_putbytes`. -/
theorem Jsonenc.printf_eq (h : e.overflow < 2 ^ 64) (htext : data.length ≤ intMax) :
    e.printf vsnprintf data =
    { e with
      mem := e.mem.store e.ptr (if e.stop - e.ptr = 0 then [] else data.take (e.stop - e.ptr - 1) ++ [0])
      ptr := e.ptr + min data.length (e.stop - e.ptr)
      overflow := (e.overflow + (data.length - (e.stop - e.ptr))) % 2 ^ 64 } := by
  have hn : ((data.length : ℤ) % 2 ^ 64).toNat = data.length := by
    unfold intMax at htext
    omega
  rw [Jsonenc.printf, vsnprintf.of_le _ _ htext]
  dsimp only
  rw [hn]
  split
  next hlt =>
    rw [Nat.min_eq_left hlt.le, Nat.sub_eq_zero_of_le hlt.le, Nat.add_zero, Nat.mod_eq_of_lt h]
  next hle => rw [Nat.min_eq_right (by omega)]

/-- A write that stores what fits, except perhaps the byte for the NUL, and counts the rest. -/
theorem Jsonenc.Holds.extend (h : e.Holds mem buf size text)
    (hbefore : ∀ a, a < e.ptr → mem' a = e.mem a) (hbehind : ∀ a, e.stop ≤ a → mem' a = e.mem a)
    (hnew : mem'.load e.ptr (min (e.stop - e.ptr - 1) data.length) = data.take (e.stop - e.ptr - 1)) :
    Jsonenc.Holds mem buf size (text ++ data)
      ⟨mem', e.ptr + min data.length (e.stop - e.ptr), e.stop,
        (e.overflow + (data.length - (e.stop - e.ptr))) % 2 ^ 64⟩ := by
  have hptr := h.ptr
  have hstop := h.stop
  have hoverflow := h.overflow
  have hload := h.text
  have hlength : (text ++ data).length = text.length + data.length := List.length_append
  refine ⟨h.stop, ?_, ?_, ?_, ?_⟩
  · dsimp only
    omega
  · dsimp only
    omega
  · dsimp only
    rcases Nat.lt_or_ge text.length size with hlt | hge
    · -- The text so far fits, and what is new stands behind it.
      rw [show min (size - 1) (text ++ data).length =
          text.length + min (e.stop - e.ptr - 1) data.length by omega, ByteMemory.load_add,
        show buf + text.length = e.ptr by omega, hnew, List.take_append,
        ByteMemory.load_congr (m := e.mem) fun a _ ha => hbefore a (by omega)]
      rw [show min (size - 1) text.length = text.length by omega] at hload
      rw [hload, show e.stop - e.ptr - 1 = size - 1 - text.length by omega]
    · rw [show min (size - 1) (text ++ data).length = min (size - 1) text.length by omega,
        ByteMemory.load_congr (m := e.mem) fun a _ ha => hbefore a (by omega), hload,
        List.take_append_of_le_length (by omega)]
  · intro a ha
    rcases ha with ha | ha
    · exact (hbefore a (by omega)).trans (h.outside a (.inl ha))
    · exact (hbehind a (by omega)).trans (h.outside a (.inr ha))

theorem Jsonenc.Holds.overflow_lt (h : e.Holds mem buf size text) : e.overflow < 2 ^ 64 := by
  rw [h.overflow]
  exact Nat.mod_lt _ (by decide)

theorem Jsonenc.Holds.inside (h : e.Holds mem buf size text) : e.Inside mem buf size := by
  have hptr := h.ptr
  have hstop := h.stop
  exact ⟨h.stop, by omega, by omega, h.outside⟩

theorem Jsonenc.Holds.putbytes (h : e.Holds mem buf size text) :
    (e.putbytes data).Holds mem buf size (text ++ data) := by
  have hlength : (data.take (e.stop - e.ptr)).length = min (e.stop - e.ptr) data.length :=
    List.length_take
  rw [Jsonenc.putbytes_eq h.overflow_lt]
  have hptr := h.inside.ptr_le
  refine h.extend (fun a ha => ByteMemory.store_of_lt ha) (fun a ha => ?_) ?_
  · exact ByteMemory.store_of_ge (by omega)
  · rw [ByteMemory.load_store_take (by omega), List.take_take]
    exact List.take_eq_take_iff.mpr (by omega)

theorem Jsonenc.Holds.printf (h : e.Holds mem buf size text) (hdata : data.length ≤ intMax) :
    (e.printf vsnprintf data).Holds mem buf size (text ++ data) := by
  have hptr := h.inside.ptr_le
  rw [Jsonenc.printf_eq h.overflow_lt hdata]
  refine h.extend (fun a ha => ByteMemory.store_of_lt ha) (fun a ha => ?_) ?_
  · split
    · rw [ByteMemory.store_nil]
    · apply ByteMemory.store_of_ge
      rw [List.length_append, List.length_take, List.length_singleton]
      omega
  · split
    next hnone => simp [hnone]
    next hsome =>
      rw [ByteMemory.load_store_take (by simp), List.take_append_of_le_length (by simp),
        List.take_take]
      exact List.take_eq_take_iff.mpr (by omega)

variable (vsnprintf)

/-- A step: a write of a text that an `int` can count. -/
theorem Jsonenc.Holds.write (h : e.Holds mem buf size text) {w : Write}
    (hw : ∀ data, w = .printf data → data.length ≤ intMax) :
    (e.write vsnprintf w).Holds mem buf size (text ++ w.text) := by
  cases w with
  | putbytes data => exact h.putbytes
  | printf data => exact h.printf (hw data rfl)

/-- A run: any number of such writes. -/
theorem Jsonenc.Holds.run {ws : List Write} (h : e.Holds mem buf size text)
    (hws : ∀ data, .printf data ∈ ws → data.length ≤ intMax) :
    (ws.foldl (Jsonenc.write vsnprintf) e).Holds mem buf size (text ++ ws.flatMap Write.text) := by
  induction ws generalizing e text with
  | nil => simpa using h
  | cons w ws ih =>
    rw [List.foldl_cons, List.flatMap_cons, ← List.append_assoc]
    refine ih (h.write vsnprintf fun data hdata => hws data ?_) fun data hdata => hws data (.tail _ hdata)
    rw [hdata]
    exact .head _

/-- Before the first write. -/
theorem Jsonenc.holds_start (mem : ByteMemory) (buf size : ℕ) :
    Jsonenc.Holds mem buf size [] ⟨mem, buf, buf + size, 0⟩ :=
  ⟨rfl, by simp, by simp, by simp, fun _ _ => rfl⟩

theorem Jsonenc.Inside.putbytes (h : e.Inside mem buf size) (data : List UInt8) :
    (e.putbytes data).Inside mem buf size := by
  have hstop := h.stop
  have hle := h.ptr_le
  have hbuf := h.buf_le
  unfold Jsonenc.putbytes
  dsimp only
  split
  · exact ⟨h.stop, by dsimp only; omega, by dsimp only; omega,
      h.outside.store h.buf_le (by omega) (by omega)⟩
  · exact ⟨h.stop, by dsimp only; omega, by dsimp only; omega,
      h.outside.store h.buf_le (by simp; omega) (by omega)⟩

theorem Jsonenc.Inside.printf (h : e.Inside mem buf size) (text : List UInt8) :
    (e.printf vsnprintf text).Inside mem buf size := by
  have hstop := h.stop
  have hle := h.ptr_le
  have hbuf := h.buf_le
  have hlength := vsnprintf.length_le text (e.stop - e.ptr)
  have houtside := h.outside.store h.buf_le (by omega : (vsnprintf.run text (e.stop - e.ptr)).2.length ≤ _)
    (by omega)
  unfold Jsonenc.printf
  dsimp only
  split
  · exact ⟨h.stop, by dsimp only; omega, by dsimp only; omega, houtside⟩
  · exact ⟨h.stop, by dsimp only; omega, by dsimp only; omega, houtside⟩

/-- No write leaves the buffer. -/
theorem Jsonenc.Inside.run (h : e.Inside mem buf size) (ws : List Write) :
    (ws.foldl (Jsonenc.write vsnprintf) e).Inside mem buf size := by
  induction ws generalizing e with
  | nil => exact h
  | cons w ws ih =>
    cases w with
    | putbytes data => exact ih (h.putbytes data)
    | printf text => exact ih (h.printf vsnprintf text)

theorem Jsonenc.Inside.nullz (h : e.Inside mem buf size) :
    UnchangedOutside mem (e.nullz buf size).1 buf size := by
  have hstop := h.stop
  have hle := h.ptr_le
  have hbuf := h.buf_le
  unfold Jsonenc.nullz
  dsimp only
  split
  next hsize =>
    have hlength : ([0] : List UInt8).length = 1 := rfl
    apply h.outside.store
    all_goals split <;> omega
  next => exact h.outside

/-- Nothing is written outside of the buffer, whatever becomes of the encoding. -/
theorem upbJsonEncode_outside (encoding : Encoding) (mem : ByteMemory)
    (buf size : ℕ) :
    UnchangedOutside mem (upbJsonEncode vsnprintf encoding mem buf size).mem buf size := by
  have h := (Jsonenc.holds_start mem buf size).inside.run vsnprintf encoding.writes
  unfold upbJsonEncode
  dsimp only
  split
  · exact h.outside
  · exact h.nullz

end Writes

end Upb.Json
