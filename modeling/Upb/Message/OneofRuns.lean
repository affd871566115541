import Upb.Message.RawMessage
import Upb.Wire.Numbers

/-!
# Oneofs as tagged unions

The members of a oneof lie at one offset and share one case word. `Union` is what a oneof is for: at
most one member has a value. `BehavesAsUnion` says of a run of the accessors and the decoder on the
members that it gives what the union gives; it does exactly when no message is asked for on the bytes
that another member has left in the slot.
-/

namespace Upb

open Upb.Common (ByteMemory)
open Upb.Wire (littleEndian fixedBytes)

namespace Wire

@[simp] theorem length_fixedBytes (n v : ℕ) : (fixedBytes n v).length = n := by
  induction n generalizing v with
  | zero => rfl
  | succ n ih => rw [fixedBytes, List.length_cons, ih]

/-- A number is read back from its bytes, up to what does not fit in them. -/
theorem littleEndian_fixedBytes (n v : ℕ) : littleEndian (fixedBytes n v) = v % 256 ^ n := by
  induction n generalizing v with
  | zero => rw [fixedBytes, littleEndian, pow_zero, Nat.mod_one]
  | succ n ih =>
    rw [fixedBytes, littleEndian, ih, pow_succ', Nat.mod_mul]
    congr 1
    simp

/-- The bytes that spell zero are zeros. -/
theorem littleEndian_eq_zero {bs : List UInt8} (h : littleEndian bs = 0) : ∀ b ∈ bs, b = 0 := by
  induction bs with
  | nil => exact fun _ hb => absurd hb List.not_mem_nil
  | cons b bs ih =>
    rw [littleEndian] at h
    intro c hc
    rcases List.mem_cons.mp hc with rfl | hc
    · exact UInt8.toNat_inj.mp (by simpa using (by omega : c.toNat = 0))
    · exact ih (by omega) c hc

end Wire

/-- The members of a oneof of a message. -/
structure IsOneof (fs : List MiniTableField) (offset caseOffset : ℕ) : Prop where
  offset_eq : ∀ f ∈ fs, f.offset = offset
  presence_eq : ∀ f ∈ fs, f.presence = -(caseOffset : ℤ) - 1
  number_inj : ∀ f ∈ fs, ∀ g ∈ fs, f.number = g.number → f = g
  number_pos : ∀ f ∈ fs, 0 < f.number
  number_lt : ∀ f ∈ fs, f.number < 2 ^ 32
  apart : ∀ f ∈ fs, caseOffset + 4 ≤ offset ∨ offset + f.mode.rep.size ≤ caseOffset
  message_rep : ∀ f ∈ fs, f.isSubMessage = true → f.mode.rep = .rep8Byte

/-- What is done to a member of a oneof. Where a message may be created, `addr` is the address that
`_upb_Message_New` returns; `merge` is what a record does to the message that it is decoded into. -/
inductive OneofCommand (γ : Type) where
  | setBaseField (f : MiniTableField) (val : List UInt8)
  | clearBaseField (f : MiniTableField)
  | getOrCreateMutableMessage (f : MiniTableField) (addr : ℕ)
  | decodeValue (f : MiniTableField) (val : List UInt8)
  | decodeMessage (f : MiniTableField) (addr : ℕ) (merge : γ → γ)

variable {γ : Type}

namespace OneofCommand

/-- The member that a command is for. -/
def field : OneofCommand γ → MiniTableField
  | .setBaseField f _ | .clearBaseField f | .getOrCreateMutableMessage f _ | .decodeValue f _
  | .decodeMessage f _ _ => f

/-- The commands that a caller or the decoder gives: values of the member's size, messages for
members that are messages, and new messages at addresses that are not in use. -/
def Legal (fs : List MiniTableField) (heap : ℕ → Option γ) : OneofCommand γ → Prop
  | .setBaseField f val => f ∈ fs ∧ val.length = f.mode.rep.size
  | .clearBaseField f => f ∈ fs
  | .getOrCreateMutableMessage f addr =>
    f ∈ fs ∧ f.isSubMessage = true ∧ 0 < addr ∧ addr < 2 ^ 64 ∧ heap addr = none
  | .decodeValue f val => f ∈ fs ∧ f.isSubMessage = false ∧ val.length = f.mode.rep.size
  | .decodeMessage f addr _ =>
    f ∈ fs ∧ f.isSubMessage = true ∧ 0 < addr ∧ addr < 2 ^ 64 ∧ heap addr = none

end OneofCommand

/-- What a command does to a message, with the message pointer that it returns. -/
def MessageHeap.step (empty : γ) (s : MessageHeap γ) : OneofCommand γ → Option ℕ × MessageHeap γ
  | .setBaseField f val => (none, { s with msg := s.msg.setBaseField f val })
  | .clearBaseField f => (none, { s with msg := s.msg.clearBaseField f })
  | .getOrCreateMutableMessage f addr =>
    (some (s.getOrCreateMutableMessage empty f addr).1, (s.getOrCreateMutableMessage empty f addr).2)
  | .decodeValue f val => (none, { s with msg := s.msg.decodeValue f val })
  | .decodeMessage f addr merge => (none, s.decodeMessage empty f addr merge)

/-- A tagged union: the member that is set, if any, with its value. -/
structure Union (γ : Type) where
  active : Option (MiniTableField × List UInt8)
  heap : ℕ → Option γ

namespace Union

/-- The pointer in a member, null unless the member is set. -/
def pointer (u : Union γ) (f : MiniTableField) : ℕ :=
  match u.active with
  | some (g, v) => if g = f then littleEndian v else 0
  | none => 0

/-- The union with a member set to a new message. -/
def create (u : Union γ) (f : MiniTableField) (addr : ℕ) (content : γ) : Union γ :=
  { active := some (f, fixedBytes 8 addr), heap := Function.update u.heap addr (some content) }

/-- What a command does to a union. -/
def step (empty : γ) (u : Union γ) : OneofCommand γ → Option ℕ × Union γ
  | .setBaseField f val | .decodeValue f val => (none, { u with active := some (f, val) })
  | .clearBaseField f =>
    (none, { u with active := if u.active.map Prod.fst = some f then none else u.active })
  | .getOrCreateMutableMessage f addr =>
    if u.pointer f ≠ 0 then (some (u.pointer f), u) else (some addr, u.create f addr empty)
  | .decodeMessage f addr merge =>
    (none,
      if u.pointer f ≠ 0 then
        { u with heap := Function.update u.heap (u.pointer f) ((u.heap (u.pointer f)).map merge) }
      else u.create f addr (merge empty))

end Union

/-- Each member reads as in the union: the active one as its value, every other as absent and as
whatever default is asked for. -/
structure Represents (fs : List MiniTableField) (s : MessageHeap γ) (u : Union γ) : Prop where
  hasBaseField_iff : ∀ f ∈ fs, s.msg.hasBaseField f = true ↔ u.active.map Prod.fst = some f
  get_active : ∀ f ∈ fs, ∀ v, u.active = some (f, v) → ∀ d, s.msg.getNonExtensionField f d = v
  get_absent : ∀ f ∈ fs, u.active.map Prod.fst ≠ some f → ∀ d, s.msg.getNonExtensionField f d = d
  heap_eq : s.heap = u.heap

/-- Every command of a run is legal where it is given. -/
def LegalRun (fs : List MiniTableField) (empty : γ) : MessageHeap γ → List (OneofCommand γ) → Prop
  | _, [] => True
  | s, c :: cs => c.Legal fs s.heap ∧ LegalRun fs empty (s.step empty c).2 cs

/-- A run returns what the union returns and ends each step in a state that represents the union. -/
def BehavesAsUnion (fs : List MiniTableField) (empty : γ) :
    MessageHeap γ → Union γ → List (OneofCommand γ) → Prop
  | s, u, [] => Represents fs s u
  | s, u, c :: cs =>
    Represents fs s u ∧ (s.step empty c).1 = (u.step empty c).1 ∧
      BehavesAsUnion fs empty (s.step empty c).2 (u.step empty c).2 cs

/-- A message is only asked for on the active member or on a slot that starts with a null pointer. -/
def OneofCommand.Clean (msg : RawMessage) : OneofCommand γ → Prop
  | .getOrCreateMutableMessage f _ => msg.hasBaseField f = true ∨ msg.load f.offset 8 = zeros 8
  | _ => True

/-- Every command of a run is clean where it is given. -/
def CleanRun (empty : γ) : MessageHeap γ → List (OneofCommand γ) → Prop
  | _, [] => True
  | s, c :: cs => c.Clean s.msg ∧ CleanRun empty (s.step empty c).2 cs

namespace IsOneof

variable {fs : List MiniTableField} {offset caseOffset : ℕ} {f : MiniTableField} {m : RawMessage}
  {val : List UInt8}

theorem isInOneof (h : IsOneof fs offset caseOffset) (hf : f ∈ fs) : f.isInOneof = true := by
  have := h.presence_eq f hf
  simp only [MiniTableField.isInOneof, decide_eq_true_eq]
  omega

theorem hasHasbit (h : IsOneof fs offset caseOffset) (hf : f ∈ fs) : f.hasHasbit = false := by
  have := h.presence_eq f hf
  simp only [MiniTableField.hasHasbit, decide_eq_false_iff_not]
  omega

theorem oneofOffset_toNat (h : IsOneof fs offset caseOffset) (hf : f ∈ fs) :
    f.oneofOffset.toNat = caseOffset := by
  have := h.presence_eq f hf
  rw [MiniTableField.oneofOffset]
  omega

theorem getOneofCase (h : IsOneof fs offset caseOffset) (hf : f ∈ fs) :
    m.getOneofCase f = littleEndian (m.load caseOffset 4) := by
  rw [RawMessage.getOneofCase, h.oneofOffset_toNat hf]

theorem hasBaseField (h : IsOneof fs offset caseOffset) (hf : f ∈ fs) :
    m.hasBaseField f = true ↔ littleEndian (m.load caseOffset 4) = f.number := by
  rw [RawMessage.hasBaseField, if_pos (h.isInOneof hf), h.getOneofCase hf, beq_iff_eq]

theorem getNonExtensionField (h : IsOneof fs offset caseOffset) (hf : f ∈ fs) (d : List UInt8) :
    m.getNonExtensionField f d =
      if m.hasBaseField f = true then m.load offset f.mode.rep.size else d := by
  rw [RawMessage.getNonExtensionField, h.isInOneof hf, RawMessage.data, h.offset_eq f hf]
  cases m.hasBaseField f <;> rfl

theorem setPresence (h : IsOneof fs offset caseOffset) (hf : f ∈ fs) :
    m.setPresence f = m.store caseOffset (fixedBytes 4 f.number) := by
  rw [RawMessage.setPresence, h.hasHasbit hf, if_neg Bool.false_ne_true, if_pos (h.isInOneof hf),
    RawMessage.setOneofCase, h.oneofOffset_toNat hf]

/-- The case word is kept by a store to the slot. -/
theorem load_case_store (h : IsOneof fs offset caseOffset) (hf : f ∈ fs)
    (hval : val.length = f.mode.rep.size) :
    (m.store offset val).load caseOffset 4 = m.load caseOffset 4 := by
  apply ByteMemory.load_store_of_disjoint
  have := h.apart f hf
  omega

/-- The slot is kept by a store to the case word. -/
theorem load_slot_store (h : IsOneof fs offset caseOffset) (hf : f ∈ fs) (n : ℕ) :
    (m.store caseOffset (fixedBytes 4 n)).load offset f.mode.rep.size =
      m.load offset f.mode.rep.size := by
  apply ByteMemory.load_store_of_disjoint
  have := h.apart f hf
  rw [Wire.length_fixedBytes]
  omega

theorem load_case (n : ℕ) (hn : n < 2 ^ 32) :
    littleEndian ((m.store caseOffset (fixedBytes 4 n)).load caseOffset 4) = n := by
  have h : (m.store caseOffset (fixedBytes 4 n)).load caseOffset 4 = fixedBytes 4 n := by
    have hback : (m.store caseOffset (fixedBytes 4 n)).load caseOffset (fixedBytes 4 n).length =
        fixedBytes 4 n := ByteMemory.load_store
    rwa [Wire.length_fixedBytes] at hback
  rw [h, Wire.littleEndian_fixedBytes]
  omega

end IsOneof

/-- What a clean run keeps: the case word names the active member and the slot starts with its
value. -/
structure Holds (fs : List MiniTableField) (offset caseOffset : ℕ) (s : MessageHeap γ) (u : Union γ) :
    Prop where
  absent : u.active = none → littleEndian (s.msg.load caseOffset 4) = 0
  active : ∀ f v, u.active = some (f, v) → f ∈ fs ∧
    littleEndian (s.msg.load caseOffset 4) = f.number ∧ s.msg.load offset f.mode.rep.size = v
  heap_eq : s.heap = u.heap

namespace Holds

variable {fs : List MiniTableField} {offset caseOffset : ℕ} {s : MessageHeap γ} {u : Union γ}
  {f : MiniTableField}

/-- The member that the case word names is the active one. -/
theorem hasBaseField_iff (h : Holds fs offset caseOffset s u) (hfs : IsOneof fs offset caseOffset)
    (hf : f ∈ fs) : s.msg.hasBaseField f = true ↔ u.active.map Prod.fst = some f := by
  rw [hfs.hasBaseField hf]
  cases hu : u.active with
  | none =>
    have := hfs.number_pos f hf
    rw [h.absent hu]
    simp only [Option.map_none, reduceCtorEq, iff_false]
    omega
  | some gv =>
    obtain ⟨hg, hcase, -⟩ := h.active gv.1 gv.2 hu
    rw [hcase, Option.map_some, Option.some.injEq]
    constructor
    · exact fun heq => hfs.number_inj _ hg _ hf heq
    · exact fun heq => by rw [heq]

theorem represents (h : Holds fs offset caseOffset s u) (hfs : IsOneof fs offset caseOffset) :
    Represents fs s u where
  hasBaseField_iff f hf := h.hasBaseField_iff hfs hf
  get_active f hf v hv d := by
    rw [hfs.getNonExtensionField hf, if_pos ((h.hasBaseField_iff hfs hf).mpr (by rw [hv]; rfl))]
    exact (h.active f v hv).2.2
  get_absent f hf hne d := by
    rw [hfs.getNonExtensionField hf, if_neg (fun hh => hne ((h.hasBaseField_iff hfs hf).mp hh))]
  heap_eq := h.heap_eq

/-- A value stored behind the case word. -/
theorem store_value (hfs : IsOneof fs offset caseOffset) (hf : f ∈ fs) {val : List UInt8}
    (hval : val.length = f.mode.rep.size) (m : RawMessage) (heap : ℕ → Option γ) :
    Holds fs offset caseOffset
      { msg := (m.store caseOffset (fixedBytes 4 f.number)).store offset val, heap }
      { active := some (f, val), heap } where
  absent h := nomatch h
  active g v h := by
    obtain ⟨rfl, rfl⟩ := Prod.mk.inj (Option.some.inj h)
    refine ⟨hf, ?_, ?_⟩
    · rw [hfs.load_case_store hf hval]
      exact IsOneof.load_case _ (hfs.number_lt f hf)
    · rw [← hval]
      exact ByteMemory.load_store
  heap_eq := rfl

/-- A value stored before the case word is. -/
theorem store_case (hfs : IsOneof fs offset caseOffset) (hf : f ∈ fs) {val : List UInt8}
    (hval : val.length = f.mode.rep.size) (m : RawMessage) (heap : ℕ → Option γ) :
    Holds fs offset caseOffset
      { msg := (m.store offset val).store caseOffset (fixedBytes 4 f.number), heap }
      { active := some (f, val), heap } where
  absent h := nomatch h
  active g v h := by
    obtain ⟨rfl, rfl⟩ := Prod.mk.inj (Option.some.inj h)
    refine ⟨hf, IsOneof.load_case _ (hfs.number_lt f hf), ?_⟩
    rw [hfs.load_slot_store hf, ← hval]
    exact ByteMemory.load_store
  heap_eq := rfl

/-- Clearing the active member clears the case word. -/
theorem clear (hfs : IsOneof fs offset caseOffset) (hf : f ∈ fs) (m : RawMessage)
    (heap : ℕ → Option γ) :
    Holds fs offset caseOffset
      { msg := (m.store caseOffset (zeros 4)).store offset (zeros f.mode.rep.size), heap }
      { active := none, heap } where
  absent _ := by
    have hlen : (zeros f.mode.rep.size).length = f.mode.rep.size := List.length_replicate
    have hkeep := hfs.load_case_store (m := m.store caseOffset (zeros 4)) hf hlen
    exact (congrArg littleEndian hkeep).trans (IsOneof.load_case 0 (by decide))
  active g v h := nomatch h
  heap_eq := rfl

/-- The pointer of the active member is the one in the slot. -/
theorem pointer_eq (h : Holds fs offset caseOffset s u) (hfs : IsOneof fs offset caseOffset)
    (hf : f ∈ fs) (hsub : f.isSubMessage = true) (hact : s.msg.hasBaseField f = true) :
    s.msg.pointer f = u.pointer f := by
  obtain ⟨⟨g, v⟩, hu, rfl⟩ := Option.map_eq_some_iff.mp ((h.hasBaseField_iff hfs hf).mp hact)
  obtain ⟨-, -, hv⟩ := h.active _ _ hu
  rw [RawMessage.pointer, hfs.offset_eq _ hf, Union.pointer, hu]
  simp only [if_true]
  rw [← hv, hfs.message_rep _ hf hsub]
  rfl

/-- A member that is not active has no pointer. -/
theorem pointer_eq_zero (h : Holds fs offset caseOffset s u) (hfs : IsOneof fs offset caseOffset)
    (hf : f ∈ fs) (hact : s.msg.hasBaseField f ≠ true) : u.pointer f = 0 := by
  have hne : u.active.map Prod.fst ≠ some f := fun hh => hact ((h.hasBaseField_iff hfs hf).mpr hh)
  unfold Union.pointer
  split
  · next g v hu =>
      rw [hu] at hne
      exact if_neg (fun hg => hne (by rw [hg]; rfl))
  · rfl

/-- Setting the case word to the active member again keeps its value. -/
theorem store_case_again (h : Holds fs offset caseOffset s u) (hfs : IsOneof fs offset caseOffset)
    (hf : f ∈ fs) (hact : s.msg.hasBaseField f = true) (heap : ℕ → Option γ) :
    Holds fs offset caseOffset
      { msg := s.msg.store caseOffset (fixedBytes 4 f.number), heap } { active := u.active, heap } := by
  obtain ⟨⟨g, v⟩, hu, rfl⟩ := Option.map_eq_some_iff.mp ((h.hasBaseField_iff hfs hf).mp hact)
  obtain ⟨-, -, hv⟩ := h.active _ _ hu
  refine ⟨fun hnone => (nomatch hu.symm.trans hnone), fun g' v' hg' => ?_, rfl⟩
  obtain ⟨rfl, rfl⟩ := Prod.mk.inj (Option.some.inj (hu.symm.trans hg'))
  exact ⟨hf, IsOneof.load_case _ (hfs.number_lt _ hf), (hfs.load_slot_store hf _).trans hv⟩

/-- How the decoder prepares the slot: the case word is set, and the pointer in the slot is the
union's. -/
theorem decodePresence (h : Holds fs offset caseOffset s u) (hfs : IsOneof fs offset caseOffset)
    (hf : f ∈ fs) (hsub : f.isSubMessage = true) :
    ∃ m, s.msg.decodePresence f true = m.store caseOffset (fixedBytes 4 f.number) ∧
      (s.msg.decodePresence f true).pointer f = u.pointer f ∧ (u.pointer f ≠ 0 → m = s.msg) := by
  have hsize : f.mode.rep.size = 8 := by rw [hfs.message_rep f hf hsub]; rfl
  have hptr : ∀ m : RawMessage, RawMessage.pointer (m.store caseOffset (fixedBytes 4 f.number)) f =
      RawMessage.pointer m f := by
    intro m
    have := hfs.load_slot_store (m := m) hf f.number
    rw [hsize] at this
    rw [RawMessage.pointer, hfs.offset_eq f hf, this, RawMessage.pointer, hfs.offset_eq f hf]
  rw [RawMessage.decodePresence, hfs.hasHasbit hf, if_neg Bool.false_ne_true,
    if_pos (hfs.isInOneof hf), RawMessage.setOneofCase, hfs.oneofOffset_toNat hf, Bool.true_and]
  by_cases hact : s.msg.hasBaseField f = true
  · have hcase : (s.msg.getOneofCase f != f.number) = false := by
      rw [hfs.getOneofCase hf, (hfs.hasBaseField hf).mp hact, bne_self_eq_false]
    rw [hcase, if_neg Bool.false_ne_true]
    exact ⟨s.msg, rfl, (hptr _).trans (h.pointer_eq hfs hf hsub hact), fun _ => rfl⟩
  · have hcase : (s.msg.getOneofCase f != f.number) = true := by
      rw [hfs.getOneofCase hf, bne_iff_ne]
      exact fun hh => hact ((hfs.hasBaseField hf).mpr hh)
    have hzero := h.pointer_eq_zero hfs hf hact
    rw [hcase, if_pos rfl]
    refine ⟨_, rfl, ?_, fun hne => absurd hzero hne⟩
    have hload : (s.msg.store f.offset (zeros 8)).load f.offset 8 = zeros 8 := ByteMemory.load_store
    rw [hptr, RawMessage.pointer, hload, hzero]
    rfl

/-- A clean command keeps the invariant and returns what the union returns. -/
theorem step (h : Holds fs offset caseOffset s u) (hfs : IsOneof fs offset caseOffset) (empty : γ)
    (c : OneofCommand γ) (hlegal : c.Legal fs s.heap) (hclean : c.Clean s.msg) :
    (s.step empty c).1 = (u.step empty c).1 ∧
      Holds fs offset caseOffset (s.step empty c).2 (u.step empty c).2 := by
  cases c with
  | setBaseField f val =>
    obtain ⟨hf, hval⟩ := hlegal
    refine ⟨rfl, ?_⟩
    have := store_value hfs hf hval s.msg s.heap
    rw [h.heap_eq] at this
    simpa only [MessageHeap.step, Union.step, RawMessage.setBaseField, hfs.setPresence hf,
      hfs.offset_eq f hf, ← hval, List.take_length, h.heap_eq] using this
  | clearBaseField f =>
    refine ⟨rfl, ?_⟩
    have hcase := hfs.getOneofCase (m := s.msg) hlegal
    simp only [MessageHeap.step, Union.step, RawMessage.clearBaseField, hfs.hasHasbit hlegal,
      hfs.isInOneof hlegal, hfs.oneofOffset_toNat hlegal, hfs.offset_eq f hlegal, hcase,
      Bool.false_eq_true, if_false, if_true]
    by_cases hact : s.msg.hasBaseField f = true
    · rw [if_neg (fun hne => hne ((hfs.hasBaseField hlegal).mp hact)),
        if_pos ((h.hasBaseField_iff hfs hlegal).mp hact), ← h.heap_eq]
      exact clear hfs hlegal s.msg s.heap
    · rw [if_pos (fun heq => hact ((hfs.hasBaseField hlegal).mpr heq)),
        if_neg (fun heq => hact ((h.hasBaseField_iff hfs hlegal).mpr heq))]
      exact h
  | getOrCreateMutableMessage f addr =>
    obtain ⟨hf, hsub, -, -, -⟩ := hlegal
    have hsize : f.mode.rep.size = 8 := by rw [hfs.message_rep f hf hsub]; rfl
    have hptr : s.msg.pointer f = u.pointer f := by
      by_cases hact : s.msg.hasBaseField f = true
      · exact h.pointer_eq hfs hf hsub hact
      · rw [h.pointer_eq_zero hfs hf hact, RawMessage.pointer, hclean.resolve_left hact]
        rfl
    simp only [MessageHeap.step, Union.step, MessageHeap.getOrCreateMutableMessage, hptr]
    by_cases hp : u.pointer f ≠ 0
    · rw [if_pos hp, if_pos hp]
      exact ⟨rfl, h⟩
    · rw [if_neg hp, if_neg hp]
      refine ⟨rfl, ?_⟩
      rw [Union.create, ← h.heap_eq, RawMessage.setPointer, hfs.setPresence hf, hfs.offset_eq f hf]
      exact store_case hfs hf (by rw [hsize, Wire.length_fixedBytes]) _ _
  | decodeValue f val =>
    obtain ⟨hf, hsub, hval⟩ := hlegal
    refine ⟨rfl, ?_⟩
    have := store_value hfs hf hval s.msg s.heap
    rw [h.heap_eq] at this
    simpa only [MessageHeap.step, Union.step, RawMessage.decodeValue, RawMessage.decodePresence,
      hfs.hasHasbit hf, hfs.isInOneof hf, RawMessage.setOneofCase, hfs.oneofOffset_toNat hf,
      Bool.false_and, Bool.false_eq_true, if_false, if_true, hfs.offset_eq f hf, h.heap_eq] using this
  | decodeMessage f addr merge =>
    obtain ⟨hf, hsub, -, -, -⟩ := hlegal
    have hsize : f.mode.rep.size = 8 := by rw [hfs.message_rep f hf hsub]; rfl
    obtain ⟨m, hm, hptr, hkeep⟩ := h.decodePresence hfs hf hsub
    refine ⟨rfl, ?_⟩
    simp only [MessageHeap.step, Union.step, MessageHeap.decodeMessage, hptr]
    by_cases hp : u.pointer f ≠ 0
    · rw [if_pos hp, if_pos hp, hm, hkeep hp, h.heap_eq]
      have hact : s.msg.hasBaseField f = true := by
        by_contra hact
        exact hp (h.pointer_eq_zero hfs hf hact)
      exact h.store_case_again hfs hf hact _
    · rw [if_neg hp, if_neg hp, hm, Union.create, ← h.heap_eq, RawMessage.setPointer,
        hfs.offset_eq f hf]
      exact store_value hfs hf (by rw [hsize, Wire.length_fixedBytes]) _ _

/-- A message that is asked for on another member's bytes is not made the active member. -/
theorem not_represents (h : Holds fs offset caseOffset s u) (hfs : IsOneof fs offset caseOffset)
    (empty : γ) (c : OneofCommand γ) (hlegal : c.Legal fs s.heap) (hclean : ¬c.Clean s.msg) :
    ¬Represents fs (s.step empty c).2 (u.step empty c).2 := by
  cases c with
  | getOrCreateMutableMessage f addr =>
    obtain ⟨hf, -, -, -, -⟩ := hlegal
    obtain ⟨hact, hslot⟩ := not_or.mp hclean
    have hptr : s.msg.pointer f ≠ 0 := by
      intro hzero
      refine hslot (List.eq_replicate_iff.mpr ⟨ByteMemory.length_load, ?_⟩)
      exact Wire.littleEndian_eq_zero hzero
    intro hrep
    have hactive := hrep.hasBaseField_iff f hf
    simp only [MessageHeap.step, Union.step, MessageHeap.getOrCreateMutableMessage, if_pos hptr,
      h.pointer_eq_zero hfs hf hact, ne_eq, not_true_eq_false, if_false, Union.create,
      Option.map_some, iff_true] at hactive
    exact hact hactive
  | setBaseField f val => exact absurd trivial hclean
  | clearBaseField f => exact absurd trivial hclean
  | decodeValue f val => exact absurd trivial hclean
  | decodeMessage f addr merge => exact absurd trivial hclean

end Holds

theorem BehavesAsUnion.represents {fs : List MiniTableField} {empty : γ} {s : MessageHeap γ}
    {u : Union γ} {cs : List (OneofCommand γ)} (h : BehavesAsUnion fs empty s u cs) :
    Represents fs s u := by
  cases cs with
  | nil => exact h
  | cons c cs => exact h.1

/-- From a state that holds a union, a run behaves as the union exactly if it is clean. -/
theorem Holds.behavesAsUnion_iff {fs : List MiniTableField} {offset caseOffset : ℕ}
    (hfs : IsOneof fs offset caseOffset) (empty : γ) (cs : List (OneofCommand γ))
    {s : MessageHeap γ} {u : Union γ} (h : Holds fs offset caseOffset s u)
    (hlegal : LegalRun fs empty s cs) : BehavesAsUnion fs empty s u cs ↔ CleanRun empty s cs := by
  induction cs generalizing s u with
  | nil => exact iff_of_true (h.represents hfs) trivial
  | cons c cs ih =>
    rw [BehavesAsUnion, CleanRun]
    by_cases hclean : c.Clean s.msg
    · obtain ⟨hout, hnext⟩ := h.step hfs empty c hlegal.1 hclean
      have := ih hnext hlegal.2
      constructor
      · exact fun hb => ⟨hclean, this.mp hb.2.2⟩
      · exact fun hc => ⟨h.represents hfs, hout, this.mpr hc.2⟩
    · refine iff_of_false (fun hb => ?_) (fun hc => hclean hc.1)
      exact h.not_represents hfs empty c hlegal.1 hclean hb.2.2.represents

/-- A message as `_upb_Message_New` returns it. -/
def MessageHeap.new (heap : ℕ → Option γ) : MessageHeap γ := { msg := fun _ => 0, heap }

/-- From a new message on, a run on a oneof behaves as the union exactly if no message is asked for,
while another member is active or none is, on a slot whose first eight bytes are not all zero. -/
theorem behavesAsUnion_iff_cleanRun {fs : List MiniTableField} {offset caseOffset : ℕ}
    (hfs : IsOneof fs offset caseOffset) (empty : γ) (heap : ℕ → Option γ)
    (cs : List (OneofCommand γ)) (hlegal : LegalRun fs empty (MessageHeap.new heap) cs) :
    BehavesAsUnion fs empty (MessageHeap.new heap) { active := none, heap } cs ↔
      CleanRun empty (MessageHeap.new heap) cs := by
  refine Holds.behavesAsUnion_iff hfs empty cs ⟨fun _ => rfl, ?_, rfl⟩ hlegal
  exact fun _ _ h => nomatch h

/-- A scalar member of a oneof in the eight bytes at offset 8, with the case word at offset 16. -/
def memberAt8 (number : ℕ) (descriptortype : FieldType) : MiniTableField :=
  { number, offset := 8, presence := -17, submsgOfs := noSub, descriptortype
    mode := { fieldMode := .scalar, isPacked := false, isExtension := false, isAlternate := false
              rep := .rep8Byte } }

theorem isOneof_memberAt8 : IsOneof [memberAt8 1 .int64, memberAt8 2 .message] 8 16 where
  offset_eq := by decide
  presence_eq := by decide
  number_inj := by decide
  number_pos := by decide
  number_lt := by decide
  apart := by decide
  message_rep := by decide

/-- An `int64` member and then a decoded record of the message member. -/
theorem behavesAsUnion_decoded :
    BehavesAsUnion [memberAt8 1 .int64, memberAt8 2 .message] () (MessageHeap.new fun _ => none)
        { active := none, heap := fun _ => none }
        [.setBaseField (memberAt8 1 .int64) (fixedBytes 8 5),
          .decodeMessage (memberAt8 2 .message) 4096 id] ∧
      CleanRun () (MessageHeap.new fun _ => none)
        [.setBaseField (memberAt8 1 .int64) (fixedBytes 8 5),
          .decodeMessage (memberAt8 2 .message) 4096 id] := by
  refine ⟨(behavesAsUnion_iff_cleanRun isOneof_memberAt8 () _ _ ?_).mpr ?_, ?_⟩
  · exact ⟨⟨by decide, rfl⟩, ⟨by decide, rfl, by decide, by decide, rfl⟩, trivial⟩
  · exact ⟨trivial, trivial, trivial⟩
  · exact ⟨trivial, trivial, trivial⟩

/-- With an `int64` member set to 5, `upb_Message_GetOrCreateMutableMessage` on the message member
returns 5 as a pointer and does not make the member active. -/
theorem getOrCreateMutableMessage_misreads_int64 :
    LegalRun [memberAt8 1 .int64, memberAt8 2 .message] () (MessageHeap.new fun _ => none)
        [.setBaseField (memberAt8 1 .int64) (fixedBytes 8 5),
          .getOrCreateMutableMessage (memberAt8 2 .message) 4096] ∧
      ¬BehavesAsUnion [memberAt8 1 .int64, memberAt8 2 .message] () (MessageHeap.new fun _ => none)
        { active := none, heap := fun _ => none }
        [.setBaseField (memberAt8 1 .int64) (fixedBytes 8 5),
          .getOrCreateMutableMessage (memberAt8 2 .message) 4096] ∧
      (((MessageHeap.new (fun _ => (none : Option Unit))).step ()
        (.setBaseField (memberAt8 1 .int64) (fixedBytes 8 5))).2.step ()
          (.getOrCreateMutableMessage (memberAt8 2 .message) 4096)).1 = some 5 := by
  have hout : (((MessageHeap.new (fun _ => (none : Option Unit))).step ()
      (.setBaseField (memberAt8 1 .int64) (fixedBytes 8 5))).2.step ()
        (.getOrCreateMutableMessage (memberAt8 2 .message) 4096)).1 = some 5 := by decide
  refine ⟨⟨⟨by decide, rfl⟩, ⟨by decide, rfl, by decide, by decide, rfl⟩, trivial⟩, ?_, hout⟩
  intro h
  have hunion := h.2.2.2.1
  rw [hout] at hunion
  exact absurd hunion (by decide)

end Upb
