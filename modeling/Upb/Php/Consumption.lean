import Upb.Php.StreamLimits
import Upb.Php.WellFormed

/-!
# What parsing consumes

Inside of a message the end is checked: a message between its limits is read to its last byte, and all
of it is well formed. The outermost message is not checked. It is read to its last byte exactly when
the loop over its fields never stands before bytes that are no tag.
-/

namespace Upb.Php

open Upb.Common (bind_eq_ok map_eq_ok)
open Upb.Wire (IsVarint leb)
open CodedInputStream

variable {κ : Type} {pool : κ → List (FieldDescriptor κ)} {utf8 : List UInt8 → Bool} {parse : Parser κ}
  {entry : Bool} {fields : List (FieldDescriptor κ)} {object object' : Properties κ}
  {tag : PhpInt} {s s' : CodedInputStream} {fuel : ℕ}

section Inversion

/-- A message is read between its limits, and its end is checked. -/
theorem readMessage_eq_ok
    {parse : Properties κ → CodedInputStream → Except Exception (Properties κ × CodedInputStream)}
    (h : readMessage parse object s = .ok (object', s')) :
    ∃ length t oldLimit u b v b', s.readVarint64 = (some length, t) ∧
      t.pushLimit length.toInt = some (oldLimit, u) ∧
      parse object { u with recursionBudget := b } = .ok (object', v) ∧ v.legitimateMessageEnd = true ∧
      s' = { v.popLimit oldLimit with recursionBudget := b' } := by
  obtain ⟨⟨length, t⟩, hread, h⟩ := bind_eq_ok.mp h
  dsimp only at h
  rw [incrementRecursionDepthAndPushLimit] at h
  cases hpush : t.pushLimit length.toInt with
  | none =>
    rw [hpush] at h
    cases h
  | some pushed =>
    obtain ⟨oldLimit, u⟩ := pushed
    rw [hpush] at h
    dsimp only at h
    split at h
    next => cases h
    next =>
      obtain ⟨⟨o, v⟩, hparse, h⟩ := bind_eq_ok.mp h
      change (if v.legitimateMessageEnd = true then
        Except.ok (o, (v.decrementRecursionDepthAndPopLimit oldLimit).2) else _) = _ at h
      split at h
      next hend =>
        cases h
        exact ⟨length, t, oldLimit, u, _, v, _, orThrow_eq_ok.mp hread, hpush, hparse, hend, rfl⟩
      next => cases h

/-- A packed field is read between its limits. -/
theorem readPacked_eq_ok {field : FieldDescriptor κ} {type : ScalarType}
    (h : readPacked utf8 fields object field type s = .ok (object', s')) :
    ∃ length t oldLimit u v, s.readVarint32 = (some length, t) ∧
      t.pushLimit length.toInt = some (oldLimit, u) ∧
      packedLoop utf8 fields field type (u.buffer.length + 1) object u = .ok (object', v) ∧
      s' = v.popLimit oldLimit := by
  obtain ⟨⟨length, t⟩, hread, h⟩ := bind_eq_ok.mp h
  dsimp only at h
  split at h
  next => cases h
  next oldLimit u hpush =>
    obtain ⟨⟨o, v⟩, hloop, h⟩ := bind_eq_ok.mp h
    cases h
    exact ⟨length, t, oldLimit, u, v, orThrow_eq_ok.mp hread, hpush, hloop, rfl⟩

/-- The value of a field is a scalar or a message. -/
theorem readValue_eq_ok {type : FieldType κ} {value : Datum κ}
    (h : readValue pool parse type s = .ok (value, s')) :
    (∃ t v, type.reading pool = .scalar t ∧ t.read s = .ok (v, s')) ∨
      ∃ inner o o', type.reading pool = .nested inner ∧ readMessage (parse false inner) o s = .ok (o', s') := by
  cases type with
  | scalar type =>
    obtain ⟨⟨v, t⟩, hread, heq⟩ := map_eq_ok.mp h
    cases heq
    exact .inl ⟨type, v, rfl, hread⟩
  | message klass =>
    obtain ⟨⟨o, t⟩, hread, heq⟩ := map_eq_ok.mp h
    cases heq
    exact .inr ⟨_, _, o, rfl, hread⟩

theorem readNormal_eq_ok {field : FieldDescriptor κ}
    (h : readNormal pool utf8 parse entry fields object field s = .ok (object', s')) :
    (∃ t v, field.reading pool = .scalar t ∧ t.read s = .ok (v, s')) ∨
      ∃ e inner o o', field.reading pool = .nested inner ∧ readMessage (parse e inner) o s = .ok (o', s') := by
  rw [readNormal] at h
  rw [FieldDescriptor.reading]
  cases hkind : field.kind with
  | singular type i =>
    rw [hkind] at h
    obtain ⟨⟨value, t⟩, hread, h⟩ := bind_eq_ok.mp h
    have ht : t = s' := by
      dsimp only at h
      split at h <;> obtain ⟨value', -, heq⟩ := bind_eq_ok.mp h <;> cases heq <;> rfl
    subst ht
    exact (readValue_eq_ok hread).imp_right fun ⟨inner, o, o', hr⟩ => ⟨false, inner, o, o', hr⟩
  | repeated type packed =>
    rw [hkind] at h
    obtain ⟨⟨value, t⟩, hread, h⟩ := bind_eq_ok.mp h
    obtain ⟨object'', happend, h⟩ := bind_eq_ok.mp h
    cases h
    exact (readValue_eq_ok hread).imp_right fun ⟨inner, o, o', hr⟩ => ⟨false, inner, o, o', hr⟩
  | map keyType type =>
    rw [hkind] at h
    obtain ⟨⟨key, value, t⟩, hread, h⟩ := bind_eq_ok.mp h
    obtain ⟨object'', hupdate, h⟩ := bind_eq_ok.mp h
    cases h
    obtain ⟨⟨o, t'⟩, hmessage, heq⟩ := map_eq_ok.mp hread
    have ht : t' = s' := by
      dsimp only at heq
      split at heq <;> cases heq <;> rfl
    subst ht
    exact .inr ⟨true, _, _, o, rfl, hmessage⟩

/-- A field that is skipped is read to its end, whatever becomes of its bytes. -/
theorem skipField_of_map (h : (skipField s tag).map (fun (bytes, s) =>
    ({ object with unknown := object.unknown ++ bytes }, s)) = .ok (object', s')) :
    ∃ bytes, skipField s tag = .ok (bytes, s') := by
  obtain ⟨⟨bytes, t⟩, hok, heq⟩ := map_eq_ok.mp h
  cases heq
  exact ⟨bytes, hok⟩

/-- What is read behind a tag. -/
theorem parseFieldFromStream_eq_ok
    (h : parseFieldFromStream pool utf8 parse entry fields object tag s = .ok (object', s')) :
    match reading pool fields (getTagFieldNumber tag) (getTagWireType tag) with
    | .skipped => ∃ bytes, skipField s tag = .ok (bytes, s')
    | .scalar type => ∃ v, type.read s = .ok (v, s')
    | .nested inner => ∃ e o o', readMessage (parse e inner) o s = .ok (o', s')
    | .packed type => ∃ field, readPacked utf8 fields object field type s = .ok (object', s') := by
  rw [parseFieldFromStream] at h
  rw [reading]
  cases hfield : getFieldByNumber fields (getTagFieldNumber tag) with
  | none =>
    rw [hfield] at h
    exact skipField_of_map h
  | some field =>
    rw [hfield] at h
    dsimp only at h ⊢
    by_cases hwire : getTagWireType tag = field.wireType
    · rw [if_pos hwire] at h ⊢
      rcases readNormal_eq_ok h with ⟨type, v, hr, hread⟩ | ⟨e, inner, o, o', hr, hread⟩
      · rw [hr]
        exact ⟨v, hread⟩
      · rw [hr]
        exact ⟨e, o, o', hread⟩
    · rw [if_neg hwire] at h ⊢
      cases hpackable : field.packable with
      | none =>
        rw [hpackable] at h
        exact skipField_of_map h
      | some type =>
        rw [hpackable] at h
        dsimp only at h ⊢
        by_cases htwo : getTagWireType tag = 2
        · rw [if_pos htwo] at h ⊢
          exact ⟨field, h⟩
        · rw [if_neg htwo] at h ⊢
          exact skipField_of_map h

end Inversion

section Forward

theorem readMessage_moves
    {parse : Properties κ → CodedInputStream → Except Exception (Properties κ × CodedInputStream)}
    (hparse : ∀ o u o' v, u.Held → parse o u = .ok (o', v) → u.Moves v) (hs : s.Held)
    (h : readMessage parse object s = .ok (object', s')) : s.Moves s' := by
  obtain ⟨length, t, oldLimit, u, b, v, b', hread, hpush, hok, -, rfl⟩ := readMessage_eq_ok h
  have ht := (readVarint64_advances hread).moves hs
  have hu := pushLimit_held ht.toHeld hpush
  have hv := hparse _ { u with recursionBudget := b } _ _ ⟨hu.size, hu.limit_le⟩ hok
  have hpop := ht.trans (Moves.popLimit ht.toHeld hpush ⟨⟨hv.size, hv.limit_le⟩, hv.buffer, hv.forward, hv.limit⟩)
  exact ⟨⟨hpop.size, hpop.limit_le⟩, hpop.buffer, hpop.forward, hpop.limit⟩

theorem packedLoop_moves {field : FieldDescriptor κ} {type : ScalarType} (hs : s.Held)
    (h : packedLoop utf8 fields field type fuel object s = .ok (object', s')) : s.Moves s' := by
  induction fuel generalizing object s with
  | zero => cases h
  | succ fuel ih =>
    rw [packedLoop] at h
    split at h
    · obtain ⟨⟨v, t⟩, hread, h⟩ := bind_eq_ok.mp h
      obtain ⟨o, -, h⟩ := bind_eq_ok.mp h
      have ht := (ScalarType.read_advances hread).moves hs
      exact ht.trans (ih ht.toHeld h)
    · cases h
      exact .refl hs

theorem readPacked_moves {field : FieldDescriptor κ} {type : ScalarType} (hs : s.Held)
    (h : readPacked utf8 fields object field type s = .ok (object', s')) : s.Moves s' := by
  obtain ⟨length, t, oldLimit, u, v, hread, hpush, hloop, rfl⟩ := readPacked_eq_ok h
  have ht := (readVarint32_advances hread).moves hs
  exact ht.trans (Moves.popLimit ht.toHeld hpush (packedLoop_moves (pushLimit_held ht.toHeld hpush) hloop))

theorem parseFieldFromStream_moves
    (hparse : ∀ e inner o u o' v, u.Held → parse e inner o u = .ok (o', v) → u.Moves v) (hs : s.Held)
    (h : parseFieldFromStream pool utf8 parse entry fields object tag s = .ok (object', s')) :
    s.Moves s' := by
  have hread := parseFieldFromStream_eq_ok h
  split at hread
  next =>
    obtain ⟨bytes, hskip⟩ := hread
    exact (skipField_advances hskip).moves hs
  next type _ =>
    obtain ⟨v, hscalar⟩ := hread
    exact (ScalarType.read_advances hscalar).moves hs
  next inner _ =>
    obtain ⟨e, o, o', hmessage⟩ := hread
    exact readMessage_moves (hparse e inner) hs hmessage
  next type =>
    obtain ⟨field, hpacked⟩ := hread
    exact readPacked_moves hs hpacked

theorem parseFromStream_moves (hs : s.Held)
    (h : parseFromStream pool utf8 fuel entry fields object s = .ok (object', s')) : s.Moves s' := by
  induction fuel generalizing entry fields object s object' s' with
  | zero => cases h
  | succ fuel ih =>
    rw [parseFromStream] at h
    cases htag : s.readTag with
    | mk tag t =>
      have ht := readTag_moves hs htag
      rw [htag] at h
      dsimp only at h
      split at h
      · cases h
        exact ht
      · obtain ⟨⟨o, u⟩, hfield, h⟩ := bind_eq_ok.mp h
        have hu := parseFieldFromStream_moves (fun _ _ _ _ _ _ hv hok => ih hv hok) ht.toHeld hfield
        exact (ht.trans hu).trans (ih hu.toHeld h)

end Forward

section Sound

/-- Only the lower 32 bits count. -/
theorem toInt32_mod (n : ℕ) : toInt32 (BitVec.ofNat 64 n) = toInt32 (BitVec.ofNat 64 (n % 2 ^ 32)) := by
  apply BitVec.eq_of_toNat_eq
  rw [toNat_toInt32, toNat_toInt32, BitVec.toNat_ofNat, BitVec.toNat_ofNat]
  have hmod : n % 2 ^ 64 % 2 ^ 32 = n % 2 ^ 32 % 2 ^ 64 % 2 ^ 32 := by omega
  rw [hmod]

/-- A tag was read that is not zero. -/
theorem readTag_isTag (hs : s.InBuffer) (h : s.readTag = (tag, s')) (hne : tag ≠ 0) :
    ∃ p, IsTag p ∧ s.Took p s' ∧ getTagFieldNumber tag = tagNumber p ∧ getTagWireType tag = tagType p := by
  obtain ⟨p, hp, htook, rfl⟩ := readTag_took hs h hne
  refine ⟨p, ⟨hp, ?_⟩, htook, ?_, getTagWireType_toInt32 (leb p)⟩
  · intro hzero
    rw [toInt32_mod, hzero] at hne
    exact hne rfl
  · rw [toInt32_mod, getTagFieldNumber_toInt32 (by omega), tagNumber]

/-- A parser that ends at the limit of a message has read a well-formed one. -/
def Sound (pool : κ → List (FieldDescriptor κ)) (parse : Parser κ) : Prop :=
  ∀ e inner o s o' s', s.Sane → s.bufferEnd ≤ totalBytesLimit → parse e inner o s = .ok (o', s') →
    s'.legitimateMessageEnd = true →
    ∃ p, WellFormed pool inner p ∧ s.Passed p s' ∧ s'.current ≤ s'.bufferEnd ∧ s'.current = s.currentLimit

/-- The elements of a packed field are read to its end. -/
theorem packedLoop_passed {field : FieldDescriptor κ} {type : ScalarType} (hs : s.Sane)
    (h : packedLoop utf8 fields field type fuel object s = .ok (object', s')) :
    ∃ p, Elements type p ∧ s.Passed p s' ∧ s'.Sane ∧ s'.current = s.currentLimit := by
  induction fuel generalizing object s with
  | zero => cases h
  | succ fuel ih =>
    rw [packedLoop] at h
    split at h
    · obtain ⟨⟨v, t⟩, hread, h⟩ := bind_eq_ok.mp h
      obtain ⟨o, -, h⟩ := bind_eq_ok.mp h
      obtain ⟨p, hp, htook⟩ := ScalarType.read_took hs.toInBuffer hread
      obtain ⟨hpassed, ht⟩ := htook.passed hs
      obtain ⟨q, hq, hrest, hsane, hend⟩ := ih ht h
      exact ⟨p ++ q, .cons hp hq, hpassed.trans hrest, hsane, hend.trans hpassed.limit⟩
    · next hdone =>
      cases h
      have hlimit := hs.limit_le
      have hle := hs.bufferEnd_le
      have hcurrent := hs.current_le
      have haddressable := hs.addressable
      rw [bytesUntilLimit, if_neg (by omega)] at hdone
      exact ⟨[], .nil, .nil hs.toHeld, hs, by omega⟩

/-- A limit is only pushed before the limit on all bytes, if the stream is inside of the buffer when
it is popped. -/
theorem current_le_total {t u : CodedInputStream} {size : ℤ} {oldLimit : ℕ}
    (hroom : s.bufferEnd ≤ totalBytesLimit ∨ (u.popLimit oldLimit).current ≤ (u.popLimit oldLimit).bufferEnd)
    (hs : s.Sane) (hpush : s.pushLimit size = some (oldLimit, t)) (h : t.Moves u) :
    s.current ≤ totalBytesLimit := by
  rcases hroom with hroom | hroom
  · exact hs.current_le.trans hroom
  · have hmoves := Moves.popLimit hs.toHeld hpush h
    have hle : oldLimit ≤ u.buffer.length := by
      obtain ⟨-, rfl, rfl⟩ := (pushLimit_eq_some hs.toHeld).mp hpush
      rw [h.buffer]
      exact hs.limit_le
    exact hmoves.forward.trans (hroom.trans (popLimit_bufferEnd_le h.toHeld hle))

theorem readMessage_passed {e : Bool} {inner : List (FieldDescriptor κ)} (hsound : Sound pool parse)
    (hmoves : ∀ e inner o u o' v, u.Held → parse e inner o u = .ok (o', v) → u.Moves v) (hs : s.Sane)
    (hroom : s.bufferEnd ≤ totalBytesLimit ∨ s'.current ≤ s'.bufferEnd)
    (h : readMessage (parse e inner) object s = .ok (object', s')) :
    ∃ len data, IsVarint 10 len ∧ leb len % 2 ^ 64 = data.length ∧ WellFormed pool inner data ∧
      s.Passed (len ++ data) s' ∧ s'.Sane := by
  obtain ⟨length, t, oldLimit, u, b, v, b', hread, hpush, hok, hflag, rfl⟩ := readMessage_eq_ok h
  obtain ⟨len, hlen, htook, rfl⟩ := readVarint64_took hs.toInBuffer hread
  have hend := htook.1
  obtain ⟨hpassed, ht⟩ := htook.passed hs
  have hu := pushLimit_held ht.toHeld hpush
  have hv := hmoves _ _ _ { u with recursionBudget := b } _ _ ⟨hu.size, hu.limit_le⟩ hok
  have hroom' : t.bufferEnd ≤ totalBytesLimit ∨
      (v.popLimit oldLimit).current ≤ (v.popLimit oldLimit).bufferEnd := by
    rw [hend]
    exact hroom
  have htotal := current_le_total hroom' ht hpush ⟨⟨hv.size, hv.limit_le⟩, hv.buffer, hv.forward, hv.limit⟩
  obtain ⟨hsane, hclosed⟩ := ht.pushLimit htotal hpush
  obtain ⟨data, hdata, hin, hle, hlimit⟩ := hsound e inner object { u with recursionBudget := b } object' v
    ⟨⟨hsane.current_le, hsane.size⟩, hsane.limit_le, hsane.closest, hsane.flag, hsane.addressable⟩ hclosed hok
    hflag
  have hin' : u.Passed data v := ⟨⟨hin.toHeld, hin.buffer, hin.forward, hin.limit⟩, hin.current, hin.bytes,
    hin.closed⟩
  obtain ⟨hsize, hout, hout'⟩ := hin'.popLimit ht hpush hle hlimit hclosed
  have hall := hpassed.trans hout
  refine ⟨len, data, hlen, leb_mod_of_toInt hsize.symm, hdata, ?_, ?_⟩
  · exact ⟨⟨⟨hall.size, hall.limit_le⟩, hall.buffer, hall.forward, hall.limit⟩, hall.current, hall.bytes,
      hall.closed⟩
  · exact ⟨⟨hout'.current_le, hout'.size⟩, hout'.limit_le, hout'.closest, hout'.flag, hout'.addressable⟩

theorem readPacked_passed {field : FieldDescriptor κ} {type : ScalarType} (hs : s.Sane)
    (hroom : s.bufferEnd ≤ totalBytesLimit ∨ s'.current ≤ s'.bufferEnd)
    (h : readPacked utf8 fields object field type s = .ok (object', s')) :
    ∃ len data, IsVarint 10 len ∧ leb len % 2 ^ 32 = data.length ∧ Elements type data ∧
      s.Passed (len ++ data) s' ∧ s'.Sane := by
  obtain ⟨length, t, oldLimit, u, v, hread, hpush, hloop, rfl⟩ := readPacked_eq_ok h
  obtain ⟨len, hlen, htook, rfl⟩ := readVarint32_took hs.toInBuffer hread
  have hend := htook.1
  obtain ⟨hpassed, ht⟩ := htook.passed hs
  have hmoves := packedLoop_moves (pushLimit_held ht.toHeld hpush) hloop
  have htotal := current_le_total (by rw [hend]; exact hroom) ht hpush hmoves
  obtain ⟨hsane, hclosed⟩ := ht.pushLimit htotal hpush
  obtain ⟨data, hdata, hin, hv, hlimit⟩ := packedLoop_passed hsane hloop
  obtain ⟨hsize, hout, hout'⟩ := hin.popLimit ht hpush hv.current_le hlimit hclosed
  exact ⟨len, data, hlen, leb_mod_of_toInt32 hsize.symm, hdata, hpassed.trans hout, hout'⟩

/-- One turn of the loop over the fields reads a well-formed record. -/
theorem parseFieldFromStream_passed {t : CodedInputStream} (hsound : Sound pool parse)
    (hmoves : ∀ e inner o u o' v, u.Held → parse e inner o u = .ok (o', v) → u.Moves v) (hs : s.Sane)
    (hroom : s.bufferEnd ≤ totalBytesLimit ∨ s'.current ≤ s'.bufferEnd) (htag : s.readTag = (tag, t))
    (hne : tag ≠ 0) (h : parseFieldFromStream pool utf8 parse entry fields object tag t = .ok (object', s')) :
    ∃ p, WellFormed pool fields p ∧ p ≠ [] ∧ s.Passed p s' ∧ s'.Sane := by
  obtain ⟨bytes, hbytes, htook, hnumber, htype⟩ := readTag_isTag hs.toInBuffer htag hne
  have hend := htook.1
  obtain ⟨hpassed, ht⟩ := htook.passed hs
  have hroom' : t.bufferEnd ≤ totalBytesLimit ∨ s'.current ≤ s'.bufferEnd := by
    rw [hend]
    exact hroom
  have hnonempty : ∀ q, bytes ++ q ≠ [] := by
    intro q hnil
    have hpos := hbytes.varint.length_pos
    simp_all
  have hread := parseFieldFromStream_eq_ok h
  rw [hnumber, htype] at hread
  have hplain : ∀ {p}, Plain (tagNumber bytes) (tagType bytes)
      (reading pool fields (tagNumber bytes) (tagType bytes)) p → t.Passed p s' → s'.Sane →
      ∃ p, WellFormed pool fields p ∧ p ≠ [] ∧ s.Passed p s' ∧ s'.Sane := by
    intro p hp hrest hsane
    refine ⟨bytes ++ p, ?_, hnonempty p, hpassed.trans hrest, hsane⟩
    have hrecord := WellFormed.plain hbytes hp .nil
    rwa [List.append_nil] at hrecord
  split at hread
  next hreading =>
    obtain ⟨kept, hskip⟩ := hread
    obtain ⟨p, hp, htook'⟩ := skipField_took ht.toInBuffer hskip
    obtain ⟨hrest, hsane⟩ := htook'.passed ht
    have hzero := (skipField_cases hskip).1
    rw [hnumber] at hzero
    rw [htype] at hp
    refine hplain ?_ hrest hsane
    rw [hreading]
    exact .skipped hzero hp
  next type hreading =>
    obtain ⟨v, hscalar⟩ := hread
    obtain ⟨p, hp, htook'⟩ := ScalarType.read_took ht.toInBuffer hscalar
    obtain ⟨hrest, hsane⟩ := htook'.passed ht
    refine hplain ?_ hrest hsane
    rw [hreading]
    exact .scalar hp
  next inner hreading =>
    obtain ⟨e, o, o', hmessage⟩ := hread
    obtain ⟨len, data, hlen, hvalue, hdata, hrest, hsane⟩ := readMessage_passed hsound hmoves ht hroom' hmessage
    refine ⟨bytes ++ (len ++ data), ?_, hnonempty _, hpassed.trans hrest, hsane⟩
    have hrecord := WellFormed.nested hbytes hreading hlen hvalue hdata .nil
    rwa [List.append_nil] at hrecord
  next type hreading =>
    obtain ⟨field, hpacked⟩ := hread
    obtain ⟨len, data, hlen, hvalue, hdata, hrest, hsane⟩ := readPacked_passed ht hroom' hpacked
    refine hplain ?_ hrest hsane
    rw [hreading]
    exact .packed hlen hvalue hdata

/-- The end of a message is only marked at the end of the buffer. -/
theorem readTag_flag (hs : s.Sane) (h : s.readTag = (tag, s')) (hflag : s'.legitimateMessageEnd = true) :
    s.current = s.bufferEnd ∧ s' = { s with legitimateMessageEnd := true } ∧
      (totalBytesLimit ≤ s.bufferEnd → s.currentLimit = totalBytesLimit) := by
  have hadvance : s.Advances s' → s'.legitimateMessageEnd = s.legitimateMessageEnd := by
    rintro ⟨k, rfl⟩
    rfl
  have hsize := hs.size
  have hold := hs.flag
  rw [readTag] at h
  split at h
  next hend =>
    have hposition : s.totalBytesRead - s.bufferSizeAfterLimit = s.bufferEnd := by
      rw [totalBytesRead]
      omega
    dsimp only at h
    rw [hposition] at h
    split at h
    next hle =>
      cases h
      exact ⟨hend, by simpa using hflag, fun _ => by simpa using hflag⟩
    next hlt =>
      cases h
      exact ⟨hend, rfl, fun hle => absurd hle hlt⟩
  next =>
    split at h
    next result t hread =>
      cases h
      rw [hadvance (readVarint32_advances hread), hold] at hflag
      cases hflag
    next t hread =>
      cases h
      rw [readVarint32] at hread
      split at hread
      next => cases hread
      next t' hvar =>
        cases hread
        rw [hadvance (readVarint64_advances hvar), hold] at hflag
        cases hflag

/-- A message that ends at its limit is well formed. -/
theorem parseFromStream_sound (pool : κ → List (FieldDescriptor κ)) (utf8 : List UInt8 → Bool) (fuel : ℕ) :
    Sound pool (parseFromStream pool utf8 fuel) := by
  induction fuel with
  | zero =>
    intro e inner o s o' s' _ _ h
    cases h
  | succ fuel ih =>
    intro e inner o s o' s' hs hclosed h hflag
    rw [parseFromStream] at h
    cases htag : s.readTag with
    | mk tag t =>
      rw [htag] at h
      dsimp only at h
      split at h
      next =>
        cases h
        obtain ⟨hend, rfl, htotal⟩ := readTag_flag hs htag hflag
        have hlimit : s.current = s.currentLimit := by
          rcases hs.closest with hmin | hmin <;> omega
        exact ⟨[], .nil, ⟨⟨⟨hs.size, hs.limit_le⟩, rfl, le_rfl, rfl⟩, rfl, ⟨_, rfl⟩, id⟩, hs.current_le, hlimit⟩
      next hne =>
        obtain ⟨⟨o'', u⟩, hfield, h⟩ := bind_eq_ok.mp h
        obtain ⟨p, hp, -, hpassed, hu⟩ := parseFieldFromStream_passed ih
          (fun _ _ _ _ _ _ hv hok => parseFromStream_moves hv hok) hs (.inl hclosed) htag hne hfield
        obtain ⟨q, hq, hrest, hle, hlimit⟩ := ih e inner o'' u o' s' hu (hpassed.closed hclosed) h hflag
        exact ⟨p ++ q, hp.append hq, hpassed.trans hrest, hle, hlimit.trans hpassed.limit⟩

end Sound

end Upb.Php
