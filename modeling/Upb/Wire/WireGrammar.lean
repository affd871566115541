import Upb.Wire.Refinement
import Upb.Wire.UnknownFields

/-!
# The decoder accepts the wire grammar

With a table without fields every record is unknown: what the decoder accepts is then decided by its
two skippers alone, and all of the input ends up in the unknown fields.
-/

namespace Upb.Wire

open Upb.Common BoundedReader

/-- A table without fields and extensions. -/
def IsEmptyTable (t : MiniTable) : Prop :=
  t.fields = [] ∧ t.ext = ⟨false, false, false⟩ ∧ t.requiredCount = 0

section

variable {cfg : DecodeConfig} {t : TableId} {fuel depth : ℕ} {r r' : BoundedReader}

theorem findField_of_isEmptyTable (h : IsEmptyTable (cfg.schema.table t)) (number : ℕ)
    (w : Option WireType) : findField cfg t number w = .notFound := by
  have hfield : ∀ i, cfg.schema.field t i = none := by
    intro i
    rw [Schema.field, h.1]
    rfl
  have hnone : ((cfg.schema.table t).findFieldByNumber number).bind (cfg.schema.field t) = none := by
    cases (cfg.schema.table t).findFieldByNumber number with
    | none => rfl
    | some i => exact hfield i
  rw [findField, hnone]
  dsimp only
  cases cfg.schema.extreg with
  | none => rfl
  | some reg => simp [findExtensionField, h.2.1]

theorem uninterpreted_notFound (cfg : DecodeConfig) (w : WireType) :
    Uninterpreted cfg .notFound w := by
  cases w <;> trivial

/-- A record of no field is unknown. -/
theorem op_of_decodeWireValue {w : Option WireType} {op : DecodeOp} {val : ℕ}
    (h : decodeWireValue stream cfg .notFound w r = .ok ((op, val), r')) : op = .unknownField := by
  have hread : ∀ {x : Reading BoundedReader ℕ} {f : ℕ → DecodeOp × ℕ}, (∀ v, (f v).1 = .unknownField) →
      (x >>= fun v => pure (f v)) r = .ok ((op, val), r') → op = .unknownField := by
    intro x f hf hx
    obtain ⟨v, r₁, -, hpure⟩ := Prog.bind_eq_ok.mp hx
    have hv : f v = (op, val) := congrArg Prod.fst (Except.ok.inj hpure)
    have := hf v
    rw [hv] at this
    exact this
  rcases w with _ | w
  · cases h
  cases w with
  | varint => exact hread (fun _ => rfl) h
  | bit32 => exact hread (fun _ => rfl) h
  | bit64 => exact hread (fun _ => rfl) h
  | delimited => exact hread (fun _ => rfl) h
  | startGroup =>
    cases h
    rfl
  | endGroup => cases h

/-- What is read of the value of an unknown record and skipped behind it is the value. -/
theorem value_of_skipUnknown {number : ℕ} {w : WireType} {tag : List UInt8} {op : DecodeOp} {val : ℕ}
    {r₁ : BoundedReader} {c : ℕ × List UInt8} (htag : IsTag number w tag)
    (hwire : decodeWireValue stream cfg .notFound (some w) r = .ok ((op, val), r₁))
    (hskip : skipUnknown stream fuel depth number (some w) val { r₁ with captureStart := c } =
      .ok ((), r')) :
    ∃ rec, IsRecord 5 (fun _ => True) depth number w (tag ++ rec) ∧ r.rest = rec ++ r'.rest := by
  cases w with
  | varint =>
    rw [decodeWireValue, Prog.bind_eq_ok] at hwire
    obtain ⟨val, r₂, hread, hpure⟩ := hwire
    cases hpure
    cases hskip
    obtain ⟨p, hp, -, hreads⟩ := readVarint_eq_ok.mp hread
    exact ⟨p, .field htag (.varint hp), hreads.1⟩
  | bit32 =>
    rw [decodeWireValue, Prog.bind_eq_ok] at hwire
    obtain ⟨val, r₂, hread, hpure⟩ := hwire
    cases hpure
    cases hskip
    obtain ⟨p, hp, -, hreads⟩ := readFixed_eq_ok.mp hread
    exact ⟨p, .field htag (.bit32 hp), hreads.1⟩
  | bit64 =>
    rw [decodeWireValue, Prog.bind_eq_ok] at hwire
    obtain ⟨val, r₂, hread, hpure⟩ := hwire
    cases hpure
    cases hskip
    obtain ⟨p, hp, -, hreads⟩ := readFixed_eq_ok.mp hread
    exact ⟨p, .field htag (.bit64 hp), hreads.1⟩
  | delimited =>
    rw [decodeWireValue, Prog.bind_eq_ok] at hwire
    obtain ⟨size, r₂, hread, hpure⟩ := hwire
    cases hpure
    obtain ⟨p, hp, hmax, rfl, hreads⟩ := readSize_eq_ok.mp hread
    change (take (leb p) >>= fun _ => pure ()) _ = _ at hskip
    rw [Prog.bind_eq_ok] at hskip
    obtain ⟨payload, r₃, htake, hpure⟩ := hskip
    cases hpure
    obtain ⟨hlen, hrest, -⟩ := take_eq_ok.mp htake
    have hrest : r₁.rest = payload ++ r'.rest := hrest
    exact ⟨p ++ payload, .field htag (.delimited hp hmax hlen), by
      rw [hreads.1, hrest, List.append_assoc]⟩
  | startGroup =>
    cases hwire
    obtain ⟨d, body, endTag, rfl, hbody, hend, hrest, -⟩ := records_of_skipGroup hskip
    rw [Nat.mul_div_cancel _ (by omega)] at hend
    exact ⟨body ++ endTag, .group htag hbody hend, hrest⟩
  | endGroup => cases hwire

/-- A round of the field loop finds an end group tag or a record. -/
theorem record_of_decodeField (ht : IsEmptyTable (cfg.schema.table t)) {sub : SubDecoder BoundedReader}
    {d : Decoding} {res : Decoding ⊕ (Decoding × Option ℕ)} (hfuel : r.rest.length ≤ fuel)
    (h : decodeField stream cfg fuel sub depth t d r = .ok (res, r')) :
    (∃ n, res = .inr (d, some n)) ∨ ∃ n w rec, n ≠ 0 ∧ IsRecord 5 (fun _ => True) depth n w rec ∧
      r.rest = rec ++ r'.rest ∧ res = .inl { d with msg := d.msg.addUnknown rec } := by
  have hstep := h
  rw [decodeField, Prog.bind_of_ok (show stream.mark r = .ok ((), _) from rfl),
    Prog.bind_eq_ok] at hstep
  obtain ⟨_, r₁, htag, hstep⟩ := hstep
  obtain ⟨p, hp, hlt, rfl, hreads⟩ := readTag_eq_ok.mp htag
  by_cases hend : getWireType (leb p) = some .endGroup
  · rw [if_pos hend] at hstep
    cases hstep
    exact .inl ⟨_, rfl⟩
  rw [if_neg hend, Prog.bind_eq_ok] at hstep
  obtain ⟨d', r₂, hdata, hstep⟩ := hstep
  cases hstep
  rw [decodeFieldData, findField_of_isEmptyTable ht, Prog.bind_eq_ok] at hdata
  obtain ⟨⟨op, val⟩, r₃, hwire, hdata⟩ := hdata
  cases hw : getWireType (leb p) with
  | none =>
    rw [hw] at hwire
    cases hwire
  | some w =>
    rw [hw] at hwire hdata
    obtain rfl := op_of_decodeWireValue hwire
    change decodeUnknownField stream fuel depth d _ _ val r₃ = _ at hdata
    rw [decodeUnknownField] at hdata
    by_cases hzero : getFieldNumber (leb p) = 0
    · rw [if_pos hzero] at hdata
      cases hdata
    rw [if_neg hzero, Prog.bind_of_ok (show stream.startCapture r₃ = .ok ((), _) from rfl),
      Prog.bind_eq_ok] at hdata
    obtain ⟨_, r₄, hskip, hdata⟩ := hdata
    obtain ⟨rec, hrec, hrest⟩ :=
      value_of_skipUnknown (IsTag.of_getWireType hp hlt hw) hwire hskip
    have hr : r.rest = (p ++ rec) ++ r₄.rest := by
      have hmark : r.rest = p ++ r₁.rest := hreads.1
      rw [hmark, hrest, List.append_assoc]
    have hop : Uninterpreted cfg (findField cfg t (getFieldNumber (leb p)) (some w)) w := by
      rw [findField_of_isEmptyTable ht]
      exact uninterpreted_notFound cfg w
    -- the decoder is a function: it captures the record
    have hout := h.symm.trans (decodeField_of_record hop hrec hzero hr hfuel d)
    cases hout
    refine .inr ⟨_, w, p ++ rec, hzero, hrec, ?_, rfl⟩
    change r.rest = _ ++ r.rest.drop _
    conv_rhs => rw [hr, List.drop_left]
    exact hr

/-- The field loop of the decoder. -/
def fieldLoop (cfg : DecodeConfig) (fuel : ℕ) (sub : SubDecoder BoundedReader) (depth : ℕ)
    (t : TableId) (n : ℕ) (d : Decoding) : Reading BoundedReader (Decoding × Option ℕ) :=
  Prog.loop stream.isDone .outOfFuel (decodeField stream cfg fuel sub depth t)
    (fun d => pure (d, none)) n d

theorem Message.addUnknown_addUnknown (m : Message) (a b : List UInt8) :
    (m.addUnknown a).addUnknown b = m.addUnknown (a ++ b) := by
  simp [Message.addUnknown]

/-- Records are skipped up to the end of the input. -/
theorem fieldLoop_of_records (ht : IsEmptyTable (cfg.schema.table t)) {sub : SubDecoder BoundedReader}
    {inner : ℕ → Prop} {s : List UInt8} (h : Records 5 inner (· ≠ 0) depth s) :
    ∀ {n : ℕ} {d : Decoding} {r : BoundedReader}, r.rest = s → s.length ≤ n → s.length ≤ fuel →
      ∃ r', fieldLoop cfg fuel sub depth t n d r =
        .ok (({ d with msg := d.msg.addUnknown s }, none), r') := by
  refine h.record_induction (P := fun s => ∀ {n : ℕ} {d : Decoding} {r : BoundedReader}, r.rest = s →
    s.length ≤ n → s.length ≤ fuel → ∃ r', fieldLoop cfg fuel sub depth t n d r =
      .ok (({ d with msg := d.msg.addUnknown s }, none), r')) ?_ ?_
  · intro n d r hr _ _
    refine ⟨r, ?_⟩
    rw [fieldLoop, Prog.loop_of_done (isDone_of_eq_nil hr)]
    simp [Message.addUnknown]
  · intro k w rec rest hrec hk _ ih n d r hr hn hfuel
    have hop : Uninterpreted cfg (findField cfg t k (some w)) w := by
      rw [findField_of_isEmptyTable ht]
      exact uninterpreted_notFound cfg w
    have hpos : 0 < rec.length := by
      cases hrec with
      | field htag hv =>
        have := htag.varint.length_pos
        rw [List.length_append]
        omega
      | group htag hbody hend =>
        have := htag.varint.length_pos
        rw [List.length_append]
        omega
    have hlen : r.rest.length ≤ fuel := hr ▸ hfuel
    rw [List.length_append] at hn hfuel
    obtain ⟨n, rfl⟩ : ∃ j, n = j + 1 := ⟨n - 1, by omega⟩
    have hne : r.rest ≠ [] := by
      rw [hr]
      intro hnil
      have := congrArg List.length hnil
      simp only [List.length_append, List.length_nil] at this
      omega
    have hstep : decodeField stream cfg fuel sub depth t d r = .ok (.inl _, _) :=
      decodeField_of_record hop hrec hk hr hlen d
    have hrest : (afterUnknown r rec.length).rest = rest := by
      change r.rest.drop _ = _
      rw [hr, List.drop_left]
    obtain ⟨r', hloop⟩ := ih (n := n) (d := { d with msg := d.msg.addUnknown rec }) hrest (by omega)
      (by omega)
    refine ⟨r', ?_⟩
    rw [fieldLoop, Prog.loop_of_not_done (isDone_of_ne_nil hne), Prog.bind_of_ok hstep]
    rw [← Message.addUnknown_addUnknown]
    exact hloop

/-- What the field loop consumes up to the end of the input are records. -/
theorem records_of_fieldLoop (ht : IsEmptyTable (cfg.schema.table t)) {sub : SubDecoder BoundedReader} :
    ∀ {n : ℕ} {d d' : Decoding} {r r' : BoundedReader}, r.rest.length ≤ fuel →
      fieldLoop cfg fuel sub depth t n d r = .ok ((d', none), r') →
      Records 5 (fun _ => True) (· ≠ 0) depth r.rest ∧
        d' = { d with msg := d.msg.addUnknown r.rest } := by
  intro n
  induction n with
  | zero =>
    intro d d' r r' hfuel h
    by_cases hr : r.rest = []
    · rw [fieldLoop, Prog.loop_of_done (isDone_of_eq_nil hr)] at h
      cases h
      rw [hr]
      exact ⟨.nil, by simp [Message.addUnknown]⟩
    · obtain ⟨k, _, _, hk, _⟩ := Prog.loop_eq_ok (isDone_of_ne_nil hr) h
      omega
  | succ n ih =>
    intro d d' r r' hfuel h
    by_cases hr : r.rest = []
    · rw [fieldLoop, Prog.loop_of_done (isDone_of_eq_nil hr)] at h
      cases h
      rw [hr]
      exact ⟨.nil, by simp [Message.addUnknown]⟩
    obtain ⟨k, res, r₁, hk, hstep, hres⟩ := Prog.loop_eq_ok (isDone_of_ne_nil hr) h
    obtain rfl : n = k := by omega
    rcases record_of_decodeField ht hfuel hstep with ⟨number, rfl⟩ | ⟨number, w, rec, hn, hrec, hrest, rfl⟩
    · rcases hres with ⟨_, hres, _⟩ | ⟨hres, _⟩ <;> cases hres
    · rcases hres with ⟨_, hres, hloop⟩ | ⟨hres, _⟩
      · cases hres
        have hfuel₁ : r₁.rest.length ≤ fuel := by
          rw [hrest, List.length_append] at hfuel
          omega
        obtain ⟨hrecords, rfl⟩ := ih hfuel₁ hloop
        refine ⟨?_, ?_⟩
        · rw [hrest]
          exact Records.cons hrec hn hrecords
        · rw [hrest, ← Message.addUnknown_addUnknown]
      · cases hres

/-- With an empty table the checked decoder accepts its records and keeps them. -/
theorem checkedDecode_of_records (ht : IsEmptyTable (cfg.schema.table t)) {inner : ℕ → Prop}
    {maxDepth : ℕ} {s : List UInt8} (h : Records 5 inner (· ≠ 0) (effectiveMaxDepth maxDepth) s)
    (m : Message) : ∃ d, checkedDecode cfg maxDepth t m s = .ok d := by
  have hstart : (BoundedReader.init 0 s).rest = s := rfl
  obtain ⟨r', hloop⟩ : ∃ r', fieldLoop cfg s.length (decodeMessage stream cfg s.length
      (effectiveMaxDepth maxDepth)) (effectiveMaxDepth maxDepth) t s.length ⟨m, false⟩ (.init 0 s) =
        .ok ((⟨m.addUnknown s, false⟩, none), r') :=
    fieldLoop_of_records ht h hstart le_rfl le_rfl
  have hmsg : decodeMessage stream cfg s.length (effectiveMaxDepth maxDepth + 1)
      (effectiveMaxDepth maxDepth) t ⟨m, false⟩ (.init 0 s) =
        .ok ((⟨m.addUnknown s, false⟩, none), r') := by
    rw [decodeMessage, decodeMessageWith]
    refine (Prog.bind_of_ok hloop).trans ?_
    simp [checkRequired, ht.2.2]
  rw [checkedDecode, decode, decodeTop, Prog.bind_of_ok hmsg]
  exact ⟨_, rfl⟩

/-- What the checked decoder accepts with an empty table are records, all kept as unknown fields. -/
theorem records_of_checkedDecode (ht : IsEmptyTable (cfg.schema.table t)) {maxDepth : ℕ}
    {s : List UInt8} {m : Message} {d : Decoded} (h : checkedDecode cfg maxDepth t m s = .ok d) :
    Records 5 (fun _ => True) (· ≠ 0) (effectiveMaxDepth maxDepth) s ∧ d.msg = m.addUnknown s := by
  rw [checkedDecode] at h
  cases hd : decode stream cfg s.length maxDepth t m (.init 0 s) with
  | error e =>
    rw [hd] at h
    cases h
  | ok q =>
    rw [hd] at h
    cases h
    rw [decode, decodeTop, Prog.bind_eq_ok] at hd
    obtain ⟨⟨d, endGroup⟩, r', hmsg, htop⟩ := hd
    cases endGroup with
    | some n => cases htop
    | none =>
      rw [decodeMessage, decodeMessageWith, Prog.bind_eq_ok] at hmsg
      obtain ⟨⟨d₁, endGroup⟩, r₁, hloop, hpure⟩ := hmsg
      cases hpure
      obtain ⟨hrecords, rfl⟩ := records_of_fieldLoop ht (le_refl s.length) hloop
      refine ⟨hrecords, ?_⟩
      dsimp only at htop
      split at htop
      · cases htop
      · split at htop
        · cases htop
        · exact (congrArg Prod.fst (Except.ok.inj htop)).symm

end

/-- With an empty table the decoder accepts every sequence of records whose groups nest within the
depth limit, and it accepts nothing but sequences of records; then the unknown fields are the input.
The varint of a length has at most five bytes. What the decoder does with a field number 0 inside of a
group is left open. -/
theorem upbDecode_records (cfg : DecodeConfig) (t : TableId) (maxDepth : ℕ) (s : List UInt8)
    (ht : IsEmptyTable (cfg.schema.table t)) (hs : s.length ≤ int32Max) :
    (Records 5 (· ≠ 0) (· ≠ 0) (effectiveMaxDepth maxDepth) s →
      ∃ d, upbDecode cfg maxDepth t .new s = .ok d) ∧
    ∀ d, upbDecode cfg maxDepth t .new s = .ok d →
      Records 5 (fun _ => True) (· ≠ 0) (effectiveMaxDepth maxDepth) s ∧ d.msg.unknown = s := by
  refine ⟨fun h => ?_, fun d hd => ?_⟩
  · obtain ⟨d, hd⟩ := checkedDecode_of_records ht h .new
    exact ⟨d, (upbDecode_eq_ok_iff cfg maxDepth t .new hs).mpr hd⟩
  · rw [upbDecode_eq_ok_iff cfg maxDepth t .new hs] at hd
    obtain ⟨hrecords, hmsg⟩ := records_of_checkedDecode ht hd
    exact ⟨hrecords, by rw [hmsg]; rfl⟩

/-- A configuration with the empty table only. -/
def emptyConfig : DecodeConfig where
  schema :=
    { table := fun _ => ⟨[], 0, 8, ⟨false, false, false⟩, 0, 0⟩
      sub := fun _ _ => .null
      ext := fun _ => ⟨⟨1, 0, 0, 0, .int32, ⟨.scalar, false, true, false, .rep4Byte⟩⟩, .null⟩
      extreg := none }
  hash := ⟨fun _ => 0, fun _ => 0⟩
  validUtf8 := fun _ => true
  checkRequired := false
  alwaysValidateUtf8 := false

/-- A group with a delimited record in it. -/
theorem upbDecode_records_group :
    ∃ d, upbDecode emptyConfig 0 0 .new [0x0b, 0x12, 0x01, 0x07, 0x0c] = .ok d := by
  have htag : IsTag 1 .startGroup [0x0b] := ⟨by decide, by decide, by decide⟩
  have hend : IsTag 1 .endGroup [0x0c] := ⟨by decide, by decide, by decide⟩
  have hinner : IsTag 2 .delimited [0x12] := ⟨by decide, by decide, by decide⟩
  have hlen : IsVarint 5 [0x01] := by decide
  have hbody : Records 5 (· ≠ 0) (· ≠ 0) 99 [0x12, 0x01, 0x07] :=
    .field (by decide) hinner (.delimited hlen (by decide) (show [0x07].length = _ from rfl)) .nil
  exact (upbDecode_records emptyConfig 0 0 [0x0b, 0x12, 0x01, 0x07, 0x0c] ⟨rfl, rfl, rfl⟩
    (by decide)).1 (.group (by decide) htag hbody hend .nil)

/-- The length 0 in six bytes is a varint of at most ten bytes, and the decoder rejects it. -/
theorem upbDecode_long_length :
    Records 10 (· ≠ 0) (· ≠ 0) (effectiveMaxDepth 0) [0x0a, 0x80, 0x80, 0x80, 0x80, 0x80, 0x00] ∧
      ¬ ∃ d, upbDecode emptyConfig 0 0 .new [0x0a, 0x80, 0x80, 0x80, 0x80, 0x80, 0x00] = .ok d := by
  constructor
  · have htag : IsTag 1 .delimited [0x0a] := ⟨by decide, by decide, by decide⟩
    have hlen : IsVarint 10 [0x80, 0x80, 0x80, 0x80, 0x80, 0x00] := by decide
    exact .field (by decide) htag (.delimited hlen (by decide) (show [].length = _ from rfl)) .nil
  · rintro ⟨d, hd⟩
    have herror : (upbDecode emptyConfig 0 0 .new
        [0x0a, 0x80, 0x80, 0x80, 0x80, 0x80, 0x00]).isOk = false := by decide +kernel
    rw [hd] at herror
    cases herror

end Upb.Wire
