import Upb.Wire.KeptRecords
import Upb.Wire.Numbers
import Upb.Wire.SubMessageRecords

/-!
# Records of a repeated number

A repeated field of numbers gets its elements from unpacked records, one number each, and from packed
records, any count of them. The loops of the decoder append the numbers that the bytes stand for, in
order; the undeclared values of a closed enum go to the unknown fields.
-/

namespace Upb.Wire

open Upb.Common BoundedReader

section Elements

/-- The elements of a repeated field or extension. -/
def elements (f : MiniTableField) (ext : Option ExtId) (m : Message) : List Slot :=
  match ext with
  | none => (m.data f).toArray
  | some e => ((m.getext e).getD .zero).toArray

/-- A message with more elements of a repeated field or extension. -/
def appendElements (f : MiniTableField) (ext : Option ExtId) (m : Message) (elems : List Slot) : Message :=
  match ext with
  | none => m.setData f (.array (elements f ext m ++ elems))
  | some e => m.setExt e (.array (elements f ext m ++ elems))

theorem elements_appendElements (f : MiniTableField) (ext : Option ExtId) (m : Message)
    (elems : List Slot) : elements f ext (appendElements f ext m elems) = elements f ext m ++ elems := by
  cases ext with
  | none => simp [elements, appendElements, Slot.toArray]
  | some e => simp [elements, appendElements, Message.getext_setExt, Slot.toArray]

@[simp] theorem unknown_appendElements (f : MiniTableField) (ext : Option ExtId) (m : Message)
    (elems : List Slot) : (appendElements f ext m elems).unknown = m.unknown := by
  cases ext <;> rfl

theorem elements_addUnknown (f : MiniTableField) (ext : Option ExtId) (m : Message)
    (data : List UInt8) : elements f ext (m.addUnknown data) = elements f ext m := by
  cases ext <;> rfl

variable {cfg : DecodeConfig} {fuel depth : ℕ} {sub : SubDecoder BoundedReader} {f : LinkedField}
  {op : DecodeOp} {val : ℕ}

/-- A repeated field, or extension, gets the elements and the unknown bytes that an action reads. -/
theorem decodeKnownField_elements (hf : f.field.mode.fieldMode = .array) {ext : Option ExtId}
    {x : Reading BoundedReader (List Slot × List UInt8)}
    (hop : ∀ d, decodeToArray stream cfg fuel sub depth f d op val = x >>= fun q =>
      pure { d with msg := (d.msg.setData f.field
        (.array ((d.msg.data f.field).toArray ++ q.1))).addUnknown q.2 }) (d : Decoding) :
    decodeKnownField stream cfg fuel sub depth f ext d op val = x >>= fun q =>
      pure { d with msg := (appendElements f.field ext d.msg q.1).addUnknown q.2 } := by
  cases ext with
  | none =>
    rw [decodeKnownField, decodeToField, hf]
    exact hop d
  | some e =>
    rw [decodeKnownField, decodeToField, hf]
    simp only [hop, bind_assoc, pure_bind, extMessage, Message.data_setData, appendElements, elements]
    have hdata : ∀ (s : Slot) (data : List UInt8),
        (((Message.new.setData f.field s).addUnknown data).data f.field) = s :=
      fun s _ => Message.data_setData _ _ s
    have hset : ∀ s s' : Slot, (Message.new.setData f.field s).setData f.field s' =
        Message.new.setData f.field s' := by
      intro s s'
      simp [Message.setData]
    simp only [hset, hdata]
    rfl

end Elements

section Loops

variable {type : FieldType} {vs : List ℕ} {p : List UInt8} {r : BoundedReader}

/-- A loop that reads varints up to the limit goes through the numbers that they stand for. -/
theorem varintLoop_eq {β : Type} {read spec : β → ℕ → β} (hw : numberWireType type = .varint)
    (hread : ∀ b u, u < 2 ^ 64 → read b u = spec b (ofVarint type u)) (hp : IsNumbers type vs p) :
    ∀ (n : ℕ) (b : β) (r : BoundedReader), p.length ≤ n → r.rest = p →
      ∃ r', Prog.loop stream.isDone .outOfFuel (fun b => do
          let val ← readVarint stream
          pure (.inl (read b val))) pure n b r = .ok (vs.foldl spec b, r') ∧ r'.rest = [] := by
  induction hp with
  | nil =>
    intro n b r _ hr
    refine ⟨r, ?_, hr⟩
    rw [Prog.loop_of_done (isDone_of_eq_nil hr)]
    rfl
  | @cons v vs p rest h _ ih =>
    intro n b r hn hr
    cases h with
    | bit32 hw' => rw [hw] at hw'; cases hw'
    | bit64 hw' => rw [hw] at hw'; cases hw'
    | varint _ hp hv =>
      have hpos := hp.length_pos
      rw [List.length_append] at hn
      obtain ⟨n, rfl⟩ : ∃ k, n = k + 1 := ⟨n - 1, by omega⟩
      have hne : r.rest ≠ [] := by
        rw [hr]
        simp [hp.ne_nil]
      have hval := readVarint_eq_ok.mpr ⟨p, hp, rfl, reads_advance hr⟩
      obtain ⟨r', hloop, hnil⟩ := ih n (spec b v) (r.advance p.length) (by omega) (rest_advance hr)
      refine ⟨r', ?_, hnil⟩
      rw [Prog.loop_of_not_done (isDone_of_ne_nil hne), bind_assoc, Prog.bind_of_ok hval, pure_bind,
        List.foldl_cons]
      simp only
      rw [hread b _ (Nat.mod_lt _ (by decide)), ← hv]
      exact hloop

/-- The values of a packed record of varints. -/
theorem decodeVarintPacked_eq {lg2 fuel : ℕ} {w : List UInt8} (hlg2 : getVarintOp type = .scalar lg2)
    (hw : numberWireType type = .varint) (hp : IsNumbers type vs p) (hfuel : p.length ≤ fuel)
    (hr : r.rest = p ++ w) :
    ∃ r', decodeVarintPacked stream fuel type lg2 p.length r = .ok (vs.map .bits, r') ∧ r'.rest = w := by
  let spec : List Slot → ℕ → List Slot := fun elems v => elems ++ [.bits v]
  have hread : ∀ (elems : List Slot) (u : ℕ), u < 2 ^ 64 →
      elems ++ [storeBits lg2 (munge type u)] = spec elems (ofVarint type u) := by
    intro elems u hu
    rw [storeBits_munge hlg2 hu]
  have hfold : ∀ (vs : List ℕ) (elems : List Slot), vs.foldl spec elems = elems ++ vs.map .bits := by
    intro vs
    induction vs with
    | nil => simp
    | cons v vs ih => simp [spec, ih]
  obtain ⟨r', hloop, hnil⟩ := varintLoop_eq hw hread hp fuel [] { r with rest := p } hfuel rfl
  refine ⟨{ r' with rest := r'.rest ++ w }, ?_, by rw [hnil]; rfl⟩
  rw [decodeVarintPacked, withLimit_eq hr, hloop, hfold]
  rfl

/-- The numbers of fixed size in the bytes of a packed record. -/
theorem fixedElems_eq {lg2 : ℕ} (hp : IsNumbers type vs p)
    (hsize : ∀ v q, IsNumber type v q → q.length = 2 ^ lg2 ∧ v = littleEndian q) :
    p.length = vs.length * 2 ^ lg2 ∧ fixedElems lg2 vs.length p = vs.map .bits := by
  induction hp with
  | nil => exact ⟨(Nat.zero_mul _).symm, rfl⟩
  | @cons v vs q rest h _ ih =>
    obtain ⟨hlen, rfl⟩ := hsize v q h
    refine ⟨?_, ?_⟩
    · rw [List.length_append, List.length_cons, hlen, ih.1]
      ring
    · rw [List.length_cons, fixedElems, List.map_cons, ← hlen, List.take_left, List.drop_left, ih.2]

/-- The values of a packed record of numbers of fixed size. -/
theorem decodeFixedPacked_eq {lg2 : ℕ} {w : List UInt8} (hp : IsNumbers type vs p)
    (hsize : ∀ v q, IsNumber type v q → q.length = 2 ^ lg2 ∧ v = littleEndian q)
    (hr : r.rest = p ++ w) :
    ∃ r', decodeFixedPacked stream lg2 p.length r = .ok (vs.map .bits, r') ∧ r'.rest = w := by
  obtain ⟨hlen, helems⟩ := fixedElems_eq hp hsize
  have htake : stream.readStringEphemeral p.length r = .ok (p, r.advance p.length) :=
    take_eq_ok.mpr ⟨rfl, reads_advance hr⟩
  refine ⟨r.advance p.length, ?_, rest_advance hr⟩
  rw [decodeFixedPacked, Prog.bind_of_ok htake, if_neg (by rw [hlen]; simp),
    hlen, Nat.mul_div_cancel _ (Nat.two_pow_pos lg2), helems]
  rfl

/-- The values of a packed record of a closed enum. -/
theorem decodeEnumPacked_eq {f : LinkedField} {fuel : ℕ} {w : List UInt8} (hp : IsNumbers .enum vs p)
    (hfuel : p.length ≤ fuel) (hr : r.rest = p ++ w) :
    ∃ r', decodeEnumPacked stream fuel f p.length r =
      .ok (((vs.filter f.sub.checkEnum).map .bits,
        (vs.filter (!f.sub.checkEnum ·)).flatMap (enumValueUnknown f.field.number)), r') ∧ r'.rest = w := by
  let spec : List Slot × List UInt8 → ℕ → List Slot × List UInt8 := fun q v =>
    if f.sub.checkEnum v then (q.1 ++ [.bits v], q.2)
    else (q.1, q.2 ++ enumValueUnknown f.field.number v)
  have hread : ∀ (q : List Slot × List UInt8) (u : ℕ), u < 2 ^ 64 →
      (if f.sub.checkEnum (u % 2 ^ 32) then (q.1 ++ [storeBits 2 u], q.2)
        else (q.1, q.2 ++ enumValueUnknown f.field.number u)) = spec q (ofVarint .enum u) := by
    intro q u _
    simp only [spec, ofVarint, enumValueUnknown, Nat.mod_mod, storeBits]
    rfl
  have hfold : ∀ (vs : List ℕ) (q : List Slot × List UInt8), vs.foldl spec q =
      (q.1 ++ (vs.filter f.sub.checkEnum).map .bits,
        q.2 ++ (vs.filter (!f.sub.checkEnum ·)).flatMap (enumValueUnknown f.field.number)) := by
    intro vs
    induction vs with
    | nil => simp
    | cons v vs ih =>
      intro q
      rw [List.foldl_cons, ih]
      by_cases hv : f.sub.checkEnum v
      · simp [spec, hv]
      · simp [spec, hv]
  obtain ⟨r', hloop, hnil⟩ := varintLoop_eq rfl hread hp fuel ([], []) { r with rest := p } hfuel rfl
  refine ⟨{ r' with rest := r'.rest ++ w }, ?_, by rw [hnil]; rfl⟩
  rw [hfold] at hloop
  rw [decodeEnumPacked, withLimit_eq hr, hloop]
  rfl

end Loops

section Records

/-- A repeated field of numbers, or such an extension, as the lookup finds it whatever the wire type;
no other field of the table has its place. -/
structure IsPackable (cfg : DecodeConfig) (t : TableId) (n : ℕ) (f : LinkedField) (ext : Option ExtId) :
    Prop where
  found : ∀ w, findField cfg t n (some w) = .field f ext
  array : f.field.mode.fieldMode = .array
  packable : f.field.descriptortype.isPackable = true
  positive : n ≠ 0
  numbered : IsNumbered cfg t
  alone : ext = none → ∀ k w g, k ≠ n → findField cfg t k w = .field g none →
    g.field.offset ≠ f.field.offset

/-- A value that the field takes: for a closed enum, a declared one. -/
def declared (f : LinkedField) (v : ℕ) : Bool := !f.field.isClosedEnum || f.sub.checkEnum v

/-- What the unpacked record of a value leaves. -/
def putUnpacked (f : LinkedField) (ext : Option ExtId) (d : Decoding) (v : ℕ) (rec : List UInt8) :
    Decoding :=
  { d with
    msg := if declared f v then appendElements f.field ext d.msg [.bits v] else d.msg.addUnknown rec }

/-- What a packed record of values leaves. -/
def putPacked (f : LinkedField) (ext : Option ExtId) (d : Decoding) (vs : List ℕ) : Decoding :=
  let elems := (vs.filter (declared f)).map .bits
  let unknown := (vs.filter (!declared f ·)).flatMap (enumValueUnknown f.field.number)
  { d with msg := (appendElements f.field ext d.msg elems).addUnknown unknown }

variable {cfg : DecodeConfig} {t : TableId} {n fuel depth : ℕ} {f : LinkedField} {ext : Option ExtId}
  {sub : SubDecoder BoundedReader} {r : BoundedReader} {v : ℕ} {vs : List ℕ} {p tag rec w : List UInt8}

theorem decodeKnownField_scalar (hf : IsPackable cfg t n f ext) (d : Decoding) (lg2 val : ℕ) :
    decodeKnownField stream cfg fuel sub depth f ext d (.scalar lg2) val r =
      .ok ({ d with msg := appendElements f.field ext d.msg [storeBits lg2 val] }, r) := by
  have hop : ∀ d, decodeToArray stream cfg fuel sub depth f d (.scalar lg2) val =
      (pure ([storeBits lg2 val], []) : Reading BoundedReader (List Slot × List UInt8)) >>= fun q =>
        pure { d with msg := (d.msg.setData f.field
          (.array ((d.msg.data f.field).toArray ++ q.1))).addUnknown q.2 } := by
    intro d
    rw [pure_bind, Message.addUnknown_nil]
    rfl
  rw [decodeKnownField_elements hf.array hop, pure_bind, Message.addUnknown_nil]
  rfl

/-- A varint of a number type is stored in so many bytes. -/
theorem exists_getVarintOp {type : FieldType} (hpack : type.isPackable = true)
    (hw : numberWireType type = .varint) : ∃ lg2, getVarintOp type = .scalar lg2 := by
  cases type <;> first | exact ⟨_, rfl⟩ | exact absurd hpack (by decide) | exact absurd hw (by decide)

/-- A varint record that is not interpreted is kept as it stands. -/
theorem decodeUnknownField_varint {r₁ : BoundedReader} (hn : n ≠ 0) (d : Decoding) (val : ℕ)
    (hreads : Reads { r with start := (r.pos, r.rest) } rec r₁) :
    decodeUnknownField stream fuel depth d n (some .varint) val r₁ =
      .ok ({ d with msg := d.msg.addUnknown rec }, afterUnknown r rec.length) := by
  have hstart : stream.startCapture r₁ = .ok ((), { r₁ with captureStart := (r.pos, r.rest) }) := by
    change Except.ok ((), { r₁ with captureStart := r₁.start }) = _
    rw [hreads.2]
    rfl
  have hskip : skipUnknown stream fuel depth n (some .varint) val
      { r₁ with captureStart := (r.pos, r.rest) } =
        .ok ((), { r₁ with captureStart := (r.pos, r.rest) }) := rfl
  rw [decodeUnknownField, if_neg hn, Prog.bind_of_ok hstart, Prog.bind_of_ok hskip,
    Prog.bind_of_ok (endCapture_record (hreads.capture (r.pos, r.rest)))]
  rfl

/-- An unpacked record appends its value; an undeclared one is kept as it stands. -/
theorem decodeField_unpacked (hf : IsPackable cfg t n f ext) (d : Decoding)
    (htag : IsTag n (numberWireType f.field.descriptortype) tag)
    (hp : IsNumber f.field.descriptortype v p) (hr : r.rest = tag ++ p ++ w) :
    ∃ r', decodeField stream cfg fuel sub depth t d r =
      .ok (.inl (putUnpacked f ext d v (tag ++ p)), r') ∧ r'.rest = w := by
  rw [List.append_assoc] at hr
  generalize hr₁ : advance { r with start := (r.pos, r.rest) } tag.length = r₁
  have hmarked : Reads { r with start := (r.pos, r.rest) } tag r₁ := by
    rw [← hr₁]
    exact reads_advance hr
  have hrest₁ : r₁.rest = p ++ w := by
    rw [← hr₁]
    exact rest_advance hr
  have hreads : Reads r₁ p (r₁.advance p.length) := reads_advance hrest₁
  have hrest₂ : (r₁.advance p.length).rest = w := rest_advance hrest₁
  have hend : numberWireType f.field.descriptortype ≠ .endGroup := by
    cases f.field.descriptortype <;> decide
  suffices hdata : ∃ r₂, decodeFieldData stream cfg fuel sub depth t d n
      (some (numberWireType f.field.descriptortype)) r₁ = .ok (putUnpacked f ext d v (tag ++ p), r₂) ∧
        r₂.rest = w by
    obtain ⟨r₂, hdata, hw⟩ := hdata
    refine ⟨r₂, ?_, hw⟩
    rw [decodeField_of_tag htag hend hr, hr₁, Prog.bind_of_ok hdata]
    rfl
  -- a value that the field takes, of any of the three wire types
  have hstore : ∀ {lg2 val : ℕ}, declared f v = true → storeBits lg2 val = .bits v →
      decodeWireValue stream cfg (.field f ext) (some (numberWireType f.field.descriptortype)) r₁ =
        .ok ((.scalar lg2, val), r₁.advance p.length) →
      ∃ r₂, decodeFieldData stream cfg fuel sub depth t d n
        (some (numberWireType f.field.descriptortype)) r₁ =
          .ok (putUnpacked f ext d v (tag ++ p), r₂) ∧ r₂.rest = w := by
    intro lg2 val hdecl hval hwire
    refine ⟨r₁.advance p.length, ?_, hrest₂⟩
    rw [decodeFieldData, hf.found, Prog.bind_of_ok hwire]
    change decodeKnownField stream cfg fuel sub depth f ext d (.scalar lg2) val _ = _
    rw [decodeKnownField_scalar hf, hval, putUnpacked, if_pos hdecl]
  have hopen : f.field.descriptortype ≠ .enum → declared f v = true := by
    intro hne
    rw [declared, MiniTableField.isClosedEnum, beq_false_of_ne hne]
    rfl
  cases hp with
  | varint hw hp hv =>
    have hread := readVarint_eq_ok.mpr ⟨p, hp, rfl, hreads⟩
    generalize hu : leb p % 2 ^ 64 = u at hv hread
    have hlt : u < 2 ^ 64 := by
      rw [← hu]
      exact Nat.mod_lt _ (by decide)
    by_cases henum : f.field.descriptortype = .enum
    · rw [henum] at hv
      have hclosed : f.field.isClosedEnum = true := by rw [MiniTableField.isClosedEnum, henum]; rfl
      have hdecl : declared f v = f.sub.checkEnum v := by rw [declared, hclosed]; rfl
      have hval : storeBits 2 u = .bits v := congrArg Slot.bits hv.symm
      have hv : v = u % 2 ^ 32 := hv
      cases hcheck : f.sub.checkEnum v with
      | true =>
        refine hstore (hdecl.trans hcheck) hval ?_
        rw [hw, decodeWireValue, Prog.bind_of_ok hread]
        dsimp only
        rw [if_pos hclosed, ← hv, if_pos hcheck, henum]
        rfl
      | false =>
        have hwire : decodeWireValue stream cfg (.field f ext) (some .varint) r₁ =
            .ok ((.unknownField, u), r₁.advance p.length) := by
          rw [decodeWireValue, Prog.bind_of_ok hread]
          dsimp only
          rw [if_pos hclosed, ← hv, if_neg (by rw [hcheck]; decide)]
          rfl
        refine ⟨afterUnknown r (tag ++ p).length, ?_, ?_⟩
        · rw [hw, decodeFieldData, hf.found, Prog.bind_of_ok hwire]
          change decodeUnknownField stream fuel depth d n (some .varint) u _ = _
          rw [putUnpacked, if_neg (by rw [hdecl, hcheck]; decide)]
          exact decodeUnknownField_varint hf.positive d u (hmarked.trans hreads)
        · change r.rest.drop _ = w
          rw [hr, ← List.append_assoc, List.drop_left]
    · obtain ⟨lg2, hlg2⟩ := exists_getVarintOp hf.packable hw
      refine hstore (hopen henum) ((storeBits_munge hlg2 hlt).trans (congrArg Slot.bits hv.symm)) ?_
      rw [hw, decodeWireValue, Prog.bind_of_ok hread]
      have hclosed : f.field.isClosedEnum = false := beq_false_of_ne henum
      simp only [hclosed, hlg2]
      rfl
  | bit32 hw hp hv =>
    have hread := readFixed_eq_ok.mpr ⟨p, hp, rfl, hreads⟩
    have hlt := littleEndian_lt p
    rw [hp, ← hv] at hlt
    have hval : storeBits 2 v = .bits v := congrArg Slot.bits (Nat.mod_eq_of_lt hlt)
    refine hstore (hopen fun h => by rw [h] at hw; cases hw) hval ?_
    rw [hw, decodeWireValue, Prog.bind_of_ok hread, ← hv]
    dsimp only
    generalize f.field.descriptortype = type at hw
    cases type <;> first | rfl | exact absurd hw (by decide)
  | bit64 hw hp hv =>
    have hread := readFixed_eq_ok.mpr ⟨p, hp, rfl, hreads⟩
    have hlt := littleEndian_lt p
    rw [hp, ← hv] at hlt
    have hval : storeBits 3 v = .bits v := congrArg Slot.bits (Nat.mod_eq_of_lt hlt)
    refine hstore (hopen fun h => by rw [h] at hw; cases hw) hval ?_
    rw [hw, decodeWireValue, Prog.bind_of_ok hread, ← hv]
    dsimp only
    generalize f.field.descriptortype = type at hw
    cases type <;> first | rfl | exact absurd hw (by decide)

/-- What reads the packed records of a number type. -/
inductive PackedOp (type : FieldType) : DecodeOp → Prop
  | fixed {lg2 : ℕ} (hsize : ∀ v q, IsNumber type v q → q.length = 2 ^ lg2 ∧ v = littleEndian q)
      (hne : type ≠ .enum) : PackedOp type (.fixedPacked lg2)
  | varint {lg2 : ℕ} (hlg2 : getVarintOp type = .scalar lg2) (hw : numberWireType type = .varint)
      (hne : type ≠ .enum) : PackedOp type (.varintPacked lg2)
  | enum (htype : type = .enum) : PackedOp type .packedEnum

theorem isNumber_bit32 {type : FieldType} (hw : numberWireType type = .bit32) (v : ℕ) (q : List UInt8)
    (h : IsNumber type v q) : q.length = 2 ^ 2 ∧ v = littleEndian q := by
  cases h with
  | varint hw' => rw [hw] at hw'; cases hw'
  | bit32 _ hq hv => exact ⟨hq, hv⟩
  | bit64 hw' => rw [hw] at hw'; cases hw'

theorem isNumber_bit64 {type : FieldType} (hw : numberWireType type = .bit64) (v : ℕ) (q : List UInt8)
    (h : IsNumber type v q) : q.length = 2 ^ 3 ∧ v = littleEndian q := by
  cases h with
  | varint hw' => rw [hw] at hw'; cases hw'
  | bit32 hw' => rw [hw] at hw'; cases hw'
  | bit64 _ hq hv => exact ⟨hq, hv⟩

theorem packedOp_of_isPackable {type : FieldType} (h : type.isPackable = true) :
    PackedOp type (repeatedDelimitedOp type) := by
  cases type
  case double => exact .fixed (isNumber_bit64 rfl) (by decide)
  case fixed64 => exact .fixed (isNumber_bit64 rfl) (by decide)
  case sfixed64 => exact .fixed (isNumber_bit64 rfl) (by decide)
  case float => exact .fixed (isNumber_bit32 rfl) (by decide)
  case fixed32 => exact .fixed (isNumber_bit32 rfl) (by decide)
  case sfixed32 => exact .fixed (isNumber_bit32 rfl) (by decide)
  case enum => exact .enum rfl
  case string => exact absurd h (by decide)
  case group => exact absurd h (by decide)
  case message => exact absurd h (by decide)
  case bytes => exact absurd h (by decide)
  all_goals exact .varint rfl rfl (by decide)

/-- The elements that a packed record leaves, by the loop that reads it. -/
theorem decodeKnownField_packed (hf : IsPackable cfg t n f ext) (d : Decoding) {op : DecodeOp}
    (hop : PackedOp f.field.descriptortype op) (hp : IsNumbers f.field.descriptortype vs p)
    (hfuel : p.length ≤ fuel) (hr : r.rest = p ++ w) :
    ∃ r', decodeKnownField stream cfg fuel sub depth f ext d op p.length r =
      .ok (putPacked f ext d vs, r') ∧ r'.rest = w := by
  have hopen : f.field.descriptortype ≠ .enum → vs.filter (declared f) = vs ∧
      vs.filter (!declared f ·) = [] := by
    intro hne
    have hdecl : ∀ v, declared f v = true := by
      intro v
      rw [declared, MiniTableField.isClosedEnum, beq_false_of_ne hne]
      rfl
    exact ⟨List.filter_eq_self.mpr fun v _ => hdecl v, by simp [hdecl]⟩
  cases hop with
  | @fixed lg2 hsize hne =>
    obtain ⟨r', hread, hw⟩ := decodeFixedPacked_eq hp hsize hr
    have harray : ∀ d, decodeToArray stream cfg fuel sub depth f d (.fixedPacked lg2) p.length =
        (decodeFixedPacked stream lg2 p.length >>= fun elems => pure (elems, [])) >>= fun q =>
          pure { d with msg := (d.msg.setData f.field
            (.array ((d.msg.data f.field).toArray ++ q.1))).addUnknown q.2 } := by
      intro d
      simp only [bind_assoc, pure_bind, Message.addUnknown_nil]
      rfl
    refine ⟨r', ?_, hw⟩
    rw [decodeKnownField_elements hf.array harray, bind_assoc, Prog.bind_of_ok hread, pure_bind, putPacked,
      (hopen hne).1, (hopen hne).2]
    rfl
  | @varint lg2 hlg2 hw hne =>
    obtain ⟨r', hread, hw⟩ := decodeVarintPacked_eq hlg2 hw hp hfuel hr
    have harray : ∀ d, decodeToArray stream cfg fuel sub depth f d (.varintPacked lg2) p.length =
        (decodeVarintPacked stream fuel f.field.descriptortype lg2 p.length >>= fun elems =>
          pure (elems, [])) >>= fun q => pure { d with msg := (d.msg.setData f.field
            (.array ((d.msg.data f.field).toArray ++ q.1))).addUnknown q.2 } := by
      intro d
      simp only [bind_assoc, pure_bind, Message.addUnknown_nil]
      rfl
    refine ⟨r', ?_, hw⟩
    rw [decodeKnownField_elements hf.array harray, bind_assoc, Prog.bind_of_ok hread, pure_bind, putPacked,
      (hopen hne).1, (hopen hne).2]
    rfl
  | enum htype =>
    rw [htype] at hp
    obtain ⟨r', hread, hw⟩ := decodeEnumPacked_eq (f := f) hp hfuel hr
    have hdecl : declared f = f.sub.checkEnum := by
      funext v
      rw [declared, MiniTableField.isClosedEnum, htype]
      rfl
    refine ⟨r', ?_, hw⟩
    rw [decodeKnownField_elements hf.array (fun _ => rfl), Prog.bind_of_ok hread, putPacked, hdecl]
    rfl

/-- A packed record appends its values in order; undeclared ones are kept, one record each. -/
theorem decodeField_packed (hf : IsPackable cfg t n f ext) (d : Decoding)
    (hp : IsNumbers f.field.descriptortype vs p) (hrec : IsDelimited n p rec)
    (hlen : p.length ≤ int32Max) (hfuel : p.length ≤ fuel) (hr : r.rest = rec ++ w) :
    ∃ r', decodeField stream cfg fuel sub depth t d r = .ok (.inl (putPacked f ext d vs), r') ∧
      r'.rest = w := by
  cases hrec with
  | @mk tag size htag hsize hleb =>
    rw [List.append_assoc, List.append_assoc] at hr
    have hdelim : getDelimitedOp cfg (.field f ext) = repeatedDelimitedOp f.field.descriptortype := by
      have harray : f.field.isArray = true := by rw [MiniTableField.isArray, hf.array]; rfl
      have hpack := hf.packable
      simp only [getDelimitedOp, harray, if_true]
      cases htype : f.field.descriptortype <;> rw [htype] at hpack <;>
        first | rfl | exact absurd hpack (by decide)
    rw [decodeField_of_tag htag (by decide) hr]
    generalize hr₁ : advance { r with start := (r.pos, r.rest) } tag.length = r₁
    have hrest₁ : r₁.rest = size ++ (p ++ w) := by
      rw [← hr₁]
      exact rest_advance hr
    have hread : readSize stream r₁ = .ok (p.length, r₁.advance size.length) := by
      rw [← hleb]
      exact readSize_eq_ok.mpr ⟨size, hsize, by omega, rfl, reads_advance hrest₁⟩
    have hwire : decodeWireValue stream cfg (.field f ext) (some .delimited) r₁ =
        .ok ((repeatedDelimitedOp f.field.descriptortype, p.length), r₁.advance size.length) := by
      rw [decodeWireValue, Prog.bind_of_ok hread, hdelim]
      rfl
    have hop := packedOp_of_isPackable hf.packable
    generalize repeatedDelimitedOp f.field.descriptortype = op at hop hwire
    have hknown : ∃ r', decodeKnownField stream cfg fuel sub depth f ext d op p.length
        (r₁.advance size.length) = .ok (putPacked f ext d vs, r') ∧ r'.rest = w :=
      decodeKnownField_packed hf d hop hp hfuel (rest_advance hrest₁)
    obtain ⟨r', hknown, hw⟩ := hknown
    refine ⟨r', ?_, hw⟩
    have hdata : decodeFieldData stream cfg fuel sub depth t d n (some .delimited) r₁ =
        .ok (putPacked f ext d vs, r') := by
      rw [decodeFieldData, hf.found, Prog.bind_of_ok hwire, ← hknown]
      cases hop <;> rfl
    rw [Prog.bind_of_ok hdata]
    rfl

end Records

end Upb.Wire
