import Mathlib.Tactic.IntervalCases
import Upb.Wire.RestoredExtensions

/-!
# Decoding what was encoded

The decoder restores from the output of the encoder a message that agrees with the one that was
encoded. The proof is by induction on what makes the message restorable: values, then fields, then
messages, each with the depth that the decoder has left.
-/

namespace Upb.Wire

open Upb.Common BoundedReader
open Upb.Compare (Place IsBaseField IsNumberType)

variable {cfg : DecodeConfig} {opts : EncodeOptions} {depth fuel : ℕ} {t : TableId} {m : Message}
  {s : Slot} {bytes : List UInt8}

/-- A message that is not extendable has no extensions that the decoder finds. -/
theorem exts_eq_nil (hmode : (cfg.schema.table t).ext = ⟨false, false, false⟩)
    (found : ∀ p ∈ m.exts, Finds cfg t (cfg.schema.ext p.1) (some p.1)) : m.exts = [] := by
  apply List.eq_nil_iff_forall_not_mem.mpr
  intro p hp
  have hfound := (found p hp).found .varint
  rw [findField] at hfound
  split at hfound
  · cases hfound
  · split at hfound
    · rw [findExtensionField, hmode, if_neg (by decide), if_neg fun h => absurd h.1 (by decide)] at hfound
      cases hfound
    · cases hfound

/-- Messages are restored when their fields, their extensions and their unknown bytes are. -/
theorem messageRestores (hl : IsLayout (cfg.schema.table t)) (hskip : opts.skipUnknown = false)
    (hs : s.toMessage = some m) (unknown : KeepsUnknown cfg depth t m.unknown)
    (nodup : (m.exts.map Prod.fst).Nodup)
    (notMap : ∀ p ∈ m.exts, (cfg.schema.ext p.1).field.mode.fieldMode ≠ .map)
    (found : (cfg.schema.table t).ext = ⟨false, false, false⟩ → m.exts = [])
    (fields : ∀ f, IsWritten cfg t m f → FieldRestores cfg opts depth f (m.data f.field))
    (exts : ∀ p ∈ m.exts, ExtRestores cfg opts depth t (isMessageSet cfg.schema t) p) :
    MessageRestores cfg opts depth t s := by
  intro m' fuel level bytes hs' henc hlen
  have hm : m = m' := Option.some.inj (hs.symm.trans hs')
  subst hm
  cases fuel with
  | zero => cases henc
  | succ fuel =>
    rw [encodeMessage, encodeMessageWith] at henc
    dsimp only at henc
    split at henc
    · cases henc
    · rw [hskip, if_neg Bool.false_ne_true] at henc
      obtain ⟨extBytes, hexts, henc⟩ := bind_eq_ok.mp henc
      obtain ⟨fieldBytes, hfields, henc⟩ := bind_eq_ok.mp henc
      cases henc
      simp only [List.length_append] at hlen
      obtain ⟨m₁, hm₁, hdecFields⟩ := fieldsRestored_linkedFields hl fields hfields (by omega)
      obtain ⟨l, hl', hlNodup, hlMem, hlAll⟩ := encodeExts_eq_ok nodup found hexts
      have hfresh : (([] ++ l).map Prod.fst).Nodup := hlNodup
      obtain ⟨m₂, hm₂, hdecExts⟩ := extsRestored_of_encode (fun p hp => exts p (hlMem p hp)) hfresh hl'
        (by omega) (extsRestored_nil hm₁.exts)
      rw [List.nil_append] at hm₂
      have hagrees := hm₂.agrees nodup notMap hlMem hlAll
      obtain ⟨extList, hbase⟩ := hm₂.base
      have hunknown : m₂.unknown = [] := by
        rw [hbase]
        exact hm₁.unknown
      refine ⟨m₂.addUnknown m.unknown, .message hs rfl ?_ (fun i f hf => ?_) (fun i f hf hset => ?_)
        (fun e => ?_) fun e v1 v2 h1 h2 => ?_, (hdecFields.append hdecExts).append (unknown m₂)⟩
      · rw [Message.addUnknown, hunknown, List.nil_append]
      · have hsame := (hm₁.agrees hl hf).1
        rw [← hsame, hbase]
        exact Iff.rfl
      · have hfield := (hm₁.agrees hl hf).2 hset
        rw [hbase]
        exact hfield
      · rcases hagrees e with ⟨h1, h2⟩ | ⟨v, v', h1, h2, -⟩
        · exact ⟨fun _ => h2, fun _ => h1⟩
        · rw [h1]
          exact iff_of_false (Option.some_ne_none _) fun h => absurd (h2.symm.trans h) (Option.some_ne_none _)
      · rcases hagrees e with ⟨h, -⟩ | ⟨v, v', h, h', hval⟩
        · exact absurd (h1.symm.trans h) (Option.some_ne_none _)
        · obtain rfl := Option.some.inj (h.symm.trans h1)
          obtain rfl := Option.some.inj (h'.symm.trans h2)
          exact hval

/-- What a place holds is restored from what the encoder writes for it. -/
def Restores (cfg : DecodeConfig) (opts : EncodeOptions) (depth : ℕ) : Place → Slot → Prop
  | .message t => MessageRestores cfg opts depth t
  | .field f => FieldRestores cfg opts depth f
  | .value f => ValueRestores cfg opts depth f

/-- Restorable contents are restored. -/
theorem Restorable.restores (hl : ∀ t, IsLayout (cfg.schema.table t)) (hreq : cfg.checkRequired = false)
    (hskip : opts.skipUnknown = false) {place : Place} (h : Restorable cfg depth place s) :
    Restores cfg opts depth place s := by
  induction h with
  | @message depth t s m hs unknown nodup fields found notMap _ items _ ihf ihe ihp =>
    refine messageRestores (hl t) hskip hs unknown nodup notMap (fun hmode => ?_) (fun f hf => ?_)
      fun p hp => ?_
    · refine exts_eq_nil hmode (found ?_)
      rw [isMessageSet, hmode]
      rfl
    · obtain ⟨⟨i, hi⟩, hset⟩ := hf
      exact ihf i f hi hset
    · cases hkind : isMessageSet cfg.schema t with
      | false => exact extRestores_field (found hkind p hp) (notMap p hp) (ihe hkind p hp)
      | true =>
        obtain ⟨hdepth, u, htype⟩ := items hkind p hp
        exact extRestores_item hreq hdepth htype (ihp hkind p hp u htype.linked)
  | number type kind range decl => exact valueRestores_number type kind range decl
  | string type _ valid => exact valueRestores_string type valid
  | submessage type table _ ih => exact valueRestores_submessage hreq type table ih
  | scalar mode val ih => exact fieldRestores_scalar mode val ih
  | array mode presence _ elems ih => exact fieldRestores_array mode presence elems ih
  | @map depth f key value entry s table values mode presence type hentry hkey hvalue keyScalar valScalar
      apart hs inv deep keyKind keyType keys vals ihk ihv =>
    have hfield : IsMapField cfg f key value entry :=
      ⟨mode, presence, type, hentry, ⟨hkey, hvalue, finds_of_isLayout (hl entry) hkey,
        finds_of_isLayout (hl entry) hvalue, keyScalar, valScalar, apart⟩, keyType⟩
    exact fieldRestores_map hreq hfield hs inv deep fun k v hkv =>
      ⟨keyKind k v hkv, keys k v hkv, vals k v hkv, ihk k v hkv, ihv k v hkv⟩

/-- `upb_Decode` restores from the output of `upb_Encode` a message that agrees with the encoded one, on
every level: in presence, values, elements, map entries, extensions and unknown fields. -/
theorem upbDecode_encode {maxDepth : ℕ} (hl : ∀ t, IsLayout (cfg.schema.table t))
    (hreq : cfg.checkRequired = false) (hskip : opts.skipUnknown = false)
    (h : Restorable cfg (effectiveMaxDepth maxDepth) (.message t) (.ofMessage m))
    (henc : encode cfg.schema cfg.hash opts fuel t m = .ok bytes) (hlen : bytes.length ≤ int32Max) :
    ∃ m', (upbDecode cfg maxDepth t .new bytes).map Decoded.msg = .ok m' ∧
      Agrees cfg.schema cfg.hash (.message t) (.ofMessage m) (.ofMessage m') := by
  obtain ⟨m', hagrees, hdecodes⟩ := h.restores hl hreq hskip m fuel _ bytes (Slot.toMessage_ofMessage m)
    henc hlen
  exact ⟨m', hdecodes.upbDecode_eq hreq hlen, hagrees⟩

section Mixed

/-- A field of the tables below; the repeated ones are packed. -/
def mixedField (number offset : ℕ) (presence : ℤ) (type : FieldType) (mode : FieldMode) (rep : FieldRep) :
    MiniTableField where
  number := number
  offset := offset
  presence := presence
  submsgOfs := noSub
  descriptortype := type
  mode := { fieldMode := mode, isPacked := mode == .array, isExtension := false, isAlternate := false
            rep := rep }

/-- An extendable message with a number, packed numbers, a sub-message of its own type, a oneof, a map
and an extension. -/
def mixedSchema : Schema where
  table
    | 0 => { fields := [mixedField 1 12 64 .int32 .scalar .rep4Byte, mixedField 2 16 0 .sint32 .array .rep8Byte,
                        mixedField 3 24 65 .message .scalar .rep8Byte,
                        mixedField 4 32 (-49) .string .scalar .repStringView,
                        mixedField 5 32 (-49) .uint64 .scalar .rep8Byte,
                        mixedField 6 56 0 .message .map .rep8Byte]
             fieldCount := 6, size := 64, ext := ⟨true, false, false⟩, denseBelow := 6, requiredCount := 0 }
    | _ => { fields := [mixedField 1 16 0 .int32 .scalar .rep4Byte,
                        mixedField 2 32 0 .string .scalar .repStringView]
             fieldCount := 2, size := 48, ext := ⟨false, false, false⟩, denseBelow := 2, requiredCount := 0 }
  sub
    | 0, 2 => .submsg 0
    | 0, 5 => .submsg 1
    | _, _ => .null
  ext _ :=
    { field := { number := 100, offset := 0, presence := 0, submsgOfs := noSub, descriptortype := .bool
                 mode := { fieldMode := .scalar, isPacked := false, isExtension := true, isAlternate := false
                           rep := .rep1Byte } }
      sub := .null }
  extreg := some fun t n => if t = 0 ∧ n = 100 then some 0 else none

/-- A decoder that knows the extension. -/
def mixedConfig : DecodeConfig where
  schema := mixedSchema
  hash := ⟨List.length, id⟩
  validUtf8 data := data.all (· < 128)
  checkRequired := false
  alwaysValidateUtf8 := false

/-- The map from 7 to a string. -/
def mixedMap : Slot :=
  ((MapTable.new mixedConfig.hash 4).bind fun table =>
    (Slot.map 4 table []).mapInsert mixedConfig.hash (.bits 7) (.str [97])).getD .zero

/-- A message with an empty string in its oneof. -/
def innerMessage : Message where
  hasbits _ := false
  cases offset := if offset = 48 then 4 else 0
  slots _ := .zero
  exts := []
  unknown := []

/-- A message with contents of every kind. -/
def mixedMessage : Message where
  hasbits i := i == 64 || i == 65
  cases offset := if offset = 48 then 5 else 0
  slots
    | 12 => .bits (2 ^ 32 - 1)
    | 16 => .array [.bits 1, .bits (2 ^ 32 - 2)]
    | 24 => .ofMessage innerMessage
    | 32 => .bits 300
    | 56 => mixedMap
    | _ => .zero
  exts := [(0, .bits 1)]
  unknown := encodeTag 15 .varint ++ encodeVarint 5

theorem isLayout_mixedSchema (t : TableId) : IsLayout (mixedConfig.schema.table t) := by
  match t with
  | 0 => exact .of_pairwise (searchable_of_dense rfl rfl (by decide) rfl) (by decide) (by decide)
  | t + 1 =>
    have hentry : mixedConfig.schema.table (t + 1) = mixedConfig.schema.table 1 := rfl
    rw [hentry]
    exact .of_pairwise (searchable_of_dense rfl rfl (by decide) rfl) (by decide) (by decide)

theorem mixedMap_spec : mixedMap.IsMap mixedConfig.hash 4 1 ∧
    ∀ k, mixedMap.mapGet mixedConfig.hash k = if k = .int 7 then some (.str [97]) else none := by
  obtain ⟨table, hnew, hmap, hnone⟩ := Slot.isMap_new mixedConfig.hash (show 4 ≤ 8 by decide)
  have hinsert : ∃ s', (Slot.map 4 table []).mapInsert mixedConfig.hash (.bits 7) (.str [97]) = some s' ∧
      s'.IsMap mixedConfig.hash 4 1 ∧ ∀ k, s'.mapGet mixedConfig.hash k =
        if k = .int 7 then some (.str [97]) else (Slot.map 4 table []).mapGet mixedConfig.hash k :=
    hmap.insert (hnone _) (by decide) (by decide)
  obtain ⟨s', hins, hmap', hget⟩ := hinsert
  have hmixed : mixedMap = s' := by
    rw [mixedMap, hnew, Option.bind_some, hins, Option.getD_some]
  rw [hmixed]
  refine ⟨hmap', fun k => ?_⟩
  rw [hget, hnone]

theorem restorable_mixedMap (depth : ℕ) {f : LinkedField} (hf : mixedConfig.schema.field 0 5 = some f) :
    Restorable mixedConfig (depth + 1) (.field f) mixedMap := by
  cases hf
  obtain ⟨hmap, hget⟩ := mixedMap_spec
  have hentry : ∀ {k v}, mixedMap.mapGet mixedConfig.hash k = some v → k = .int 7 ∧ v = .str [97] := by
    intro k v h
    rw [hget] at h
    split at h
    · next hk => exact ⟨hk, (Option.some.inj h).symm⟩
    · cases h
  generalize hslot : mixedMap = slot at hmap hentry
  cases hmap with
  | mk inv bound size kind =>
    refine .map rfl rfl rfl rfl rfl rfl rfl rfl (by decide) rfl inv (fun _ => Nat.succ_pos depth) ?_ rfl ?_ ?_
    · intro k v h
      obtain ⟨rfl, rfl⟩ := hentry h
      rfl
    · intro k v h
      obtain ⟨rfl, rfl⟩ := hentry h
      exact .number ⟨nofun, nofun, rfl⟩ (.inr rfl) (by decide) rfl
    · intro k v h
      obtain ⟨rfl, rfl⟩ := hentry h
      exact .string (.inl rfl) (.inr rfl) fun _ => rfl

theorem restorable_innerMessage (depth : ℕ) :
    Restorable mixedConfig depth (.message 0) (.ofMessage innerMessage) := by
  have hunknown : Records 5 (fun _ => False) (fun _ => False) depth [] := .nil
  refine .message rfl (keepsUnknown_of_records hunknown nofun) List.nodup_nil (fun i f hf hset => ?_)
    nofun nofun nofun nofun nofun
  obtain ⟨hi, hf⟩ := hf
  have hi : i < 6 := hi
  by_cases hthree : i = 3
  · subst hthree
    cases hf
    exact .scalar rfl (.string (.inl rfl) (.inl rfl) fun _ => rfl)
  · interval_cases i <;> cases hf <;> first | exact absurd rfl hthree | exact absurd hset (by decide)

theorem restorable_mixedMessage :
    Restorable mixedConfig (effectiveMaxDepth 0) (.message 0) (.ofMessage mixedMessage) := by
  have hunknown : Records 5 (fun _ => False) (· = 15) 100 mixedMessage.unknown := by
    have htag := isTag_encodeVarint .varint (show 15 < 2 ^ 29 by decide)
    have hval : IsValue 5 .varint (encodeVarint 5) :=
      .varint (isVarint_encodeVarint (by decide) (by decide) (show 5 < 2 ^ (10 * 7) by decide))
    have hrec : Records 5 (fun _ => False) (· = 15) 100 (encodeTag 15 .varint ++ encodeVarint 5 ++ []) :=
      .field rfl htag hval .nil
    rwa [List.append_nil] at hrec
  have hnumber : ∀ {depth : ℕ} {f : LinkedField} {x : ℕ}, IsNumberType f →
      x < 2 ^ valueBits f.field.descriptortype → declared f x = true →
      Restorable mixedConfig depth (.value f) (.bits x) :=
    fun htype hx hdecl => .number htype (.inr rfl) hx hdecl
  refine .message rfl (keepsUnknown_of_records hunknown fun n hn => ?_) (by decide) (fun i f hf hset => ?_)
    (fun _ p hp => ?_) (fun p hp => ?_) (fun _ p hp => ?_) nofun nofun
  · subst hn
    exact ⟨by decide, fun w => by cases w <;> trivial⟩
  · obtain ⟨hi, hf⟩ := hf
    have hi : i < 6 := hi
    interval_cases i
    · cases hf
      exact .scalar rfl (hnumber ⟨nofun, nofun, rfl⟩ (by decide) rfl)
    · cases hf
      refine .array rfl rfl (.inr rfl) fun v hv => ?_
      rcases List.mem_pair.mp (show v ∈ [Slot.bits 1, .bits (2 ^ 32 - 2)] from hv) with rfl | rfl
      · exact hnumber ⟨nofun, nofun, rfl⟩ (by decide) rfl
      · exact hnumber ⟨nofun, nofun, rfl⟩ (by decide) rfl
    · cases hf
      exact .scalar rfl (.submessage rfl rfl (restorable_innerMessage 99))
    · cases hf
      exact absurd hset (by decide)
    · cases hf
      exact .scalar rfl (hnumber ⟨nofun, nofun, rfl⟩ (by decide) rfl)
    · have hmap := restorable_mixedMap 99 hf
      cases hf
      exact hmap
  · cases List.mem_singleton.mp hp
    exact ⟨fun w => by cases w <;> rfl, by decide, fun _ => rfl⟩
  · cases List.mem_singleton.mp hp
    exact nofun
  · cases List.mem_singleton.mp hp
    exact .scalar rfl (hnumber ⟨nofun, nofun, rfl⟩ (by decide) rfl)

/-- The round trip of the message. -/
theorem upbDecode_encode_mixed :
    ∃ bytes m', encode mixedSchema mixedConfig.hash {} 4 0 mixedMessage = .ok bytes ∧ bytes.length = 34 ∧
      (upbDecode mixedConfig 0 0 .new bytes).map Decoded.msg = .ok m' ∧
      Agrees mixedSchema mixedConfig.hash (.message 0) (.ofMessage mixedMessage) (.ofMessage m') := by
  have henc : encode mixedSchema mixedConfig.hash {} 4 0 mixedMessage =
      .ok [8, 255, 255, 255, 255, 255, 255, 255, 255, 255, 1, 18, 2, 2, 3, 26, 2, 34, 0, 40, 172, 2, 50, 5, 8,
        7, 18, 1, 97, 160, 6, 1, 120, 5] := rfl
  obtain ⟨m', hdecode, hagrees⟩ :=
    upbDecode_encode isLayout_mixedSchema rfl rfl restorable_mixedMessage henc (by decide)
  exact ⟨_, m', henc, rfl, hdecode, hagrees⟩

end Mixed

end Upb.Wire
