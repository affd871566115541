import Upb.Wire.RestoredMessages

/-!
# What the records of extensions restore

The encoder writes the extensions that are not empty arrays, in the order of their creation or sorted,
and those of a message set as items. The decoder creates each of them.
-/

namespace Upb.Wire

open Upb.Common BoundedReader
open Upb.Compare (Place setExtension lookup_eq_some_iff_mem)

variable {cfg : DecodeConfig} {opts : EncodeOptions} {depth fuel level : ℕ} {t u : TableId} {e : ExtId}
  {m m₁ : Message} {s s' : Slot} {p : ExtId × Slot} {l done : List (ExtId × Slot)} {bytes : List UInt8}

/-- Contents that agree are both empty or both not. -/
theorem extensionIsEmpty_of_agrees {sch : Schema} {hash : Hashes}
    (hmode : (sch.ext e).field.mode.fieldMode ≠ .map) (h : Agrees sch hash (.field (sch.ext e)) s s') :
    extensionIsEmpty sch hash (e, s') = extensionIsEmpty sch hash (e, s) := by
  cases h with
  | scalar mode => rw [extensionIsEmpty, extensionIsEmpty, mode]
  | array mode length =>
    rw [extensionIsEmpty, extensionIsEmpty, mode]
    dsimp only
    rw [Bool.eq_iff_iff, List.isEmpty_iff_length_eq_zero, List.isEmpty_iff_length_eq_zero, length]
  | map mode => exact absurd mode hmode

/-- The extension is restored from what the encoder writes for it, which is nothing for an empty
array. -/
def ExtRestores (cfg : DecodeConfig) (opts : EncodeOptions) (depth : ℕ) (t : TableId)
    (isMessageSet : Bool) (p : ExtId × Slot) : Prop :=
  ∀ (fuel level : ℕ) (bytes : List UInt8),
    encodeExt cfg.schema cfg.hash opts (encodeMessage cfg.schema cfg.hash opts fuel) level isMessageSet p =
      .ok bytes → bytes.length ≤ int32Max →
    ∃ s', Agrees cfg.schema cfg.hash (.field (cfg.schema.ext p.1)) p.2 s' ∧
      ((extensionIsEmpty cfg.schema cfg.hash p = true ∧ bytes = []) ∨
        ∀ m : Message, m.getext p.1 = none →
          Decodes cfg depth t bytes ⟨m, false⟩ ⟨m.setExt p.1 s', false⟩)

/-- Extensions of an extendable message are restored like fields. -/
theorem extRestores_field (hf : Finds cfg t (cfg.schema.ext p.1) (some p.1))
    (hmode : (cfg.schema.ext p.1).field.mode.fieldMode ≠ .map)
    (h : FieldRestores cfg opts depth (cfg.schema.ext p.1) p.2) : ExtRestores cfg opts depth t false p := by
  intro fuel level bytes henc hlen
  obtain ⟨s', hs'⟩ := h hf.number_lt fuel level bytes henc hlen
  refine ⟨s', hs'.agrees, ?_⟩
  rcases hs'.updates with ⟨hscalar, rfl, rfl⟩ | hupdates
  · left
    refine ⟨?_, rfl⟩
    rw [← extensionIsEmpty_of_agrees hmode hs'.agrees, extensionIsEmpty]
    cases hcase : (cfg.schema.ext p.1).field.mode.fieldMode with
    | scalar => exact absurd hcase hscalar
    | array => rfl
    | map => exact absurd hcase hmode
  · right
    intro m hm
    have hcontents : contents (cfg.schema.ext p.1).field (some p.1) m = .zero := by
      rw [contents, hm]
      rfl
    exact hupdates t (some p.1) hf m hcontents

/-- A limit that is not the default one. -/
theorem effectiveMaxDepth_of_pos {n : ℕ} (h : 0 < n) : effectiveMaxDepth n = n :=
  if_pos (Nat.pos_iff_ne_zero.mp h)

/-- The items of a message set are restored, their payloads by a decoder of their own. -/
theorem extRestores_item (hreq : cfg.checkRequired = false) (hdepth : 2 ≤ depth)
    (htype : IsItemType cfg t (cfg.schema.ext p.1).field.number p.1 u)
    (h : MessageRestores cfg opts (min defaultDepthLimit (depth - 1)) u p.2) :
    ExtRestores cfg opts depth t true p := by
  intro fuel level bytes henc hlen
  have henc : encodeMsgsetItem (encodeMessage cfg.schema cfg.hash opts fuel) level (cfg.schema.ext p.1)
      p.2 = .ok bytes := henc
  rw [encodeMsgsetItem, subMessage, htype.linked] at henc
  cases hm : p.2.toMessage with
  | none =>
    rw [hm] at henc
    cases henc
  | some m =>
    rw [hm] at henc
    obtain ⟨body, hbody, hbytes⟩ := bind_eq_ok.mp (show (encodeMessage cfg.schema cfg.hash opts fuel level u m
      >>= fun body => Except.ok (messageSetItemUnknown (cfg.schema.ext p.1).field.number body)) = .ok bytes
        from henc)
    cases hbytes
    have hshort : body.length ≤ int32Max := by
      rw [messageSetItemUnknown] at hlen
      simp only [List.length_append] at hlen
      omega
    obtain ⟨y, hagrees, hdecodes⟩ := h m fuel level body hm hbody hshort
    refine ⟨.ofMessage y, .scalar htype.scalar (.submessage (by rw [MiniTableField.isSubMessage, htype.type]; rfl)
      htype.linked hagrees), .inr fun m' _ => ?_⟩
    have hlimit : effectiveMaxDepth depth = depth := effectiveMaxDepth_of_pos (by omega)
    have hitem : DecodesAsItem cfg depth u body y := by
      refine ⟨by omega, hshort, Decodes.upbDecode_eq hreq hshort ?_⟩
      rw [itemDepth, hlimit, effectiveMaxDepth_of_pos (by rw [defaultDepthLimit]; omega)]
      exact hdecodes
    have hrec := isItem_messageSetItemUnknown htype.number hshort
    have hle := hrec.length_le
    have hfuel : 3 ≤ (messageSetItemUnknown (cfg.schema.ext p.1).field.number body).length := by omega
    have hshorter : body.length ≤
        (messageSetItemUnknown (cfg.schema.ext p.1).field.number body).length := by omega
    have hadds := adds_known htype hitem hshorter m'
    rw [hlimit] at hadds
    obtain ⟨reg, hreg, -⟩ := htype.registered
    obtain ⟨r', hfield, hnil⟩ := decodeField_item (htype.messageSet.findField_item hreg) hrec hshort
      hfuel hadds (show (BoundedReader.init 0 _).rest = _ ++ [] from (List.append_nil _).symm)
    refine .of_field ?_ hfield hnil
    rintro hempty
    rw [hempty] at hle
    simp at hle

/-- Extensions of a message have been restored in another one that had none. -/
structure ExtsRestored (cfg : DecodeConfig) (m₁ : Message) (done : List (ExtId × Slot)) (m' : Message) :
    Prop where
  base : ∃ exts, m' = { m₁ with exts := exts }
  restored : ∀ p ∈ done,
    (m'.getext p.1 = none ∧ extensionIsEmpty cfg.schema cfg.hash p = true) ∨
      ∃ s', m'.getext p.1 = some s' ∧ Agrees cfg.schema cfg.hash (.field (cfg.schema.ext p.1)) p.2 s'
  absent : ∀ e, e ∉ done.map Prod.fst → m'.getext e = none

/-- No extension has been restored in a message without any. -/
theorem extsRestored_nil (h : m₁.exts = []) : ExtsRestored cfg m₁ [] m₁ := by
  refine ⟨⟨m₁.exts, rfl⟩, fun p hp => absurd hp List.not_mem_nil, fun e _ => ?_⟩
  rw [Message.getext, h]
  rfl

/-- The record of one more extension restores it and leaves the others. -/
theorem ExtsRestored.concat {isMessageSet : Bool} (h : ExtsRestored cfg m₁ done m)
    (hp : ExtRestores cfg opts depth t isMessageSet p) (hnew : p.1 ∉ done.map Prod.fst)
    (henc : encodeExt cfg.schema cfg.hash opts (encodeMessage cfg.schema cfg.hash opts fuel) level
      isMessageSet p = .ok bytes) (hlen : bytes.length ≤ int32Max) :
    ∃ m₂, ExtsRestored cfg m₁ (done ++ [p]) m₂ ∧ Decodes cfg depth t bytes ⟨m, false⟩ ⟨m₂, false⟩ := by
  have hnone := h.absent p.1 hnew
  have habsent : ∀ e, e ∉ (done ++ [p]).map Prod.fst → e ∉ done.map Prod.fst ∧ e ≠ p.1 := by
    intro e he
    simpa [not_or] using he
  obtain ⟨s', hagrees, ⟨hempty, rfl⟩ | hdecodes⟩ := hp fuel level bytes henc hlen
  · refine ⟨m, ⟨h.base, fun q hq => ?_, fun e he => h.absent e (habsent e he).1⟩, .nil _⟩
    rcases List.mem_append.mp hq with hq | hq
    · exact h.restored q hq
    · cases List.mem_singleton.mp hq
      exact .inl ⟨hnone, hempty⟩
  · refine ⟨m.setExt p.1 s', ⟨?_, fun q hq => ?_, fun e he => ?_⟩, hdecodes m hnone⟩
    · obtain ⟨exts, rfl⟩ := h.base
      exact ⟨_, rfl⟩
    · rw [Message.getext_setExt]
      rcases List.mem_append.mp hq with hq | hq
      · rw [if_neg fun heq : q.1 = p.1 => hnew (heq ▸ List.mem_map.mpr ⟨q, hq, rfl⟩)]
        exact h.restored q hq
      · cases List.mem_singleton.mp hq
        rw [if_pos rfl]
        exact .inr ⟨s', rfl, hagrees⟩
    · obtain ⟨he, hne⟩ := habsent e he
      rw [Message.getext_setExt, if_neg hne]
      exact h.absent e he

/-- The records of extensions restore them, one after the other. -/
theorem extsRestored_of_encode {isMessageSet : Bool}
    (hrestores : ∀ p ∈ l, ExtRestores cfg opts depth t isMessageSet p)
    (hnodup : ((done ++ l).map Prod.fst).Nodup)
    (henc : encodeBackwards (encodeExt cfg.schema cfg.hash opts (encodeMessage cfg.schema cfg.hash opts fuel)
      level isMessageSet) l.reverse = .ok bytes) (hlen : bytes.length ≤ int32Max)
    (h : ExtsRestored cfg m₁ done m) :
    ∃ m₂, ExtsRestored cfg m₁ (done ++ l) m₂ ∧ Decodes cfg depth t bytes ⟨m, false⟩ ⟨m₂, false⟩ := by
  induction l generalizing bytes done m with
  | nil =>
    cases henc
    rw [List.append_nil]
    exact ⟨m, h, .nil _⟩
  | cons p l ih =>
    obtain ⟨front, rest, hfront, hrest, rfl⟩ := (encodeBackwards_reverse_cons p l).mp henc
    rw [List.length_append] at hlen
    have hnew : p.1 ∉ done.map Prod.fst := by
      rw [List.map_append, List.map_cons] at hnodup
      intro hmem
      exact (List.disjoint_of_nodup_append hnodup) hmem List.mem_cons_self
    obtain ⟨m₂, hm₂, hfirst⟩ := h.concat (hrestores p List.mem_cons_self) hnew hfront (by omega)
    have hsplit : done ++ p :: l = (done ++ [p]) ++ l := by simp
    rw [hsplit] at hnodup ⊢
    obtain ⟨m₃, hm₃, hlast⟩ := ih (fun q hq => hrestores q (List.mem_cons_of_mem _ hq)) hnodup hrest
      (by omega) hm₂
    exact ⟨m₃, hm₃, hfirst.append hlast⟩

/-- The extensions that `encode_exts` writes, the last one first: all that are not empty arrays. -/
theorem encodeExts_eq_ok {sub : SubEncoder} {mode : ExtMode} (hnodup : (m.exts.map Prod.fst).Nodup)
    (hnone : mode = ⟨false, false, false⟩ → m.exts = [])
    (h : encodeExts cfg.schema cfg.hash opts sub level mode m = .ok bytes) :
    ∃ l : List (ExtId × Slot), encodeBackwards (encodeExt cfg.schema cfg.hash opts sub level
        (decide (mode = ⟨false, true, false⟩))) l.reverse = .ok bytes ∧
      (l.map Prod.fst).Nodup ∧ (∀ p ∈ l, p ∈ m.exts) ∧
      ∀ p ∈ m.exts, p ∈ l ∨ extensionIsEmpty cfg.schema cfg.hash p = true := by
  rw [encodeExts] at h
  split at h
  · next hmode =>
    cases h
    exact ⟨[], rfl, List.nodup_nil, fun _ hp => absurd hp List.not_mem_nil,
      fun p hp => by rw [hnone hmode] at hp; cases hp⟩
  · dsimp only at h
    have hpresent : (m.exts.reverse.filter fun e => !extensionIsEmpty cfg.schema cfg.hash e) =
        (m.exts.filter fun e => !extensionIsEmpty cfg.schema cfg.hash e).reverse := List.filter_reverse
    have hcases : ∀ p ∈ m.exts, p ∈ m.exts.filter (fun e => !extensionIsEmpty cfg.schema cfg.hash e) ∨
        extensionIsEmpty cfg.schema cfg.hash p = true := by
      intro p hp
      cases hempty : extensionIsEmpty cfg.schema cfg.hash p with
      | true => exact .inr rfl
      | false => exact .inl (List.mem_filter.mpr ⟨hp, by rw [hempty]; rfl⟩)
    rw [hpresent] at h
    split at h
    · next hnil =>
      cases h
      rw [List.isEmpty_iff, List.reverse_eq_nil_iff] at hnil
      rw [hnil] at hcases
      exact ⟨[], rfl, List.nodup_nil, fun _ hp => absurd hp List.not_mem_nil, hcases⟩
    · split at h
      · have hperm : (m.exts.mergeSort fun a b =>
            decide ((cfg.schema.ext a.1).field.number ≤ (cfg.schema.ext b.1).field.number)).reverse.Perm
              m.exts := (List.reverse_perm _).trans (List.mergeSort_perm _ _)
        refine ⟨_, ?_, (hperm.map Prod.fst).nodup_iff.mpr hnodup, fun p => hperm.mem_iff.mp,
          fun p hp => .inl (hperm.mem_iff.mpr hp)⟩
        rw [List.reverse_reverse]
        exact h
      · exact ⟨_, h, hnodup.sublist (List.Sublist.map _ List.filter_sublist),
          fun p hp => List.mem_of_mem_filter hp, hcases⟩

/-- After all extensions have been restored, the same ones are set, and they agree. -/
theorem ExtsRestored.agrees (h : ExtsRestored cfg m₁ l m₂) (hnodup : (m.exts.map Prod.fst).Nodup)
    (hmode : ∀ p ∈ m.exts, (cfg.schema.ext p.1).field.mode.fieldMode ≠ .map) (hl : ∀ p ∈ l, p ∈ m.exts)
    (hall : ∀ p ∈ m.exts, p ∈ l ∨ extensionIsEmpty cfg.schema cfg.hash p = true) (e : ExtId) :
    (setExtension cfg.schema cfg.hash m e = none ∧ setExtension cfg.schema cfg.hash m₂ e = none) ∨
      ∃ v v', setExtension cfg.schema cfg.hash m e = some v ∧
        setExtension cfg.schema cfg.hash m₂ e = some v' ∧
        Agrees cfg.schema cfg.hash (.field (cfg.schema.ext e)) v v' := by
  cases hget : m.getext e with
  | none =>
    left
    have hnot : e ∉ l.map Prod.fst := by
      intro he
      obtain ⟨p, hp, rfl⟩ := List.mem_map.mp he
      have hsome := (lookup_eq_some_iff_mem hnodup).mpr (hl p hp)
      rw [Message.getext, hsome] at hget
      cases hget
    rw [setExtension, setExtension, hget, h.absent e hnot]
    exact ⟨rfl, rfl⟩
  | some v =>
    have hmem : (e, v) ∈ m.exts := (lookup_eq_some_iff_mem hnodup).mp hget
    have hempty : ∀ s : Slot, (some s).filter (fun v => !extensionIsEmpty cfg.schema cfg.hash (e, v)) =
        if extensionIsEmpty cfg.schema cfg.hash (e, s) then none else some s := by
      intro s
      rw [Option.filter_some]
      cases extensionIsEmpty cfg.schema cfg.hash (e, s) <;> rfl
    rw [setExtension, setExtension, hget, hempty]
    by_cases hin : (e, v) ∈ l
    · rcases h.restored (e, v) hin with ⟨hnone, hemp⟩ | ⟨v', hv', hagrees⟩
      · left
        rw [hnone, hemp]
        exact ⟨rfl, rfl⟩
      · rw [hv', hempty, extensionIsEmpty_of_agrees (hmode (e, v) hmem) hagrees]
        cases hcase : extensionIsEmpty cfg.schema cfg.hash (e, v) with
        | true => exact .inl ⟨rfl, rfl⟩
        | false => exact .inr ⟨v, v', rfl, rfl, hagrees⟩
    · left
      have hemp : extensionIsEmpty cfg.schema cfg.hash (e, v) = true := (hall (e, v) hmem).resolve_left hin
      have hnot : e ∉ l.map Prod.fst := by
        intro he
        obtain ⟨⟨e', v'⟩, hp, rfl⟩ := List.mem_map.mp he
        have hsame := (lookup_eq_some_iff_mem hnodup).mpr (hl _ hp)
        rw [Message.getext] at hget
        have hveq := Option.some.inj (hsame.symm.trans hget)
        exact hin (hveq ▸ hp)
      rw [h.absent e hnot, hemp]
      exact ⟨rfl, rfl⟩

end Upb.Wire
