import Upb.Compare.Trees
import Upb.Wire.Grammar
import Upb.Wire.LazyChecks

/-!
# Building the trees

Bytes spell a tree of records. On such bytes the code builds the tree, with the records of every
level sorted its way, over the checked reader and so over the patch buffer stream.
-/

namespace Upb.Compare

open Upb.Common Upb.Wire BoundedReader UnknownField

/-- The bytes of the data of a record that is not a group. -/
def HasData : UnknownField → List UInt8 → Prop
  | .varint _ value, v => IsVarint 10 v ∧ value = leb v % 2 ^ 64
  | .bit64 _ value, v => v.length = 8 ∧ value = littleEndian v
  | .bit32 _ value, v => v.length = 4 ∧ value = littleEndian v
  | .delimited _ data, v =>
    ∃ len, IsVarint 5 len ∧ leb len ≤ int32Max ∧ data.length = leb len ∧ v = len ++ data
  | .group _ _, _ => False

/-- The bytes of a sequence of records whose groups nest at most so deep. -/
inductive Spells : ℕ → List UInt8 → List UnknownField → Prop
  | nil {depth : ℕ} : Spells depth [] []
  | field {depth : ℕ} {f : UnknownField} {fs : List UnknownField} {tag v rest : List UInt8}
      (htag : IsTag f.number f.wireType tag) (hv : HasData f v) (hrest : Spells depth rest fs) :
      Spells depth (tag ++ v ++ rest) (f :: fs)
  | group {depth n : ℕ} {gs fs : List UnknownField} {tag body endTag rest : List UInt8}
      (htag : IsTag n .startGroup tag) (hbody : Spells depth body gs)
      (hend : IsTag n .endGroup endTag) (hrest : Spells (depth + 1) rest fs) :
      Spells (depth + 1) (tag ++ (body ++ endTag) ++ rest) (.group n gs :: fs)

/-- Sequences of the wire grammar spell records. -/
theorem exists_spells {inner number : ℕ → Prop} {depth : ℕ} {s : List UInt8}
    (h : Records 5 inner number depth s) : ∃ fs, Spells depth s fs := by
  induction h with
  | nil => exact ⟨[], .nil⟩
  | @field number depth n w tag v rest _ htag hv _ ih =>
    obtain ⟨fs, hfs⟩ := ih
    cases hv with
    | varint h => exact ⟨_, .field (f := .varint n (leb v % 2 ^ 64)) htag ⟨h, rfl⟩ hfs⟩
    | bit32 h => exact ⟨_, .field (f := .bit32 n (littleEndian v)) htag ⟨h, rfl⟩ hfs⟩
    | bit64 h => exact ⟨_, .field (f := .bit64 n (littleEndian v)) htag ⟨h, rfl⟩ hfs⟩
    | @delimited len payload hlen hmax h =>
      exact ⟨_, .field (f := .delimited n payload) htag ⟨len, hlen, hmax, h, rfl⟩ hfs⟩
  | group _ htag _ hend _ ihbody ihrest =>
    obtain ⟨gs, hgs⟩ := ihbody
    obtain ⟨fs, hfs⟩ := ihrest
    exact ⟨_, .group htag hgs hend hfs⟩

/-- The bytes that spell some records are the sequences of the wire grammar. -/
theorem records_iff_exists_spells {depth : ℕ} {s : List UInt8} :
    Records 5 (fun _ => True) (fun _ => True) depth s ↔ ∃ fs, Spells depth s fs := by
  constructor
  · exact exists_spells
  · rintro ⟨fs, h⟩
    induction h with
    | nil => exact .nil
    | @field depth f fs tag v rest htag hv _ ih =>
      refine .field trivial htag ?_ ih
      cases f with
      | varint n value => exact .varint hv.1
      | bit64 n value => exact .bit64 hv.1
      | bit32 n value => exact .bit32 hv.1
      | delimited n data =>
        obtain ⟨len, hlen, hmax, hdata, rfl⟩ := hv
        exact .delimited hlen hmax hdata
      | group n gs => exact hv.elim
    | group htag _ hend _ ihbody ihrest => exact .group trivial htag ihbody hend ihrest

section Read

variable {group : Reading BoundedReader (List UnknownField)} {r : BoundedReader}

/-- An aliased string. -/
theorem readStringAlwaysAlias_of_rest {data rest : List UInt8} (hr : r.rest = data ++ rest) :
    stream.readStringAlwaysAlias data.length r = .ok (⟨r.pos, data⟩,
      { r.advance data.length with log := r.log ++ [⟨r.pos, data.length⟩] }) := by
  change BoundedReader.readStringAlwaysAlias _ _ = _
  rw [BoundedReader.readStringAlwaysAlias, if_pos (by simp [hr]), hr, List.take_left]

/-- Reading the data of a record that is not a group. -/
theorem readField_of_hasData {f : UnknownField} {tag : ℕ} {v rest : List UInt8}
    (htype : getWireType tag = some f.wireType) (hnumber : getFieldNumber tag = f.number)
    (hv : HasData f v) (hr : r.rest = v ++ rest) :
    ∃ r', readField stream group tag r = .ok (f, r') ∧ r'.rest = rest := by
  have hreads := reads_advance hr
  have hrest : (r.advance v.length).rest = rest := by rw [advance, hr, List.drop_left]
  rw [readField, htype, hnumber]
  cases f with
  | varint n value =>
    obtain ⟨hv, rfl⟩ := hv
    exact ⟨_, Prog.bind_of_ok (readVarint_eq_ok.mpr ⟨v, hv, rfl, hreads⟩), hrest⟩
  | bit64 n value =>
    obtain ⟨hv, rfl⟩ := hv
    exact ⟨_, Prog.bind_of_ok (readFixed_eq_ok.mpr ⟨v, hv, rfl, hreads⟩), hrest⟩
  | bit32 n value =>
    obtain ⟨hv, rfl⟩ := hv
    exact ⟨_, Prog.bind_of_ok (readFixed_eq_ok.mpr ⟨v, hv, rfl, hreads⟩), hrest⟩
  | delimited n data =>
    obtain ⟨len, hlen, hmax, hdata, rfl⟩ := hv
    rw [List.append_assoc] at hr
    have hread : readSize stream r = .ok (data.length, r.advance len.length) :=
      readSize_eq_ok.mpr ⟨len, hlen, hmax, hdata, reads_advance hr⟩
    have hdrop : (r.advance len.length).rest = data ++ rest := by rw [advance, hr, List.drop_left]
    have hstring := readStringAlwaysAlias_of_rest hdrop
    refine ⟨_, (Prog.bind_of_ok hread).trans (Prog.bind_of_ok hstring), ?_⟩
    simp only [advance] at hdrop ⊢
    rw [hdrop, List.drop_left]
  | group n gs => exact hv.elim

/-- The loop goes on behind a record. -/
theorem combineLoop_of_field {n number : ℕ} {b : Builder} {f : UnknownField} {w : WireType}
    {tag rest : List UInt8} {r' : BoundedReader} (htag : IsTag number w tag) (hw : w ≠ .endGroup)
    (hr : r.rest = tag ++ rest)
    (hfield : readField stream group (leb tag) (r.advance tag.length) = .ok (f, r')) :
    combineLoop stream (n + 1) group b r = combineLoop stream n group (b.add f) r' := by
  have hne : r.rest ≠ [] := by
    rw [hr]
    simp [htag.varint.ne_nil]
  have hread : readTag stream r = .ok (leb tag, r.advance tag.length) :=
    readTag_eq_ok.mpr ⟨tag, htag.varint, htag.lt, rfl, reads_advance hr⟩
  have hround : combineRound stream group b r = .ok (.inl (b.add f), r') := by
    rw [combineRound, Prog.bind_of_ok hread, htag.getWireType, if_neg (by simpa using hw),
      Prog.bind_of_ok hfield]
    rfl
  rw [combineLoop, Prog.loop_of_not_done (isDone_of_ne_nil hne), Prog.bind_of_ok hround]
  rfl

/-- The loop ends behind an end group tag. -/
theorem combineLoop_of_end {n number : ℕ} {b : Builder} {tag rest : List UInt8}
    (htag : IsTag number .endGroup tag) (hr : r.rest = tag ++ rest) :
    combineLoop stream (n + 1) group b r = .ok (b, r.advance tag.length) := by
  have hne : r.rest ≠ [] := by
    rw [hr]
    simp [htag.varint.ne_nil]
  have hread : readTag stream r = .ok (leb tag, r.advance tag.length) :=
    readTag_eq_ok.mpr ⟨tag, htag.varint, htag.lt, rfl, reads_advance hr⟩
  have hround : combineRound stream group b r = .ok (.inr b, r.advance tag.length) := by
    rw [combineRound, Prog.bind_of_ok hread, htag.getWireType, if_pos rfl]
    rfl
  rw [combineLoop, Prog.loop_of_not_done (isDone_of_ne_nil hne), Prog.bind_of_ok hround]
  rfl

/-- The loop goes on behind records, and has added them with the records of their groups sorted. -/
theorem combineLoop_of_spells {depth fuel : ℕ} {s : List UInt8} {fs : List UnknownField}
    (h : Spells depth s fs) :
    ∀ {n : ℕ} {b : Builder} {r : BoundedReader} {cont : List UInt8}, r.rest = s ++ cont →
      s.length ≤ n → r.rest.length ≤ fuel →
      ∃ n' r', combineLoop stream n (buildGroup stream fuel depth) b r =
          combineLoop stream n' (buildGroup stream fuel depth)
            ((sortInsideEach buildSort fs).foldl Builder.add b) r' ∧
        r'.rest = cont ∧ n ≤ n' + s.length := by
  induction h with
  | nil =>
    intro n b r cont hr hn hfuel
    exact ⟨n, r, rfl, hr, Nat.le_refl n⟩
  | @field depth f fs tag v rest htag hv _ ih =>
    intro n b r cont hr hn hfuel
    have hpos := htag.varint.length_pos
    simp only [List.length_append] at hn ⊢
    obtain ⟨n, rfl⟩ : ∃ k, n = k + 1 := ⟨n - 1, by omega⟩
    rw [List.append_assoc, List.append_assoc] at hr
    have hdrop : (r.advance tag.length).rest = v ++ (rest ++ cont) := by
      rw [advance, hr, List.drop_left]
    have hw : f.wireType ≠ .endGroup := by cases f <;> simp [wireType]
    obtain ⟨r₁, hfield, hr₁⟩ := readField_of_hasData (r := r.advance tag.length)
      htag.getWireType htag.getFieldNumber hv hdrop
    have hlen : r₁.rest.length ≤ fuel := by
      rw [hr₁]
      rw [hr, List.length_append, List.length_append] at hfuel
      omega
    obtain ⟨n', r', hloop, hr', hn'⟩ := ih (n := n) (b := b.add f) hr₁ (by omega) hlen
    have hinside : sortInside buildSort f = f := by
      cases f with
      | group n gs => exact hv.elim
      | varint n v => rw [sortInside]
      | bit64 n v => rw [sortInside]
      | delimited n s => rw [sortInside]
      | bit32 n v => rw [sortInside]
    refine ⟨n', r', ?_, hr', by omega⟩
    rw [combineLoop_of_field htag hw hr hfield, hloop, sortInsideEach, List.foldl_cons, hinside]
  | @group depth number gs fs tag body endTag rest htag _ hend _ ihbody ihrest =>
    intro n b r cont hr hn hfuel
    have hpos := htag.varint.length_pos
    have hpos' := hend.varint.length_pos
    simp only [List.length_append] at hn ⊢
    obtain ⟨n, rfl⟩ : ∃ k, n = k + 1 := ⟨n - 1, by omega⟩
    rw [List.append_assoc, List.append_assoc] at hr
    have hdrop : (r.advance tag.length).rest = body ++ (endTag ++ (rest ++ cont)) := by
      rw [advance, hr, List.drop_left, List.append_assoc]
    have hlen : body.length + endTag.length + (rest ++ cont).length + tag.length ≤ fuel := by
      rw [hr] at hfuel
      simp only [List.length_append] at hfuel ⊢
      omega
    -- the records of the group, and its end
    obtain ⟨m, r₁, hbody, hr₁, hm⟩ := ihbody (n := fuel) (b := .init) hdrop (by omega)
      (by rw [hdrop]; simp only [List.length_append] at hlen ⊢; omega)
    obtain ⟨m, rfl⟩ : ∃ k, m = k + 1 := ⟨m - 1, by omega⟩
    have hgroup : buildGroup stream fuel (depth + 1) (r.advance tag.length) =
        .ok (sortLevels buildSort gs, r₁.advance endTag.length) := by
      rw [buildGroup, Prog.bind_of_ok (hbody.trans (combineLoop_of_end hend hr₁))]
      rfl
    have hfield : readField stream (buildGroup stream fuel (depth + 1)) (leb tag)
        (r.advance tag.length) = .ok (.group number (sortLevels buildSort gs),
          r₁.advance endTag.length) := by
      rw [readField, htag.getWireType, htag.getFieldNumber]
      exact Prog.bind_of_ok hgroup
    have hr₂ : (r₁.advance endTag.length).rest = rest ++ cont := by rw [advance, hr₁, List.drop_left]
    obtain ⟨n', r', hloop, hr', hn'⟩ := ihrest (n := n)
      (b := b.add (.group number (sortLevels buildSort gs))) hr₂ (by omega) (by rw [hr₂]; omega)
    refine ⟨n', r', ?_, hr', by omega⟩
    rw [combineLoop_of_field htag (by decide) hr hfield, hloop, sortInsideEach, List.foldl_cons,
      sortInside_group]

/-- A chunk of records is added to the builder. -/
theorem combineUnknownFields_checked {maxDepth : ℕ} {chunk : List UInt8} {fs : List UnknownField}
    (h : Spells maxDepth chunk fs) (b : Builder) :
    combineUnknownFields stream maxDepth b chunk =
      .ok ((sortInsideEach buildSort fs).foldl Builder.add b) := by
  have hr : (stream.enter ⟨0, chunk⟩).rest = chunk ++ [] := (List.append_nil chunk).symm
  obtain ⟨n, r, hloop, hrest, -⟩ := combineLoop_of_spells h (b := b) hr (Nat.le_refl chunk.length)
    (Nat.le_refl chunk.length)
  rw [combineUnknownFields, hloop, combineLoop, Prog.loop_of_done (isDone_of_eq_nil hrest)]
  rfl

end Read

section Refinement

variable {N : ℕ} (hN : N ≤ int32Max)

/-- At the limit nothing is remembered. -/
theorem pure_atLimit {α : Type} (a : α) :
    (lazySim N hN).Triple Eq .atLimit (pure a) (pure a) fun _ => .base where
  rel _ e _ h := .inl ⟨a, e, rfl, rfl, h.core, h.pos_le, h.pos_eq, h.rest_eq, h.log_eq,
    h.log_inside, trivial⟩
  ahead _ _ h := (h.phase rfl).elim
  past _ _ h := h.elim

/-- The data of a record is read alike. -/
theorem readField_triple {group₁ : Reading EpsCopyInputStream (List UnknownField)}
    {group₂ : Reading BoundedReader (List UnknownField)}
    (hgroup : (lazySim N hN).Triple Eq .base group₁ group₂ fun _ => .base) (tag : ℕ) :
    (lazySim N hN).Triple Eq ((Level.fresh .plain).consume 5)
      (readField EpsCopyInputStream.stream group₁ tag) (readField BoundedReader.stream group₂ tag)
      fun _ => .base := by
  have hmalformed : ∀ {l : Level} {α : Type} {lvl : α → Level},
      (lazySim N hN).Triple Eq l (throw .malformed) (throw .malformed) lvl :=
    .throw fun _ _ _ => (lazySim N hN).allowed_status (by decide) (by decide)
  rw [readField, readField]
  split
  · refine ((lazySim N hN).readLong _ (by decide) (by decide) (by decide)).bind fun v _ hv => ?_
    subst hv
    exact .pure rfl (Level.base_le (by decide))
  · refine ((lazySim N hN).readFixed (by decide) (by decide)).bind fun v _ hv => ?_
    subst hv
    exact .pure rfl (Level.base_le (by decide))
  · refine ((lazySim N hN).readFixed (by decide) (by decide)).bind fun v _ hv => ?_
    subst hv
    exact .pure rfl (Level.base_le (by decide))
  · refine ((lazySim N hN).readLong _ (by decide) (by decide) (by decide)).bind fun n _ hn => ?_
    subst hn
    refine ((lazySim N hN).readStringAlwaysAlias (by decide)).bind fun v₁ v₂ hv => ?_
    rw [(lazySim N hN).view_data hv]
    exact .pure rfl (Level.base_le (by decide))
  · refine (hgroup.mono (Level.base_le (by decide)) fun _ => le_rfl).bind fun fs _ hfs => ?_
    subst hfs
    exact .pure rfl le_rfl
  · exact hmalformed

/-- The loop runs alike. -/
theorem combineLoop_triple {group₁ : Reading EpsCopyInputStream (List UnknownField)}
    {group₂ : Reading BoundedReader (List UnknownField)}
    (hgroup : (lazySim N hN).Triple Eq .base group₁ group₂ fun _ => .base) (n : ℕ) (b : Builder) :
    (lazySim N hN).Triple Eq .base (combineLoop EpsCopyInputStream.stream n group₁ b)
      (combineLoop BoundedReader.stream n group₂ b) fun _ => .base := by
  refine Simulation.Triple.loop Eq ((lazySim N hN).isDone (l := .base) (by decide) (by decide))
    (fun _ _ h => absurd h ((lazySim N hN).ahead_checked rfl)) (fun b _ hb => ?_) (fun b _ hb => ?_)
    (.inl rfl) rfl
  · subst hb
    exact pure_atLimit hN b
  · subst hb
    rw [combineRound, combineRound]
    refine ((lazySim N hN).readLong (l := .fresh .plain) _ (by decide) (by decide)
      (by simp [Level.fresh])).bind fun t _ ht => ?_
    subst ht
    split
    · exact .pure (show Simulation.SumRel Eq Eq _ _ from rfl) (Level.base_le (by decide))
    · refine (readField_triple hN hgroup t).bind fun f _ hf => ?_
      subst hf
      exact .pure (show Simulation.SumRel Eq Eq _ _ from rfl) le_rfl

theorem buildGroup_triple (fuel depth : ℕ) :
    (lazySim N hN).Triple Eq .base (buildGroup EpsCopyInputStream.stream fuel depth)
      (buildGroup BoundedReader.stream fuel depth) fun _ => .base := by
  induction depth with
  | zero => exact .throw fun _ _ _ => (lazySim N hN).allowed_status (by decide) (by decide)
  | succ depth ih =>
    refine (combineLoop_triple hN ih fuel .init).bind fun b _ hb => ?_
    subst hb
    exact .pure rfl le_rfl

end Refinement

/-- The same over the patch buffer stream. -/
theorem combineUnknownFields_of_spells {maxDepth : ℕ} {chunk : List UInt8} {fs : List UnknownField}
    (h : Spells maxDepth chunk fs) (hlen : chunk.length ≤ int32Max) (b : Builder) :
    combineUnknownFields EpsCopyInputStream.stream maxDepth b chunk =
      .ok ((sortInsideEach buildSort fs).foldl Builder.add b) := by
  have hchecked := combineUnknownFields_checked h b
  rw [combineUnknownFields] at hchecked ⊢
  have hinit := (lazySim chunk.length hlen).rel_anti (Level.base_le (by decide))
    (LazyChecks.rel_init hlen (v := ⟨0, chunk⟩) le_rfl (by simp))
  have hout := (combineLoop_triple hlen (buildGroup_triple hlen chunk.length maxDepth) chunk.length
    b).rel _ _ _ hinit
  cases hr : combineLoop BoundedReader.stream chunk.length
      (buildGroup BoundedReader.stream chunk.length maxDepth) b
      (BoundedReader.stream.enter ⟨0, chunk⟩) with
  | error e =>
    rw [hr] at hchecked
    cases hchecked
  | ok q =>
    rw [hr] at hchecked hout
    rcases hout with ⟨b₁, e, he, rfl, -⟩ | ⟨-, hpast⟩
    · rw [he]
      exact hchecked
    · exact hpast.elim

/-- The chunks of unknown data of a message, and their records. Each chunk holds at least one record
and is no longer than the wire format allows. -/
inductive IsUnknownData (maxDepth : ℕ) : List (List UInt8) → List UnknownField → Prop
  | nil : IsUnknownData maxDepth [] []
  | cons {chunk : List UInt8} {fs : List UnknownField} {chunks : List (List UInt8)}
      {rest : List UnknownField} (hne : chunk ≠ []) (hlen : chunk.length ≤ int32Max)
      (h : Spells maxDepth chunk fs) (hrest : IsUnknownData maxDepth chunks rest) :
      IsUnknownData maxDepth (chunk :: chunks) (fs ++ rest)

/-- The tree that is built for a message. -/
theorem build_of_isUnknownData {maxDepth : ℕ} {chunks : List (List UInt8)} {fs : List UnknownField}
    (h : IsUnknownData maxDepth chunks fs) :
    build EpsCopyInputStream.stream maxDepth chunks = .ok (sortLevels buildSort fs) := by
  have hfold : ∀ b, chunks.foldlM (combineUnknownFields EpsCopyInputStream.stream maxDepth) b =
      .ok ((sortInsideEach buildSort fs).foldl Builder.add b) := by
    induction h with
    | nil => exact fun b => rfl
    | cons hne hlen hspells _ ih =>
      intro b
      rw [List.foldlM_cons, combineUnknownFields_of_spells hspells hlen]
      change List.foldlM _ _ _ = _
      rw [ih, sortInsideEach_eq_map, sortInsideEach_eq_map, sortInsideEach_eq_map, List.map_append,
        List.foldl_append]
  rw [build, hfold]
  rfl

end Upb.Compare
