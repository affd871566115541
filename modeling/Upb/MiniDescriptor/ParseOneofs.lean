import Upb.Common.Chain
import Upb.MiniDescriptor.ParseLoop

/-!
# Parsing the oneofs of an encoded message

While oneofs are parsed, the members of each are linked through their `offset`: an item holds the last
member, and every member holds the one before it. `OneofInv` says that the links of the oneofs read
so far are complete chains of `Common.Seg` and that all other fields are as the parser left them.
-/

namespace Upb

namespace MiniDescriptor

open Upb.Common (Seg)

/-- The calls of `upb_MtDataEncoder_StartOneof` and `PutOneofField` for one oneof. -/
def putOneof (e : MtDataEncoder) (o : List ℕ) : MtDataEncoder :=
  o.foldl MtDataEncoder.putOneofField e.startOneof

section Chars

/-- The characters of the number of a oneof member. -/
def memberChars (m : ℕ) : List ℕ := putBase92Varint m kMinOneofField kMaxOneofField

/-- The characters of members after the first one. -/
def moreMembers (ms : List ℕ) : List ℕ := ms.flatMap fun m => kFieldSeparator :: memberChars m

/-- The characters of one oneof. -/
def oneofChars : List ℕ → List ℕ
  | [] => []
  | m :: ms => memberChars m ++ moreMembers ms

/-- The characters of oneofs after the first one. -/
def moreOneofs (os : List (List ℕ)) : List ℕ := os.flatMap fun o => kOneofSeparator :: oneofChars o

/-- The characters of a list of oneofs. -/
def oneofsChars : List (List ℕ) → List ℕ
  | [] => []
  | o :: os => kEnd :: (oneofChars o ++ moreOneofs os)

private theorem putOneofFields_eq (ms : List ℕ) (e : MtDataEncoder)
    (he : e.oneofState = .emittedOneofField) :
    ms.foldl MtDataEncoder.putOneofField e = { e with out := e.out ++ moreMembers ms } := by
  induction ms generalizing e with
  | nil => simp [moreMembers]
  | cons m ms ih =>
    rw [List.foldl_cons, ih _ rfl]
    have hrange : toBase92 0 = kMinOneofField ∧ toBase92 63 = kMaxOneofField := by decide
    simp [MtDataEncoder.putOneofField, he, MtDataEncoder.put, moreMembers, memberChars, hrange]

private theorem putOneof_eq (e : MtDataEncoder) {o : List ℕ} (ho : o ≠ []) :
    putOneof e o = { e with
      oneofState := .emittedOneofField
      out := e.out ++ (if e.oneofState = .notStarted then kEnd else kOneofSeparator) ::
        oneofChars o } := by
  obtain ⟨m, ms, rfl⟩ := List.exists_cons_of_ne_nil ho
  have hrange : toBase92 0 = kMinOneofField ∧ toBase92 63 = kMaxOneofField := by decide
  rw [putOneof, List.foldl_cons, putOneofFields_eq ms _ rfl]
  simp [MtDataEncoder.putOneofField, MtDataEncoder.startOneof, MtDataEncoder.put, oneofChars,
    memberChars, hrange]

/-- The oneofs are written one after the other. -/
theorem putOneofs_out (os : List (List ℕ)) (e : MtDataEncoder) (hos : ∀ o ∈ os, o ≠ [])
    (he : e.oneofState = .notStarted) : (os.foldl putOneof e).out = e.out ++ oneofsChars os := by
  have hmore : ∀ (os : List (List ℕ)) (e : MtDataEncoder), (∀ o ∈ os, o ≠ []) →
      e.oneofState = .emittedOneofField → (os.foldl putOneof e).out = e.out ++ moreOneofs os := by
    intro os
    induction os with
    | nil => simp [moreOneofs]
    | cons o os ih =>
      intro e hos he
      rw [List.foldl_cons, ih _ (fun p hp => hos p (List.mem_cons_of_mem _ hp))
        (by rw [putOneof_eq e (hos o List.mem_cons_self)]),
        putOneof_eq e (hos o List.mem_cons_self)]
      simp [he, moreOneofs]
  cases os with
  | nil => simp [oneofsChars]
  | cons o os =>
    rw [List.foldl_cons, hmore os _ (fun p hp => hos p (List.mem_cons_of_mem _ hp))
      (by rw [putOneof_eq e (hos o List.mem_cons_self)]), putOneof_eq e (hos o List.mem_cons_self)]
    simp [he, oneofsChars]

end Chars

section Links

/-- The oneof member that a field links to. -/
def nextMember (fields : List MiniTableField) (i : ℕ) : Option ℕ :=
  match fields[i]? with
  | some f => if f.offset = kIndexSentinel then none else some (f.offset - kOneofBase)
  | none => none

/-- The member that an item under construction starts from. -/
def startOf (item : OneOfLayoutItem) : Option ℕ :=
  if item.fieldIndex = kIndexSentinel then none else some (item.fieldIndex - kOneofBase)

/-- A field without its offset, which parsing oneofs leaves alone. -/
def eraseOffset (f : MiniTableField) : MiniTableField := { f with offset := 0 }

/-- The decoder with the oneof part of its state replaced. -/
def oneofDecoder (d : MtDecoder) (fields : List MiniTableField) (items : List OneOfLayoutItem)
    (counts : FieldRep → ℕ) : MtDecoder :=
  { d with table := { d.table with fields }, oneofs := items, repCounts := counts }

/-- The oneofs `done` are linked in `items`, and the members `cur` of the current one in `item`; all
are given by the indices of their members, and `orig` are the fields before. -/
structure OneofInv (orig fields : List MiniTableField) (items : List OneOfLayoutItem)
    (done : List (List ℕ)) (cur : List ℕ) (item : OneOfLayoutItem) : Prop where
  same : fields.map eraseOffset = orig.map eraseOffset
  frame : ∀ i, i ∉ done.flatten → i ∉ cur → fields[i]? = orig[i]?
  member : ∀ i, i ∈ done.flatten ∨ i ∈ cur → ∀ f, fields[i]? = some f → kOneofBase ≤ f.offset
  length : done.length = items.length
  chains : ∀ (k : ℕ) (o : List ℕ) (it : OneOfLayoutItem), done[k]? = some o → items[k]? = some it →
    Seg (nextMember fields) (some it.fieldIndex) o.reverse none
  chain : Seg (nextMember fields) (startOf item) cur.reverse none
  started : cur = [] ↔ item.fieldIndex = kIndexSentinel
  index_ge : kOneofBase ≤ item.fieldIndex
  index_le : item.fieldIndex ≤ kIndexSentinel

/-- Nothing is linked before the first member. -/
theorem OneofInv.init (orig : List MiniTableField) (rep : FieldRep) :
    OneofInv orig orig [] [] [] ⟨kIndexSentinel, rep⟩ := by
  refine ⟨rfl, fun _ _ _ => rfl, by simp, rfl, by simp, ?_, by simp, ?_, ?_⟩
  · rw [startOf, if_pos rfl]
    rfl
  · show kOneofBase ≤ kIndexSentinel
    decide
  · exact le_refl kIndexSentinel

/-- Linking one more member. -/
theorem OneofInv.link {orig fields : List MiniTableField} {items : List OneOfLayoutItem}
    {done : List (List ℕ)} {cur : List ℕ} {item : OneOfLayoutItem}
    (h : OneofInv orig fields items done cur item) {i : ℕ} {f : MiniTableField} (rep : FieldRep)
    (hi : orig[i]? = some f) (hdone : i ∉ done.flatten) (hcur : i ∉ cur)
    (hbound : i + kOneofBase < kIndexSentinel) :
    OneofInv orig (fields.set i { f with offset := item.fieldIndex }) items done (cur ++ [i])
      ⟨i + kOneofBase, rep⟩ := by
  have hfi : fields[i]? = some f := (h.frame i hdone hcur).trans hi
  have hilt : i < fields.length := (List.getElem?_eq_some_iff.mp hfi).1
  have hne : ∀ j, j ≠ i → (fields.set i { f with offset := item.fieldIndex })[j]? = fields[j]? :=
    fun j hj => List.getElem?_set_ne (Ne.symm hj)
  have hself : (fields.set i { f with offset := item.fieldIndex })[i]? =
      some { f with offset := item.fieldIndex } := List.getElem?_set_self hilt
  have hnext : ∀ j, j ≠ i → nextMember (fields.set i { f with offset := item.fieldIndex }) j =
      nextMember fields j := fun j hj => by rw [nextMember, nextMember, hne j hj]
  constructor
  · rw [← h.same]
    refine List.ext_getElem? fun j => ?_
    rw [List.getElem?_map, List.getElem?_map]
    by_cases hj : j = i
    · subst hj
      rw [hself, hfi]
      rfl
    · rw [hne j hj]
  · intro j hj hj'
    simp only [List.mem_append, List.mem_singleton, not_or] at hj'
    rw [hne j hj'.2, h.frame j hj hj'.1]
  · intro j hj g hg
    by_cases hji : j = i
    · subst hji
      rw [hself] at hg
      cases hg
      exact h.index_ge
    · rw [hne j hji] at hg
      refine h.member j ?_ g hg
      simpa [hji] using hj
  · exact h.length
  · intro k o it ho hit
    refine (h.chains k o it ho hit).congr fun j hj => hnext j ?_
    rintro rfl
    exact hdone (List.mem_flatten.mpr ⟨o, List.mem_of_getElem? ho, List.mem_reverse.mp hj⟩)
  · rw [List.reverse_append, List.reverse_singleton, List.singleton_append]
    refine ⟨?_, ?_⟩
    · rw [startOf, if_neg (by simp only; omega)]
      simp
    · have hn : nextMember (fields.set i { f with offset := item.fieldIndex }) i = startOf item := by
        rw [nextMember, hself, startOf]
      rw [hn]
      refine h.chain.congr fun j hj => hnext j ?_
      rintro rfl
      exact hcur (List.mem_reverse.mp hj)
  · simp only [List.append_eq_nil_iff, List.cons_ne_self, and_false, false_iff]
    omega
  · exact Nat.le_add_left _ _
  · exact hbound.le

/-- Pushing a finished oneof. -/
theorem OneofInv.push {orig fields : List MiniTableField} {items : List OneOfLayoutItem}
    {done : List (List ℕ)} {cur : List ℕ} {item : OneOfLayoutItem}
    (h : OneofInv orig fields items done cur item) (hcur : cur ≠ []) (rep : FieldRep) :
    OneofInv orig fields
      (items ++ [{ item with fieldIndex := item.fieldIndex - kOneofBase }]) (done ++ [cur]) []
      ⟨kIndexSentinel, rep⟩ := by
  have hstart : startOf item = some (item.fieldIndex - kOneofBase) :=
    if_neg (mt h.started.mpr hcur)
  refine ⟨h.same, fun i hi _ => ?_, fun i hi => ?_, by simp [h.length], ?_, ?_, by simp,
    show kOneofBase ≤ kIndexSentinel by decide, le_refl kIndexSentinel⟩
  · simp only [List.flatten_append, List.flatten_singleton, List.mem_append, not_or] at hi
    exact h.frame i hi.1 hi.2
  · refine h.member i ?_
    simpa using hi
  · intro k o it ho hit
    by_cases hk : k < done.length
    · rw [List.getElem?_append_left hk] at ho
      rw [List.getElem?_append_left (h.length ▸ hk)] at hit
      exact h.chains k o it ho hit
    · obtain rfl : k = done.length := by
        have := (List.getElem?_eq_some_iff.mp ho).1
        simp only [List.length_append, List.length_singleton] at this
        omega
      rw [List.getElem?_concat_length] at ho
      rw [h.length, List.getElem?_concat_length] at hit
      cases ho
      cases hit
      have hc := h.chain
      rwa [hstart] at hc
  · exact rfl

end Links

/-- The oneof loop on `input` arrives at `r`. -/
def DecodesOneofs (d : MtDecoder) (item : OneOfLayoutItem) (input : List ℕ)
    (r : Except MdError MtDecoder) : Prop :=
  ∀ fuel, input.length ≤ fuel → decodeOneofsLoop fuel d item input = r

section Steps

variable {d d' : MtDecoder} {item item' : OneOfLayoutItem} {rest rest' : List ℕ}
  {r : Except MdError MtDecoder}

theorem DecodesOneofs.nil (h : pushOneof d item = r) : DecodesOneofs d item [] r := fun fuel _ => by
  cases fuel <;> exact h

theorem DecodesOneofs.fieldSeparator (h : DecodesOneofs d item rest r) :
    DecodesOneofs d item (kFieldSeparator :: rest) r := by
  intro fuel hfuel
  obtain ⟨fuel, rfl⟩ : ∃ n, fuel = n + 1 := ⟨fuel - 1, by simp at hfuel; omega⟩
  rw [decodeOneofsLoop, if_pos rfl]
  exact h fuel (by simpa using hfuel)

theorem DecodesOneofs.oneofSeparator (hpush : pushOneof d item = .ok d')
    (h : DecodesOneofs d' { item with fieldIndex := kIndexSentinel } rest r) :
    DecodesOneofs d item (kOneofSeparator :: rest) r := by
  intro fuel hfuel
  obtain ⟨fuel, rfl⟩ : ∃ n, fuel = n + 1 := ⟨fuel - 1, by simp at hfuel; omega⟩
  rw [decodeOneofsLoop, if_neg (by decide), if_pos rfl, hpush]
  exact h fuel (by simpa using hfuel)

theorem DecodesOneofs.member {ch : ℕ} (hch : ch ≤ kMaxOneofField)
    (hstep : decodeOneofField d ch rest item = .ok (d', item', rest'))
    (hlen : rest'.length ≤ rest.length) (h : DecodesOneofs d' item' rest' r) :
    DecodesOneofs d item (ch :: rest) r := by
  intro fuel hfuel
  obtain ⟨fuel, rfl⟩ : ∃ n, fuel = n + 1 := ⟨fuel - 1, by simp at hfuel; omega⟩
  have hnot : ¬ ch = kFieldSeparator ∧ ¬ ch = kOneofSeparator := by
    simp only [kMaxOneofField, kFieldSeparator, kOneofSeparator] at *
    omega
  rw [decodeOneofsLoop, if_neg hnot.1, if_neg hnot.2, hstep]
  simp only [List.length_cons] at hfuel
  exact h fuel (by omega)

end Steps

/-- The counts after pushing oneofs of the given representations. -/
def pushedCounts (counts : FieldRep → ℕ) (reps : List FieldRep) : FieldRep → ℕ :=
  reps.foldl (fun c r => bumpRep (bumpRep c .rep4Byte) r) counts

/-- The representations of the oneofs; the C code carries the one of the last oneof on. -/
def oneofReps (platform : Platform) (repOf : ℕ → FieldRep) :
    FieldRep → List (List ℕ) → List FieldRep
  | _, [] => []
  | rep, o :: os =>
    let rep' := o.foldl (fun r m => largerRep platform r (repOf m)) rep
    rep' :: oneofReps platform repOf rep' os

/-- The number of the field at an index. -/
def numberAt (fields : List MiniTableField) (i : ℕ) : ℕ := (fields[i]?).elim 0 (·.number)

/-- The representation of the field at an index. -/
def repAt (fields : List MiniTableField) (i : ℕ) : FieldRep := (fields[i]?).elim .rep1Byte (·.mode.rep)

/-- The end of the input ends every number. -/
theorem endsDigits_nil : EndsDigits kMinOneofField kMaxOneofField [] := by
  intro c hc
  simp at hc

/-- Pushing a oneof with at least one member. -/
theorem pushOneof_eq (d : MtDecoder) (counts : FieldRep → ℕ) {orig fields : List MiniTableField}
    {items : List OneOfLayoutItem} {done : List (List ℕ)} {cur : List ℕ} {item : OneOfLayoutItem}
    (h : OneofInv orig fields items done cur item) (hcur : cur ≠ []) :
    pushOneof (oneofDecoder d fields items counts) item =
      .ok (oneofDecoder d fields
        (items ++ [{ item with fieldIndex := item.fieldIndex - kOneofBase }])
        (bumpRep (bumpRep counts .rep4Byte) item.rep)) := by
  have hle := h.index_le
  have hge := h.index_ge
  have hindex : toUint16 (item.fieldIndex + 2 ^ 16 - kOneofBase) = item.fieldIndex - kOneofBase := by
    simp only [toUint16, kOneofBase, kIndexSentinel] at *
    omega
  rw [pushOneof, if_neg (mt h.started.mpr hcur), hindex]
  rfl

section Decode

variable {d : MtDecoder} {orig : List MiniTableField} (hsorted : MiniTable.Sorted orig)
  (hcount : d.table.fieldCount = orig.length) (hpos : ∀ f ∈ orig, f.number ≠ 0)
  (hdense : ∀ i < d.table.denseBelow, ∀ f, orig[i]? = some f → f.number = i + 1)
  (hdl : d.table.denseBelow ≤ orig.length) (hsize : orig.length + kOneofBase ≤ kIndexSentinel)

include hsorted hcount hpos hdense hdl hsize

/-- One member that is a plain field with a hasbit and not yet in a oneof. -/
private theorem decodeOneofField_eq (counts : FieldRep → ℕ) {fields : List MiniTableField}
    {items : List OneOfLayoutItem} {done : List (List ℕ)} {cur : List ℕ} {item : OneOfLayoutItem}
    (hinv : OneofInv orig fields items done cur item) {i : ℕ} {f : MiniTableField}
    (hi : orig[i]? = some f) (hoff : f.offset = kHasbitPresence) (hdone : i ∉ done.flatten)
    (hcur : i ∉ cur) {c : ℕ} {tail rest : List ℕ} (hput : memberChars f.number = c :: tail)
    (hnum : f.number < 2 ^ 32) (hend : EndsDigits kMinOneofField kMaxOneofField rest) :
    decodeOneofField (oneofDecoder d fields items counts) c (tail ++ rest) item =
      .ok (oneofDecoder d (fields.set i { f with offset := item.fieldIndex }) items counts,
        ⟨i + kOneofBase, largerRep d.platform item.rep f.mode.rep⟩, rest) := by
  have hfi : fields[i]? = some f := (hinv.frame i hdone hcur).trans hi
  have hlen : fields.length = orig.length := by simpa using congrArg List.length hinv.same
  have hnumbers : fields.map (·.number) = orig.map (·.number) := by
    have h := congrArg (List.map (·.number)) hinv.same
    simpa [List.map_map, Function.comp_def, eraseOffset] using h
  have hget : ∀ (j : ℕ) (g : MiniTableField), fields[j]? = some g →
      ∃ g' : MiniTableField, orig[j]? = some g' ∧ g'.number = g.number := by
    intro j g hg
    have h := congrArg (fun l : List ℕ => l[j]?) hnumbers
    simp only [List.getElem?_map, hg, Option.map_some] at h
    obtain ⟨g', hg', heq⟩ := Option.map_eq_some_iff.mp h.symm
    exact ⟨g', hg', heq⟩
  have hfind : (oneofDecoder d fields items counts).table.findFieldByNumber f.number = some i := by
    refine MiniTable.findFieldByNumber_eq ?_ ?_ ?_ ?_ ?_ hfi
    · rw [MiniTable.Sorted]
      exact hnumbers ▸ hsorted
    · exact hcount.trans hlen.symm
    · intro g hg
      obtain ⟨j, hj⟩ := List.getElem?_of_mem hg
      obtain ⟨g', hg', heq⟩ := hget j g hj
      exact heq ▸ hpos g' (List.mem_of_getElem? hg')
    · intro j hj g hg
      obtain ⟨g', hg', heq⟩ := hget j g hg
      exact heq ▸ hdense j hj g' hg'
    · exact hlen ▸ hdl
  have hdec := decodeVarint_putBase92Varint digitRange_oneofField hput hnum hend
  have hbound : toUint16 (i + kOneofBase) = i + kOneofBase := by
    have := (List.getElem?_eq_some_iff.mp hi).1
    simp only [kOneofBase, kIndexSentinel] at *
    exact Nat.mod_eq_of_lt (by omega)
  simp only [decodeOneofField, hdec, hfind]
  simp only [oneofDecoder, hfi, hoff, ne_eq, not_true_eq_false, ↓reduceIte, hbound]

/-- The fields at the given indices can become members of a oneof. -/
def Addable (orig : List MiniTableField) (is : List ℕ) : Prop :=
  ∀ i ∈ is, ∃ f, orig[i]? = some f ∧ f.offset = kHasbitPresence ∧ f.number < 2 ^ 32

/-- The members of a oneof after the first one. -/
private theorem decodes_moreMembers (counts : FieldRep → ℕ) {is : List ℕ}
    {fields : List MiniTableField} {items : List OneOfLayoutItem} {done : List (List ℕ)}
    {cur : List ℕ} {item : OneOfLayoutItem} (hinv : OneofInv orig fields items done cur item)
    (hadd : Addable orig is) (hnodup : is.Nodup) (hfresh : ∀ i ∈ is, i ∉ done.flatten ∧ i ∉ cur)
    {rest : List ℕ} (hend : EndsDigits kMinOneofField kMaxOneofField rest) :
    ∃ fields' item', OneofInv orig fields' items done (cur ++ is) item' ∧
      item'.rep = is.foldl (fun r i => largerRep d.platform r (repAt orig i)) item.rep ∧
      ∀ r, DecodesOneofs (oneofDecoder d fields' items counts) item' rest r →
        DecodesOneofs (oneofDecoder d fields items counts) item
          (moreMembers (is.map (numberAt orig)) ++ rest) r := by
  induction is generalizing fields cur item with
  | nil => exact ⟨fields, item, by simpa using hinv, rfl, by simp [moreMembers]⟩
  | cons i is ih =>
    obtain ⟨f, hi, hoff, hnum⟩ := hadd i List.mem_cons_self
    obtain ⟨hdone, hcur⟩ := hfresh i List.mem_cons_self
    obtain ⟨hnotin, hnodup⟩ := List.nodup_cons.mp hnodup
    have hilt := (List.getElem?_eq_some_iff.mp hi).1
    have hlink := hinv.link (largerRep d.platform item.rep f.mode.rep) hi hdone hcur
      (by omega)
    obtain ⟨fields', item', hinv', hrep, hdecode⟩ := ih hlink
      (fun j hj => hadd j (List.mem_cons_of_mem _ hj)) hnodup (fun j hj => by
        obtain ⟨h1, h2⟩ := hfresh j (List.mem_cons_of_mem _ hj)
        refine ⟨h1, ?_⟩
        simp only [List.mem_append, List.mem_singleton, not_or]
        exact ⟨h2, fun he => hnotin (he ▸ hj)⟩)
    have hnumber : numberAt orig i = f.number := by simp [numberAt, hi]
    have hrepAt : repAt orig i = f.mode.rep := by simp [repAt, hi]
    refine ⟨fields', item', by simpa using hinv', by simpa [hrepAt] using hrep, fun r h => ?_⟩
    obtain ⟨c, tail, hput, -, hc2⟩ := digitRange_oneofField.putBase92Varint_eq f.number
    -- the next separator, or the end of the oneof, ends the number
    have hend' : EndsDigits kMinOneofField kMaxOneofField
        (moreMembers (is.map (numberAt orig)) ++ rest) := by
      cases is with
      | nil => simpa [moreMembers] using hend
      | cons j is =>
        intro c hc
        obtain rfl : kFieldSeparator = c := by simpa [moreMembers] using hc
        decide
    have hstep := decodeOneofField_eq hsorted hcount hpos hdense hdl hsize counts hinv
      hi hoff hdone hcur hput hnum hend'
    have hchars : moreMembers ((i :: is).map (numberAt orig)) ++ rest =
        kFieldSeparator :: c :: (tail ++ (moreMembers (is.map (numberAt orig)) ++ rest)) := by
      have hm : memberChars f.number = c :: tail := hput
      simp [moreMembers, hnumber, hm]
    rw [hchars]
    exact .fieldSeparator (.member hc2 hstep (by simp) (hdecode r h))

/-- The members of one oneof. -/
private theorem decodes_oneof (counts : FieldRep → ℕ) {o : List ℕ} (ho : o ≠ [])
    {fields : List MiniTableField} {items : List OneOfLayoutItem} {done : List (List ℕ)}
    {rep : FieldRep}
    (hinv : OneofInv orig fields items done [] ⟨kIndexSentinel, rep⟩)
    (hadd : Addable orig o) (hnodup : o.Nodup) (hfresh : ∀ i ∈ o, i ∉ done.flatten)
    {rest : List ℕ} (hend : EndsDigits kMinOneofField kMaxOneofField rest) :
    ∃ fields' item', OneofInv orig fields' items done o item' ∧
      item'.rep = o.foldl (fun r i => largerRep d.platform r (repAt orig i)) rep ∧
      ∀ r, DecodesOneofs (oneofDecoder d fields' items counts) item' rest r →
        DecodesOneofs (oneofDecoder d fields items counts) ⟨kIndexSentinel, rep⟩
          (oneofChars (o.map (numberAt orig)) ++ rest) r := by
  obtain ⟨i, is, rfl⟩ := List.exists_cons_of_ne_nil ho
  obtain ⟨f, hi, hoff, hnum⟩ := hadd i List.mem_cons_self
  obtain ⟨hnotin, hnodup⟩ := List.nodup_cons.mp hnodup
  have hilt := (List.getElem?_eq_some_iff.mp hi).1
  have hdone := hfresh i List.mem_cons_self
  have hlink := hinv.link (largerRep d.platform rep f.mode.rep) hi hdone (by simp) (by omega)
  obtain ⟨fields', item', hinv', hrep, hdecode⟩ := decodes_moreMembers hsorted hcount hpos hdense hdl
    hsize counts hlink (fun j hj => hadd j (List.mem_cons_of_mem _ hj)) hnodup
    (fun j hj => ⟨hfresh j (List.mem_cons_of_mem _ hj), by
      simp only [List.nil_append, List.mem_singleton]
      exact fun he => hnotin (he ▸ hj)⟩) hend
  have hnumber : numberAt orig i = f.number := by simp [numberAt, hi]
  have hrepAt : repAt orig i = f.mode.rep := by simp [repAt, hi]
  refine ⟨fields', item', by simpa using hinv', by simpa [hrepAt] using hrep, fun r h => ?_⟩
  obtain ⟨c, tail, hput, -, hc2⟩ := digitRange_oneofField.putBase92Varint_eq f.number
  have hend' : EndsDigits kMinOneofField kMaxOneofField
      (moreMembers (is.map (numberAt orig)) ++ rest) := by
    cases is with
    | nil => simpa [moreMembers] using hend
    | cons j is =>
      intro c hc
      obtain rfl : kFieldSeparator = c := by simpa [moreMembers] using hc
      decide
  have hstep := decodeOneofField_eq hsorted hcount hpos hdense hdl hsize counts hinv
    hi hoff hdone (by simp) hput hnum hend'
  have hchars : oneofChars ((i :: is).map (numberAt orig)) ++ rest =
      c :: (tail ++ (moreMembers (is.map (numberAt orig)) ++ rest)) := by
    have hm : memberChars f.number = c :: tail := hput
    simp [oneofChars, hnumber, hm]
  rw [hchars]
  exact .member hc2 hstep (by simp) (hdecode r h)

/-- A list of oneofs with disjoint members, from the first one on. -/
theorem decodes_oneofs {o : List ℕ} {os : List (List ℕ)} {fields : List MiniTableField}
    {items : List OneOfLayoutItem} {counts : FieldRep → ℕ} {done : List (List ℕ)} {rep : FieldRep}
    (hne : ∀ p ∈ o :: os, p ≠ []) (hinv : OneofInv orig fields items done [] ⟨kIndexSentinel, rep⟩)
    (hadd : Addable orig (o :: os).flatten) (hnodup : (o :: os).flatten.Nodup)
    (hfresh : ∀ i ∈ (o :: os).flatten, i ∉ done.flatten) :
    ∃ fields' items' rep', OneofInv orig fields' items' (done ++ o :: os) [] ⟨kIndexSentinel, rep'⟩ ∧
      items'.map (·.rep) =
        items.map (·.rep) ++ oneofReps d.platform (repAt orig) rep (o :: os) ∧
      DecodesOneofs (oneofDecoder d fields items counts) ⟨kIndexSentinel, rep⟩
        (oneofChars (o.map (numberAt orig)) ++ moreOneofs (os.map (·.map (numberAt orig))))
        (.ok (oneofDecoder d fields' items'
          (pushedCounts counts (oneofReps d.platform (repAt orig) rep (o :: os))))) := by
  induction os generalizing o fields items counts done rep with
  | nil =>
    have ho := hne o List.mem_cons_self
    obtain ⟨fields', item', hinv', hrep, hdecode⟩ := decodes_oneof hsorted hcount hpos hdense hdl
      hsize counts ho hinv (by simpa using hadd) (by simpa using hnodup)
      (by simpa using hfresh) endsDigits_nil
    refine ⟨fields', _, item'.rep, hinv'.push ho _, ?_, ?_⟩
    · simp [oneofReps, hrep]
    · have h := hdecode _ (.nil (pushOneof_eq d counts hinv' ho))
      simpa [moreOneofs, oneofReps, pushedCounts, ← hrep] using h
  | cons p os ih =>
    have ho := hne o List.mem_cons_self
    simp only [List.flatten_cons] at hadd hnodup hfresh ih
    obtain ⟨hno, hnrest, hdisj⟩ := List.nodup_append.mp hnodup
    -- the separator of the next oneof ends the last number of this one
    have hend : EndsDigits kMinOneofField kMaxOneofField
        (moreOneofs ((p :: os).map (·.map (numberAt orig)))) := by
      intro c hc
      obtain rfl : kOneofSeparator = c := by simpa [moreOneofs] using hc
      decide
    obtain ⟨fields', item', hinv', hrep, hdecode⟩ := decodes_oneof hsorted hcount hpos hdense hdl
      hsize counts ho hinv (fun i hi => hadd i (List.mem_append_left _ hi)) hno
      (fun i hi => hfresh i (List.mem_append_left _ hi)) hend
    obtain ⟨fields'', items', rep', hinv'', hreps, hrest⟩ := ih
      (fun q hq => hne q (List.mem_cons_of_mem _ hq)) (hinv'.push ho item'.rep)
      (fun i hi => hadd i (List.mem_append_right _ hi)) hnrest (fun i hi => by
        simp only [List.flatten_append, List.flatten_singleton, List.mem_append, not_or]
        exact ⟨hfresh i (List.mem_append_right _ hi), fun ho => hdisj i ho i hi rfl⟩)
    refine ⟨fields'', items', rep', by simpa using hinv'', ?_, ?_⟩
    · rw [hreps]
      simp [oneofReps, ← hrep]
    · have h := hdecode _ (.oneofSeparator (pushOneof_eq d counts hinv' ho) hrest)
      simp only [oneofReps, pushedCounts, List.foldl_cons, ← hrep] at h ⊢
      exact h

end Decode

end MiniDescriptor

end Upb
