import Upb.MiniDescriptor.FieldNumbers
import Upb.MiniDescriptor.ParseOneofs

/-!
# What a descriptor declares

The fields of an arbitrary descriptor as the parser reads them, with their presence class in `offset`, and
its oneofs as lists of indices. If the links between the members of oneofs fit into 16 bits, the parser
leaves the fields with the members of each oneof linked.
-/

namespace Upb

open Upb.Common (Seg)

namespace MiniTable

/-- The search for a field reads the numbers of the fields only. -/
theorem findFieldByNumber_congr {m m' : MiniTable} (hcount : m'.fieldCount = m.fieldCount)
    (hdense : m'.denseBelow = m.denseBelow)
    (hnumbers : m'.fields.map (·.number) = m.fields.map (·.number)) (number : ℕ) :
    m'.findFieldByNumber number = m.findFieldByNumber number := by
  have hget : ∀ i : ℕ, (m'.fields[i]?).map (·.number) = (m.fields[i]?).map (·.number) := by
    intro i
    rw [← List.getElem?_map, ← List.getElem?_map, hnumbers]
  have hbisect : ∀ (fuel lo : ℕ) (hi : ℤ),
      bisect m'.fields number fuel lo hi = bisect m.fields number fuel lo hi := by
    intro fuel
    induction fuel with
    | zero => exact fun _ _ => rfl
    | succ fuel ih =>
      intro lo hi
      rw [bisect, bisect]
      simp only [ih]
      split
      · rfl
      · have hmid := hget ((hi + lo) / 2).toNat
        cases hf' : m'.fields[((hi + lo) / 2).toNat]? with
        | none =>
          rw [hf', Option.map_none] at hmid
          rw [Option.map_eq_none_iff.mp hmid.symm]
        | some f' =>
          rw [hf', Option.map_some] at hmid
          obtain ⟨f, hf, heq⟩ := Option.map_eq_some_iff.mp hmid.symm
          rw [hf]
          simp only [heq]
  rw [findFieldByNumber, findFieldByNumber, hcount, hdense]
  split
  · rfl
  · have hlast := hget (m.fieldCount - 1)
    cases hf' : m'.fields[m.fieldCount - 1]? with
    | none =>
      rw [hf', Option.map_none] at hlast
      rw [Option.map_eq_none_iff.mp hlast.symm]
    | some f' =>
      rw [hf', Option.map_some] at hlast
      obtain ⟨f, hf, heq⟩ := Option.map_eq_some_iff.mp hlast.symm
      rw [hf]
      simp only [heq, hbisect]

end MiniTable

namespace MiniDescriptor

/-- The members of the oneofs that a descriptor lists behind `kEnd`, as the indices that the search for
their numbers gives; `cur` are the members of the current oneof. -/
def readOneofs (find : ℕ → Option ℕ) : ℕ → List ℕ → List ℕ → List (List ℕ)
  | _, [], cur => [cur]
  | 0, _, cur => [cur]
  | fuel + 1, ch :: rest, cur =>
    if ch = kFieldSeparator then readOneofs find fuel rest cur
    else if ch = kOneofSeparator then cur :: readOneofs find fuel rest []
    else
      match decodeVarint ch kMinOneofField kMaxOneofField rest with
      | none => [cur]
      | some (number, rest) =>
        match find number with
        | none => [cur]
        | some i => readOneofs find fuel rest (cur ++ [i])

/-- The fields and oneofs of a descriptor. -/
structure Declaration where
  fields : List MiniTableField
  oneofs : List (List ℕ)

/-- The declaration that a run of the parser has read. -/
def Declaration.of (s : ParseState) (oneofs : Option (List ℕ)) : Declaration where
  fields := s.d.table.fields
  oneofs := oneofs.elim [] fun rest => readOneofs s.d.table.findFieldByNumber rest.length rest []

/-- The loop of `upb_MtDecoder_Parse` up to the oneofs. -/
def scan : ℕ → ParseState → List ℕ → Except MdError (ParseState × Option (List ℕ))
  | _, s, [] => .ok (s, none)
  | 0, s, _ => .ok (s, none)
  | fuel + 1, s, ch :: rest =>
    if ch ≤ kMaxField then do
      let s ← parseField s ch
      scan fuel s rest
    else if kMinModifier ≤ ch ∧ ch ≤ kMaxModifier then do
      let (s, rest) ← parseModifier s ch rest
      scan fuel s rest
    else if ch = kEnd then .ok (s, some rest)
    else if kMinSkip ≤ ch ∧ ch ≤ kMaxSkip then do
      let (s, rest) ← parseSkip s ch rest
      scan fuel s rest
    else .error (.invalidChar ch)

/-- What the descriptor `data`, without its version, declares. -/
def declare (platform : Platform) (data : List ℕ) : Option Declaration :=
  ((scan data.length ⟨MtDecoder.initial platform, 0, 0, true⟩ data).toOption).map fun (s, oneofs) =>
    .of s oneofs

/-- A run of the parser up to the oneofs. -/
theorem Scan.scan_eq {s s' : ParseState} {input : List ℕ} {oneofs : Option (List ℕ)}
    (h : Scan s input s' oneofs) {fuel : ℕ} (hfuel : input.length ≤ fuel) :
    scan fuel s input = .ok (s', oneofs) := by
  induction h generalizing fuel with
  | done s => cases fuel <;> rfl
  | field hch h _ ih =>
    obtain ⟨fuel, rfl⟩ : ∃ n, fuel = n + 1 := ⟨fuel - 1, by simp at hfuel; omega⟩
    rw [scan, if_pos hch, h]
    exact ih (Nat.le_of_succ_le_succ hfuel)
  | modifier hch hmod hdec h _ ih =>
    obtain ⟨fuel, rfl⟩ : ∃ n, fuel = n + 1 := ⟨fuel - 1, by simp at hfuel; omega⟩
    rw [scan, if_neg hch, if_pos hmod, parseModifier_eq, hdec]
    simp only [h]
    exact ih ((length_decodeVarint hdec).trans (Nat.le_of_succ_le_succ hfuel))
  | oneofs s rest =>
    obtain ⟨fuel, rfl⟩ : ∃ n, fuel = n + 1 := ⟨fuel - 1, by simp at hfuel; omega⟩
    rw [scan, if_neg (by decide), if_neg (by decide), if_pos rfl]
  | skip hch hmod hend hskip hdec _ ih =>
    obtain ⟨fuel, rfl⟩ : ∃ n, fuel = n + 1 := ⟨fuel - 1, by simp at hfuel; omega⟩
    rw [scan, if_neg hch, if_neg hmod, if_neg hend, if_pos hskip, parseSkip_eq, hdec]
    exact ih ((length_decodeVarint hdec).trans (Nat.le_of_succ_le_succ hfuel))

section Links

/-- The indices of fields that are plain and optional, each listed once. -/
structure Members (orig : List MiniTableField) (is : List ℕ) : Prop where
  nodup : is.Nodup
  hasbit : ∀ i ∈ is, ∃ f, orig[i]? = some f ∧ f.offset = kHasbitPresence

/-- The members read so far are members of a oneof. -/
theorem mem_readOneofs (find : ℕ → Option ℕ) (fuel : ℕ) (rest cur : List ℕ) :
    ∀ i ∈ cur, i ∈ (readOneofs find fuel rest cur).flatten := by
  induction fuel generalizing rest cur with
  | zero => cases rest <;> simp [readOneofs]
  | succ fuel ih =>
    cases rest with
    | nil => simp [readOneofs]
    | cons ch rest =>
      intro i hi
      rw [readOneofs]
      split
      · exact ih rest cur i hi
      · split
        · exact List.mem_flatten.mpr ⟨cur, List.mem_cons_self, hi⟩
        · split
          · simpa using hi
          · split
            · simpa using hi
            · exact ih _ _ i (List.mem_append_left _ hi)

/-- The links between the members of the oneofs and to the last of them fit into 16 bits and differ from
the sentinel. -/
def LinksFit (oneofs : List (List ℕ)) : Prop :=
  ∀ i ∈ oneofs.flatten, i + kOneofBase < kIndexSentinel

/-- Pushing a oneof that is accepted. -/
private theorem pushOneof_ok {d d' : MtDecoder} {counts : FieldRep → ℕ} {fields : List MiniTableField}
    {items : List OneOfLayoutItem} {done : List (List ℕ)} {cur : List ℕ} {item : OneOfLayoutItem}
    (hinv : OneofInv d.table.fields fields items done cur item)
    (h : pushOneof (oneofDecoder d fields items counts) item = .ok d') :
    cur ≠ [] ∧ d' = oneofDecoder d fields
      (items ++ [{ item with fieldIndex := item.fieldIndex - kOneofBase }])
      (bumpRep (bumpRep counts .rep4Byte) item.rep) := by
  have hcur : cur ≠ [] := by
    intro hcur
    rw [pushOneof, if_pos (hinv.started.mp hcur)] at h
    cases h
  rw [pushOneof_eq d counts hinv hcur] at h
  cases h
  exact ⟨hcur, rfl⟩

/-- Linking a member that is accepted. -/
private theorem decodeOneofField_ok {d : MtDecoder} {counts : FieldRep → ℕ} {fields : List MiniTableField}
    {items : List OneOfLayoutItem} {done : List (List ℕ)} {cur : List ℕ} {item : OneOfLayoutItem}
    (hinv : OneofInv d.table.fields fields items done cur item) {ch : ℕ} {rest : List ℕ}
    {r : MtDecoder × OneOfLayoutItem × List ℕ}
    (h : decodeOneofField (oneofDecoder d fields items counts) ch rest item = .ok r) :
    ∃ number i f rest', decodeVarint ch kMinOneofField kMaxOneofField rest = some (number, rest') ∧
      d.table.findFieldByNumber number = some i ∧ d.table.fields[i]? = some f ∧
      f.offset = kHasbitPresence ∧ i ∉ done.flatten ∧ i ∉ cur ∧
      r = (oneofDecoder d (fields.set i { f with offset := item.fieldIndex }) items counts,
        ⟨toUint16 (i + kOneofBase), largerRep d.platform item.rep f.mode.rep⟩, rest') := by
  have hnumbers : fields.map (·.number) = d.table.fields.map (·.number) := by
    have h := congrArg (List.map (·.number)) hinv.same
    simpa [List.map_map, Function.comp_def, eraseOffset] using h
  have hsearch : ∀ number, (oneofDecoder d fields items counts).table.findFieldByNumber number =
      d.table.findFieldByNumber number := MiniTable.findFieldByNumber_congr rfl rfl hnumbers
  rw [decodeOneofField] at h
  split at h
  · cases h
  · next number rest' hdec =>
    rw [hsearch] at h
    split at h
    · cases h
    · next i hfind =>
      split at h
      · cases h
      · next f hf =>
        split at h
        · cases h
        · next hclass =>
          rw [not_not] at hclass
          cases h
          -- a member of a oneof holds a link, which is not a presence class
          have hlt : ¬ kOneofBase ≤ f.offset := by rw [hclass]; decide
          have hdone : i ∉ done.flatten := fun hi => hlt (hinv.member i (.inl hi) f hf)
          have hcur : i ∉ cur := fun hi => hlt (hinv.member i (.inr hi) f hf)
          exact ⟨number, i, f, rest', hdec, hfind, (hinv.frame i hdone hcur).symm.trans hf, hclass, hdone,
            hcur, rfl⟩

/-- A field number adds a member to the oneof that is read. -/
private theorem readOneofs_field {find : ℕ → Option ℕ} {fuel ch number i : ℕ} {rest rest' cur : List ℕ}
    (hsep : ch ≠ kFieldSeparator) (hone : ch ≠ kOneofSeparator)
    (hdec : decodeVarint ch kMinOneofField kMaxOneofField rest = some (number, rest'))
    (hfind : find number = some i) :
    readOneofs find (fuel + 1) (ch :: rest) cur = readOneofs find fuel rest' (cur ++ [i]) := by
  rw [readOneofs, if_neg hsep, if_neg hone, hdec]
  simp only [hfind]

/-- The oneofs that are read are as many as those that are linked, and have fields as members. -/
private theorem readOneofs_of_decode {t : MiniTable} {d d' : MtDecoder} {item : OneOfLayoutItem} {fuel : ℕ}
    {rest cur : List ℕ} (hfuel : rest.length ≤ fuel) (h : decodeOneofsLoop fuel d item rest = .ok d')
    (hsame : SameNumbers t d.table) (hcur : ∀ i ∈ cur, i < t.fields.length) :
    let oneofs := readOneofs t.findFieldByNumber fuel rest cur
    (∀ i ∈ oneofs.flatten, i < t.fields.length) ∧ d'.oneofs.length = d.oneofs.length + oneofs.length := by
  have hpush (d d' : MtDecoder) (item : OneOfLayoutItem) (h : pushOneof d item = .ok d') :
      d'.oneofs.length = d.oneofs.length + 1 := by
    rw [pushOneof] at h
    split at h
    · cases h
    · cases h
      simp
  induction fuel generalizing d item rest cur with
  | zero =>
    obtain rfl := List.eq_nil_of_length_eq_zero (Nat.le_zero.mp hfuel)
    exact ⟨by simpa [readOneofs] using hcur, hpush _ _ _ h⟩
  | succ fuel ih =>
    cases rest with
    | nil => exact ⟨by simpa [readOneofs] using hcur, hpush _ _ _ h⟩
    | cons ch rest =>
      have hlen := Nat.le_of_succ_le_succ hfuel
      rw [decodeOneofsLoop] at h
      split at h
      · next hsep =>
        rw [readOneofs, if_pos hsep]
        exact ih hlen h hsame hcur
      · next hsep =>
        split at h
        · next hone =>
          rw [readOneofs, if_neg hsep, if_pos hone]
          obtain ⟨d₁, hpushed, h⟩ := bind_eq_ok.mp h
          obtain ⟨hlt, hlength⟩ := ih hlen h
            (hsame.trans (frame_pushOneof hpushed).sameNumbers) (List.forall_mem_nil _)
          refine ⟨?_, ?_⟩
          · intro i hi
            rcases List.mem_append.mp (List.flatten_cons ▸ hi) with hi | hi
            · exact hcur i hi
            · exact hlt i hi
          · rw [hlength, hpush _ _ _ hpushed, List.length_cons]
            omega
        · next hone =>
          obtain ⟨r, hfield, h⟩ := bind_eq_ok.mp h
          have hframe := frame_decodeOneofField hfield
          have hsearch : ∀ number, d.table.findFieldByNumber number = t.findFieldByNumber number :=
            MiniTable.findFieldByNumber_congr hsame.fieldCount_eq hsame.denseBelow_eq hsame.numbers_eq
          rw [decodeOneofField] at hfield
          split at hfield
          · cases hfield
          · next number rest' hdec =>
            rw [hsearch] at hfield
            split at hfield
            · cases hfield
            · next i hfind =>
              split at hfield
              · cases hfield
              · next f hf =>
                have hlength : d.table.fields.length = t.fields.length := by
                  simpa [numbers] using congrArg List.length hsame.numbers_eq
                have hi : i < t.fields.length := hlength ▸ (List.getElem?_eq_some_iff.mp hf).1
                split at hfield
                · cases hfield
                · cases hfield
                  rw [readOneofs_field hsep hone hdec hfind]
                  have hcur' : ∀ j ∈ cur ++ [i], j < t.fields.length := by
                    intro j hj
                    rcases List.mem_append.mp hj with hj | hj
                    · exact hcur j hj
                    · exact List.mem_singleton.mp hj ▸ hi
                  obtain ⟨hlt, hlength⟩ := ih ((length_decodeVarint hdec).trans hlen) h
                    (hsame.trans hframe.sameNumbers) hcur'
                  exact ⟨hlt, hlength⟩

/-- The oneofs that are read are those that are linked. -/
private theorem decodeOneofsLoop_ok {d d' : MtDecoder} {counts : FieldRep → ℕ} {rep : FieldRep}
    {fields : List MiniTableField} {items : List OneOfLayoutItem} {done : List (List ℕ)} {cur : List ℕ}
    {item : OneOfLayoutItem} {fuel : ℕ} {rest : List ℕ} (hfuel : rest.length ≤ fuel)
    (h : decodeOneofsLoop fuel (oneofDecoder d fields items counts) item rest = .ok d')
    (hinv : OneofInv d.table.fields fields items done cur item)
    (hmem : Members d.table.fields (done.flatten ++ cur))
    (hrep : item.rep = cur.foldl (fun r i => largerRep d.platform r (repAt d.table.fields i)) rep)
    (hlinks : LinksFit (readOneofs d.table.findFieldByNumber fuel rest cur)) :
    let oneofs := readOneofs d.table.findFieldByNumber fuel rest cur
    let reps := oneofReps d.platform (repAt d.table.fields) rep oneofs
    (∀ o ∈ oneofs, o ≠ []) ∧ Members d.table.fields (done ++ oneofs).flatten ∧
    ∃ fields' items' rep', d' = oneofDecoder d fields' items' (pushedCounts counts reps) ∧
      OneofInv d.table.fields fields' items' (done ++ oneofs) [] ⟨kIndexSentinel, rep'⟩ ∧
      items'.map (·.rep) = items.map (·.rep) ++ reps := by
  induction fuel generalizing counts rep fields items done cur item rest with
  | zero =>
    obtain rfl := List.eq_nil_of_length_eq_zero (Nat.le_zero.mp hfuel)
    obtain ⟨hcur, rfl⟩ := pushOneof_ok hinv h
    simp only [readOneofs]
    exact ⟨by simpa using hcur, by simpa using hmem, fields, _, .rep1Byte,
      by simp [oneofReps, pushedCounts, ← hrep], hinv.push hcur _, by simp [oneofReps, hrep]⟩
  | succ fuel ih =>
    cases rest with
    | nil =>
      obtain ⟨hcur, rfl⟩ := pushOneof_ok hinv h
      simp only [readOneofs]
      exact ⟨by simpa using hcur, by simpa using hmem, fields, _, .rep1Byte,
        by simp [oneofReps, pushedCounts, ← hrep], hinv.push hcur _, by simp [oneofReps, hrep]⟩
    | cons ch rest =>
      have hlen := Nat.le_of_succ_le_succ hfuel
      rw [decodeOneofsLoop] at h
      rw [readOneofs] at hlinks ⊢
      split at h
      · next hsep =>
        rw [if_pos hsep] at hlinks ⊢
        exact ih hlen h hinv hmem hrep hlinks
      · next hsep =>
        rw [if_neg hsep] at hlinks ⊢
        split at h
        · next hone =>
          rw [if_pos hone] at hlinks ⊢
          obtain ⟨d₁, hpush, h⟩ := bind_eq_ok.mp h
          obtain ⟨hcur, rfl⟩ := pushOneof_ok hinv hpush
          have hrep' : item.rep = ([] : List ℕ).foldl
              (fun r i => largerRep d.platform r (repAt d.table.fields i)) item.rep := rfl
          obtain ⟨hne, hmem', fields', items', rep', hd', hinv', hreps⟩ := ih hlen h (hinv.push hcur _)
            (by simpa using hmem) hrep' fun i hi => hlinks i (by simp [hi])
          refine ⟨List.forall_mem_cons.mpr ⟨hcur, hne⟩, by simpa using hmem', fields', items', rep', ?_,
            by simpa using hinv', ?_⟩
          · simpa [oneofReps, pushedCounts, ← hrep] using hd'
          · simpa [oneofReps, ← hrep] using hreps
        · next hone =>
          rw [if_neg hone] at hlinks ⊢
          obtain ⟨r, hfield, h⟩ := bind_eq_ok.mp h
          obtain ⟨number, i, f, rest', hdec, hfind, hi, hclass, hdone, hcur, rfl⟩ :=
            decodeOneofField_ok hinv hfield
          rw [hdec] at hlinks ⊢
          simp only [hfind] at hlinks ⊢
          have hbound := hlinks i (mem_readOneofs _ _ _ _ i (by simp))
          have hindex : toUint16 (i + kOneofBase) = i + kOneofBase := by
            simp only [toUint16, kOneofBase, kIndexSentinel] at *
            omega
          rw [hindex] at h
          refine ih ((length_decodeVarint hdec).trans hlen) h (hinv.link _ hi hdone hcur hbound) ⟨?_, ?_⟩ ?_
            hlinks
          · rw [← List.append_assoc]
            refine hmem.nodup.append (List.nodup_singleton i) ?_
            rw [List.disjoint_singleton, List.mem_append, not_or]
            exact ⟨hdone, hcur⟩
          · intro j hj
            rw [← List.append_assoc, List.mem_append, List.mem_singleton] at hj
            rcases hj with hj | rfl
            · exact hmem.hasbit j hj
            · exact ⟨f, hi, hclass⟩
          · simp [hrep, repAt, hi]

end Links

section Parsed

/-- The representations of the oneofs of a declaration. -/
def Declaration.reps (platform : Platform) (decl : Declaration) : List FieldRep :=
  oneofReps platform (repAt decl.fields) .rep1Byte decl.oneofs

/-- The decoder in front of the oneofs: every field has a presence class and no presence. -/
structure Plain (platform : Platform) (d : MtDecoder) : Prop where
  platform_eq : d.platform = platform
  oneofs_eq : d.oneofs = []
  repCounts_eq : d.repCounts = fun _ => 0
  fields : ∀ f ∈ d.table.fields, f.offset < kOneofBase ∧ f.presence = 0

theorem plain_initial (platform : Platform) : Plain platform (MtDecoder.initial platform) :=
  ⟨rfl, rfl, rfl, by simp [MtDecoder.initial]⟩

theorem d_setDenseBelow (s : ParseState) : ∃ denseBelow,
    (setDenseBelow s).d = { s.d with table := { s.d.table with denseBelow := denseBelow } } := by
  rw [setDenseBelow]
  cases s.needDenseBelow <;> exact ⟨_, rfl⟩

/-- A run of the parser keeps fields plain. -/
theorem Scan.plain {platform : Platform} {s s' : ParseState} {input : List ℕ} {oneofs : Option (List ℕ)}
    (h : Scan s input s' oneofs) (hs : Plain platform s.d) : Plain platform s'.d := by
  induction h with
  | done s => exact hs
  | field _ h _ ih =>
    obtain ⟨f, subCount, -, -, hoffset, hpresence, rfl⟩ := parseField_eq h
    refine ih ⟨hs.platform_eq, hs.oneofs_eq, hs.repCounts_eq, fun g hg => ?_⟩
    rcases List.mem_append.mp hg with hg | hg
    · exact hs.fields g hg
    · rw [List.mem_singleton.mp hg]
      exact ⟨hoffset, hpresence⟩
  | modifier _ _ _ h _ ih =>
    obtain ⟨fields, msgModifiers, ext, rfl, hfields⟩ := applyModifier_eq h
    refine ih ⟨hs.platform_eq, hs.oneofs_eq, hs.repCounts_eq, fun g hg => ?_⟩
    rcases hfields with rfl | ⟨f, f', hf, rfl, hmod⟩
    · exact hs.fields g hg
    · have hlast := hs.fields f (by rw [hf]; simp)
      rcases List.mem_append.mp hg with hg | hg
      · exact hs.fields g (List.dropLast_subset _ hg)
      · rw [List.mem_singleton.mp hg]
        exact ⟨hmod.offset.elim (fun he => he ▸ hlast.1) id, hmod.presence_eq.trans hlast.2⟩
  | oneofs s rest => exact hs
  | @skip s _ _ _ _ skip _ _ _ _ _ _ _ ih =>
    obtain ⟨denseBelow, heq⟩ := d_setDenseBelow s
    refine ih ?_
    rw [applySkip, heq]
    exact ⟨hs.platform_eq, hs.oneofs_eq, hs.repCounts_eq, hs.fields⟩

/-- The decoder after the parse of a descriptor with the declaration `decl`. -/
structure ParsedAs (platform : Platform) (decl : Declaration) (d : MtDecoder) : Prop where
  platform_eq : d.platform = platform
  length_eq : d.table.fields.length = decl.fields.length
  fieldCount_eq : d.table.fieldCount = toUint16 decl.fields.length
  plain : ∀ f ∈ decl.fields, f.offset < kOneofBase ∧ f.presence = 0
  members_lt : ∀ i ∈ decl.oneofs.flatten, i < decl.fields.length
  oneofs_length : d.oneofs.length = decl.oneofs.length

/-- Besides, the members of its oneofs are linked. -/
structure LinkedAs (platform : Platform) (decl : Declaration) (d : MtDecoder) : Prop where
  inv : ∃ rep, OneofInv decl.fields d.table.fields d.oneofs decl.oneofs [] ⟨kIndexSentinel, rep⟩
  reps : d.oneofs.map (·.rep) = decl.reps platform
  counts : d.repCounts = pushedCounts (fun _ => 0) (decl.reps platform)
  members : Members decl.fields decl.oneofs.flatten
  nonempty : ∀ o ∈ decl.oneofs, o ≠ []

/-- What the parser leaves of an accepted descriptor. -/
theorem parsedAs_of_parse {platform : Platform} {data : List ℕ} {d : MtDecoder}
    (h : parse (MtDecoder.initial platform) data = .ok d) :
    ∃ decl, declare platform data = some decl ∧ ParsedAs platform decl d ∧
      (LinksFit decl.oneofs → LinkedAs platform decl d) := by
  obtain ⟨s₁, oneofs, s₂, hscan, hafter, rfl⟩ := scan_of_parse h
  have hplain : Plain platform s₁.d := hscan.plain (plain_initial platform)
  have hcounted : Counted s₁ := hscan.counted rfl
  refine ⟨.of s₁ oneofs, ?_, ?_⟩
  · rw [declare, hscan.scan_eq (Nat.le_refl _)]
    rfl
  obtain ⟨denseBelow, hdense⟩ := d_setDenseBelow s₂
  rw [hdense]
  cases oneofs with
  | none =>
    cases hafter
    refine ⟨⟨hplain.platform_eq, rfl, hcounted, hplain.fields, by simp [Declaration.of],
      by rw [hplain.oneofs_eq]; rfl⟩, fun _ => ?_⟩
    exact ⟨⟨.rep1Byte, by rw [hplain.oneofs_eq]; exact OneofInv.init _ _⟩,
      by rw [hplain.oneofs_eq]; rfl, hplain.repCounts_eq, ⟨List.nodup_nil, by simp [Declaration.of]⟩,
      by simp [Declaration.of]⟩
  | some rest =>
    obtain ⟨d, hdec, rfl⟩ := map_eq_ok.mp hafter
    have hframe := frame_decodeOneofs hdec
    obtain ⟨hnumbers, hcount, -⟩ := hframe.sameNumbers
    have hlen : d.table.fields.length = s₁.d.table.fields.length := by
      simpa [numbers] using congrArg List.length hnumbers
    have hd : s₁.d = oneofDecoder s₁.d s₁.d.table.fields [] (fun _ => 0) := by
      rw [oneofDecoder, ← hplain.oneofs_eq, ← hplain.repCounts_eq]
    have hplatform : d.platform = s₁.d.platform := congrArg (·.platform) hframe.frame
    obtain ⟨hlt, hlength⟩ := readOneofs_of_decode (Nat.le_refl _) hdec ⟨rfl, rfl, rfl⟩
      (List.forall_mem_nil _)
    rw [hplain.oneofs_eq, List.length_nil, Nat.zero_add] at hlength
    refine ⟨⟨hplatform.trans hplain.platform_eq, hlen, hcount.trans hcounted, hplain.fields, hlt, hlength⟩,
      fun hlinks => ?_⟩
    rw [decodeOneofs] at hdec
    nth_rewrite 1 [hd] at hdec
    obtain ⟨hne, hmem, fields', items', rep', rfl, hinv, hreps⟩ := decodeOneofsLoop_ok (Nat.le_refl _) hdec
      (OneofInv.init _ _) ⟨List.nodup_nil, by simp⟩ rfl hlinks
    refine ⟨⟨rep', hinv⟩, ?_, ?_, hmem, hne⟩
    · rw [Declaration.reps, ← hplain.platform_eq]
      exact hreps
    · rw [Declaration.reps, ← hplain.platform_eq]
      rfl

end Parsed

end MiniDescriptor

end Upb
