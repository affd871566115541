import Upb.MiniDescriptor.Scan

/-!
# Field numbers of arbitrary descriptors

The numbers of the fields of a table are the sums of what the descriptor skips, in 32 bits. A skip of
zero goes back by one, and larger steps back wrap around; the search for a field by its number relies
on numbers that increase.
-/

namespace Upb

namespace MiniDescriptor

/-- What a descriptor says about numbers: a field, or a skip. -/
inductive Piece where
  | field
  | skip (skip : ℕ)
  deriving DecidableEq

/-- The fields and skips of a descriptor, up to its oneofs. -/
def pieces : ℕ → List ℕ → List Piece
  | _, [] => []
  | 0, _ => []
  | fuel + 1, ch :: rest =>
    if ch ≤ kMaxField then .field :: pieces fuel rest
    else if kMinModifier ≤ ch ∧ ch ≤ kMaxModifier then
      (decodeVarint ch kMinModifier kMaxModifier rest).elim [] fun (_, rest) => pieces fuel rest
    else if kMinSkip ≤ ch ∧ ch ≤ kMaxSkip then
      (decodeVarint ch kMinSkip kMaxSkip rest).elim [] fun (skip, rest) => .skip skip :: pieces fuel rest
    else []

/-- The oneofs end the pieces. -/
theorem pieces_end (fuel : ℕ) (rest : List ℕ) : pieces fuel (kEnd :: rest) = [] := by
  cases fuel with
  | zero => rfl
  | succ fuel => rw [pieces, if_neg (by decide), if_neg (by decide), if_neg (by decide)]

/-- A skip is a piece. -/
theorem pieces_skip {ch skip : ℕ} {rest rest' : List ℕ} (hch : ¬ ch ≤ kMaxField)
    (hmod : ¬ (kMinModifier ≤ ch ∧ ch ≤ kMaxModifier)) (hskip : kMinSkip ≤ ch ∧ ch ≤ kMaxSkip)
    (hdec : decodeVarint ch kMinSkip kMaxSkip rest = some (skip, rest')) (fuel : ℕ) :
    pieces (fuel + 1) (ch :: rest) = .skip skip :: pieces fuel rest' := by
  rw [pieces, if_neg hch, if_neg hmod, if_pos hskip, hdec, Option.elim_some]

/-- The number of fields in front of the first skip. -/
def leadingFields (ps : List Piece) : ℕ := (ps.takeWhile (· == .field)).length

/-- How far the number of each field lies beyond the one after the field before it. -/
def gaps : ℤ → List Piece → List ℤ
  | _, [] => []
  | gap, .field :: ps => gap :: gaps 0 ps
  | gap, .skip skip :: ps => gaps (gap + skip - 1) ps

/-- The number of fields that the table counts. -/
def countedFields (ps : List Piece) : ℕ := ps.count .field % 2 ^ 16

/-- No counted field but the first one lies behind a step back, and the fields that are counted as dense
are counted. -/
structure Ascending (ps : List Piece) : Prop where
  gaps_lt : ∀ gap ∈ ((gaps 0 ps).take (countedFields ps)).tail, gap % 2 ^ 32 < 2 ^ 31
  dense_le : leadingFields ps % 2 ^ 8 ≤ countedFields ps

section Pieces

/-- The number after `last`. -/
@[irreducible] def nextNumber (last : ℕ) : ℕ := (last + 1) % 2 ^ 32

/-- The numbers of the fields after the number `last`. -/
def numbersAfter : ℕ → List Piece → List ℕ
  | _, [] => []
  | last, .field :: ps => nextNumber last :: numbersAfter (nextNumber last) ps
  | last, .skip skip :: ps => numbersAfter (skipNumber last skip) ps

/-- The number that lies a gap beyond the one after `last`. -/
def gapNumber (last : ℕ) (gap : ℤ) : ℕ := ((last + gap + 1) % 2 ^ 32).toNat

/-- The numbers in terms of the gaps. -/
def numbersOfGaps : ℕ → List ℤ → List ℕ
  | _, [] => []
  | last, gap :: gs => gapNumber last gap :: numbersOfGaps (gapNumber last gap) gs

theorem length_gaps (gap : ℤ) (ps : List Piece) : (gaps gap ps).length = ps.count .field := by
  induction ps generalizing gap with
  | nil => rfl
  | cons p ps ih =>
    cases p with
    | field => simp [gaps, ih]
    | skip skip => simp [gaps, ih]

theorem numbersAfter_eq {last last' : ℕ} {gap : ℤ} (h : (last' : ℤ) = (last + gap) % 2 ^ 32)
    (ps : List Piece) : numbersAfter last' ps = numbersOfGaps last (gaps gap ps) := by
  induction ps generalizing last last' gap with
  | nil => rfl
  | cons p ps ih =>
    cases p with
    | field =>
      have hnumber : nextNumber last' = gapNumber last gap := by
        unfold nextNumber gapNumber
        omega
      have hlt : gapNumber last gap < 2 ^ 32 := by
        unfold gapNumber
        omega
      rw [numbersAfter, gaps, numbersOfGaps, hnumber]
      exact congrArg _ (ih (by omega))
    | skip skip =>
      have hnumber : (skipNumber last' skip : ℤ) = (last + (gap + skip - 1)) % 2 ^ 32 := by
        unfold skipNumber
        omega
      rw [numbersAfter, gaps]
      exact ih hnumber

theorem take_numbersOfGaps (last n : ℕ) (gs : List ℤ) :
    (numbersOfGaps last gs).take n = numbersOfGaps last (gs.take n) := by
  induction gs generalizing last n with
  | nil => simp [numbersOfGaps]
  | cons g gs ih =>
    cases n with
    | zero => rfl
    | succ n => simp [numbersOfGaps, ih]

/-- Valid numbers increase from a valid number on exactly if no gap is a step back. -/
theorem isChain_numbersOfGaps {last : ℕ} {gs : List ℤ} (hlast : last ≤ kMaxFieldNumber)
    (hrange : ∀ n ∈ numbersOfGaps last gs, 1 ≤ n ∧ n ≤ kMaxFieldNumber) :
    List.IsChain (· < ·) (last :: numbersOfGaps last gs) ↔ ∀ gap ∈ gs, gap % 2 ^ 32 < 2 ^ 31 := by
  induction gs generalizing last with
  | nil => simp [numbersOfGaps]
  | cons g gs ih =>
    rw [numbersOfGaps] at hrange ⊢
    have hn := hrange _ List.mem_cons_self
    rw [List.isChain_cons_cons, ih hn.2 fun n hn => hrange n (List.mem_cons_of_mem _ hn),
      List.forall_mem_cons]
    refine and_congr_left fun _ => ?_
    unfold gapNumber at hn ⊢
    simp only [kMaxFieldNumber] at hlast hn
    omega

/-- Valid numbers increase exactly if no gap but the first is a step back. -/
theorem pairwise_numbersOfGaps {last : ℕ} {gs : List ℤ}
    (hrange : ∀ n ∈ numbersOfGaps last gs, 1 ≤ n ∧ n ≤ kMaxFieldNumber) :
    (numbersOfGaps last gs).Pairwise (· < ·) ↔ ∀ gap ∈ gs.tail, gap % 2 ^ 32 < 2 ^ 31 := by
  cases gs with
  | nil => simp [numbersOfGaps]
  | cons g gs =>
    rw [numbersOfGaps] at hrange ⊢
    rw [← List.isChain_iff_pairwise, List.tail_cons]
    exact isChain_numbersOfGaps (hrange _ List.mem_cons_self).2
      fun n hn => hrange n (List.mem_cons_of_mem _ hn)

/-- The fields in front of the first skip have consecutive numbers. -/
theorem numbersAfter_leading {last i : ℕ} {ps : List Piece} (hi : i < leadingFields ps) :
    (numbersAfter last ps)[i]? = some ((last + i + 1) % 2 ^ 32) := by
  induction ps generalizing last i with
  | nil => simp [leadingFields] at hi
  | cons p ps ih =>
    cases p with
    | skip skip => simp [leadingFields] at hi
    | field =>
      cases i with
      | zero =>
        rw [numbersAfter, List.getElem?_cons_zero, nextNumber]
      | succ i =>
        have hi : i < leadingFields ps := by simpa [leadingFields] using hi
        rw [numbersAfter, List.getElem?_cons_succ, ih hi]
        unfold nextNumber
        congr 1
        omega

theorem leadingFields_le (ps : List Piece) : leadingFields ps ≤ ps.count .field := by
  induction ps with
  | nil => rfl
  | cons p ps ih =>
    cases p with
    | skip skip => simp [leadingFields]
    | field => simpa [leadingFields] using ih

end Pieces

section Run

/-- The fields are counted in 16 bits. -/
def Counted (s : ParseState) : Prop := s.d.table.fieldCount = toUint16 s.d.table.fields.length

/-- The numbers of the fields. -/
def numbers (fields : List MiniTableField) : List ℕ := fields.map (·.number)

variable {s s' : ParseState} {input : List ℕ} {oneofs : Option (List ℕ)}

theorem Counted.of_parseField {ch : ℕ} (hs : Counted s) (h : parseField s ch = .ok s') : Counted s' := by
  obtain ⟨f, subCount, -, -, -, -, rfl⟩ := parseField_eq h
  unfold Counted toUint16 at *
  rw [List.length_append, List.length_singleton]
  simp only
  omega

/-- A modifier keeps the numbers. -/
theorem numbers_of_applyModifier {mod : ℕ} (h : applyModifier s mod = .ok s') :
    numbers s'.d.table.fields = numbers s.d.table.fields ∧
      s'.d.table.fieldCount = s.d.table.fieldCount ∧ s'.lastFieldNumber = s.lastFieldNumber ∧
      s'.needDenseBelow = s.needDenseBelow ∧ s'.d.table.denseBelow = s.d.table.denseBelow := by
  obtain ⟨fields, msgModifiers, ext, rfl, hfields⟩ := applyModifier_eq h
  refine ⟨?_, rfl, rfl, rfl, rfl⟩
  rcases hfields with rfl | ⟨f, g, hf, rfl, hmod⟩
  · rfl
  · rw [hf, numbers, numbers, List.dropLast_concat, List.map_append, List.map_append, List.map_singleton,
      List.map_singleton, hmod.number_eq]

theorem Counted.of_applyModifier {mod : ℕ} (hs : Counted s) (h : applyModifier s mod = .ok s') :
    Counted s' := by
  obtain ⟨hnumbers, hcount, -⟩ := numbers_of_applyModifier h
  have hlen : s'.d.table.fields.length = s.d.table.fields.length := by
    simpa [numbers] using congrArg List.length hnumbers
  rw [Counted, hcount, hlen]
  exact hs

/-- A skip changes no field. -/
theorem applySkip_fields (s : ParseState) (skip : ℕ) :
    (applySkip s skip).d.table.fields = s.d.table.fields ∧
      (applySkip s skip).d.table.fieldCount = s.d.table.fieldCount ∧
      (applySkip s skip).needDenseBelow = false ∧
      (s.needDenseBelow = false → (applySkip s skip).d.table.denseBelow = s.d.table.denseBelow) ∧
      (s.needDenseBelow = true →
        (applySkip s skip).d.table.denseBelow = s.d.table.fieldCount % 2 ^ 8) := by
  rw [applySkip, setDenseBelow]
  cases hneed : s.needDenseBelow with
  | false => exact ⟨rfl, rfl, hneed, fun _ => rfl, fun h => absurd h Bool.false_ne_true⟩
  | true => exact ⟨rfl, rfl, rfl, fun h => absurd h.symm Bool.false_ne_true, fun _ => rfl⟩

/-- A run counts its fields. -/
theorem Scan.counted (h : Scan s input s' oneofs) (hs : Counted s) : Counted s' := by
  induction h with
  | done s => exact hs
  | field _ h _ ih => exact ih (hs.of_parseField h)
  | modifier _ _ _ h _ ih => exact ih (hs.of_applyModifier h)
  | oneofs s rest => exact hs
  | @skip s _ _ _ _ skip _ _ _ _ _ _ _ ih =>
    obtain ⟨hfields, hcount, -⟩ := applySkip_fields s skip
    exact ih (by rw [Counted, hfields, hcount]; exact hs)

/-- The numbers that a run adds. -/
theorem Scan.numbers_eq (h : Scan s input s' oneofs) {fuel : ℕ} (hfuel : input.length ≤ fuel) :
    numbers s'.d.table.fields =
      numbers s.d.table.fields ++ numbersAfter s.lastFieldNumber (pieces fuel input) := by
  induction h generalizing fuel with
  | done s => simp [pieces, numbersAfter]
  | @field s s₁ s' ch rest oneofs hch h hrest ih =>
    obtain ⟨fuel, rfl⟩ : ∃ n, fuel = n + 1 := ⟨fuel - 1, by simp at hfuel; omega⟩
    obtain ⟨f, subCount, hnumber, -, -, -, rfl⟩ := parseField_eq h
    rw [ih (Nat.le_of_succ_le_succ hfuel), pieces, if_pos hch, numbersAfter]
    simp [numbers, hnumber, nextNumber]
  | @modifier s s₁ s' ch rest rest₁ mod oneofs hch hmod hdec h hrest ih =>
    obtain ⟨fuel, rfl⟩ : ∃ n, fuel = n + 1 := ⟨fuel - 1, by simp at hfuel; omega⟩
    obtain ⟨hnumbers, -, hlast, -⟩ := numbers_of_applyModifier h
    have hlen := (length_decodeVarint hdec).trans (Nat.le_of_succ_le_succ hfuel)
    rw [ih hlen, pieces, if_neg hch, if_pos hmod, hdec, hnumbers, hlast]
    rfl
  | oneofs s rest => rw [pieces_end, numbersAfter, List.append_nil]
  | @skip s s' ch rest rest₁ skip oneofs hch hmod hend hskip hdec hrest ih =>
    obtain ⟨fuel, rfl⟩ : ∃ n, fuel = n + 1 := ⟨fuel - 1, by simp at hfuel; omega⟩
    have hlen := (length_decodeVarint hdec).trans (Nat.le_of_succ_le_succ hfuel)
    rw [pieces_skip hch hmod hskip hdec, numbersAfter, ih hlen, (applySkip_fields s skip).1,
      applySkip_last]

/-- Every field of a run has a valid number. -/
theorem Scan.range (h : Scan s input s' oneofs)
    (hs : ∀ n ∈ numbers s.d.table.fields, 1 ≤ n ∧ n ≤ kMaxFieldNumber) :
    ∀ n ∈ numbers s'.d.table.fields, 1 ≤ n ∧ n ≤ kMaxFieldNumber := by
  induction h with
  | done s => exact hs
  | field _ h _ ih =>
    obtain ⟨f, subCount, -, hrange, -, -, rfl⟩ := parseField_eq h
    refine ih fun n hn => ?_
    simp only [numbers, List.map_append, List.map_singleton, List.mem_append, List.mem_singleton] at hn
    rcases hn with hn | rfl
    · exact hs n hn
    · exact hrange
  | modifier _ _ _ h _ ih => exact ih (by rw [(numbers_of_applyModifier h).1]; exact hs)
  | oneofs s rest => exact hs
  | @skip s _ _ _ _ skip _ _ _ _ _ _ _ ih => exact ih (by rw [(applySkip_fields s skip).1]; exact hs)

/-- The dense prefix is fixed once. -/
theorem Scan.denseBelow_eq (h : Scan s input s' oneofs) (hs : s.needDenseBelow = false) :
    s'.needDenseBelow = false ∧ s'.d.table.denseBelow = s.d.table.denseBelow := by
  induction h with
  | done s => exact ⟨hs, rfl⟩
  | field _ h _ ih =>
    obtain ⟨f, subCount, -, -, -, -, rfl⟩ := parseField_eq h
    exact ih hs
  | modifier _ _ _ h _ ih =>
    obtain ⟨-, -, -, hneed, hdense⟩ := numbers_of_applyModifier h
    rw [← hdense]
    exact ih (hneed.trans hs)
  | oneofs s rest => exact ⟨hs, rfl⟩
  | @skip s _ _ _ _ skip _ _ _ _ _ _ _ ih =>
    obtain ⟨-, -, hneed, hkeep, -⟩ := applySkip_fields s skip
    rw [← hkeep hs]
    exact ih hneed

/-- The dense prefix that a run leaves, or that the end of the descriptor fixes. -/
theorem Scan.setDenseBelow_eq (h : Scan s input s' oneofs) (hs : Counted s)
    (hneed : s.needDenseBelow = true) {fuel : ℕ} (hfuel : input.length ≤ fuel) :
    (if s'.needDenseBelow then s'.d.table.fieldCount % 2 ^ 8 else s'.d.table.denseBelow) =
      (s.d.table.fields.length + leadingFields (pieces fuel input)) % 2 ^ 8 := by
  have hbase (s : ParseState) (hs : Counted s) (hneed : s.needDenseBelow = true) :
      (if s.needDenseBelow then s.d.table.fieldCount % 2 ^ 8 else s.d.table.denseBelow) =
        s.d.table.fields.length % 2 ^ 8 := by
    unfold Counted toUint16 at hs
    rw [if_pos hneed]
    omega
  induction h generalizing fuel with
  | done s => simpa [pieces, leadingFields] using hbase s hs hneed
  | @field s s₁ s' ch rest oneofs hch h hrest ih =>
    obtain ⟨fuel, rfl⟩ : ∃ n, fuel = n + 1 := ⟨fuel - 1, by simp at hfuel; omega⟩
    have hs₁ := hs.of_parseField h
    obtain ⟨f, subCount, -, -, -, -, rfl⟩ := parseField_eq h
    have hleading : leadingFields (.field :: pieces fuel rest) = leadingFields (pieces fuel rest) + 1 := rfl
    rw [ih hs₁ hneed (Nat.le_of_succ_le_succ hfuel), pieces, if_pos hch, hleading, List.length_append,
      List.length_singleton, Nat.add_assoc, Nat.add_comm 1]
  | @modifier s s₁ s' ch rest rest₁ mod oneofs hch hmod hdec h hrest ih =>
    obtain ⟨fuel, rfl⟩ : ∃ n, fuel = n + 1 := ⟨fuel - 1, by simp at hfuel; omega⟩
    obtain ⟨hnumbers, -, -, hneed₁, -⟩ := numbers_of_applyModifier h
    have hlen := (length_decodeVarint hdec).trans (Nat.le_of_succ_le_succ hfuel)
    have hfields : s₁.d.table.fields.length = s.d.table.fields.length := by
      simpa [numbers] using congrArg List.length hnumbers
    rw [ih (hs.of_applyModifier h) (hneed₁.trans hneed) hlen, pieces, if_neg hch, if_pos hmod, hdec, hfields]
    rfl
  | oneofs s rest =>
    rw [pieces_end]
    exact hbase s hs hneed
  | @skip s s' ch rest rest₁ skip oneofs hch hmod hend hskip hdec hrest ih =>
    obtain ⟨fuel, rfl⟩ : ∃ n, fuel = n + 1 := ⟨fuel - 1, by simp at hfuel; omega⟩
    obtain ⟨-, -, hneed₁, -, hdense⟩ := applySkip_fields s skip
    obtain ⟨hneed', hdense'⟩ := hrest.denseBelow_eq hneed₁
    have hleading : leadingFields (.skip skip :: pieces fuel rest₁) = 0 := rfl
    rw [if_neg (by simp [hneed']), hdense', hdense hneed, pieces_skip hch hmod hskip hdec, hleading]
    unfold Counted toUint16 at hs
    omega

end Run

section Frames

/-- The two tables have the same numbers, and the search reads the same members. -/
structure SameNumbers (t t' : MiniTable) : Prop where
  numbers_eq : numbers t'.fields = numbers t.fields
  fieldCount_eq : t'.fieldCount = t.fieldCount
  denseBelow_eq : t'.denseBelow = t.denseBelow

theorem SameNumbers.trans {t t' t'' : MiniTable} (h : SameNumbers t t') (h' : SameNumbers t' t'') :
    SameNumbers t t'' :=
  ⟨h'.numbers_eq.trans h.numbers_eq, h'.fieldCount_eq.trans h.fieldCount_eq,
    h'.denseBelow_eq.trans h.denseBelow_eq⟩

/-- A field that is replaced by one of the same number. -/
theorem numbers_set {fields : List MiniTableField} {i : ℕ} {f g : MiniTableField}
    (hf : fields[i]? = some f) (hg : g.number = f.number) : numbers (fields.set i g) = numbers fields := by
  obtain ⟨hi, rfl⟩ := List.getElem?_eq_some_iff.mp hf
  rw [numbers, numbers, List.map_set, hg]
  refine List.ext_getElem? fun j => ?_
  by_cases hj : i = j
  · subst hj
    simp [hi]
  · rw [List.getElem?_set_ne hj]

variable {d d' : MtDecoder}

/-- Oneofs change the links of fields, the items and the counts. -/
structure OneofFrame (d d' : MtDecoder) : Prop where
  numbers_eq : numbers d'.table.fields = numbers d.table.fields
  frame : { d' with
    table := { d'.table with fields := d.table.fields }
    oneofs := d.oneofs
    repCounts := d.repCounts } = d

theorem OneofFrame.trans {d d' d'' : MtDecoder} (h : OneofFrame d d') (h' : OneofFrame d' d'') :
    OneofFrame d d'' := by
  refine ⟨h'.numbers_eq.trans h.numbers_eq, ?_⟩
  conv_rhs => rw [← h.frame, ← h'.frame]

/-- A finished oneof keeps the fields. -/
theorem frame_pushOneof {item : OneOfLayoutItem} (h : pushOneof d item = .ok d') : OneofFrame d d' := by
  rw [pushOneof] at h
  split at h
  · cases h
  · cases h
    exact ⟨rfl, rfl⟩

/-- A member of a oneof keeps the numbers. -/
theorem frame_decodeOneofField {ch : ℕ} {rest : List ℕ} {item : OneOfLayoutItem}
    {r : MtDecoder × OneOfLayoutItem × List ℕ} (h : decodeOneofField d ch rest item = .ok r) :
    OneofFrame d r.1 := by
  rw [decodeOneofField] at h
  split at h
  · cases h
  · split at h
    · cases h
    · split at h
      · cases h
      · next f hf =>
        split at h
        · cases h
        · cases h
          exact ⟨numbers_set hf rfl, rfl⟩

/-- Oneofs keep the numbers. -/
theorem frame_decodeOneofs {rest : List ℕ} (h : decodeOneofs d rest = .ok d') : OneofFrame d d' := by
  have hloop (fuel : ℕ) (d : MtDecoder) (item : OneOfLayoutItem) (rest : List ℕ)
      (h : decodeOneofsLoop fuel d item rest = .ok d') : OneofFrame d d' := by
    induction fuel generalizing d item rest with
    | zero =>
      cases rest with
      | nil => exact frame_pushOneof h
      | cons ch rest =>
        cases h
        exact ⟨rfl, rfl⟩
    | succ fuel ih =>
      cases rest with
      | nil => exact frame_pushOneof h
      | cons ch rest =>
        rw [decodeOneofsLoop] at h
        split at h
        · exact ih _ _ _ h
        · split at h
          · obtain ⟨d₁, hp, h⟩ := bind_eq_ok.mp h
            exact (frame_pushOneof hp).trans (ih _ _ _ h)
          · obtain ⟨r, hf, h⟩ := bind_eq_ok.mp h
            exact (frame_decodeOneofField hf).trans (ih _ _ _ h)
  exact hloop _ _ _ _ h

theorem OneofFrame.sameNumbers (h : OneofFrame d d') : SameNumbers d.table d'.table :=
  ⟨h.numbers_eq, congrArg (·.table.fieldCount) h.frame, congrArg (·.table.denseBelow) h.frame⟩

/-- The fields of a descriptor and their numbers. -/
structure Numbered (ps : List Piece) (t : MiniTable) : Prop where
  numbers_eq : numbers t.fields = (numbersAfter 0 ps).take (countedFields ps)
  range : ∀ n ∈ numbers t.fields, 1 ≤ n ∧ n ≤ kMaxFieldNumber
  fieldCount_eq : t.fieldCount = countedFields ps
  denseBelow_eq : t.denseBelow = leadingFields ps % 2 ^ 8

theorem Numbered.of_same {ps : List Piece} {t t' : MiniTable} (h : Numbered ps t)
    (hsame : SameNumbers t t') : Numbered ps t' :=
  ⟨hsame.numbers_eq.trans h.numbers_eq, by rw [hsame.numbers_eq]; exact h.range,
    hsame.fieldCount_eq.trans h.fieldCount_eq, hsame.denseBelow_eq.trans h.denseBelow_eq⟩

theorem length_numbersAfter (last : ℕ) (ps : List Piece) :
    (numbersAfter last ps).length = ps.count .field := by
  induction ps generalizing last with
  | nil => rfl
  | cons p ps ih =>
    cases p with
    | field => simp [numbersAfter, ih]
    | skip skip => simp [numbersAfter, ih]

/-- The numbers of the fields that are counted after a parse. -/
theorem numbered_of_parse {data : List ℕ} (hfields : d.table.fields = []) (hcount : d.table.fieldCount = 0)
    (h : parse d data = .ok d') :
    Numbered (pieces data.length data)
      { d'.table with fields := d'.table.fields.take d'.table.fieldCount } := by
  obtain ⟨s₁, oneofs, s₂, hscan, hafter, rfl⟩ := scan_of_parse h
  have hsame : SameNumbers s₁.d.table s₂.d.table ∧ s₂.needDenseBelow = s₁.needDenseBelow := by
    cases oneofs with
    | none =>
      cases hafter
      exact ⟨⟨rfl, rfl, rfl⟩, rfl⟩
    | some rest =>
      obtain ⟨d, hdec, rfl⟩ := map_eq_ok.mp hafter
      exact ⟨(frame_decodeOneofs hdec).sameNumbers, rfl⟩
  have hcounted : Counted ⟨d, 0, 0, true⟩ := by
    rw [Counted, hfields, hcount]
    rfl
  have hnumbers := hscan.numbers_eq (Nat.le_refl _)
  have hrange := hscan.range (by simp [hfields, numbers])
  have hdense := hscan.setDenseBelow_eq hcounted rfl (Nat.le_refl _)
  have hcounted' : s₁.d.table.fieldCount = countedFields (pieces data.length data) := by
    have hlen := congrArg List.length hnumbers
    simp only [numbers, hfields, List.map_nil, List.nil_append, List.length_map, length_numbersAfter] at hlen
    have hc := hscan.counted hcounted
    rw [Counted, hlen] at hc
    exact hc
  have hset (s : ParseState) : (setDenseBelow s).d.table.fields = s.d.table.fields ∧
      (setDenseBelow s).d.table.fieldCount = s.d.table.fieldCount ∧
      (setDenseBelow s).d.table.denseBelow =
        if s.needDenseBelow then s.d.table.fieldCount % 2 ^ 8 else s.d.table.denseBelow := by
    rw [setDenseBelow]
    cases s.needDenseBelow <;> exact ⟨rfl, rfl, rfl⟩
  obtain ⟨hf, hc, hd⟩ := hset s₂
  obtain ⟨⟨hn₂, hc₂, hd₂⟩, hneed⟩ := hsame
  have heq : numbers ((setDenseBelow s₂).d.table.fields.take (setDenseBelow s₂).d.table.fieldCount) =
      (numbersAfter 0 (pieces data.length data)).take (countedFields (pieces data.length data)) := by
    rw [hf, hc, hc₂, hcounted', numbers, List.map_take]
    change (numbers s₂.d.table.fields).take _ = _
    rw [hn₂, hnumbers]
    simp [hfields, numbers]
  refine ⟨heq, ?_, (hc.trans hc₂).trans hcounted', ?_⟩
  · intro n hn
    rw [heq] at hn
    refine hrange n ?_
    rw [hnumbers]
    exact List.mem_append_right _ (List.mem_of_mem_take hn)
  · rw [hd, hneed, hc₂, hd₂, hdense]
    simp [hfields]

/-- The allocation of sub tables keeps the numbers. -/
theorem sameNumbers_allocateSubs (h : allocateSubs d = .ok d') : SameNumbers d.table d'.table := by
  have hloop (ptr ofs : ℕ) (fields fields' : List MiniTableField)
      (h : allocateSubsLoop ptr ofs fields = .ok fields') : numbers fields' = numbers fields := by
    induction fields generalizing ofs fields' with
    | nil =>
      cases h
      rfl
    | cons f fields ih =>
      rw [allocateSubsLoop] at h
      split at h
      · obtain ⟨rest, hrest, h⟩ := bind_eq_ok.mp h
        cases h
        exact congrArg (_ :: ·) (ih _ _ hrest)
      · split at h
        · cases h
        · obtain ⟨rest, hrest, h⟩ := bind_eq_ok.mp h
          cases h
          exact congrArg (_ :: ·) (ih _ _ hrest)
  rw [allocateSubs] at h
  obtain ⟨fields, hsubs, h⟩ := bind_eq_ok.mp h
  cases h
  exact ⟨hloop _ _ _ _ hsubs, rfl, rfl⟩

/-- Hasbits keep the numbers. -/
theorem sameNumbers_assignHasbits (h : assignHasbits d = .ok d') : SameNumbers d.table d'.table := by
  have hrequired (last : ℕ) (fields : List MiniTableField) :
      numbers (assignRequired last fields).1 = numbers fields := by
    induction fields generalizing last with
    | nil => rfl
    | cons f fields ih =>
      rw [assignRequired]
      split
      · exact congrArg (_ :: ·) (ih _)
      · refine congrArg₂ List.cons ?_ (ih _)
        split <;> rfl
  have hoptional (last : ℕ) (fields : List MiniTableField) :
      numbers (assignOptional last fields).1 = numbers fields := by
    induction fields generalizing last with
    | nil => rfl
    | cons f fields ih =>
      rw [assignOptional]
      split
      · exact congrArg (_ :: ·) (ih _)
      · exact congrArg (_ :: ·) (ih _)
  rw [assignHasbits] at h
  dsimp only at h
  split at h
  · cases h
  · cases h
    exact ⟨(hoptional _ _).trans (hrequired _ _), rfl, rfl⟩

/-- The calculation of alignments changes the size only. -/
theorem sameNumbers_calculateAlignments (h : calculateAlignments d = .ok d') :
    SameNumbers d.table d'.table := by
  rw [calculateAlignments] at h
  dsimp only at h
  split at h
  · cases h
  · cases h
    exact ⟨rfl, rfl, rfl⟩

/-- Offsets keep the numbers. -/
theorem sameNumbers_assignOffsets (d : MtDecoder) : SameNumbers d.table (assignOffsets d).table := by
  have hfields (offsets : FieldRep → ℕ) (fields : List MiniTableField) :
      numbers (assignFieldOffsets d.platform offsets fields).1 = numbers fields := by
    induction fields generalizing offsets with
    | nil => rfl
    | cons f fields ih =>
      rw [assignFieldOffsets]
      split
      · exact congrArg (_ :: ·) (ih _)
      · exact congrArg (_ :: ·) (ih _)
  have hmembers (c data fuel i : ℕ) (fields : List MiniTableField) :
      numbers (assignOneofMembers c data fuel i fields) = numbers fields := by
    induction fuel generalizing i fields with
    | zero => rfl
    | succ fuel ih =>
      rw [assignOneofMembers]
      split
      · rfl
      · next f hf =>
        dsimp only
        split
        · exact numbers_set hf rfl
        · exact (ih _ _).trans (numbers_set hf rfl)
  have honeofs (offsets : FieldRep → ℕ) (items : List OneOfLayoutItem) (fields : List MiniTableField) :
      numbers (assignOneofOffsets d.platform offsets items fields) = numbers fields := by
    induction items generalizing offsets fields with
    | nil => rfl
    | cons item items ih =>
      rw [assignOneofOffsets]
      exact (ih _ _).trans (hmembers _ _ _ _ _)
  exact ⟨(honeofs _ _ _).trans (hfields _ _), rfl, rfl⟩

theorem numbered_of_parseMessage {data : List ℕ} (h : parseMessage d data = .ok d') :
    Numbered (pieces data.length data) d'.table := by
  rw [parseMessage] at h
  obtain ⟨d₁, hparse, h⟩ := bind_eq_ok.mp h
  exact (numbered_of_parse rfl rfl hparse).of_same (sameNumbers_allocateSubs h)

/-- A map entry has its two fields. -/
theorem numbered_of_parseMap {data : List ℕ} (h : parseMap d data = .ok d') :
    Numbered (pieces data.length data) d'.table := by
  rw [parseMap] at h
  obtain ⟨d₁, hmessage, h⟩ := bind_eq_ok.mp h
  obtain ⟨d₂, hhasbits, h⟩ := bind_eq_ok.mp h
  have hnumbered := (numbered_of_parseMessage hmessage).of_same (sameNumbers_assignHasbits hhasbits)
  split at h
  · cases h
  · split at h
    · cases h
    · split at h
      · next k v hfields =>
        obtain ⟨_, -, h⟩ := bind_eq_ok.mp h
        obtain ⟨_, -, h⟩ := bind_eq_ok.mp h
        cases h
        exact hnumbered.of_same ⟨by rw [hfields]; rfl, rfl, rfl⟩
      · cases h

/-- The fields of an accepted descriptor. -/
theorem numbered_of_build {platform : Platform} {s : List ℕ} {t : MiniTable}
    (h : build platform s = .ok t) : Numbered (pieces s.tail.length s.tail) t := by
  have hempty (ext : ExtMode) : Numbered [] { (MtDecoder.initial platform).table with ext := ext } :=
    ⟨rfl, by simp [MtDecoder.initial, numbers], rfl, rfl⟩
  cases s with
  | nil =>
    cases h
    exact hempty _
  | cons vers data =>
    rw [List.tail_cons]
    rw [build] at h
    split at h
    · obtain ⟨d, hmap, h⟩ := bind_eq_ok.mp h
      cases h
      exact numbered_of_parseMap hmap
    · split at h
      · obtain ⟨d₁, hmessage, h⟩ := bind_eq_ok.mp h
        obtain ⟨d₂, hhasbits, h⟩ := bind_eq_ok.mp h
        obtain ⟨d₃, halign, h⟩ := bind_eq_ok.mp h
        cases h
        exact (((numbered_of_parseMessage hmessage).of_same (sameNumbers_assignHasbits hhasbits)).of_same
          (sameNumbers_calculateAlignments halign)).of_same (sameNumbers_assignOffsets d₃)
      · split at h
        · split at h
          · cases h
          · next hdata =>
            cases h
            rw [not_not.mp hdata]
            exact hempty _
        · cases h

/-- The fields of an accepted descriptor have increasing numbers and are found by them exactly if no
counted field lies behind a step back, and no fields are dense that are not counted. -/
theorem build_searchable_iff {platform : Platform} {s : List ℕ} {t : MiniTable}
    (h : build platform s = .ok t) :
    (t.Searchable ∧ ∀ f ∈ t.fields, 1 ≤ f.number ∧ f.number ≤ kMaxFieldNumber) ↔
      Ascending (pieces s.tail.length s.tail) := by
  obtain ⟨hnumbers, hrange, hcount, hdense⟩ := numbered_of_build h
  set ps := pieces s.tail.length s.tail
  have hfields : ∀ f ∈ t.fields, 1 ≤ f.number ∧ f.number ≤ kMaxFieldNumber := fun f hf =>
    hrange _ (List.mem_map_of_mem hf)
  have hlen : t.fields.length = countedFields ps := by
    have hlen := congrArg List.length hnumbers
    rw [numbers, List.length_map, List.length_take, length_numbersAfter] at hlen
    rw [hlen]
    exact Nat.min_eq_left (Nat.mod_le _ _)
  have hprefix : ∀ i < t.denseBelow, ∀ f, t.fields[i]? = some f → f.number = i + 1 := by
    intro i hi f hf
    rw [hdense] at hi
    have hmap : (numbers t.fields)[i]? = some f.number := by rw [numbers, List.getElem?_map, hf]; rfl
    rw [hnumbers, List.getElem?_take] at hmap
    split at hmap
    · rw [numbersAfter_leading (lt_of_lt_of_le hi (Nat.mod_le _ _))] at hmap
      have hlt : i < 2 ^ 8 := lt_of_lt_of_le hi (Nat.mod_lt _ (by decide)).le
      rw [← Option.some.inj hmap]
      omega
    · cases hmap
  have hsearch := MiniTable.searchable_iff (hcount.trans hlen.symm)
    (fun f hf => Nat.one_le_iff_ne_zero.mp (hfields f hf).1)
    (by rw [hdense]; exact Nat.mod_lt _ (by decide)) hprefix
  have hgaps : numbers t.fields = numbersOfGaps 0 ((gaps 0 ps).take (countedFields ps)) := by
    rw [hnumbers, numbersAfter_eq (show ((0 : ℕ) : ℤ) = ((0 : ℕ) + 0) % 2 ^ 32 by decide), take_numbersOfGaps]
  rw [hgaps] at hrange
  have hsorted : MiniTable.Sorted t.fields ↔
      ∀ gap ∈ ((gaps 0 ps).take (countedFields ps)).tail, gap % 2 ^ 32 < 2 ^ 31 := by
    rw [MiniTable.Sorted, ← pairwise_numbersOfGaps hrange, ← hgaps]
    rfl
  rw [and_iff_left hfields, hsearch, hsorted, hdense, hlen]
  exact ⟨fun ⟨hlt, hle⟩ => ⟨hlt, hle⟩, fun ⟨hlt, hle⟩ => ⟨hlt, hle⟩⟩

theorem build_searchable_iff_twoFields :
    ∃ t, build .bits64 [kVersionMessageV1, 40, 41] = .ok t ∧
      ((t.Searchable ∧ ∀ f ∈ t.fields, 1 ≤ f.number ∧ f.number ≤ kMaxFieldNumber) ↔
        Ascending (pieces 2 [40, 41])) :=
  ⟨_, rfl, build_searchable_iff (show build .bits64 [kVersionMessageV1, 40, 41] = .ok _ from rfl)⟩

/-- The table of two fields with a skip of zero between them. -/
def zeroSkipTable : MiniTable where
  fields := [⟨1, 12, 64, noSub, .int32, ⟨.scalar, false, false, false, .rep4Byte⟩⟩,
    ⟨1, 16, 65, noSub, .int32, ⟨.scalar, false, false, false, .rep4Byte⟩⟩]
  fieldCount := 2
  size := 24
  ext := ⟨false, false, false⟩
  denseBelow := 1
  requiredCount := 0

/-- A skip of zero between two fields is accepted, and both get the same number. -/
theorem build_zeroSkip_not_searchable :
    ∃ t, build .bits64 [kVersionMessageV1, 40, 95, 40] = .ok t ∧
      ¬ (t.Searchable ∧ ∀ f ∈ t.fields, 1 ≤ f.number ∧ f.number ≤ kMaxFieldNumber) := by
  have hsorted : ¬ MiniTable.Sorted zeroSkipTable.fields := by
    unfold MiniTable.Sorted
    decide
  exact ⟨zeroSkipTable, by decide +kernel, fun h => hsorted h.1.sorted⟩

end Frames

end MiniDescriptor

end Upb
