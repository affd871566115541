import Upb.MiniDescriptor.ExactLayout

/-!
# Which layouts fit

An accepted table is laid out as in unbounded numbers exactly if its fields, the links between the members
of its oneofs, its hasbits, the offsets of its case words and its aligned size fit into 16 bits.
-/

namespace Upb

namespace MiniDescriptor

/-- No quantity of 16 bits of a message was reduced: the decoder `d₂` has the hasbits, `d₃` the bases of
the representations, and `t` is the table. A link is read as `upb_MtDecoder_DecodeOneofField` stores it. -/
structure NoWrap (platform : Platform) (decl : Declaration) (d₂ d₃ : MtDecoder) (t : MiniTable) : Prop where
  fieldCount : t.fieldCount = decl.fields.length
  links : ∀ i ∈ decl.oneofs.flatten, startOf ⟨toUint16 (i + kOneofBase), .rep1Byte⟩ = some i
  counts : ∀ r, countedReps d₂ r = (decl.slots platform).count r
  bases : d₃.repCounts = (decl.layout platform).2
  end_eq : d₃.table.size = (decl.layout platform).1
  presence : ∀ (i : ℕ) (f : MiniTableField), t.fields[i]? = some f → f.presence = decl.presence platform i
  offset : ∀ (i : ℕ) (f : MiniTableField), t.fields[i]? = some f → f.offset = decl.offset platform i
  size : t.size = alignUp (decl.layout platform).1 8

/-- What has to fit into 16 bits. -/
structure FitsUint16 (platform : Platform) (decl : Declaration) : Prop where
  fields : decl.fields.length ≤ uint16Max
  links : LinksFit decl.oneofs
  hasbits : kReservedHasbits + classCount decl.linked kRequiredPresence +
    classCount decl.linked kHasbitPresence ≤ 2 ^ 15
  cases : ∀ k < decl.oneofs.length, decl.slotAt platform (decl.caseSlot k) < 2 ^ 15
  size : (decl.layout platform).1 + 7 ≤ uint16Max

section Words

theorem toUint16_eq_iff {n : ℕ} : toUint16 n = n ↔ n ≤ uint16Max := by
  simp only [toUint16, uint16Max]
  omega

theorem toInt16_eq_iff {n : ℤ} : toInt16 n = n ↔ -2 ^ 15 ≤ n ∧ n < 2 ^ 15 := by
  simp only [toInt16]
  omega

theorem alignUp_le_iff {n : ℕ} : alignUp n 8 ≤ uint16Max ↔ n + 7 ≤ uint16Max := by
  simp only [alignUp, uint16Max]
  omega

/-- A stored link leads to its member just if it fits. -/
theorem startOf_link_iff {i : ℕ} :
    startOf ⟨toUint16 (i + kOneofBase), .rep1Byte⟩ = some i ↔ i + kOneofBase < kIndexSentinel := by
  rw [startOf]
  dsimp only
  by_cases hend : toUint16 (i + kOneofBase) = kIndexSentinel
  · rw [if_pos hend]
    simp only [toUint16, kOneofBase, kIndexSentinel, reduceCtorEq, false_iff] at hend ⊢
    omega
  · rw [if_neg hend, Option.some.injEq]
    simp only [toUint16, kOneofBase, kIndexSentinel] at hend ⊢
    omega

end Words

section Presence

variable {platform : Platform} {decl : Declaration}

/-- The last field of a class that has fields. -/
theorem exists_last_of_class {fields : List MiniTableField} {c : ℕ} (h : 0 < classCount fields c) :
    ∃ (i : ℕ) (f : MiniTableField), fields[i]? = some f ∧ f.offset = c ∧
      classBefore fields c i + 1 = classCount fields c := by
  induction fields with
  | nil => simp [classCount] at h
  | cons f fields ih =>
    rcases Nat.eq_zero_or_pos (classCount fields c) with hzero | hpos
    · rw [classCount, List.countP_cons] at h
      rw [classCount] at hzero
      have hf : f.offset = c := by
        by_contra hne
        simp [hzero, hne] at h
      refine ⟨0, f, rfl, hf, ?_⟩
      rw [classBefore, List.take_zero, List.countP_nil, classCount, List.countP_cons, hzero]
      simp [hf]
    · obtain ⟨i, g, hg, hc, hlast⟩ := ih hpos
      refine ⟨i + 1, g, hg, hc, ?_⟩
      rw [classBefore, classCount] at hlast ⊢
      rw [List.take_succ_cons, List.countP_cons, List.countP_cons]
      omega

/-- The presences of a declaration that fits are in the range of an `int16_t`. -/
theorem presence_range (hfit : FitsUint16 platform decl)
    (hplain : ∀ f ∈ decl.fields, f.offset < kOneofBase ∧ f.presence = 0) (i : ℕ) :
    toInt16 (decl.presence platform i) = decl.presence platform i := by
  rw [toInt16_eq_iff, Declaration.presence]
  cases honeof : decl.oneofOf i with
  | some k =>
    obtain ⟨hk, -⟩ := List.findIdx?_eq_some_iff_getElem.mp honeof
    have := hfit.cases k hk
    dsimp only
    omega
  | none =>
    cases hf : decl.linked[i]? with
    | none => simp
    | some f =>
      have hhasbits := hfit.hasbits
      have hlt := fun c hc => classBefore_lt (c := c) hf hc
      simp only [Option.elim_some, hasbitPresence]
      simp only [kReservedHasbits] at hhasbits ⊢
      by_cases hr : f.offset = kRequiredPresence
      · have := hlt _ hr
        rw [if_pos hr]
        omega
      · rw [if_neg hr]
        by_cases hh : f.offset = kHasbitPresence
        · have := hlt _ hh
          rw [if_pos hh]
          omega
        · have hzero : f.presence = 0 := by
            rw [Declaration.linked_getElem?] at hf
            obtain ⟨g, hg, rfl⟩ := Option.map_eq_some_iff.mp hf
            have := (hplain g (List.mem_of_getElem? hg)).2
            split <;> exact this
          rw [if_neg hh, hzero, ite_self]
          omega

/-- The hasbits fit if all presences do. -/
theorem hasbits_le_of_presence (hreq : classCount decl.linked kRequiredPresence ≤ 63)
    (hpresence : ∀ i < decl.fields.length, toInt16 (decl.presence platform i) = decl.presence platform i) :
    kReservedHasbits + classCount decl.linked kRequiredPresence +
      classCount decl.linked kHasbitPresence ≤ 2 ^ 15 := by
  rcases Nat.eq_zero_or_pos (classCount decl.linked kHasbitPresence) with hzero | hpos
  · simp only [kReservedHasbits]
    omega
  · -- the last hasbit is the largest one
    obtain ⟨i, f, hf, hclass, hlast⟩ := exists_last_of_class hpos
    have hi : i < decl.fields.length := by
      have := (List.getElem?_eq_some_iff.mp hf).1
      simpa [Declaration.linked] using this
    have hmember : i ∉ decl.oneofs.flatten := by
      intro hmem
      rw [Declaration.linked_getElem?] at hf
      obtain ⟨g, -, rfl⟩ := Option.map_eq_some_iff.mp hf
      rw [if_pos hmem] at hclass
      exact absurd hclass (show ¬ kOneofBase = kHasbitPresence by decide)
    have h := (toInt16_eq_iff.mp (hpresence i hi)).2
    rw [Declaration.presence, Declaration.oneofOf_eq_none hmember, hf] at h
    simp only [Option.elim_some, hasbitPresence, hclass] at h
    rw [if_neg (by decide), if_pos trivial] at h
    omega

/-- The case words fit if all presences do. -/
theorem cases_lt_of_presence (hnodup : decl.oneofs.flatten.Nodup) (hnonempty : ∀ o ∈ decl.oneofs, o ≠ [])
    (hmembers : ∀ i ∈ decl.oneofs.flatten, i < decl.fields.length)
    (hpresence : ∀ i < decl.fields.length, toInt16 (decl.presence platform i) = decl.presence platform i) :
    ∀ k < decl.oneofs.length, decl.slotAt platform (decl.caseSlot k) < 2 ^ 15 := by
  intro k hk
  obtain ⟨i, hi⟩ := List.exists_mem_of_ne_nil _ (hnonempty _ (List.getElem_mem hk))
  have hmem : i ∈ decl.oneofs.flatten := List.mem_flatten.mpr ⟨_, List.getElem_mem hk, hi⟩
  have h := (toInt16_eq_iff.mp (hpresence i (hmembers i hmem))).1
  rw [Declaration.presence, Declaration.oneofOf_eq_some hnodup (List.getElem?_eq_getElem hk) hi] at h
  dsimp only at h
  omega

end Presence

section Message

variable {platform : Platform} {decl : Declaration} {d₁ d₂ d₃ : MtDecoder}

/-- The representations of an accepted message end below 2^16. -/
theorem base_le_of_calculateAlignments (h : calculateAlignments d₂ = .ok d₃) :
    (allReps.foldl (alignRep d₂.platform) (d₂.table.size, countedReps d₂)).1 ≤ uint16Max ∧
      d₃.table.size = (allReps.foldl (alignRep d₂.platform) (d₂.table.size, countedReps d₂)).1 := by
  rw [calculateAlignments] at h
  dsimp only at h
  split at h
  · cases h
  · next hle =>
    cases h
    exact ⟨Nat.le_of_not_lt hle, rfl⟩

/-- Nothing wraps in the layout of a message exactly if it fits. -/
theorem noWrap_iff_fits {data : List ℕ} (hparse : parseMessage (MtDecoder.initial platform) data = .ok d₁)
    (hhasbits : assignHasbits d₁ = .ok d₂) (halign : calculateAlignments d₂ = .ok d₃) :
    ∃ decl, declare platform data = some decl ∧
      (NoWrap platform decl d₂ d₃ (assignOffsets d₃).table ↔ FitsUint16 platform decl) := by
  obtain ⟨decl, hdecl, -, hcount, hmembers, hready⟩ := ready_of_parseMessage hparse
  refine ⟨decl, hdecl, ?_⟩
  have hcount' : (assignOffsets d₃).table.fieldCount = toUint16 decl.fields.length := by
    rw [(sameNumbers_assignOffsets d₃).fieldCount_eq, (sameNumbers_calculateAlignments halign).fieldCount_eq,
      (sameNumbers_assignHasbits hhasbits).fieldCount_eq, hcount]
  -- the layout of a declaration with few fields whose end fits
  have hplaced : decl.fields.length ≤ uint16Max → LinksFit decl.oneofs →
      (decl.layout platform).1 ≤ uint16Max → Ready platform decl d₁ ∧
      classCount decl.linked kRequiredPresence ≤ 63 ∧
      Placed platform decl d₂ d₃ (assignOffsets d₃).table := by
    intro hfields hlinks hend
    have hr := hready hfields hlinks
    have hreq : classCount decl.linked kRequiredPresence ≤ 63 := by
      rw [← hr.alike.classCount_eq (by decide)]
      exact required_le_of_assignHasbits hhasbits
    obtain ⟨d₂', d₃', hhasbits', halign', hplaced⟩ := hr.placed hreq hend
    obtain rfl : d₂ = d₂' := Except.ok.inj (hhasbits.symm.trans hhasbits')
    obtain rfl : d₃ = d₃' := Except.ok.inj (halign.symm.trans halign')
    exact ⟨hr, hreq, hplaced⟩
  constructor
  · intro h
    have hfields : decl.fields.length ≤ uint16Max := toUint16_eq_iff.mp (hcount'.symm.trans h.fieldCount)
    have hlinks : LinksFit decl.oneofs := fun i hi => startOf_link_iff.mp (h.links i hi)
    have hend : (decl.layout platform).1 ≤ uint16Max := by
      obtain ⟨hle, heq⟩ := base_le_of_calculateAlignments halign
      rw [← h.end_eq, heq]
      exact hle
    obtain ⟨hr, hreq, hp⟩ := hplaced hfields hlinks hend
    have hpresence : ∀ i < decl.fields.length,
        toInt16 (decl.presence platform i) = decl.presence platform i := by
      intro i hi
      have hf := List.getElem?_eq_getElem (hp.length_eq ▸ hi)
      exact (hp.field i _ hf).1.symm.trans (h.presence i _ hf)
    refine ⟨hfields, hlinks, hasbits_le_of_presence hreq hpresence,
      cases_lt_of_presence hr.members.nodup hr.nonempty hmembers hpresence, ?_⟩
    exact alignUp_le_iff.mp (toUint16_eq_iff.mp (hp.size_eq.symm.trans h.size))
  · intro hfit
    have hend : (decl.layout platform).1 ≤ uint16Max := (Nat.le_add_right _ _).trans hfit.size
    obtain ⟨hr, -, hp⟩ := hplaced hfit.fields hfit.links hend
    refine ⟨hp.fieldCount_eq, fun i hi => startOf_link_iff.mpr (hfit.links i hi), hp.counts, hp.bases,
      hp.end_eq, fun i f hf => ?_, fun i f hf => (hp.field i f hf).2.1, ?_⟩
    · rw [(hp.field i f hf).1, presence_range hfit hr.plain]
    · rw [hp.size_eq, toUint16_eq_iff.mpr (alignUp_le_iff.mpr hfit.size)]

end Message

section Repeated

/-- The character of a repeated `int32` field. -/
def kRepeatedInt32 : ℕ := toBase92 (kEncodedRepeatedBase + 6)

/-- A repeated `int32` field on a platform of 32 bits. -/
def repeatedInt32 (number : ℕ) : MiniTableField :=
  ⟨number, kNoPresence, 0, noSub, .int32, ⟨.array, false, false, false, .rep4Byte⟩⟩

/-- The first fields of a message of repeated `int32` fields. -/
def repeatedFields (last n : ℕ) : List MiniTableField := (List.range' (last + 1) n).map repeatedInt32

private theorem parseField_repeatedInt32 {s : ParseState} (hplatform : s.d.platform = .bits32)
    (hmodifiers : s.msgModifiers = 0) (hlast : s.lastFieldNumber < kMaxFieldNumber) :
    parseField s kRepeatedInt32 = .ok { s with
      d := { s.d with table := { s.d.table with
        fields := s.d.table.fields ++ [repeatedInt32 (s.lastFieldNumber + 1)]
        fieldCount := toUint16 (s.d.table.fieldCount + 1) } }
      lastFieldNumber := s.lastFieldNumber + 1 } := by
  have hset : setField s.d kRepeatedInt32 (s.lastFieldNumber + 1) 0 =
      .ok (repeatedInt32 (s.lastFieldNumber + 1), s.d.subCount) := by
    rw [setField]
    simp only [hplatform]
    rfl
  have hnumber : (s.lastFieldNumber + 1) % 2 ^ 32 = s.lastFieldNumber + 1 := by
    simp only [kMaxFieldNumber] at hlast
    omega
  rw [parseField, hmodifiers]
  dsimp only
  rw [hnumber, if_neg (by omega), hset]
  rfl

/-- A run of the parser over repeated `int32` fields. -/
private theorem parseLoop_repeated (n : ℕ) {s : ParseState} (hplatform : s.d.platform = .bits32)
    (hmodifiers : s.msgModifiers = 0) (hlast : s.lastFieldNumber + n ≤ kMaxFieldNumber)
    (hcount : s.d.table.fieldCount = toUint16 s.d.table.fieldCount) :
    parseLoop n s (List.replicate n kRepeatedInt32) = .ok { s with
      d := { s.d with table := { s.d.table with
        fields := s.d.table.fields ++ repeatedFields s.lastFieldNumber n
        fieldCount := toUint16 (s.d.table.fieldCount + n) } }
      lastFieldNumber := s.lastFieldNumber + n } := by
  induction n generalizing s with
  | zero =>
    rw [List.replicate_zero, parseLoop, Nat.add_zero, ← hcount]
    simp [repeatedFields]
  | succ n ih =>
    rw [List.replicate_succ, parseLoop, if_pos (by decide), parseField_repeatedInt32 hplatform hmodifiers (by omega)]
    have hrest := ih (s := { s with
      d := { s.d with table := { s.d.table with
        fields := s.d.table.fields ++ [repeatedInt32 (s.lastFieldNumber + 1)]
        fieldCount := toUint16 (s.d.table.fieldCount + 1) } }
      lastFieldNumber := s.lastFieldNumber + 1 }) hplatform hmodifiers (by dsimp only; omega)
      (Nat.mod_mod _ _).symm
    refine hrest.trans ?_
    have hfields : s.d.table.fields ++ [repeatedInt32 (s.lastFieldNumber + 1)] ++
        repeatedFields (s.lastFieldNumber + 1) n = s.d.table.fields ++ repeatedFields s.lastFieldNumber (n + 1) := by
      rw [repeatedFields, repeatedFields, List.range'_succ, List.map_cons, List.append_assoc,
        List.singleton_append]
    have hcounts : toUint16 (toUint16 (s.d.table.fieldCount + 1) + n) =
        toUint16 (s.d.table.fieldCount + (n + 1)) := by
      simp only [toUint16]
      omega
    have hlast' : s.lastFieldNumber + 1 + n = s.lastFieldNumber + (n + 1) := by omega
    dsimp only
    rw [hfields, hcounts, hlast']

/-- Fields without sub tables are left as they are. -/
private theorem allocateSubsLoop_repeated (ptr ofs : ℕ) (fields : List MiniTableField)
    (h : ∀ f ∈ fields, f.submsgOfs = noSub) : allocateSubsLoop ptr ofs fields = .ok fields := by
  induction fields generalizing ofs with
  | nil => rfl
  | cons f fields ih =>
    rw [allocateSubsLoop, if_pos (h f List.mem_cons_self),
      ih _ fun g hg => h g (List.mem_cons_of_mem _ hg)]
    rfl

/-- A message of repeated `int32` fields is parsed. -/
private theorem parseMessage_repeated {n : ℕ} (hn : n ≤ uint16Max) :
    ∃ decl d, declare .bits32 (List.replicate n kRepeatedInt32) = some decl ∧ decl.fields.length = n ∧
      decl.oneofs = [] ∧
      parseMessage (MtDecoder.initial .bits32) (List.replicate n kRepeatedInt32) = .ok d ∧
      d.table.fields = repeatedFields 0 n := by
  have hlast : 0 + n ≤ kMaxFieldNumber := by
    simp only [uint16Max, kMaxFieldNumber] at *
    omega
  have hloop := parseLoop_repeated n (s := ⟨MtDecoder.initial .bits32, 0, 0, true⟩) rfl rfl hlast rfl
  have hparse : ∃ d, parse (MtDecoder.initial .bits32) (List.replicate n kRepeatedInt32) = .ok d ∧
      d.table.fields = repeatedFields 0 n ∧ d.table.fieldCount = n ∧ d.oneofs = [] := by
    have hfuel : (List.replicate n kRepeatedInt32).length = n := List.length_replicate
    nth_rewrite 1 [← hfuel] at hloop
    refine ⟨_, bind_eq_ok.mpr ⟨_, hloop, rfl⟩, List.nil_append _, ?_, rfl⟩
    change toUint16 (0 + n) = n
    rw [Nat.zero_add, toUint16_eq hn]
  obtain ⟨d, hparse, hfields, hcount, honeofs⟩ := hparse
  have hlength : (repeatedFields 0 n).length = n := by simp [repeatedFields]
  have hsubs : ∀ f ∈ repeatedFields 0 n, f.submsgOfs = noSub := by
    intro f hf
    obtain ⟨m, -, rfl⟩ := List.mem_map.mp hf
    rfl
  obtain ⟨decl, hdecl, hparsed, -⟩ := parsedAs_of_parse hparse
  have hnone : decl.oneofs = [] := List.eq_nil_of_length_eq_zero (by rw [← hparsed.oneofs_length, honeofs]; rfl)
  refine ⟨decl, _, hdecl, by rw [← hparsed.length_eq, hfields, hlength], hnone,
    bind_eq_ok.mpr ⟨d, hparse, bind_eq_ok.mpr ⟨repeatedFields 0 n, ?_, rfl⟩⟩, rfl⟩
  dsimp only
  rw [hfields, hcount, List.take_of_length_le hlength.le]
  exact allocateSubsLoop_repeated _ _ _ hsubs

/-- The size of a message of repeated `int32` fields. -/
theorem layout_repeated {decl : Declaration} {d : MtDecoder} {n : ℕ} (hn : 0 < n) (h : Ready .bits32 decl d)
    (hfields : d.table.fields = repeatedFields 0 n) (honeofs : decl.oneofs = []) :
    classCount decl.linked kRequiredPresence = 0 ∧ (decl.layout .bits32).1 = 8 + 4 * n := by
  have hclass : ∀ c, c ≠ kNoPresence → classCount (repeatedFields 0 n) c = 0 := by
    intro c hc
    rw [classCount, List.countP_eq_zero]
    intro f hf
    obtain ⟨m, -, rfl⟩ := List.mem_map.mp hf
    simpa [repeatedInt32] using Ne.symm hc
  have hrequired : classCount decl.linked kRequiredPresence = 0 := by
    rw [← h.alike.classCount_eq (by decide), hfields, hclass _ (by decide)]
  have hbytes : hasbitBytes decl.linked = 8 := by
    rw [hasbitBytes, hrequired, ← h.alike.classCount_eq (by decide), hfields, hclass _ (by decide)]
    rfl
  have hslots : decl.slots .bits32 = List.replicate n .rep4Byte := by
    have hreps : decl.reps .bits32 = [] := by rw [Declaration.reps, honeofs, oneofReps]
    have hplain : ∀ f ∈ repeatedFields 0 n, f.offset < kOneofBase ∧ f.mode.rep = .rep4Byte := by
      intro f hf
      obtain ⟨m, -, rfl⟩ := List.mem_map.mp hf
      exact ⟨by show kNoPresence < kOneofBase; decide, rfl⟩
    rw [Declaration.slots, hreps, ← h.alike.fieldSlots_eq, hfields, fieldSlots,
      List.filter_eq_self.mpr fun f hf => by simpa using (hplain f hf).1, List.eq_replicate_iff]
    simp only [oneofSlots, List.flatMap_nil, List.append_nil, List.length_map]
    refine ⟨by simp [repeatedFields], fun r hr => ?_⟩
    obtain ⟨f, hf, rfl⟩ := List.mem_map.mp hr
    exact (hplain f hf).2
  refine ⟨hrequired, ?_⟩
  rw [Declaration.layout, hbytes, hslots]
  have hcounts : ∀ r, (List.replicate n FieldRep.rep4Byte).count r = if r = .rep4Byte then n else 0 := by
    intro r
    rw [List.count_replicate]
    cases r <;> rfl
  simp only [idealLayout, allReps, hcounts, List.foldl_cons, List.foldl_nil, idealAlign]
  simp [Nat.ne_of_gt hn, alignUp, alignOfRep, sizeOfRep]

/-- A message of repeated `int32` fields is accepted as long as it ends below 2^16. -/
theorem build_repeated {n : ℕ} (hn : 0 < n) (hend : 8 + 4 * n ≤ uint16Max) :
    ∃ decl d₁ d₂ d₃, declare .bits32 (List.replicate n kRepeatedInt32) = some decl ∧
      parseMessage (MtDecoder.initial .bits32) (List.replicate n kRepeatedInt32) = .ok d₁ ∧
      assignHasbits d₁ = .ok d₂ ∧ calculateAlignments d₂ = .ok d₃ ∧
      build .bits32 (kVersionMessageV1 :: List.replicate n kRepeatedInt32) = .ok (assignOffsets d₃).table ∧
      (decl.layout .bits32).1 = 8 + 4 * n ∧ decl.fields.length = n ∧ decl.oneofs = [] ∧
      Placed .bits32 decl d₂ d₃ (assignOffsets d₃).table := by
  have hle : n ≤ uint16Max := by omega
  obtain ⟨decl, d₁, hdecl, hlength, honeofs, hparse, hfields⟩ := parseMessage_repeated hle
  obtain ⟨decl', hdecl', -, -, -, hready⟩ := ready_of_parseMessage hparse
  obtain rfl := Option.some.inj (hdecl.symm.trans hdecl')
  have hr := hready (hlength.trans_le hle) (by simp [LinksFit, honeofs])
  obtain ⟨hrequired, hsize⟩ := layout_repeated hn hr hfields honeofs
  obtain ⟨d₂, d₃, hhasbits, halign, hplaced⟩ := hr.placed (by omega) (by omega)
  refine ⟨decl, d₁, d₂, d₃, hdecl, hparse, hhasbits, halign, ?_, hsize, hlength, honeofs, hplaced⟩
  rw [build, if_neg (by decide), if_pos rfl]
  exact bind_eq_ok.mpr ⟨d₁, hparse, bind_eq_ok.mpr ⟨d₂, hhasbits, bind_eq_ok.mpr ⟨d₃, halign, rfl⟩⟩⟩

end Repeated

section Build

/-- No quantity of 16 bits of a map entry was reduced; its offsets and its size are constants. -/
structure NoWrapMap (platform : Platform) (decl : Declaration) (t : MiniTable) : Prop where
  fieldCount : t.fieldCount = decl.fields.length
  presence : ∀ (i : ℕ) (f : MiniTableField), t.fields[i]? = some f → f.presence = decl.presence platform i

/-- Nothing wrapped while `upb_MiniTable_Build` made the table `t`; there is nothing to compute for an
empty descriptor and for a message set. -/
def BuiltExactly (platform : Platform) (data : List ℕ) (t : MiniTable) : Prop :=
  ∀ vers rest, data = vers :: rest →
    (vers = kVersionMapV1 → ∃ decl, declare platform rest = some decl ∧ NoWrapMap platform decl t) ∧
    (vers = kVersionMessageV1 → ∃ decl d₁ d₂ d₃, declare platform rest = some decl ∧
      parseMessage (MtDecoder.initial platform) rest = .ok d₁ ∧ assignHasbits d₁ = .ok d₂ ∧
      calculateAlignments d₂ = .ok d₃ ∧ NoWrap platform decl d₂ d₃ t)

/-- What a descriptor declares fits into the 16-bit members of its table. -/
def DeclarationFits (platform : Platform) (data : List ℕ) : Prop :=
  ∀ vers rest decl, data = vers :: rest → declare platform rest = some decl →
    (vers = kVersionMapV1 → decl.fields.length ≤ uint16Max) ∧
    (vers = kVersionMessageV1 → FitsUint16 platform decl)

variable {platform : Platform} {t : MiniTable}

theorem oneofs_of_assignHasbits {d d' : MtDecoder} (h : assignHasbits d = .ok d') : d'.oneofs = d.oneofs := by
  obtain ⟨fields, hassign, -⟩ := assignHasbits_spec d (required_le_of_assignHasbits h)
  obtain rfl := Except.ok.inj (h.symm.trans hassign)
  rfl

/-- A declaration without oneofs. -/
theorem Ready.oneofs_eq_nil {decl : Declaration} {d d' : MtDecoder} (h : Ready platform decl d)
    (hhasbits : assignHasbits d = .ok d') (honeofs : d'.oneofs = []) : decl.oneofs = [] := by
  refine List.eq_nil_of_length_eq_zero ?_
  rw [h.length_eq, ← oneofs_of_assignHasbits hhasbits, honeofs, List.length_nil]

/-- Few fields without oneofs have the presences of the declaration. -/
theorem presence_of_assignHasbits {decl : Declaration} {d d' : MtDecoder} (h : Ready platform decl d)
    (hhasbits : assignHasbits d = .ok d') (hfew : decl.fields.length ≤ 2 ^ 13) (honeofs : d'.oneofs = [])
    {i : ℕ} {f : MiniTableField} (hf : d'.table.fields[i]? = some f) :
    f.presence = decl.presence platform i := by
  have hnone := h.oneofs_eq_nil hhasbits honeofs
  obtain ⟨fields, hassign, hget⟩ := assignHasbits_spec d (required_le_of_assignHasbits hhasbits)
  obtain rfl := Except.ok.inj (hhasbits.symm.trans hassign)
  have hi : i ∉ decl.oneofs.flatten := by simp [hnone]
  change fields[i]? = some f at hf
  rw [hget] at hf
  obtain ⟨f₀, hf₀, rfl⟩ := Option.map_eq_some_iff.mp hf
  obtain ⟨g, hg, hoffset, -, hzero, hzero', -⟩ := h.plain_eq hi hf₀
  have hlength : d.table.fields.length = decl.fields.length := by
    simpa [Declaration.linked] using congrArg List.length h.alike
  have hcount : ∀ c, classCount d.table.fields c ≤ 2 ^ 13 := fun c =>
    List.countP_le_length.trans (hlength ▸ hfew)
  have hfit : kReservedHasbits + classCount d.table.fields kRequiredPresence +
      classCount d.table.fields kHasbitPresence ≤ 2 ^ 15 := by
    have hr := hcount kRequiredPresence
    have hh := hcount kHasbitPresence
    simp only [kReservedHasbits]
    omega
  rw [storedPresence_eq hf₀ hfit, Declaration.presence, Declaration.oneofOf_eq_none hi, hg]
  exact h.alike.hasbitPresence_eq i hoffset (hzero.trans hzero'.symm)

/-- The two fields of a map entry get their hasbits unless the count of the fields wrapped. -/
private theorem noWrapMap_iff {rest : List ℕ} {d : MtDecoder}
    (h : parseMap (MtDecoder.initial platform) rest = .ok d) :
    ∃ decl, declare platform rest = some decl ∧
      (NoWrapMap platform decl d.table ↔ decl.fields.length ≤ uint16Max) := by
  obtain ⟨d₁, hparse, h⟩ := bind_eq_ok.mp h
  obtain ⟨d₂, hhasbits, h⟩ := bind_eq_ok.mp h
  obtain ⟨decl, hdecl, -, hcount, hmembers, hready⟩ := ready_of_parseMessage hparse
  refine ⟨decl, hdecl, ?_⟩
  have hcount₂ : d₂.table.fieldCount = toUint16 decl.fields.length := by
    rw [(sameNumbers_assignHasbits hhasbits).fieldCount_eq, hcount]
  split at h
  · cases h
  · next htwo =>
    rw [not_not] at htwo
    split at h
    · cases h
    · next honeofs =>
      split at h
      · next k v hfields =>
        obtain ⟨-, -, h⟩ := bind_eq_ok.mp h
        obtain ⟨-, -, h⟩ := bind_eq_ok.mp h
        cases h
        refine ⟨fun h => toUint16_eq_iff.mp (hcount₂.symm.trans h.fieldCount), fun hle => ?_⟩
        rw [hcount₂, toUint16_eq_iff.mpr hle] at htwo
        have hlinks : LinksFit decl.oneofs := by
          intro i hi
          have := hmembers i hi
          simp only [kOneofBase, kIndexSentinel]
          omega
        have hr := hready hle hlinks
        refine ⟨hcount₂.trans (toUint16_eq_iff.mpr hle), fun i f hf => ?_⟩
        have hg : ∃ g, d₂.table.fields[i]? = some g ∧ f.presence = g.presence := by
          rw [hfields]
          rcases i with _ | _ | i
          · cases hf
            exact ⟨k, rfl, rfl⟩
          · cases hf
            exact ⟨v, rfl, rfl⟩
          · simp at hf
        obtain ⟨g, hg, hpresence⟩ := hg
        rw [not_not] at honeofs
        exact hpresence.trans (presence_of_assignHasbits hr hhasbits (by omega) honeofs hg)
      · cases h

/-- Nothing wraps in an accepted table exactly if what its descriptor declares fits. -/
theorem build_exact_iff {data : List ℕ} (h : build platform data = .ok t) :
    BuiltExactly platform data t ↔ DeclarationFits platform data := by
  cases data with
  | nil => exact ⟨fun _ _ _ _ => nofun, fun _ _ _ => nofun⟩
  | cons vers rest =>
    rw [build] at h
    split at h
    · next hmap =>
      subst hmap
      obtain ⟨d, hparse, h⟩ := bind_eq_ok.mp h
      cases h
      obtain ⟨decl, hdecl, hiff⟩ := noWrapMap_iff hparse
      constructor
      · intro h vers rest' decl' heq hdecl'
        cases heq
        obtain rfl := Option.some.inj (hdecl.symm.trans hdecl')
        refine ⟨fun _ => ?_, fun h => absurd h (by decide)⟩
        obtain ⟨decl', hdecl', hexact⟩ := (h _ _ rfl).1 rfl
        obtain rfl := Option.some.inj (hdecl.symm.trans hdecl')
        exact hiff.mp hexact
      · intro h vers rest' heq
        cases heq
        exact ⟨fun _ => ⟨decl, hdecl, hiff.mpr ((h _ _ _ rfl hdecl).1 rfl)⟩, fun h => absurd h (by decide)⟩
    · next hmap =>
      split at h
      · next hmessage =>
        subst hmessage
        obtain ⟨d₁, hparse, h⟩ := bind_eq_ok.mp h
        obtain ⟨d₂, hhasbits, h⟩ := bind_eq_ok.mp h
        obtain ⟨d₃, halign, h⟩ := bind_eq_ok.mp h
        cases h
        obtain ⟨decl, hdecl, hiff⟩ := noWrap_iff_fits hparse hhasbits halign
        constructor
        · intro h vers rest' decl' heq hdecl'
          cases heq
          obtain rfl := Option.some.inj (hdecl.symm.trans hdecl')
          refine ⟨fun h => absurd h (by decide), fun _ => ?_⟩
          obtain ⟨decl', d₁', d₂', d₃', hdecl', hparse', hhasbits', halign', hexact⟩ := (h _ _ rfl).2 rfl
          obtain rfl := Option.some.inj (hdecl.symm.trans hdecl')
          obtain rfl := Except.ok.inj (hparse.symm.trans hparse')
          obtain rfl := Except.ok.inj (hhasbits.symm.trans hhasbits')
          obtain rfl := Except.ok.inj (halign.symm.trans halign')
          exact hiff.mp hexact
        · intro h vers rest' heq
          cases heq
          exact ⟨fun h => absurd h (by decide), fun _ =>
            ⟨decl, d₁, d₂, d₃, hdecl, hparse, hhasbits, halign, hiff.mpr ((h _ _ _ rfl hdecl).2 rfl)⟩⟩
      · next hmessage =>
        -- neither a message nor a map entry
        constructor
        · intro _ vers' rest' decl heq _
          cases heq
          exact ⟨fun h => absurd h hmap, fun h => absurd h hmessage⟩
        · intro _ vers' rest' heq
          cases heq
          exact ⟨fun h => absurd h hmap, fun h => absurd h hmessage⟩

theorem build_exact_iff_repeated :
    ∃ t, build .bits32 (kVersionMessageV1 :: List.replicate 1 kRepeatedInt32) = .ok t ∧
      (BuiltExactly .bits32 (kVersionMessageV1 :: List.replicate 1 kRepeatedInt32) t ↔
        DeclarationFits .bits32 (kVersionMessageV1 :: List.replicate 1 kRepeatedInt32)) := by
  obtain ⟨decl, d₁, d₂, d₃, -, -, -, -, hbuild, -⟩ := build_repeated (n := 1) (by decide) (by decide)
  exact ⟨_, hbuild, build_exact_iff hbuild⟩

/-- The aligned size of 16381 repeated fields of four bytes is 2^16, and is stored as zero. -/
theorem build_repeated_wraps :
    ∃ t, build .bits32 (kVersionMessageV1 :: List.replicate 16381 kRepeatedInt32) = .ok t ∧ t.size = 0 ∧
      ¬ BuiltExactly .bits32 (kVersionMessageV1 :: List.replicate 16381 kRepeatedInt32) t := by
  obtain ⟨decl, d₁, d₂, d₃, hdecl, hparse, hhasbits, halign, hbuild, hend, -, -, hplaced⟩ :=
    build_repeated (n := 16381) (by decide) (by decide)
  have hsize : (assignOffsets d₃).table.size = 0 := by
    rw [hplaced.size_eq, hend]
    decide
  refine ⟨_, hbuild, hsize, fun hexact => ?_⟩
  obtain ⟨decl', d₁', d₂', d₃', hdecl', -, -, -, hno⟩ := (hexact _ _ rfl).2 rfl
  obtain rfl := Option.some.inj (hdecl.symm.trans hdecl')
  have h := hno.size
  rw [hsize, hend] at h
  exact absurd h (by decide)

end Build

end MiniDescriptor

end Upb
