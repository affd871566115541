import Mathlib.Data.List.Infix
import Mathlib.Logic.Relation
import Upb.Reflection.FileDef

/-!
# Dependencies resolve

A file is created behind the files it depends on, so its dependencies are earlier files and the search
through public dependencies ends. An index is checked against the number of dependencies, but not against
zero: with a negative index the search leaves the array.
-/

namespace Upb.Reflection

open Upb.Common

/-- A public dependency of a file. -/
def PublicDep (defs : List FileDef) (a b : ℕ) : Prop :=
  ∃ (f : FileDef) (i : ℕ), defs[a]? = some f ∧ (i : ℤ) < f.publicDependencyCount ∧ f.publicDependency i = some b

/-- The path is the name of a file that is reached through public dependencies. -/
def Reaches (defs : List FileDef) (id : ℕ) (path : List UInt8) : Prop :=
  ∃ g f, Relation.ReflTransGen (PublicDep defs) id g ∧ defs[g]? = some f ∧ f.name = path

/-- The indices of a file are those of its dependencies. -/
def FileDef.IndicesInRange (f : FileDef) : Prop :=
  ∀ dep ∈ f.publicDeps ++ f.weakDeps, 0 ≤ dep ∧ dep < f.dependencyCount

/-- No index of a file is negative. -/
def FileDef.IndicesNonneg (f : FileDef) : Prop := ∀ dep ∈ f.publicDeps ++ f.weakDeps, 0 ≤ dep

section Resolves

variable {defs : List FileDef} {T : ℕ → Prop} {path : List UInt8} {f : FileDef}

theorem toInt_le (n : ℕ) : toInt n ≤ n := by
  rw [toInt]
  split <;> omega

/-- A size that is not too large for an `int` stays as it is. -/
theorem toInt_toNat_le (n : ℕ) : (toInt n).toNat ≤ n := by
  have := toInt_le n
  omega

/-- Files whose dependencies are earlier files, with indices in range. -/
structure WellFounded (defs : List FileDef) (T : ℕ → Prop) : Prop where
  file : ∀ id, T id → ∃ f, defs[id]? = some f ∧ f.IndicesInRange
  deps : ∀ id f, T id → defs[id]? = some f → ∀ d ∈ f.deps, d < id ∧ T d

/-- A public dependency is one of the dependencies. -/
theorem publicDependency_isSome (hf : f.IndicesInRange) {i : ℕ} (hi : i < f.publicDeps.length) :
    ∃ dep ∈ f.deps, f.publicDependency i = some dep := by
  have hmem := List.getElem_mem hi
  obtain ⟨hnonneg, hlt⟩ := hf _ (List.mem_append_left _ hmem)
  have hcount := toInt_le f.deps.length
  rw [FileDef.dependencyCount] at hlt
  have hindex : (f.publicDeps[i]).toNat < f.deps.length := by omega
  refine ⟨f.deps[(f.publicDeps[i]).toNat], List.getElem_mem hindex, ?_⟩
  rw [FileDef.publicDependency, List.getElem?_eq_getElem hi, Option.bind_some, if_pos hnonneg,
    List.getElem?_eq_getElem hindex]

/-- The loop over the public dependencies finds out whether one of them resolves the path. -/
theorem resolvesAny_spec (f : FileDef) (rec : ℕ → Except ResolveFault Bool) (P : ℕ → Prop) (is : List ℕ)
    (h : ∀ i ∈ is, ∃ dep, f.publicDependency i = some dep ∧ ∃ b, rec dep = .ok b ∧ (b = true ↔ P dep)) :
    ∃ b, resolvesAny rec f is = .ok b ∧
      (b = true ↔ ∃ i ∈ is, ∃ dep, f.publicDependency i = some dep ∧ P dep) := by
  induction is with
  | nil => exact ⟨false, rfl, nofun, fun ⟨_, hi, _⟩ => nomatch hi⟩
  | cons i is ih =>
    obtain ⟨dep, hdep, b, hb, hP⟩ := h i (List.mem_cons_self ..)
    cases b with
    | true =>
      refine ⟨true, ?_, fun _ => ⟨i, List.mem_cons_self .., dep, hdep, hP.mp rfl⟩, fun _ => rfl⟩
      rw [resolvesAny, hdep]
      dsimp only
      rw [hb]
    | false =>
      obtain ⟨b', hb', hiff⟩ := ih fun j hj => h j (List.mem_cons_of_mem _ hj)
      refine ⟨b', ?_, hiff.trans ⟨fun ⟨j, hj, hrest⟩ => ⟨j, List.mem_cons_of_mem _ hj, hrest⟩, ?_⟩⟩
      · rw [resolvesAny, hdep]
        dsimp only
        rw [hb]
        exact hb'
      · rintro ⟨j, hj, dep', hdep', hP'⟩
        rcases List.mem_cons.mp hj with rfl | hj
        · cases hdep.symm.trans hdep'
          exact absurd (hP.mpr hP') nofun
        · exact ⟨j, hj, dep', hdep', hP'⟩

/-- `upb_FileDef_Resolves` returns, and finds the files that are reached. -/
theorem resolves_spec (h : WellFounded defs T) (path : List UInt8) :
    ∀ (id : ℕ), T id → ∀ fuel, id < fuel →
      ∃ b, resolves defs path fuel id = .ok b ∧ (b = true ↔ Reaches defs id path) := by
  intro id
  induction id using Nat.strong_induction_on with
  | _ id ih =>
    intro hid fuel hfuel
    obtain ⟨fuel, rfl⟩ : ∃ n, fuel = n + 1 := ⟨fuel - 1, by omega⟩
    obtain ⟨f, hf, hrange⟩ := h.file id hid
    rw [resolves, hf]
    dsimp only
    by_cases hname : f.name = path
    · exact ⟨true, if_pos hname, fun _ => ⟨id, f, .refl, hf, hname⟩, fun _ => rfl⟩
    rw [if_neg hname]
    have hcount : ∀ i, i < f.publicDependencyCount.toNat → i < f.publicDeps.length := fun i hi =>
      Nat.lt_of_lt_of_le hi (toInt_toNat_le _)
    obtain ⟨b, hb, hiff⟩ := resolvesAny_spec f (resolves defs path fuel)
      (fun dep => Reaches defs dep path) (List.range f.publicDependencyCount.toNat) (by
        intro i hi
        obtain ⟨dep, hmem, hdep⟩ := publicDependency_isSome hrange (hcount i (List.mem_range.mp hi))
        obtain ⟨hlt, hT⟩ := h.deps id f hid hf dep hmem
        exact ⟨dep, hdep, ih dep hlt hT fuel (by omega)⟩)
    refine ⟨b, hb, hiff.trans ⟨?_, ?_⟩⟩
    · rintro ⟨i, hi, dep, hdep, g, file, hreach, hfile⟩
      have hi := List.mem_range.mp hi
      exact ⟨g, file, hreach.head ⟨f, i, hf, by omega, hdep⟩, hfile⟩
    · rintro ⟨g, file, hreach, hfile, hpath⟩
      rcases hreach.cases_head with rfl | ⟨dep, ⟨f', i, hf', hi, hdep⟩, hreach⟩
      · cases hf.symm.trans hfile
        exact absurd hpath hname
      · cases hf.symm.trans hf'
        exact ⟨i, List.mem_range.mpr (by omega), dep, hdep, g, file, hreach, hfile, hpath⟩

end Resolves

section Pool

variable {strhash : List UInt8 → ℕ} {s s' : DefPool} {ev : AddFile}

/-- A file of the pool. -/
def DefPool.HasFile (strhash : List UInt8 → ℕ) (s : DefPool) (id : ℕ) : Prop :=
  ∃ name, StrTable.lookup2 strhash s.files name = some id

/-- The indices of the files of a pool are in range, and the search for a path returns and finds the files
that are reached through public dependencies. -/
def DefPool.DependenciesResolve (strhash : List UInt8 → ℕ) (s : DefPool) : Prop :=
  ∀ id, s.HasFile strhash id → ∃ f, s.defs[id]? = some f ∧ f.IndicesInRange ∧
    ∀ path, ∃ fuel b, resolves s.defs path fuel id = .ok b ∧ (b = true ↔ Reaches s.defs id path)

/-- The invariant of the files of a pool. -/
structure DefPool.Inv (strhash : List UInt8 → ℕ) (s : DefPool) : Prop where
  files : StrTable.Inv strhash s.files
  loaded : s.files.Loaded
  found : ∀ name id, StrTable.lookup2 strhash s.files name = some id →
    ∃ f, s.defs[id]? = some f ∧ f.name = name
  deps : ∀ (id : ℕ) (f : FileDef), s.defs[id]? = some f → ∀ d ∈ f.deps, d < id ∧ s.HasFile strhash d
  below : ∀ (id : ℕ) (f : FileDef), s.defs[id]? = some f → ∀ dep ∈ f.publicDeps ++ f.weakDeps, dep < f.dependencyCount

theorem DefPool.inv_new (h : DefPool.new strhash = some s) : s.Inv strhash := by
  obtain ⟨files, hfiles, rfl⟩ := Option.map_eq_some_iff.mp h
  obtain ⟨hinv, hload, hempty⟩ := StrTable.inv_of_init hfiles
  refine ⟨hinv, hload, fun name id hid => ?_, nofun, nofun⟩
  rw [hempty] at hid
  cases hid

theorem findDependencies_ok {files : StrTable ℕ} {names : List (List UInt8)} {deps : List ℕ}
    (h : findDependencies strhash files names = .ok deps) :
    ∀ d ∈ deps, ∃ name, StrTable.lookup2 strhash files name = some d := by
  induction names generalizing deps with
  | nil =>
    cases h
    nofun
  | cons name names ih =>
    rw [findDependencies] at h
    cases hlookup : StrTable.lookup2 strhash files name with
    | none =>
      rw [hlookup] at h
      cases h
    | some dep =>
      rw [hlookup] at h
      cases hrest : findDependencies strhash files names with
      | error e =>
        rw [hrest] at h
        cases h
      | ok rest =>
        rw [hrest] at h
        cases h
        intro d hd
        rcases List.mem_cons.mp hd with rfl | hd
        · exact ⟨name, hlookup⟩
        · exact ih hrest d hd

theorem checkDeps_ok {error : ℤ → FileError} {depCount : ℤ} {deps : List ℤ} {u : Unit}
    (h : checkDeps error depCount deps = .ok u) : ∀ dep ∈ deps, dep < depCount := by
  induction deps with
  | nil => nofun
  | cons dep deps ih =>
    rw [checkDeps] at h
    split at h
    · cases h
    · next hlt =>
      intro d hd
      rcases List.mem_cons.mp hd with rfl | hd
      · omega
      · exact ih h d hd

/-- A file that is created depends on files of the pool, and its indices are not too large. -/
theorem fileDefCreate_ok {files : StrTable ℕ} {proto : FileDescriptorProto} {f : FileDef}
    (h : fileDefCreate strhash files proto = .ok f) :
    f.name = proto.name ∧ f.publicDeps = proto.publicDependency ∧ f.weakDeps = proto.weakDependency ∧
      (∀ d ∈ f.deps, ∃ name, StrTable.lookup2 strhash files name = some d) ∧
      ∀ dep ∈ f.publicDeps ++ f.weakDeps, dep < f.dependencyCount := by
  rw [fileDefCreate] at h
  split at h
  · cases h
  · cases hdeps : findDependencies strhash files proto.dependency with
    | error e =>
      rw [hdeps] at h
      cases h
    | ok deps =>
      rw [hdeps] at h
      change (checkDeps _ _ _ >>= fun _ => checkDeps _ _ _ >>= fun _ => _) = _ at h
      cases hpublic : checkDeps .publicDepOutOfRange (toInt deps.length) proto.publicDependency with
      | error e =>
        rw [hpublic] at h
        cases h
      | ok u =>
        rw [hpublic] at h
        change (checkDeps _ _ _ >>= fun _ => _) = _ at h
        cases hweak : checkDeps .weakDepOutOfRange (toInt deps.length) proto.weakDependency with
        | error e =>
          rw [hweak] at h
          cases h
        | ok u' =>
          rw [hweak] at h
          cases h
          refine ⟨rfl, rfl, rfl, findDependencies_ok hdeps, fun dep hdep => ?_⟩
          rcases List.mem_append.mp hdep with hdep | hdep
          · exact checkDeps_ok hpublic dep hdep
          · exact checkDeps_ok hweak dep hdep

/-- What a call that adds a file does to the pool. -/
structure Added (strhash : List UInt8 → ℕ) (s s' : DefPool) (ev : AddFile) : Prop where
  inv : s'.Inv strhash
  defs : ∃ f, s'.defs = s.defs ++ [f] ∧ f.publicDeps = ev.proto.publicDependency ∧
    f.weakDeps = ev.proto.weakDependency

/-- The entry of a new file, if there is memory for it. -/
theorem DefPool.Inv.append (hs : s.Inv strhash) {f : FileDef} {files : StrTable ℕ}
    (hfiles : StrTable.Inv strhash files ∧ files.Loaded)
    (hlookup : StrTable.lookup2 strhash files = StrTable.lookup2 strhash s.files ∨
      StrTable.lookup2 strhash files =
        Function.update (StrTable.lookup2 strhash s.files) f.name (some s.defs.length))
    (hnew : StrTable.lookup2 strhash s.files f.name = none) (hdeps : ∀ d ∈ f.deps, s.HasFile strhash d)
    (hbelow : ∀ dep ∈ f.publicDeps ++ f.weakDeps, dep < f.dependencyCount) :
    DefPool.Inv strhash ⟨s.defs ++ [f], files⟩ := by
  have hkept : ∀ name id, StrTable.lookup2 strhash s.files name = some id →
      StrTable.lookup2 strhash files name = some id := by
    intro name id hid
    rcases hlookup with hsame | hupdate
    · rw [hsame, hid]
    · rw [hupdate, Function.update_of_ne, hid]
      rintro rfl
      rw [hnew] at hid
      cases hid
  have hold : ∀ (id : ℕ) (g : FileDef), s.defs[id]? = some g → (s.defs ++ [f])[id]? = some g := by
    intro id g hg
    rw [List.getElem?_append_left (List.getElem?_eq_some_iff.mp hg).1, hg]
  have hcases : ∀ (id : ℕ) (g : FileDef), (s.defs ++ [f])[id]? = some g → s.defs[id]? = some g ∨ id = s.defs.length ∧ g = f := by
    intro id g hg
    rcases Nat.lt_trichotomy id s.defs.length with hlt | rfl | hgt
    · rw [List.getElem?_append_left hlt] at hg
      exact .inl hg
    · rw [List.getElem?_concat_length] at hg
      exact .inr ⟨rfl, (Option.some.inj hg).symm⟩
    · rw [List.getElem?_eq_none (by simp; omega)] at hg
      cases hg
  have hlive : ∀ d, s.HasFile strhash d → d < s.defs.length := by
    rintro d ⟨name, hname⟩
    obtain ⟨g, hg, -⟩ := hs.found name d hname
    exact (List.getElem?_eq_some_iff.mp hg).1
  have hstill : ∀ d, s.HasFile strhash d → DefPool.HasFile strhash ⟨s.defs ++ [f], files⟩ d := by
    rintro d ⟨name, hname⟩
    exact ⟨name, hkept name d hname⟩
  refine ⟨hfiles.1, hfiles.2, fun name id hid => ?_, fun id g hg d hd => ?_, fun id g hg => ?_⟩
  · change StrTable.lookup2 strhash files name = some id at hid
    rcases hlookup with hsame | hupdate
    · rw [hsame] at hid
      obtain ⟨g, hg, hname⟩ := hs.found name id hid
      exact ⟨g, hold id g hg, hname⟩
    · rw [hupdate, Function.update_apply] at hid
      split at hid
      · next heq =>
        cases hid
        exact ⟨f, by simp, heq.symm⟩
      · obtain ⟨g, hg, hname⟩ := hs.found name id hid
        exact ⟨g, hold id g hg, hname⟩
  · rcases hcases id g hg with hg | ⟨rfl, rfl⟩
    · obtain ⟨hlt, hfile⟩ := hs.deps id g hg d hd
      exact ⟨hlt, hstill d hfile⟩
    · exact ⟨hlive d (hdeps d hd), hstill d (hdeps d hd)⟩
  · rcases hcases id g hg with hg | ⟨-, rfl⟩
    · exact hs.below id g hg
    · exact hbelow

/-- A call that adds a file keeps the invariant. -/
theorem addFile_added (hs : s.Inv strhash) (h : addFile strhash s ev = .ok s') : Added strhash s s' ev := by
  rw [addFile] at h
  cases hname : StrTable.lookup2 strhash s.files ev.proto.name with
  | some id =>
    rw [hname] at h
    cases h
  | none =>
    rw [hname] at h
    dsimp only at h
    cases hcreate : fileDefCreate strhash s.files ev.proto with
    | error e =>
      rw [hcreate] at h
      cases h
    | ok f =>
      rw [hcreate] at h
      obtain ⟨hfname, hpublic, hweak, hdeps, hbelow⟩ := fileDefCreate_ok hcreate
      change (if ¬ ev.rest then _ else _) = _ at h
      split at h
      · cases h
      split at h
      · cases h
        exact ⟨hs.append ⟨hs.files, hs.loaded⟩ (.inl rfl) (hfname ▸ hname) hdeps hbelow, f, rfl, hpublic, hweak⟩
      · cases hins : StrTable.insert strhash s.files ev.proto.name s.defs.length with
        | none =>
          rw [hins] at h
          cases h
        | some r =>
          obtain ⟨ok, files⟩ := r
          rw [hins] at h
          cases h
          have hstep : StrTable.step strhash s.files (.insert ev.proto.name s.defs.length) =
              some (.flag ok, files) := by
            rw [StrTable.step, hins]
            rfl
          obtain ⟨hinv, hmeets⟩ := StrTable.step_meets s.files
            (.insert ev.proto.name s.defs.length) _ files hs.files hname hstep
          obtain ⟨o, files', hreturns, -, hload⟩ := StrTable.step_returns s.files
            (.insert ev.proto.name s.defs.length) ⟨hs.files, hs.loaded⟩ hname
          cases hstep.symm.trans hreturns
          have hlookup : StrTable.lookup2 strhash files = StrTable.lookup2 strhash s.files ∨
              StrTable.lookup2 strhash files =
                Function.update (StrTable.lookup2 strhash s.files) f.name (some s.defs.length) := by
            rw [hfname]
            cases ok with
            | true => exact .inr hmeets
            | false => exact .inl hmeets
          exact ⟨hs.append ⟨hinv, hload⟩ hlookup (hfname ▸ hname) hdeps hbelow, f, rfl, hpublic, hweak⟩

/-- A sequence of calls keeps the invariant; what holds of the files it adds holds of all files. -/
theorem addFiles_inv {P : FileDef → Prop} (evs : List AddFile)
    (hP : ∀ ev ∈ evs, ∀ f : FileDef, f.publicDeps = ev.proto.publicDependency →
      f.weakDeps = ev.proto.weakDependency → P f) :
    ∀ s : DefPool, s.Inv strhash → (∀ f ∈ s.defs, P f) →
      (s.addFiles strhash evs).Inv strhash ∧ ∀ f ∈ (s.addFiles strhash evs).defs, P f := by
  induction evs with
  | nil => exact fun s hs hdefs => ⟨hs, hdefs⟩
  | cons ev evs ih =>
    intro s hs hdefs
    have hrest := ih fun ev' hev' => hP ev' (List.mem_cons_of_mem _ hev')
    rw [DefPool.addFiles]
    cases hadd : addFile strhash s ev with
    | error e => exact hrest s hs hdefs
    | ok s₁ =>
      obtain ⟨hinv, f, hdefs₁, hpublic, hweak⟩ := addFile_added hs hadd
      refine hrest s₁ hinv fun g hg => ?_
      rw [hdefs₁] at hg
      rcases List.mem_append.mp hg with hg | hg
      · exact hdefs g hg
      · obtain rfl := List.mem_singleton.mp hg
        exact hP ev (List.mem_cons_self ..) g hpublic hweak

/-- The dependencies of a pool resolve just when no file of it has a negative index. -/
theorem DefPool.Inv.dependenciesResolve_iff (hs : s.Inv strhash) :
    s.DependenciesResolve strhash ↔
      ∀ id f, s.HasFile strhash id → s.defs[id]? = some f → f.IndicesNonneg := by
  constructor
  · intro h id f hid hf dep hdep
    obtain ⟨f', hf', hrange, -⟩ := h id hid
    cases hf.symm.trans hf'
    exact (hrange dep hdep).1
  · intro h
    have hwf : WellFounded s.defs (s.HasFile strhash) := by
      refine ⟨fun id hid => ?_, fun id f _ hf d hd => hs.deps id f hf d hd⟩
      obtain ⟨name, hname⟩ := hid
      obtain ⟨f, hf, -⟩ := hs.found name id hname
      exact ⟨f, hf, fun dep hdep => ⟨h id f ⟨name, hname⟩ hf dep hdep, hs.below id f hf dep hdep⟩⟩
    intro id hid
    obtain ⟨f, hf, hrange⟩ := hwf.file id hid
    refine ⟨f, hf, hrange, fun path => ?_⟩
    obtain ⟨b, hb, hiff⟩ := resolves_spec hwf path id hid (id + 1) (Nat.lt_succ_self id)
    exact ⟨id + 1, b, hb, hiff⟩

/-- In every run in which no file has a negative index, the dependencies resolve in every pool reached; and
in a pool that is reached they resolve only if no file of it has a negative index. -/
theorem dependencies_resolve_iff (strhash : List UInt8 → ℕ) (s : DefPool) (h : DefPool.new strhash = some s)
    (evs : List AddFile) :
    ((∀ ev ∈ evs, ∀ dep ∈ ev.proto.publicDependency ++ ev.proto.weakDependency, 0 ≤ dep) →
      ∀ pre, pre <+: evs → (s.addFiles strhash pre).DependenciesResolve strhash) ∧
    ((s.addFiles strhash evs).DependenciesResolve strhash ↔ ∀ id f,
      (s.addFiles strhash evs).HasFile strhash id → (s.addFiles strhash evs).defs[id]? = some f →
        f.IndicesNonneg) := by
  have hs := DefPool.inv_new h
  have hdefs : s.defs = [] := by
    obtain ⟨files, -, rfl⟩ := Option.map_eq_some_iff.mp h
    rfl
  constructor
  · intro hall pre hpre
    obtain ⟨hinv, hnonneg⟩ := addFiles_inv (P := FileDef.IndicesNonneg) pre (fun ev hev f hpublic hweak dep hdep => by
      rw [hpublic, hweak] at hdep
      exact hall ev (hpre.subset hev) dep hdep) s hs (by rw [hdefs]; nofun)
    exact hinv.dependenciesResolve_iff.mpr fun id f _ hf => hnonneg f (List.mem_of_getElem? hf)
  · have hinv := (addFiles_inv (P := fun _ => True) evs (fun _ _ _ _ _ => trivial) s hs
      fun _ _ => trivial).1
    exact hinv.dependenciesResolve_iff

/-- A file `a`, and a file `b` with `a` as its public dependency. -/
def publicFiles : List AddFile := [⟨⟨[97], [], [], []⟩, true, true⟩, ⟨⟨[98], [[97]], [0], []⟩, true, true⟩]

theorem dependencies_resolve_publicFiles :
    ∃ s, DefPool.new (fun _ => 0) = some s ∧
      (s.addFiles (fun _ => 0) publicFiles).DependenciesResolve fun _ => 0 := by
  obtain ⟨s, hs⟩ : ∃ s, DefPool.new (fun _ => 0) = some s := ⟨_, rfl⟩
  exact ⟨s, hs, (dependencies_resolve_iff (fun _ => 0) s hs publicFiles).1 (by decide) _ (List.prefix_refl _)⟩

/-- A file with the public dependency -1. -/
def negativeFiles : List AddFile := [⟨⟨[97], [], [-1], []⟩, true, true⟩]

/-- The file is added, and the search for another path leaves the array of its dependencies. -/
theorem negativeFiles_outOfBounds :
    ∃ s, DefPool.new (fun _ => 0) = some s ∧
      ¬ (s.addFiles (fun _ => 0) negativeFiles).DependenciesResolve (fun _ => 0) ∧
      (match resolves (s.addFiles (fun _ => 0) negativeFiles).defs [98] 1 0 with
        | .error .outOfBounds => True
        | _ => False) := by
  obtain ⟨s, hs⟩ : ∃ s, DefPool.new (fun _ => 0) = some s := ⟨_, rfl⟩
  cases hs
  refine ⟨_, rfl, fun hresolve => ?_, trivial⟩
  obtain ⟨f, hf, hrange, -⟩ := hresolve 0 ⟨[97], by decide +kernel⟩
  have hf : some ⟨[97], [], [-1], []⟩ = some f := hf
  cases hf
  exact absurd (hrange (-1) (by decide)).1 (by decide)

end Pool

end Upb.Reflection
