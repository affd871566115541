import Mathlib.Data.Int.Notation
import Upb.Hash.StrTable

/-!
# Files and their dependencies

`upb/reflection/file_def.c` and the files of `upb/reflection/def_pool.c`: a file is added to a pool if the
files it depends on are there; its public and weak dependencies are indices among them. A file is
referred to by its position among the files that were created. What else can fail while a file is created
is left open.
-/

namespace Upb.Reflection

/-- The members of a `FileDescriptorProto` that its dependencies depend on. -/
structure FileDescriptorProto where
  name : List UInt8
  dependency : List (List UInt8)
  publicDependency : List ℤ
  weakDependency : List ℤ

/-- The members of a `upb_FileDef` for its dependencies. -/
structure FileDef where
  name : List UInt8
  deps : List ℕ
  publicDeps : List ℤ
  weakDeps : List ℤ

/-- A size that is stored in an `int`. -/
def toInt (n : ℕ) : ℤ :=
  if n % 2 ^ 32 < 2 ^ 31 then ((n % 2 ^ 32 : ℕ) : ℤ) else ((n % 2 ^ 32 : ℕ) : ℤ) - 2 ^ 32

namespace FileDef

/-- `upb_FileDef_DependencyCount`. -/
def dependencyCount (f : FileDef) : ℤ := toInt f.deps.length

/-- `upb_FileDef_PublicDependencyCount`. -/
def publicDependencyCount (f : FileDef) : ℤ := toInt f.publicDeps.length

/-- `upb_FileDef_PublicDependency`; `none` is an access outside of the arrays. -/
def publicDependency (f : FileDef) (i : ℕ) : Option ℕ :=
  f.publicDeps[i]?.bind fun dep => if 0 ≤ dep then f.deps[dep.toNat]? else none

end FileDef

/-- Why a file is not added. -/
inductive FileError where
  /-- "duplicate file name %s" -/
  | duplicateFileName (name : List UInt8)
  /-- "File name contained embedded NULL" -/
  | nameWithNull
  /-- "Depends on file '%s', but it has not been loaded" -/
  | dependencyNotLoaded (name : List UInt8)
  /-- "public_dep %d is out of range" -/
  | publicDepOutOfRange (dep : ℤ)
  /-- "weak_dep %d is out of range" -/
  | weakDepOutOfRange (dep : ℤ)
  /-- Anything else. -/
  | other
  /-- A failed assertion of the hash table. -/
  | assertion

/-- The files of a `upb_DefPool`: all that were created, and the table by name. -/
structure DefPool where
  defs : List FileDef
  files : StrTable ℕ

/-- A call of `upb_DefPool_AddFile`: whether the rest of the file is created, and whether there is memory
for the entry of its name. -/
structure AddFile where
  proto : FileDescriptorProto
  rest : Bool
  memory : Bool

section

variable (strhash : List UInt8 → ℕ)

/-- The loop over the dependencies. -/
def findDependencies (files : StrTable ℕ) : List (List UInt8) → Except FileError (List ℕ)
  | [] => .ok []
  | name :: names =>
    match StrTable.lookup2 strhash files name with
    | none => .error (.dependencyNotLoaded name)
    | some dep => do
      let deps ← findDependencies files names
      .ok (dep :: deps)

/-- The loop over the public or the weak dependencies. -/
def checkDeps (error : ℤ → FileError) (depCount : ℤ) : List ℤ → Except FileError Unit
  | [] => .ok ()
  | dep :: deps => if dep ≥ depCount then .error (error dep) else checkDeps error depCount deps

/-- `_upb_FileDef_Create`, as far as it concerns the dependencies. -/
def fileDefCreate (files : StrTable ℕ) (proto : FileDescriptorProto) : Except FileError FileDef :=
  if 0 ∈ proto.name then .error .nameWithNull
  else do
    let deps ← findDependencies strhash files proto.dependency
    let depCount := toInt deps.length
    checkDeps .publicDepOutOfRange depCount proto.publicDependency
    checkDeps .weakDepOutOfRange depCount proto.weakDependency
    .ok ⟨proto.name, deps, proto.publicDependency, proto.weakDependency⟩

/-- `upb_DefPool_AddFile`. The result of the insertion of the name is not looked at. -/
def addFile (s : DefPool) (ev : AddFile) : Except FileError DefPool :=
  match StrTable.lookup2 strhash s.files ev.proto.name with
  | some _ => .error (.duplicateFileName ev.proto.name)
  | none => do
    let file ← fileDefCreate strhash s.files ev.proto
    if ¬ ev.rest then .error .other
    else if ¬ ev.memory then .ok { s with defs := s.defs ++ [file] }
    else
      match StrTable.insert strhash s.files ev.proto.name s.defs.length with
      | none => .error .assertion
      | some (_, files) => .ok ⟨s.defs ++ [file], files⟩

/-- `upb_DefPool_New`. -/
def DefPool.new : Option DefPool := (StrTable.init strhash 4).map fun files => ⟨[], files⟩

/-- A sequence of calls of `upb_DefPool_AddFile`; one that fails leaves the files alone. -/
def DefPool.addFiles (s : DefPool) : List AddFile → DefPool
  | [] => s
  | ev :: evs =>
    match addFile strhash s ev with
    | .ok s => DefPool.addFiles s evs
    | .error _ => DefPool.addFiles s evs

end

/-- How `upb_FileDef_Resolves` can fail to return. -/
inductive ResolveFault where
  | outOfBounds
  | outOfFuel

/-- The loop of `upb_FileDef_Resolves` over the public dependencies with the given indices. -/
def resolvesAny (resolves : ℕ → Except ResolveFault Bool) (f : FileDef) : List ℕ → Except ResolveFault Bool
  | [] => .ok false
  | i :: is =>
    match f.publicDependency i with
    | none => .error .outOfBounds
    | some dep =>
      match resolves dep with
      | .ok true => .ok true
      | .ok false => resolvesAny resolves f is
      | .error e => .error e

/-- `upb_FileDef_Resolves`. -/
def resolves (defs : List FileDef) (path : List UInt8) : ℕ → ℕ → Except ResolveFault Bool
  | 0, _ => .error .outOfFuel
  | fuel + 1, id =>
    match defs[id]? with
    | none => .error .outOfBounds
    | some f =>
      if f.name = path then .ok true
      else resolvesAny (resolves defs path fuel) f (List.range f.publicDependencyCount.toNat)

end Upb.Reflection
