/-
Build and import definitions, and the records the evaluation stages leave behind.

The records are those of `builddef` and `importdef`.  An input embeds a complete
inner definition as bytes, so a definition nests to any depth without a
recursive type: the scheduler unfolds one level at a time and so does the model.
Go maps with string keys are association lists; a decoder yields each key once.
-/
import JobsIroh.Wire
import JobsIroh.Lib.Text

namespace JobsIroh

/-- What an input names; anything else a peer may have written is kept as `other`. -/
inductive InputKind where
  | importK
  | build
  | tree
  | other (s : String)
  deriving DecidableEq, Repr

def InputKind.name : InputKind → String
  | .importK => "import"
  | .build => "build"
  | .tree => "tree"
  | .other s => s

structure Input where
  kind : InputKind
  definition : Bytes
  deriving DecidableEq, Repr

/-- An input together with the recipe's name for it. -/
structure NamedInput where
  name : String
  input : Input
  deriving DecidableEq, Repr

/-- A build definition; its canonical encoding is hashed to the build's identity. -/
structure Definition where
  source : Input
  dir : String := ""
  platform : String
  params : Bytes := []
  buildJobs : Bytes := []
  buildFile : String := ""
  ctx : Int := 0
  deriving DecidableEq, Repr

structure ImportDef where
  fetcher : String
  params : Bytes := []
  requiredTags : List String := []
  platform : String := ""
  fetcherDef : Bytes := []
  deriving DecidableEq, Repr

structure PluginResolved where
  plugins : List (String × Input)
  deps : List (String × Input) := []
  deriving DecidableEq, Repr

structure PinnedCache where
  path : String
  id : String
  deriving DecidableEq, Repr

/-- The resolved job description a pin leaves behind. -/
structure Pinned where
  inputs : List NamedInput
  env : List (String × String) := []
  script : String := ""
  runtimeDeps : List Bytes := []
  caches : List PinnedCache := []
  resources : Option Resources := none
  sources : List String := []
  closure : List String := []
  dir : String := ""
  generated : List (String × Bytes) := []
  deriving DecidableEq, Repr

/-- Insert by name; `sort.Strings` on the keys of one map. -/
def insertNamed (x : NamedInput) : List NamedInput → List NamedInput
  | [] => [x]
  | y :: ys => if x.name ≤ y.name then x :: y :: ys else y :: insertNamed x ys

def sortNamed (m : List (String × Input)) : List NamedInput :=
  m.foldr (fun e acc => insertNamed ⟨e.1, e.2⟩ acc) []

/-- Plugins before resolution deps, each sorted by name. -/
def sortedNamedInputs (plugins deps : List (String × Input)) : List NamedInput :=
  sortNamed plugins ++ sortNamed deps

/-! ### Cache refs -/

def maxCacheIDLen : Nat := 128

def cacheIDHead (c : Char) : Bool :=
  ('a' ≤ c && c ≤ 'z') || ('A' ≤ c && c ≤ 'Z') || ('0' ≤ c && c ≤ '9')

def cacheIDTail (c : Char) : Bool := cacheIDHead c || c = '.' || c = '_' || c = '-'

/-- At most 128 bytes of `[a-zA-Z0-9][a-zA-Z0-9._-]*`. -/
def validateCacheID (id : String) : Bool :=
  id.utf8ByteSize ≤ maxCacheIDLen &&
    match id.toList with
    | [] => false
    | c :: cs => cacheIDHead c && cs.all cacheIDTail

def cacheRefName (id platform : String) : String := "build-cache:" ++ id ++ ":" ++ platform

/-- Split `build-cache:<id>:<platform>`. -/
def parseCacheRefName (name : String) : Option (String × String) :=
  match Text.cutPrefix "build-cache:" name with
  | none => none
  | some rest =>
    match Text.cut ':' rest with
    | none => none
    | some (id, platform) =>
      if platform = "" ∨ validateCacheID id = false then none else some (id, platform)

/-- A name that parses is the name its parts render to. -/
theorem parseCacheRefName_eq_some {name id platform : String}
    (h : parseCacheRefName name = some (id, platform)) : name = cacheRefName id platform := by
  unfold parseCacheRefName at h
  split at h
  · cases h
  · rename_i rest hrest
    split at h
    · cases h
    · rename_i a b hcut
      split at h
      · cases h
      · obtain ⟨rfl, rfl⟩ := Prod.mk.inj (Option.some.inj h)
        rw [Text.cutPrefix_eq_some_iff.mp hrest, (Text.cut_eq_some hcut).1, cacheRefName,
          show String.ofList [':'] = ":" from rfl]
        simp only [String.append_assoc]

end JobsIroh
