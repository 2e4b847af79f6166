/-
Looking things up in a runner's store.

A stage driver reads two things: what a ref name points at, and the object at a key with
everything below it.  A driver is written as the computation of its lookups, so that what
it asks of a store can be told from what it makes of the answers; `Site.oracle` answers
from a store.  An error of the ref store itself is not modelled.

Six places of the code turn an input into the tree they use of it.  Each has its own body
here, as there: build inputs and resolution deps (`resolveInputOutputKey`), plugins
(`pluginOutput`), build sources (`resolveSourceContentTree`), recipe-declared fetchers
(`fetcherArtifact`) and outputs run by key (`resolveByKeyArtifact`).
-/
import JobsIroh.Cover.Derive
import JobsIroh.Lib.Query
import JobsIroh.Runner.BuildRun

namespace JobsIroh

open JobsIroh.Tree (Dir)

/-- An object with everything below it. -/
inductive Obj where
  | file (b : Bytes)
  | dir (d : Dir)

/-- What a store is asked for. -/
inductive Lookup (κ : Type) where
  | ref (r : RefName κ)
  | object (k : κ)
  deriving DecidableEq

/-- The answer to a lookup: the key of a ref, if it exists, or an object. -/
@[reducible]
def Answer {κ : Type} : Lookup κ → Type
  | .ref _ => Option κ
  | .object _ => Except String Obj

/-- A computation over a runner's store. -/
abbrev Reads (κ ε α : Type) := Query (Answer (κ := κ)) ε α

namespace Cover

variable {κ : Type}

def Objects.obj (O : Objects κ) (k : κ) : Option Obj :=
  match O.file k with
  | some b => some (.file b)
  | none => (O.tree k).map .dir

/-- The answers of a store. -/
def Site.oracle (S : Site κ) (st : Store κ) : Query.Oracle (Answer (κ := κ))
  | .ref r => st.refs r
  | .object k =>
    match (if st.complete k then S.objects.obj k else none) with
    | some x => .ok x
    | none => .error (S.outside.absent k)

end Cover

namespace Runner

open Cover (Site contentKey)

variable {κ ε : Type} (S : Site κ)

/-! ### Refs and objects -/

def getKey (r : RefName κ) : Reads κ ε (Option κ) := Query.lookup (Lookup.ref r)

/-- A ref that is looked up and whose absence is no error. -/
def probe (r : RefName κ) : Reads κ ε Unit := do
  let _ ← getKey r

def readObject (k : κ) : Reads κ ε (Except String Obj) := Query.lookup (Lookup.object k)

/-- `Ls` of a root, and its tar. -/
def openTree (k : κ) : Reads κ ε (Except String Dir) := do
  match ← readObject k with
  | .error e => return .error e
  | .ok (.dir d) => return .ok d
  | .ok (.file _) => return .error ("amber: " ++ S.outside.string k ++ " is not a directory")

/-- The content key of a named entry. -/
def resolveSubdirKey (root : κ) (name : String) : Reads κ ε (Except String κ) := do
  match ← openTree S root with
  | .error e => return .error e
  | .ok d =>
    match d.find name with
    | none => return .error ("no \"" ++ name ++ "\" entry")
    | some (_, node) =>
      match contentKey S.objects.keys node with
      | some k => return .ok k
      | none => return .error ("entry \"" ++ name ++ "\" has no content key")

/-- `TreeSubdir`: a missing entry is no error. -/
def treeSubdir (root : κ) (name : String) : Reads κ ε (Except String (Option κ)) := do
  match ← openTree S root with
  | .error e => return .error e
  | .ok d =>
    match d.find name with
    | none => return .ok none
    | some (_, node) =>
      match contentKey S.objects.keys node with
      | some k => return .ok (some k)
      | none => return .error ("invalid content key for \"" ++ name ++ "\"")

/-- The file at a path of a tree, as its tar has it. -/
def tarFile (d : Dir) (name : String) : Except String Bytes :=
  match d.get (Text.split '/' ((Text.cutPrefix "/" name).getD name)) with
  | some (_, .leaf (.file b)) => .ok b
  | _ => S.tarOther d name

def readTreeFile (root : κ) (name : String) : Reads κ ε (Except String Bytes) := do
  match ← openTree S root with
  | .error e => return .error e
  | .ok d => return tarFile S d name

/-! ### Outputs of builds -/

/-- `ResolveBuildOutput`: through the `build-from` bridge. -/
def resolveBuildOutput (k : κ) : Reads κ ε (Option κ) := do
  match ← getKey (.buildFrom k) with
  | none => return none
  | some f => getKey (.output f)

def resolveBuildOutputDeps (k : κ) : Reads κ ε (Option κ) := do
  match ← getKey (.buildFrom k) with
  | none => return none
  | some f => getKey (.outputDeps f)

/-- `ErrNoArtifact` is told from every other error. -/
inductive ArtifactError where
  | noArtifact (msg : String)
  | other (msg : String)
  deriving DecidableEq, Repr

/-- The two hops, or an output recorded under `k` itself. -/
def outputOrDirect (k : κ) : Reads κ ε (Option κ) := do
  match ← resolveBuildOutput k with
  | some out => return some out
  | none => getKey (.output k)

def outputDepsOrDirect (k : κ) : Reads κ ε (Option κ) := do
  match ← resolveBuildOutputDeps k with
  | some deps => return some deps
  | none => getKey (.outputDeps k)

/-- `ResolveBuildArtifact`: the `c` of the output. -/
def resolveBuildArtifact (k : κ) : Reads κ ε (Except ArtifactError (Option κ)) := do
  match ← outputOrDirect k with
  | none => return .ok none
  | some out =>
    match ← treeSubdir S out "c" with
    | .error e => return .error (.other e)
    | .ok none =>
      return .error (.noArtifact ("build output has no c/ artifact (build " ++ S.outside.string k ++
        " output " ++ S.outside.string out ++ ")"))
    | .ok (some a) => return .ok (some a)

/-! ### The artifact of an input -/

/-- Go on with what there is, or fail. -/
def orFail {α : Type} (f : String → ε) : Except String α → Reads κ ε α
  | .ok x => return x
  | .error e => Query.fail (f e)

/-- Build inputs and resolution deps. -/
def resolveInputOutputKey (i : Input) : Reads κ Failure κ := do
  let ik ← orFail (fun e => hard "resolving" ("input key: " ++ e)) (S.outside.inputKey i)
  match i.kind with
  | .importK =>
    match ← getKey (.importOutput ik) with
    | none =>
      Query.fail (retryable "resolving" ("import-output:" ++ S.outside.string ik ++ " not found"))
    | some out => return out
  | .build =>
    match ← resolveBuildOutput ik with
    | none =>
      Query.fail
        (retryable "resolving" ("build output for " ++ S.outside.string ik ++ " not found"))
    | some out => orFail (retryable "resolving") (← resolveSubdirKey S out "c")
  | kind => Query.fail (hard "resolving" ("unknown input kind: " ++ kind.name))

/-- A build's source. -/
def resolveSourceContentTree (source : Input) : Reads κ Failure κ := do
  let srcK ← orFail (fun e => hard "resolving" ("source key: " ++ e)) (S.outside.inputKey source)
  match source.kind with
  | .importK =>
    match ← getKey (.importOutput srcK) with
    | none =>
      Query.fail (retryable "resolving"
        ("import-output:" ++ S.outside.string srcK ++ " not found (source not built)"))
    | some out => return out
  | .build =>
    match ← resolveBuildOutput srcK with
    | none =>
      Query.fail (retryable "resolving"
        ("build output for source " ++ S.outside.string srcK ++ " not found"))
    | some out => orFail (retryable "resolving") (← resolveSubdirKey S out "c")
  | .tree => do
    let tk ← orFail (fun e => hard "resolving" ("decode tree source: " ++ e))
      (S.outside.decodeTreeKey source.definition)
    probe (.buildFromTree tk)
    let _ ← orFail (retryable "resolving") (← openTree S tk)
    return tk
  | .other k => Query.fail (hard "resolving" ("unknown source kind: " ++ k))

/-- A definition that cannot be keyed is told from an output that is not there. -/
inductive PluginError where
  | key (msg : String)
  | other (msg : String)
  deriving DecidableEq, Repr

/-- The tree a plugin is run from; its kind is not looked at. -/
def pluginOutput (name : String) (i : Input) : Reads κ PluginError κ := do
  let pk ← orFail (fun e => .key ("plugin " ++ name ++ " key: " ++ e)) (S.outside.inputKey i)
  match ← getKey (.importOutput pk) with
  | some out => return out
  | none =>
    match ← resolveBuildOutput pk with
    | some out => return out
    | none =>
      Query.fail (.other
        ("no output for plugin " ++ name ++ " (key " ++ S.outside.string pk ++ ")"))

/-- The fetcher of an import that declares one, which is a build. -/
def fetcherArtifact (fetcherDef : Bytes) : Reads κ Failure κ := do
  let fk ← orFail (fun e => hard "resolving" ("fetcher build def key: " ++ e))
    (S.outside.inputKey ⟨.build, fetcherDef⟩)
  match ← resolveBuildArtifact S fk with
  | .error (.noArtifact e) => Query.fail (hard "resolving" e)
  | .error (.other e) => Query.fail (retryable "resolving" e)
  | .ok none =>
    Query.fail (retryable "resolving"
      ("fetcher build " ++ S.outside.string fk ++ " output not resolvable yet"))
  | .ok (some a) => return a

/-- `parseStoreEntryKey` of every entry. -/
def storeEntryKeys : List String → Except String (List κ)
  | [] => .ok []
  | name :: names =>
    match S.outside.parseHex name with
    | .error e => .error e
    | .ok k => (storeEntryKeys names).map (k :: ·)

structure ResolvedArtifact (κ : Type) where
  bokSelf : κ
  /-- None when no shell is asked for. -/
  shellKey : Option κ
  depBOKs : List κ
  /-- `JOBS.entrypoint`, as it stands. -/
  entrypoint : Bytes

def shellForKey (shellRef : String) (needShell : Bool) : Reads κ String (Option κ) :=
  if needShell = false then return none
  else do
    match ← getKey (.raw shellRef) with
    | some k => return some k
    | none =>
      Query.fail ("shell artifact \"" ++ shellRef ++
        "\" not found (seed missing — restart to re-seed)")

def artifactForKey (k : κ) : Reads κ String κ := do
  match ← resolveBuildArtifact S k with
  | .error (.noArtifact e) =>
    Query.fail ("resolve artifact for " ++ S.outside.string k ++ ": " ++ e)
  | .error (.other e) => Query.fail ("resolve artifact for " ++ S.outside.string k ++ ": " ++ e)
  | .ok none =>
    Query.fail ("build-output for " ++ S.outside.string k ++ " not found — build it first")
  | .ok (some a) => return a

def depsForKey (k : κ) : Reads κ String (List κ) := do
  match ← outputDepsOrDirect k with
  | none => Query.fail ("build-output-deps for " ++ S.outside.string k ++ " not found")
  | some depsKey =>
    let d ← orFail ("list runtime closure: " ++ ·) (← openTree S depsKey)
    orFail ("runtime closure entry: " ++ ·) (storeEntryKeys S d.names)

/-- `resolveByKeyArtifact`: what `run` and `image` use of a build they are given by key.  The
entrypoint file must decode. -/
def resolveByKeyArtifact (decodes : Bytes → Except String Unit) (shellRef : String)
    (needShell : Bool) (k : κ) : Reads κ String (ResolvedArtifact κ) := do
  let shellKey ← shellForKey shellRef needShell
  let bokSelf ← artifactForKey S k
  let file ← readTreeFile S bokSelf "JOBS.entrypoint"
  let entrypoint ← orFail ("output is not runnable: " ++ ·) file
  orFail id (decodes entrypoint)
  let depBOKs ← depsForKey S k
  return { bokSelf, shellKey, depBOKs, entrypoint }

end Runner

end JobsIroh
