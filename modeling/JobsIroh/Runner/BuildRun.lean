/-
The run stage of a build (`runner/buildrun.go`, `amber/storetree.go`).

`RunBuild` resolves the pinned inputs of a KP to their artifacts, mounts these with their
runtime closures as one flat directory, runs the script, and publishes the output together
with a directory of the same shape for its own runtime deps.  A directory names each
artifact by the hex of its key, and the next build reads those names back.

The runner works on the refs of a store and on the directory objects in it.  What the
executor and the cache finalisation do is a parameter of a run: an error, an exit code or
an artifact with cache refs.  `step` is the pipeline around it: an import that completes, a
run of a build that has no output yet, and the aliases that publish a KP's output under F.
-/
import JobsIroh.Amber
import JobsIroh.Amber.Tree

namespace JobsIroh.Runner

open JobsIroh.Tree (Attr Content Stored Keys)

/-- A failed `Outcome`. -/
structure Failure where
  cls : ResultClass
  phase : String
  stderr : String
  exitCode : Int := 0
  deriving DecidableEq, Repr

def retryable (phase err : String) : Failure := { cls := .retryable, phase, stderr := err }

def hard (phase msg : String) : Failure := { cls := .hard, phase, stderr := msg }

/-- The refs of a store and its directory objects. -/
structure Host (κ : Type) where
  store : Store κ
  dirs : κ → Option (List (Stored κ))

/-- The key builders and the type bits of a key, with the rest of the world. -/
structure Tools (κ : Type) where
  world : World κ
  keys : Keys κ
  /-- `key.Type` is a blob or a file node. -/
  isFile : κ → Bool

structure BuildRunCfg (κ : Type) where
  platform : String
  shellKey : κ

variable {κ : Type}

def Host.putRefs [DecidableEq κ] (h : Host κ) (refs : List (RefName κ × κ)) : Host κ :=
  { h with store := refs.foldl (fun st r => st.putRef r.1 r.2) h.store }

def Host.putDir [DecidableEq κ] (h : Host κ) (k : κ) (es : List (Stored κ)) : Host κ :=
  { h with dirs := Function.update h.dirs k (some es) }

namespace Tools

variable (T : Tools κ)

def string (k : κ) : String := T.world.string k

/-! ### Store trees -/

/-- The entry of an artifact, named by its key. -/
def storeEntry (k : κ) : Stored κ :=
  if T.isFile k then ⟨{ name := T.string k, perm := 0o444 }, .file k⟩
  else ⟨{ name := T.string k, perm := 0o555 }, .dir k⟩

/-- Put an entry into a list in name order; one of the same name is replaced. -/
def insertEntry (e : Stored κ) : List (Stored κ) → List (Stored κ)
  | [] => [e]
  | x :: xs =>
    if e.attr.name = x.attr.name then e :: xs
    else if e.attr.name < x.attr.name then e :: x :: xs
    else x :: insertEntry e xs

/-- `BuildStoreTree`: one entry per distinct key. -/
def storeEntries (boks : List κ) : List (Stored κ) :=
  boks.foldr (fun k es => insertEntry (T.storeEntry k) es) []

/-! ### Resolving inputs -/

/-- `ResolveBuildOutput`: through the `build-from` bridge. -/
def resolveBuildOutput (h : Host κ) (k : κ) : Option κ :=
  (h.store.refs (.buildFrom k)).bind fun f => h.store.refs (.output f)

def resolveBuildOutputDeps (h : Host κ) (k : κ) : Option κ :=
  (h.store.refs (.buildFrom k)).bind fun f => h.store.refs (.outputDeps f)

/-- The content key of a named entry; a link has none. -/
def entryKey (name : String) (es : List (Stored κ)) : Except String κ :=
  match es.find? fun e => e.attr.name = name with
  | none => .error ("no \"" ++ name ++ "\" entry")
  | some ⟨_, .dir k⟩ => .ok k
  | some ⟨_, .file k⟩ => .ok k
  | some _ => .error ("entry \"" ++ name ++ "\" has no content key")

def resolveSubdirKey (h : Host κ) (root : κ) (name : String) : Except String κ :=
  match h.dirs root with
  | none => .error (T.world.absent root)
  | some es => entryKey name es

/-- The artifact of an input: an import's output, or the `c` of a build's. -/
def resolveInputOutputKey (h : Host κ) (pi : NamedInput) : Except Failure κ :=
  match T.world.inputKey pi.input with
  | .error e => .error (hard "resolving" ("input key: " ++ e))
  | .ok ik =>
    match pi.input.kind with
    | .importK =>
      match h.store.refs (.importOutput ik) with
      | none => .error (retryable "resolving" ("import-output:" ++ T.string ik ++ " not found"))
      | some out => .ok out
    | .build =>
      match resolveBuildOutput h ik with
      | none => .error (retryable "resolving" ("build output for " ++ T.string ik ++ " not found"))
      | some out =>
        match T.resolveSubdirKey h out "c" with
        | .error e => .error (retryable "resolving" e)
        | .ok c => .ok c
    | kind => .error (hard "resolving" ("unknown input kind: " ++ kind.name))

/-- `parseStoreEntryKey` of every entry. -/
def entryKeys : List (Stored κ) → Except Failure (List κ)
  | [] => .ok []
  | e :: es =>
    match T.world.parseHex e.attr.name with
    | .error err => .error (hard "resolving" ("deps entry name: " ++ err))
    | .ok k =>
      match entryKeys es with
      | .error err => .error err
      | .ok ks => .ok (k :: ks)

/-- The runtime closure that comes with an input; only a build has one. -/
def resolveInputDeps (h : Host κ) (pi : NamedInput) : Except Failure (List κ) :=
  if pi.input.kind ≠ .build then .ok []
  else
    match T.world.inputKey pi.input with
    | .error e => .error (hard "resolving" ("input key: " ++ e))
    | .ok ik =>
      match resolveBuildOutputDeps h ik with
      | none =>
        .error (retryable "resolving" ("build-output-deps for " ++ T.string ik ++ " not found"))
      | some depsTree =>
        match h.dirs depsTree with
        | none => .error (retryable "resolving" (T.world.absent depsTree))
        | some es => T.entryKeys es

/-- Each input's artifact and runtime closure.  The source resolves them side by side; which
failure is reported, when there are several, is open. -/
def collectStore (h : Host κ) : List NamedInput → Except Failure (List (κ × List κ))
  | [] => .ok []
  | pi :: inputs =>
    match T.resolveInputOutputKey h pi with
    | .error o => .error o
    | .ok bok =>
      match T.resolveInputDeps h pi with
      | .error o => .error o
      | .ok deps =>
        match collectStore h inputs with
        | .error o => .error o
        | .ok rest => .ok ((bok, deps) :: rest)

/-- All of them, in order. -/
def boks (resolved : List (κ × List κ)) : List κ := resolved.flatMap fun r => r.1 :: r.2

/-- The `JOBS_DEPS` map. -/
def jobsDeps (inputs : List NamedInput) (resolved : List (κ × List κ)) : List (String × String) :=
  (inputs.zip resolved).map fun r => (r.1.name, "/jobs/store/" ++ T.string r.2.1)

/-- The inputs under their keys. -/
def keyedInputs : List NamedInput → Except Failure (List (Bytes × NamedInput))
  | [] => .ok []
  | pi :: inputs =>
    match T.world.inputKey pi.input with
    | .error e => .error (hard "assembling" ("input key: " ++ e))
    | .ok ik =>
      match keyedInputs inputs with
      | .error o => .error o
      | .ok rest => .ok ((T.world.bytes ik, pi) :: rest)

/-- Each runtime dep as the last input of its key. -/
def lookupDeps (byKey : List (Bytes × NamedInput)) : List Bytes → Except Failure (List NamedInput)
  | [] => .ok []
  | dk :: deps =>
    match byKey.reverse.find? fun e => e.1 = dk with
    | none => .error (hard "assembling" ("runtimeDep is not among inputs: " ++ Text.hexEncode dk))
    | some e =>
      match lookupDeps byKey deps with
      | .error o => .error o
      | .ok rest => .ok (e.2 :: rest)

def runtimeDepInputs (p : Pinned) : Except Failure (List NamedInput) :=
  match T.keyedInputs p.inputs with
  | .error o => .error o
  | .ok byKey => lookupDeps byKey p.runtimeDeps

/-! ### Running a build -/

structure BuildSpec (κ : Type) where
  storeKey : κ
  shellBOK : κ
  jobsDeps : List (String × String)
  sourceKey : κ
  sourceDir : String
  workdir : String
  env : List (String × String)
  script : String
  caches : List PinnedCache

/-- What is mounted: the inputs, what they need at run time, and the shell. -/
def mounted (cfg : BuildRunCfg κ) (resolved : List (κ × List κ)) : List (Stored κ) :=
  T.storeEntries (boks resolved ++ [cfg.shellKey])

variable [DecidableEq κ]

def assembleBuildSpec (h : Host κ) (cfg : BuildRunCfg κ) (kp : κ) :
    Except Failure (BuildSpec κ × Pinned × Host κ) :=
  match h.store.refs (.pinned kp) with
  | none =>
    .error (retryable "pulling" ("build-pinned:" ++ T.string kp ++ " not found (not pinned yet)"))
  | some pinnedKey =>
    match h.store.readFile T.world pinnedKey with
    | .error e => .error (retryable "pulling" e)
    | .ok pinnedBytes =>
      match T.world.decodePinned pinnedBytes with
      | .error e => .error (hard "pulling" ("decode build-pinned: " ++ e))
      | .ok p =>
        match T.collectStore h p.inputs with
        | .error o => .error o
        | .ok resolved =>
          let es := T.mounted cfg resolved
          let storeKey := T.keys.dirKey es
          .ok ({ storeKey, shellBOK := cfg.shellKey, jobsDeps := T.jobsDeps p.inputs resolved,
                 sourceKey := kp, sourceDir := "src", workdir := p.dir, env := p.env,
                 script := p.script, caches := p.caches }, p, h.putDir storeKey es)

/-- What the executor and the finalisation of its output and caches come to. -/
inductive Execution (κ : Type) where
  | failed (o : Failure)
  | exited (code : Int) (stderrTail : String)
  /-- The artifact, the metadata of its entry in the output, and the caches that changed. -/
  | built (artifact : κ) (attr : Attr) (caches : List (PinnedCache × κ))

/-- The output tree: the artifact under `c`. -/
def outputEntries (artifact : κ) (attr : Attr) : List (Stored κ) :=
  [⟨{ attr with name := "c" }, .dir artifact⟩]

/-- `RunBuild` up to its writes, which follow in this order. -/
def runBuild (h : Host κ) (cfg : BuildRunCfg κ) (ex : Execution κ) (kp : κ) :
    Except Failure (Host κ × List (RefName κ × κ)) :=
  match T.assembleBuildSpec h cfg kp with
  | .error o => .error o
  | .ok (_, p, h) =>
    match ex with
    | .failed o => .error o
    | .exited code tail =>
      .error { cls := .hard, phase := "building", stderr := tail, exitCode := code }
    | .built artifact attr caches =>
      let out := T.keys.dirKey (outputEntries artifact attr)
      let h := h.putDir out (outputEntries artifact attr)
      match T.runtimeDepInputs p with
      | .error o => .error o
      | .ok rtInputs =>
        match T.collectStore h rtInputs with
        | .error o => .error o
        | .ok resolved =>
          let es := T.storeEntries (boks resolved)
          let depsKey := T.keys.dirKey es
          .ok (h.putDir depsKey es,
            caches.map (fun c => (.raw (cacheRefName c.1.id cfg.platform), c.2)) ++
              [(.outputDeps kp, depsKey), (.output kp, out)])

/-- `writeFAliases`, and the scheduler's `ensureFAliases`: deps before output. -/
def writeFAliases (h : Host κ) (f kp : κ) : Except String (Host κ) :=
  match h.store.refs (.outputDeps kp), h.store.refs (.output kp) with
  | some deps, some out => .ok (h.putRefs [(.outputDeps f, deps), (.output f, out)])
  | _, _ => .error ("build-output(-deps):" ++ T.string kp ++ " missing after build")

/-! ### The pipeline around it -/

inductive Label (κ : Type) where
  /-- An import completes. -/
  | imported (k out : κ)
  /-- A run of a KP; only the first refs of its batch may get written. -/
  | run (kp : κ) (cfg : BuildRunCfg κ) (ex : Execution κ) (written : Nat)
  /-- The output of F's KP is published under F. -/
  | aliased (f : κ)

/-- One step; an import or a build that has its output is not executed again. -/
def step (h : Host κ) : Label κ → Option (Host κ)
  | .imported k out =>
    if h.store.refs (.importOutput k) = none then some (h.putRefs [(.importOutput k, out)])
    else none
  | .run kp cfg ex written =>
    if h.store.refs (.output kp) = none then
      match T.runBuild h cfg ex kp with
      | .error _ => some h
      | .ok (h', refs) => some (h'.putRefs (refs.take written))
    else none
  | .aliased f =>
    match h.store.refs (.pinCover f) with
    | none => none
    | some kp => (T.writeFAliases h f kp).toOption

end Tools

end JobsIroh.Runner
