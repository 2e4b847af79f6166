/-
The gate: which ref names a runner's batch may carry.

`gateAllowed` is run on a whole batch before anything of it is written.  What a
`buildfrom` may publish as `build-from-tree:` depends on the batch itself, on the
value the last `build-from:K` entry reports; everything else is a table by kind.
Names are compared as text here, as the runner sent them.
-/
import JobsIroh.Amber

namespace JobsIroh

variable {κ : Type}

/-- A batch can be refused for good, or fail for a reason that may go away. -/
inductive CommitError where
  | gate (msg : String)
  | other (msg : String)
  deriving DecidableEq, Repr

/-- `gateError` prints itself with this prefix. -/
def CommitError.text : CommitError → String
  | .gate msg => "gate: " ++ msg
  | .other msg => msg

section

variable (W : World κ)

def notPermitted (kind : Kind) (nodeKey : κ) (name : String) : String :=
  "ref " ++ W.quote name ++ " not permitted for " ++ kind.name ++ "|" ++ W.string nodeKey

/-- The `build-cache:` branch: only a `buildrun`, a declared id and the build's platform. -/
def checkCacheName (kind : Kind) (nodeKey : κ) (platform : String) (declared : List PinnedCache)
    (name : String) : Except String Unit :=
  if kind ≠ .buildRun then .error (notPermitted W kind nodeKey name)
  else match parseCacheRefName name with
    | none => .error ("ref " ++ W.quote name ++ ": malformed build-cache name")
    | some (id, plat) =>
      if plat ≠ platform then
        .error ("ref " ++ W.quote name ++ ": platform " ++ W.quote plat ++
          " does not match the build's placement platform " ++ W.quote platform)
      else if declared.all (fun c => c.id ≠ id) then
        .error ("ref " ++ W.quote name ++ ": cache id " ++ W.quote id ++
          " not declared in build-pinned:" ++ W.string nodeKey)
      else .ok ()

def parseHexKey (hexStr : String) : Except String κ :=
  match Text.hexDecode hexStr with
  | none => .error ("invalid hex: " ++ W.hexError hexStr)
  | some b => W.parse b

/-- The `build-from-tree:` branch: the canonical hex of the very key the entry carries. -/
def checkTreeName (kind : Kind) (nodeKey : κ) (reportedF : String) (r : RefProposal)
    (hexPart : String) : Except String Unit :=
  match kind with
  | .buildFrom | .pluginResolve | .pin =>
    match parseHexKey W hexPart with
    | .error e => .error ("ref " ++ W.quote r.name ++ ": " ++ e)
    | .ok k =>
      if hexPart ≠ W.string k then
        .error ("ref " ++ W.quote r.name ++ ": non-canonical hex key (want " ++ W.string k ++ ")")
      else if r.key ≠ W.bytes k then
        .error ("ref " ++ W.quote r.name ++ ": entry key value does not match the name's own key")
      else if kind = .buildFrom ∧ hexPart ≠ reportedF then
        .error ("ref " ++ W.quote r.name ++
          ": build-from-tree key does not match this batch's build-from:" ++ W.string nodeKey ++
          " value")
      else .ok ()
  | _ => .error (notPermitted W kind nodeKey r.name)

/-- The names a node of this kind owns outright. -/
def ownNames (kind : Kind) (nodeKey : κ) : List String :=
  match kind with
  | .importK => ["import-output:" ++ W.string nodeKey]
  | .buildFrom => ["build-from:" ++ W.string nodeKey]
  | .pluginResolve => ["build-plugin-resolved:" ++ W.string nodeKey]
  | .pin => ["build-pinned:" ++ W.string nodeKey]
  | .buildRun => ["build-output:" ++ W.string nodeKey, "build-output-deps:" ++ W.string nodeKey]
  | .buildValue => []

/-- The decision for one entry. -/
def checkRefName (kind : Kind) (nodeKey : κ) (reportedF platform : String)
    (declared : List PinnedCache) (r : RefProposal) : Except String Unit :=
  if (Text.cutPrefix "build-cache:" r.name).isSome then
    checkCacheName W kind nodeKey platform declared r.name
  else match Text.cutPrefix "build-from-tree:" r.name with
    | some hexPart => checkTreeName W kind nodeKey reportedF r hexPart
    | none =>
      if r.name ∈ ownNames W kind nodeKey then .ok ()
      else .error (notPermitted W kind nodeKey r.name)

/-- The F a `buildfrom` batch reports: the last `build-from:K` entry wins. -/
def reportedF (kind : Kind) (nodeKey : κ) : List RefProposal → String → Except String String
  | [], acc => .ok acc
  | r :: rest, acc =>
    if kind = .buildFrom ∧ r.name = "build-from:" ++ W.string nodeKey then
      match W.parse r.key with
      | .error e => .error ("ref " ++ W.quote r.name ++ ": bad key value: " ++ e)
      | .ok f => reportedF kind nodeKey rest (W.string f)
    else reportedF kind nodeKey rest acc

/-- The per-entry loop: stop at the first entry that is refused. -/
def checkAll (check : RefProposal → Except String Unit) : List RefProposal → Except String Unit
  | [] => .ok ()
  | r :: rest =>
    match W.validateName r.name with
    | .error e => .error ("ref " ++ W.quote r.name ++ ": " ++ e)
    | .ok _ =>
      match check r with
      | .error e => .error e
      | .ok _ => checkAll check rest

/-- Whether every entry is a name the node `(kind, key)` may produce. -/
def gateAllowed (kind : Kind) (nodeKey : κ) (platform : String) (refs : List RefProposal)
    (declared : List PinnedCache) : Except CommitError Unit :=
  match reportedF W kind nodeKey refs "" with
  | .error e => .error (.gate e)
  | .ok f =>
    match checkAll W (checkRefName W kind nodeKey f platform declared) refs with
    | .error e => .error (.gate e)
    | .ok _ => .ok ()

/-- The keys of the entries, in order. -/
def parseKeys : List RefProposal → Except CommitError (List κ)
  | [] => .ok []
  | r :: rest =>
    match W.parse r.key with
    | .error e => .error (.gate ("ref " ++ W.quote r.name ++ ": bad key: " ++ e))
    | .ok k =>
      match parseKeys rest with
      | .error e => .error e
      | .ok ks => .ok (k :: ks)

/-- Objects before refs: every proposed key's closure must be in the store. -/
def checkComplete (st : Store κ) : List (RefProposal × κ) → Except CommitError Unit
  | [] => .ok ()
  | (r, k) :: rest =>
    if st.complete k then checkComplete st rest
    else .error (.other ("ref " ++ W.quote r.name ++ ": incomplete closure: " ++ W.absent k))

/-- The writes of an accepted batch in order: the entries, then for a `buildfrom` the
`f-tree/` carrier of each `build-from:K` entry. -/
def plannedWrites [DecidableEq κ] (kind : Kind) (nodeKey : κ) (entries : List (RefProposal × κ)) :
    List (RefName κ × κ) :=
  entries.map (fun e => (RefName.parse W.toKeyPkg e.1.name, e.2)) ++
    if kind = .buildFrom then
      (entries.filter (fun e => e.1.name = "build-from:" ++ W.string nodeKey)).map
        (fun e => (RefName.fTree e.2, e.2))
    else []

/-- Everything `commit` does before its first write. -/
def checkBatch [DecidableEq κ] (st : Store κ) (kind : Kind) (nodeKey : κ) (platform : String)
    (refs : List RefProposal) (declared : List PinnedCache) :
    Except CommitError (List (RefName κ × κ)) :=
  match gateAllowed W kind nodeKey platform refs declared with
  | .error e => .error e
  | .ok _ =>
    match parseKeys W refs with
    | .error e => .error e
    | .ok ks =>
      match checkComplete W st (refs.zip ks) with
      | .error e => .error e
      | .ok _ => .ok (plannedWrites W kind nodeKey (refs.zip ks))

end

end JobsIroh
