/-
From a ready node to a published job.

`computePullRefsLocked` lists the refs a runner must pull before it runs the
node's stage; the list is computed from the definitions and blobs the node was
unfolded from, against the store as it is now.  Before that the name-equals-value
carrier of the stage is written if a crash left it out.  `enqueueLocked` bumps the
generation and publishes; it does not look at the dependencies, which is the
business of `maybeEnqueueLocked`.
-/
import JobsIroh.Sched.State

namespace JobsIroh

variable {κ : Type} [DecidableEq κ]

/-! ### Failing a node -/

/-- Mark a node failed; a node that is done or failed keeps its phase. -/
def failNodeLocked (s : State κ) (n : Nat) (summary : String) : State κ :=
  if (s.phase n).settled then s
  else s.setNode n { s.node n with phase := .failed, errSummary := summary }

/-! ### Pull refs -/

def addName (out : List (RefName κ)) (r : RefName κ) : List (RefName κ) :=
  if r ∈ out then out else out ++ [r]

def addNames (out rs : List (RefName κ)) : List (RefName κ) := rs.foldl addName out

def addIfPresent (st : Store κ) (out : List (RefName κ)) (r : RefName κ) : List (RefName κ) :=
  if st.has r then addName out r else out

section

variable (W : World κ)

/-- The refs that make one input's output available. -/
def addInputOutputs (st : Store κ) (out : List (RefName κ)) (i : Input) (withDeps : Bool) :
    Except String (List (RefName κ)) :=
  match W.inputKey i with
  | .error e => .error ("input key: " ++ e)
  | .ok k =>
    match i.kind with
    | .importK => .ok (addName out (.importOutput k))
    | .build =>
      match st.refs (.buildFrom k) with
      | none => .error ("build-from:" ++ W.string k ++ " missing for done input")
      | some f =>
        .ok (addNames out (if withDeps then [.buildFrom k, .output f, .outputDeps f]
          else [.buildFrom k, .output f]))
    | .tree =>
      match W.decodeTreeKey i.definition with
      | .error e => .error ("decode tree input: " ++ e)
      | .ok t => .ok (addName out (.buildFromTree t))
    | .other _ => .ok out

def addAllOutputs (st : Store κ) (withDeps : Bool) :
    List Input → List (RefName κ) → Except String (List (RefName κ))
  | [], out => .ok out
  | i :: rest, out =>
    match addInputOutputs W st out i withDeps with
    | .error e => .error e
    | .ok out => addAllOutputs st withDeps rest out

def shellRef (platform : String) : RefName κ := .raw ("shell:" ++ platform)

def fetcherRef (name platform : String) : RefName κ := .raw ("fetcher:" ++ name ++ ":" ++ platform)

/-- The refs of an import: the shell, and the fetcher by its build or by its name. -/
def importPullRefs (st : Store κ) (nd : Node κ) : Except String (List (RefName κ)) :=
  match W.decodeImport nd.defn with
  | .error e => .error ("decode import def: " ++ e)
  | .ok d =>
    let platform := if d.platform = "" then nd.platform else d.platform
    let out := addIfPresent st [] (shellRef platform)
    if d.fetcherDef ≠ [] then
      match W.inputKey ⟨.build, d.fetcherDef⟩ with
      | .error e => .error ("fetcher def key: " ++ e)
      | .ok fk =>
        match st.refs (.buildFrom fk) with
        | none => .error ("build-from:" ++ W.string fk ++ " missing for done fetcher build")
        | some ff =>
          .ok (addIfPresent st (addNames out [.buildFrom fk, .output ff]) (.outputDeps ff))
    else .ok (addIfPresent st out (fetcherRef d.fetcher platform))

/-- The refs of a buildfrom: those of its source. -/
def buildFromPullRefs (st : Store κ) (nd : Node κ) : Except String (List (RefName κ)) :=
  match W.decodeDefinition nd.defn with
  | .error e => .error ("decode build def: " ++ e)
  | .ok d =>
    match d.source.kind with
    | .other s => .error ("unknown source kind " ++ W.quote s)
    | k => addInputOutputs W st [] d.source (k = .build)

/-- Everything the stage driver of the node resolves by name. -/
def computePullRefs (st : Store κ) (id : NodeID κ) (nd : Node κ) :
    Except String (List (RefName κ)) :=
  match id.kind with
  | .importK => importPullRefs W st nd
  | .buildFrom => buildFromPullRefs W st nd
  | .pluginResolve => .ok [.fTree id.key]
  | .pin =>
    addAllOutputs W st false nd.pinInputs
      (addIfPresent st [.fTree id.key, .pluginResolved id.key] (shellRef nd.platform))
  | .buildRun =>
    match addAllOutputs W st true nd.runInputs
      (addIfPresent st [.kpTree id.key, .pinned id.key] (shellRef nd.platform)) with
    | .error e => .error e
    | .ok out =>
      .ok (nd.caches.foldl
        (fun out c => addIfPresent st out (.raw (cacheRefName c.id nd.platform))) out)
  | .buildValue => .ok []

end

/-- The name-equals-value carrier a stage pulls its tree by. -/
def carrier (id : NodeID κ) : Option (RefName κ) :=
  match id.kind with
  | .pluginResolve | .pin => some (.fTree id.key)
  | .buildRun => some (.kpTree id.key)
  | _ => none

/-- Write a missing carrier; `io 3` is the read and `io 4` the write. -/
def healCarrierLocked (c : Choice) (st : Store κ) (r : RefName κ) (k : κ) :
    Except String (Store κ) :=
  match c.io 3 with
  | some e => .error e
  | none =>
    if st.has r then .ok st
    else match c.io 4 with
      | some e => .error e
      | none => .ok (st.putRef r k)

/-- The heal that precedes a stage's own reads. -/
def healStage (c : Choice) (st : Store κ) (id : NodeID κ) : Except String (Store κ) :=
  match carrier id with
  | none => .ok st
  | some r => healCarrierLocked c st r id.key

/-- `computePullRefsLocked`: heal, then read; `io 2` is a read that fails. The store is
returned because the heal stays even when a later read fails. -/
def computePullRefsLocked (W : World κ) (c : Choice) (st : Store κ) (id : NodeID κ)
    (nd : Node κ) : Store κ × Except String (List (RefName κ)) :=
  match healStage c st id with
  | .error e => (st, .error e)
  | .ok st' =>
    match c.io 2 with
    | some e => (st', .error e)
    | none => (st', computePullRefs W st' id nd)

/-! ### Placement -/

/-- One live request's resources, if it targets the buildvalue `d`. -/
def requestMax (s : State κ) (d : Nat) (req : Resources) (rid : ReqID) : Resources :=
  match s.requests rid with
  | some r => if !r.cancelled && r.k = s.key d then req.max r.res else req
  | none => req

/-- The kind's default, the pinned resources and the requests that target a dependent. -/
def requirementLocked (s : State κ) (n : Nat) : Resources :=
  (s.graph.dependents n).foldl
    (fun req d =>
      if s.kind d = .buildValue then (s.graph.interest d).foldl (requestMax s d) req else req)
    ((defaultFor (s.kind n)).max (s.node n).pinnedRes)

/-! ### Publishing -/

/-- A new attempt: the generation goes up and the traces of the last one are cleared. -/
def bumpGen (s : State κ) (n : Nat) : State κ :=
  { s.setNode n { s.node n with gen := (s.node n).gen + 1, runner := "", queueSeq := 0 } with
    lastGen := Function.update s.lastGen (s.graph.id n)
      (max (s.lastGen (s.graph.id n)) ((s.node n).gen + 1)) }

/-- The message for an attempt; definitions travel in it for the kinds keyed by K. -/
def newJob (c : Choice) (s : State κ) (n : Nat) (pull : List (RefName κ)) : Job κ where
  ptr := n
  id := s.graph.id n
  gen := (s.node n).gen
  platform := (s.node n).platform
  cls := (classFor (requirementLocked s n)).1.name
  defn := if s.kind n = .importK ∨ s.kind n = .buildFrom then (s.node n).defn else []
  pullRefs := pull
  req := requirementLocked s n
  seq := c.publish

/-- Hand the job to the queue. When the call fails the node waits for a timer, unless the
scheduler is going down. -/
def publishJob (c : Choice) (s : State κ) (n : Nat) (pull : List (RefName κ)) : State κ :=
  let nd := s.node n
  let s := { s with jobs := newJob c s n pull :: s.jobs }
  match c.publish with
  | some seq => s.setNode n { nd with queueSeq := seq, phase := .queued }
  | none =>
    if s.closed || s.ctxErr then s
    else { s.setNode n { nd with phase := .waiting } with timers := (n, nd.gen) :: s.timers }

/-- Bump the generation and publish one job. -/
def enqueueLocked (W : World κ) (c : Choice) (s : State κ) (n : Nat) : State κ :=
  if s.closed then s
  else
    let s := bumpGen s n
    match computePullRefsLocked W c s.store (s.graph.id n) (s.node n) with
    | (st, .error e) => failNodeLocked { s with store := st } n ("compute pull refs: " ++ e)
    | (st, .ok pull) => publishJob c { s with store := st } n pull

/-- Placeable, waiting, watched, and every dependency done. -/
def ready (s : State κ) (n : Nat) : Bool :=
  (s.kind n).placeable && s.phase n = .waiting && !(s.graph.interest n).isEmpty && s.depsDone n

def maybeEnqueueLocked (W : World κ) (c : Choice) (s : State κ) (n : Nat) : State κ :=
  if ready s n then enqueueLocked W c s n else s

end JobsIroh
