/-
The graph of nodes as it grows: joining, unfolding, advancing, completing.

Each function below is one stretch of a critical section, from one call of
`require` (or one write to the store) to the next.  What the code does after the
call returns is pushed on the stack as a frame, under the frames of the call.
`exec` runs the frame on top.

The store accesses of a stretch are numbered in the order they are made; the
surroundings may let any of them fail.
-/
import JobsIroh.Sched.Enqueue

namespace JobsIroh

variable {κ : Type} [DecidableEq κ]

/-! ### Joining -/

/-- The ref whose existence makes a node of this kind done; a buildvalue has two. -/
def outputRef (kind : Kind) (k : κ) : RefName κ :=
  match kind with
  | .importK => .importOutput k
  | .buildFrom => .buildFrom k
  | .pluginResolve => .pluginResolved k
  | .pin => .pinned k
  | .buildRun => .output k
  | .buildValue => .buildFrom k

/-- Doneness from the store, with the F a buildvalue finds on the way. -/
def outputExistsLocked (c : Choice) (st : Store κ) (id : NodeID κ) :
    Option κ × Except String Bool :=
  match c.io 0 with
  | some e => (none, .error e)
  | none =>
    match id.kind with
    | .buildValue =>
      match st.refs (.buildFrom id.key) with
      | none => (none, .ok false)
      | some f =>
        match c.io 1 with
        | some e => (some f, .error e)
        | none => (some f, .ok (st.has (.output f)))
    | kind => (none, .ok (st.has (outputRef kind id.key)))

/-- Fill what the node does not have yet; nothing is overwritten. -/
def fillNode (nd : Node κ) (defn : Bytes) (platform label : String) : Node κ :=
  { nd with
    defn := if nd.defn = [] then defn else nd.defn
    platform := if nd.platform = "" then platform else nd.platform
    label := if nd.label = "" then label else nd.label }

/-- The fast path for a new node: done or failed at once, else it is to be unfolded. -/
def activate (c : Choice) (s : State κ) (n : Nat) : State κ :=
  match outputExistsLocked c s.store (s.graph.id n) with
  | (f, .error e) =>
    failNodeLocked (s.setNode n { s.node n with f := f }) n ("doneness check: " ++ e)
  | (f, .ok true) => s.setNode n { s.node n with f := f, phase := .done, cached := true }
  | (f, .ok false) => (s.setNode n { s.node n with f := f }).push [.unfold n]

/-- The table lookup of `require`, for a parent or for a request. -/
def joinNode (c : Choice) (s : State κ) (id : NodeID κ) (g : InterestGraph.Graph (NodeID κ) ReqID)
    (defn : Bytes) (platform label : String) (ret : List (Frame κ)) : State κ :=
  let n := s.graph.occupant id
  match s.graph.nodes id with
  | some _ =>
    { s with
      graph := g
      node := Function.update s.node n (fillNode (s.node n) defn platform label)
      stack := ret ++ s.stack }
  | none =>
    activate c
      { s with
        graph := g
        node := Function.update s.node n (fillNode { gen := c.seed } defn platform label)
        stack := ret ++ s.stack
        lastGen := Function.update s.lastGen id (max (s.lastGen id) c.seed) } n

/-- `require` for a parent; `ret` is what the caller does with the node. -/
def require (c : Choice) (s : State κ) (kind : Kind) (k : κ) (defn : Bytes) (platform : String)
    (parent : Nat) (label : String) (ret : Nat → List (Frame κ)) : State κ :=
  joinNode c s ⟨kind, k⟩ (s.graph.require ⟨kind, k⟩ parent) defn platform label
    (ret (s.graph.occupant ⟨kind, k⟩))

/-- `require` for a submit. -/
def requireTarget (c : Choice) (s : State κ) (k : κ) (defn : Bytes) (platform : String)
    (rid : ReqID) (label : String) (ret : Nat → List (Frame κ)) : State κ :=
  joinNode c s ⟨.buildValue, k⟩ (s.graph.requireTarget ⟨.buildValue, k⟩ rid) defn platform label
    (ret (s.graph.occupant ⟨.buildValue, k⟩))

/-! ### Cycles -/

def nodeName (W : World κ) (id : NodeID κ) : String := id.kind.name ++ "_" ++ W.string id.key

/-- The chain from `target` down to `start`, when `target` is an ancestor of `start`. -/
def cycleChainLocked (s : State κ) (start : Nat) (target : NodeID κ) : Option (List Nat) :=
  (Search.dfs s.graph.dependents (fun n => s.graph.id n = target) (s.graph.next + 1) start []).2

/-! ### Unfolding -/

/-- Link one input of `parent`. -/
def requireInputLocked (W : World κ) (c : Choice) (s : State κ) (parent : Nat) (i : Input)
    (label : String) : State κ :=
  match i.kind with
  | .importK =>
    match W.inputKey i with
    | .error e => failNodeLocked s parent ("input key: " ++ e)
    | .ok k =>
      require c s .importK k i.definition (s.node parent).platform parent label (fun _ => [])
  | .build =>
    match W.inputKey i with
    | .error e => failNodeLocked s parent ("input key: " ++ e)
    | .ok k =>
      match cycleChainLocked s parent ⟨.buildValue, k⟩ with
      | some chain =>
        failNodeLocked s parent ("sub-build cycle: " ++
          String.intercalate " -> " (chain.map fun n => nodeName W (s.graph.id n)))
      | none =>
        let platform :=
          match W.decodeDefinition i.definition with
          | .ok d => if d.platform = "" then (s.node parent).platform else d.platform
          | .error _ => (s.node parent).platform
        require c s .buildValue k i.definition platform parent label (fun _ => [])
  | .tree => s
  | .other kind => failNodeLocked s parent ("unknown input kind: " ++ kind)

/-- Record the inputs an unfold has read. -/
def readInputs (s : State κ) (n : Nat) (nd : Node κ) (inputs : List Input) : State κ :=
  s.setNode n { nd with inputs := some inputs }

/-- An import depends on the build of its fetcher, if it has one. -/
def unfoldImport (W : World κ) (c : Choice) (s : State κ) (n : Nat) : State κ :=
  let nd := s.node n
  if nd.defn = [] then
    failNodeLocked s n "import definition unavailable (defs travel in-band)"
  else match W.decodeImport nd.defn with
    | .error e => failNodeLocked s n ("decode import def: " ++ e)
    | .ok d =>
      let nd := { nd with
        platform := if d.platform = "" then nd.platform else d.platform
        label := if nd.label = "" then "fetch " ++ d.fetcher else nd.label }
      if d.fetcherDef = [] then (readInputs s n nd []).push [.unfolding n []]
      else
        let s := readInputs s n nd [⟨.build, d.fetcherDef⟩]
        match W.inputKey ⟨.build, d.fetcherDef⟩ with
        | .error e => failNodeLocked s n ("fetcher build def key: " ++ e)
        | .ok fk =>
          require c s .buildValue fk d.fetcherDef nd.platform n ("fetcher " ++ d.fetcher)
            (fun _ => [.unfolding n []])

/-- A buildfrom depends on its source. -/
def unfoldBuildFrom (W : World κ) (s : State κ) (n : Nat) : State κ :=
  let nd := s.node n
  if nd.defn = [] then
    failNodeLocked s n "build definition unavailable (defs travel in-band)"
  else match W.decodeDefinition nd.defn with
    | .error e => failNodeLocked s n ("decode build def: " ++ e)
    | .ok d =>
      let nd := { nd with
        platform := if d.platform = "" then nd.platform else d.platform
        label := if nd.label = "" ∧ d.dir ≠ "" then d.dir else nd.label }
      (readInputs s n nd [d.source]).push [.unfolding n [⟨"", d.source⟩]]

/-- Read and decode the blob a ref points at; `io 0` is the lookup, `io 1` the read. -/
def readBlobLocked {β : Type} (W : World κ) (c : Choice) (st : Store κ) (r : RefName κ)
    (decode : Bytes → Except String β) : Except String β :=
  match c.io 0 with
  | some e => .error e
  | none =>
    match c.io 1 with
    | some e => .error e
    | none =>
      match st.readRefFile W r with
      | .error e => .error e
      | .ok b => decode b

/-- A pin depends on the plugins and resolution deps the plugin-resolve stage found. -/
def unfoldPin (W : World κ) (c : Choice) (s : State κ) (n : Nat) : State κ :=
  match readBlobLocked W c s.store (.pluginResolved (s.key n)) W.decodePluginResolved with
  | .error e => failNodeLocked s n ("read build-plugin-resolved: " ++ e)
  | .ok pr =>
    let named := sortedNamedInputs pr.plugins pr.deps
    (readInputs s n { s.node n with pinInputs := [] } (named.map (·.input))).push
      [.unfolding n named]

/-- A buildrun depends on the pinned inputs, and takes its caches and resources from there. -/
def unfoldBuildRun (W : World κ) (c : Choice) (s : State κ) (n : Nat) : State κ :=
  match readBlobLocked W c s.store (.pinned (s.key n)) W.decodePinned with
  | .error e => failNodeLocked s n ("read build-pinned: " ++ e)
  | .ok p =>
    let nd := { s.node n with
      pinnedRes := p.resources.getD (s.node n).pinnedRes
      caches := p.caches
      runInputs := [] }
    (readInputs s n nd (p.inputs.map (·.input))).push [.unfolding n p.inputs]

/-- `unfoldLocked`, up to its first `require`. -/
def unfoldLocked (W : World κ) (c : Choice) (s : State κ) (n : Nat) : State κ :=
  match s.kind n with
  | .importK => unfoldImport W c s n
  | .buildFrom => unfoldBuildFrom W s n
  | .pluginResolve => (readInputs s n (s.node n) []).push [.unfolding n []]
  | .pin => unfoldPin W c s n
  | .buildRun => unfoldBuildRun W c s n
  -- `maybeEnqueueLocked` does nothing for a buildvalue, so no frame waits below.
  | .buildValue => s.push [.advance n]

/-- A pin and a buildrun keep the inputs they pull, in the order they are linked. -/
def keepInput (nd : Node κ) (kind : Kind) (i : Input) : Node κ :=
  match kind with
  | .pin => { nd with pinInputs := nd.pinInputs ++ [i] }
  | .buildRun => { nd with runInputs := nd.runInputs ++ [i] }
  | _ => nd

/-- One turn of the input loop. -/
def unfoldNext (W : World κ) (c : Choice) (s : State κ) (n : Nat) (ni : NamedInput)
    (rest : List NamedInput) : State κ :=
  requireInputLocked W c
    ((s.setNode n (keepInput (s.node n) (s.kind n) ni.input)).push [.unfolding n rest])
    n ni.input ni.name

/-! ### Completing -/

/-- Mark a node done and go through its dependents. -/
def nodeDoneLocked (s : State κ) (n : Nat) : State κ :=
  if s.phase n = .done then s
  else (s.setNode n { s.node n with phase := .done, errSummary := "" }).push
    [.notify n (s.graph.dependents n) []]

/-- The dependent a map iteration yields next. Every entry of `todo` comes up once; an entry
that was added to the map since the loop began may come up or not. -/
def nextDependent (c : Choice) (s : State κ) (n : Nat) (todo seen : List Nat) : Option Nat :=
  match c.pick with
  | none => todo.head?
  | some d =>
    if d ∈ todo ∨ (d ∈ s.graph.dependents n ∧ d ∉ seen) then some d else todo.head?

/-- `onDepDoneLocked`. -/
def onDepDoneLocked (W : World κ) (c : Choice) (s : State κ) (d : Nat) : State κ :=
  if s.kind d = .buildValue then s.push [.advance d] else maybeEnqueueLocked W c s d

/-- One turn of the loop over the dependents. -/
def notifyNext (W : World κ) (c : Choice) (s : State κ) (n : Nat) (todo seen : List Nat) :
    State κ :=
  match nextDependent c s n todo seen with
  | none => s
  | some d =>
    onDepDoneLocked W c (s.push [.notify n (todo.filter (fun x => x ≠ d)) (d :: seen)]) d

/-! ### Advancing a buildvalue -/

/-- The `require` of one stage of the pipeline. -/
def requireStage (c : Choice) (s : State κ) (bv : Nat) (kind : Kind) (k : κ) (defn : Bytes)
    (ret : Nat → Frame κ) : State κ :=
  require c s kind k defn (s.node bv).platform bv (s.node bv).label (fun n => [ret n])

def advanceBuildValueLocked (c : Choice) (s : State κ) (bv : Nat) : State κ :=
  if (s.phase bv).settled then s
  else requireStage c s bv .buildFrom (s.key bv) (s.node bv).defn (.afterFrom bv)

/-- After buildfrom: resolve F, once, and go on to pluginresolve. -/
def afterFrom (W : World κ) (c : Choice) (s : State κ) (bv bf : Nat) : State κ :=
  if s.phase bf ≠ .done then s
  else match (s.node bv).f with
    | some f => requireStage c s bv .pluginResolve f [] (.afterResolve bv)
    | none =>
      match c.io 2 with
      | some e => failNodeLocked s bv ("resolve F: " ++ e)
      | none =>
        match s.store.refs (.buildFrom (s.key bv)) with
        | none =>
          failNodeLocked s bv ("build-from:" ++ W.string (s.key bv) ++
            " missing after buildfrom done")
        | some f =>
          requireStage c (s.setNode bv { s.node bv with f := some f }) bv .pluginResolve f []
            (.afterResolve bv)

/-- After pluginresolve: go on to pin. -/
def afterResolve (c : Choice) (s : State κ) (bv pr : Nat) : State κ :=
  if s.phase pr ≠ .done then s
  else match (s.node bv).f with
    | some f => requireStage c s bv .pin f [] (.afterPin bv)
    | none => s

/-- The part of `deriveKP` before its writes: the KP of a pinned F, and the pinned blob's key. -/
def deriveKPValue (W : World κ) (st : Store κ) (f : κ) : Except String (κ × κ) :=
  match st.refs (.pinned f) with
  | none => .error ("build-pinned:" ++ W.string f ++ " not found")
  | some pinnedKey =>
    match st.readFile W pinnedKey with
    | .error e => .error ("read pinned blob: " ++ e)
    | .ok pinnedBytes =>
      match W.decodePinned pinnedBytes with
      | .error e => .error ("decode pinned: " ++ e)
      | .ok p =>
        match st.treeSubdir W f "env" with
        | .error e => .error ("F-tree env subtree: ok=false err=" ++ e)
        | .ok none => .error "F-tree env subtree: ok=false err=%!w(<nil>)"
        | .ok (some env) =>
          match st.treeSubdir W f "platform" with
          | .error e => .error ("F-tree platform entry: ok=false err=" ++ e)
          | .ok none => .error "F-tree platform entry: ok=false err=%!w(<nil>)"
          | .ok (some platKey) =>
            match W.file platKey with
            | .error e => .error ("read F-tree platform: " ++ e)
            | .ok platform =>
              match W.derive pinnedBytes p (W.text platform) env with
              | .error e => .error ("cover.Derive: " ++ e)
              | .ok kp => .ok (kp, pinnedKey)

/-- Record the KP and go on to buildrun. -/
def requireRun (c : Choice) (s : State κ) (bv : Nat) (kp : κ) : State κ :=
  requireStage c (s.setNode bv { s.node bv with kp := some kp }) bv .buildRun kp []
    (.afterRun bv)

/-- After pin: resolve KP, once. A missing `pin-cover` is derived again, whose writes follow
as frames. -/
def afterPin (W : World κ) (c : Choice) (s : State κ) (bv pin : Nat) : State κ :=
  if s.phase pin ≠ .done then s
  else match (s.node bv).kp, (s.node bv).f with
    | some kp, _ => requireStage c s bv .buildRun kp [] (.afterRun bv)
    | none, none => s
    | none, some f =>
      match c.io 2 with
      | some e => failNodeLocked s bv ("resolve KP: " ++ e)
      | none =>
        match s.store.refs (.pinCover f) with
        | some kp => requireRun c s bv kp
        | none =>
          match c.io 3 with
          | some e => failNodeLocked s bv ("resolve KP: " ++ e)
          | none =>
            match deriveKPValue W s.store f with
            | .error e => failNodeLocked s bv ("resolve KP: " ++ e)
            | .ok (kp, pinnedKey) =>
              { s with store := s.store.ingest kp }.push [.putPinned bv kp pinnedKey]

/-- A write that fails the buildvalue when it fails; `io 2` is the write. -/
def putOrFail (c : Choice) (s : State κ) (bv : Nat) (what : String) (r : RefName κ) (k : κ)
    (next : State κ → State κ) : State κ :=
  match c.io 2 with
  | some e => failNodeLocked s bv (what ++ e)
  | none => next (s.putRef r k)

def putPinned (c : Choice) (s : State κ) (bv : Nat) (kp pinnedKey : κ) : State κ :=
  putOrFail c s bv "resolve KP: " (.pinned kp) pinnedKey (fun s => s.push [.putKPTree bv kp])

def putKPTree (c : Choice) (s : State κ) (bv : Nat) (kp : κ) : State κ :=
  putOrFail c s bv "resolve KP: " (.kpTree kp) kp (fun s => s.push [.putPinCover bv kp])

def putPinCover (c : Choice) (s : State κ) (bv : Nat) (kp : κ) : State κ :=
  match (s.node bv).f with
  | none => s
  | some f => putOrFail c s bv "resolve KP: " (.pinCover f) kp (fun s => requireRun c s bv kp)

/-- After buildrun: the F aliases, then done. -/
def afterRun (W : World κ) (c : Choice) (s : State κ) (bv run : Nat) : State κ :=
  if s.phase run ≠ .done then s
  else match (s.node bv).f, (s.node bv).kp with
    | some f, some kp =>
      match c.io 0 with
      | some e => failNodeLocked s bv ("write build-output aliases: " ++ e)
      | none =>
        if s.store.has (.output f) then nodeDoneLocked s bv
        else match c.io 1 with
          | some e => failNodeLocked s bv ("write build-output aliases: " ++ e)
          | none =>
            match s.store.refs (.outputDeps kp), s.store.refs (.output kp) with
            | some deps, some out => s.push [.putAliasDeps bv deps out]
            | _, _ =>
              failNodeLocked s bv ("write build-output aliases: build-output(-deps):" ++
                W.string kp ++ " missing for done buildrun")
    | _, _ => s

def putAliasDeps (c : Choice) (s : State κ) (bv : Nat) (deps out : κ) : State κ :=
  match (s.node bv).f with
  | none => s
  | some f =>
    putOrFail c s bv "write build-output aliases: " (.outputDeps f) deps
      (fun s => s.push [.putAliasOutput bv out])

def putAliasOutput (c : Choice) (s : State κ) (bv : Nat) (out : κ) : State κ :=
  match (s.node bv).f with
  | none => s
  | some f =>
    putOrFail c s bv "write build-output aliases: " (.output f) out (fun s => nodeDoneLocked s bv)

end JobsIroh
