/-
Results: from a runner's report to a verdict on the node.

An accepted `ok` result starts a commit, which runs without the lock: it checks
the whole batch, then writes ref by ref, and for a pin derives the KP binding.
When it has finished, the lock is taken again and the verdict is applied if the
node is still the same incarnation at the same generation.  All other classes get
their verdict at once.
-/
import JobsIroh.Sched.Node

namespace JobsIroh

variable {κ : Type} [DecidableEq κ]

def maxConsecRetryable : Nat := 3
def maxConsecControl : Nat := 20

/-- The only names deleted for a runner, and for a client. -/
def runnerScratchPrefix : String := "runner-push/"
def clientScratchPrefix : String := "client-push/"

/-- `ParseNodeName`: a known kind and a canonical key. -/
def parseNodeName (W : World κ) (name : String) : Option (NodeID κ) :=
  match Text.cut '_' name with
  | none => none
  | some (kindName, hexPart) =>
    match Kind.ofName kindName, W.parseCanonical hexPart with
    | some kind, some k => some ⟨kind, k⟩
    | _, _ => none

/-- Delete a push ref, but only in its own namespace. -/
def deleteScratch (W : World κ) (ns ref : String) (s : State κ) : State κ :=
  if ref = "" then s
  else match Text.cutPrefix ns ref with
    | none => s
    | some _ => { s with store := s.store.deleteRef (RefName.parse W.toKeyPkg ref) }

/-! ### Retrying -/

/-- The retry budget: a retryable verdict waits for a timer, a control verdict is
re-enqueued at once under its own cap. -/
def retryLocked (W : World κ) (c : Choice) (s : State κ) (n : Nat) (summary : String)
    (control : Bool) : State κ :=
  let nd := s.node n
  if control then
    let s := s.setNode n { nd with consecControl := nd.consecControl + 1 }
    if nd.consecControl + 1 > maxConsecControl then
      failNodeLocked s n ("control budget exhausted: " ++ summary)
    else
      enqueueLocked W c
        (s.setNode n { s.node n with phase := .waiting, errSummary := summary }) n
  else
    let s := s.setNode n { nd with consecRetry := nd.consecRetry + 1, consecControl := 0 }
    if nd.consecRetry + 1 > maxConsecRetryable then
      failNodeLocked s n ("retry budget exhausted: " ++ summary)
    else
      { s.setNode n { s.node n with phase := .waiting, errSummary := summary } with
        timers := (n, nd.gen) :: s.timers }

/-- A re-enqueue timer fires; it is fenced by identity, generation, phase and interest. -/
def fireTimer (W : World κ) (c : Choice) (s : State κ) (n gen : Nat) : State κ :=
  if s.graph.nodes (s.graph.id n) = some n ∧ s.closed = false ∧ (s.node n).gen = gen ∧
      s.phase n = .waiting ∧ s.graph.interest n ≠ [] then enqueueLocked W c s n
  else s

/-! ### Accepting -/

/-- The result is for the node's current attempt, and the first for it. -/
def accepts (s : State κ) (n : Nat) (res : Result) : Bool :=
  res.gen = (s.node n).gen && (s.node n).lastResultGen < res.gen && (s.phase n).inFlight

/-- The commit an accepted `ok` result starts. -/
def startCommit (s : State κ) (n : Nat) (res : Result) : Commit κ where
  ptr := n
  id := s.graph.id n
  gen := res.gen
  platform := (s.node n).platform
  caches := (s.node n).caches
  refs := res.refs
  scratchRef := res.scratchRef

/-- The verdict of a class other than `ok`. -/
def applyClass (W : World κ) (c : Choice) (s : State κ) (n : Nat) (res : Result) : State κ :=
  match res.cls with
  | .ok => s
  | .hard =>
    failNodeLocked s n (if res.errSummary = "" then
      "hard failure (exit " ++ toString res.exit ++ ")" else res.errSummary)
  | .retryable => retryLocked W c s n res.errSummary false
  | .control => retryLocked W c s n res.errSummary true
  | .cancelled =>
    if s.graph.interest n ≠ [] then retryLocked W c s n res.errSummary true else s
  | .unknown cls => failNodeLocked s n ("unknown result class " ++ cls)

/-- The accepted branch of `handleResult`. -/
def acceptResult (W : World κ) (c : Choice) (s : State κ) (n : Nat) (res : Result) : State κ :=
  let id := s.graph.id n
  let s := { s.setNode n { s.node n with lastResultGen := res.gen, runner := res.runner } with
    accepted := (id, res.gen) :: s.accepted }
  match res.cls with
  | .ok =>
    { s.setNode n { s.node n with phase := .publishing } with
      commits := s.commits ++ [startCommit s n res] }
  | _ =>
    deleteScratch W runnerScratchPrefix res.scratchRef
      (applyClass W c { s with verdicts := (id, res.gen) :: s.verdicts } n res)

def handleResult (W : World κ) (c : Choice) (s : State κ) (res : Result) : State κ :=
  let drop := deleteScratch W runnerScratchPrefix res.scratchRef s
  match parseNodeName W res.node with
  | none => drop
  | some id =>
    match s.graph.nodes id with
    | none => drop
    | some n => if accepts s n res then acceptResult W c s n res else drop

/-! ### Committing -/

/-- The next stage after all planned refs are written. -/
def afterWrites (kind : Kind) : Stage κ := if kind = .pin then .derive else .finished none

/-- The first entry of a plan is written, or the commit fails. -/
def putStep (c : Choice) (st : Store κ) (what : String) (r : RefName κ) (k : κ)
    (next : Stage κ) : Store κ × Stage κ :=
  match c.io 0 with
  | some e => (st, .finished (some (.other (what ++ e))))
  | none => (st.putRef r k, next)

/-- One step of a commit: the checks, or a single ref write. -/
def commitStep (W : World κ) (c : Choice) (st : Store κ) (cm : Commit κ) : Store κ × Stage κ :=
  let derr := "derive KP for " ++ W.string cm.id.key ++ ": "
  match cm.stage with
  | .check =>
    match checkBatch W st cm.id.kind cm.id.key cm.platform cm.refs cm.caches with
    | .error e => (st, .finished (some e))
    | .ok [] => (st, afterWrites cm.id.kind)
    | .ok plan =>
      match c.io 0 with
      | some e => (st, .finished (some (.other ("incomplete closure: " ++ e))))
      | none => (st, .write plan)
  | .write [] => (st, afterWrites cm.id.kind)
  | .write ((r, k) :: rest) =>
    putStep c st ("put ref " ++ W.quote (r.render W.toKeyPkg) ++ ": ") r k
      (if rest = [] then afterWrites cm.id.kind else .write rest)
  | .derive =>
    match c.io 0 with
    | some e => (st, .finished (some (.other (derr ++ e))))
    | none =>
      match deriveKPValue W st cm.id.key with
      | .error e => (st, .finished (some (.other (derr ++ e))))
      | .ok (kp, pinnedKey) => (st.ingest kp, .putPinned kp pinnedKey)
  | .putPinned kp pinnedKey => putStep c st derr (.pinned kp) pinnedKey (.putKPTree kp)
  | .putKPTree kp => putStep c st derr (.kpTree kp) kp (.putPinCover kp)
  | .putPinCover kp => putStep c st derr (.pinCover cm.id.key) kp (.finished none)
  | .finished err => (st, .finished err)

/-- The recipe's own name for the build overrides the labels. -/
def applyRecipeLabelLocked (s : State κ) (n : Nat) (refs : List RefProposal) : State κ :=
  match refs.find? (fun r => r.label ≠ "" && (Text.cutPrefix "build-pinned:" r.name).isSome) with
  | none => s
  | some r =>
    { s with
      node := fun m =>
        if m = n ∨ (m ∈ s.graph.dependents n ∧ s.kind m = .buildValue) then
          { s.node m with label := r.label }
        else s.node m }

/-- The verdict of a finished commit. -/
def applyCommit (W : World κ) (c : Choice) (s : State κ) (cm : Commit κ)
    (err : Option CommitError) : State κ :=
  match err with
  | none =>
    nodeDoneLocked (applyRecipeLabelLocked
      (s.setNode cm.ptr { s.node cm.ptr with consecRetry := 0, consecControl := 0 })
      cm.ptr cm.refs) cm.ptr
  | some (.gate msg) => failNodeLocked s cm.ptr (CommitError.text (.gate msg))
  | some (.other msg) => retryLocked W c s cm.ptr ("commit: " ++ msg) false

/-- The lock is taken again: a verdict only for the same incarnation and generation. -/
def finishCommit (W : World κ) (c : Choice) (s : State κ) (cm : Commit κ)
    (err : Option CommitError) : State κ :=
  deleteScratch W runnerScratchPrefix cm.scratchRef
    (if s.graph.nodes (s.graph.id cm.ptr) = some cm.ptr ∧ (s.node cm.ptr).gen = cm.gen then
      applyCommit W c { s with verdicts := (cm.id, cm.gen) :: s.verdicts } cm err
    else s)

end JobsIroh
