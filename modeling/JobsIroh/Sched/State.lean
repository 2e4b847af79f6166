/-
The scheduler's state.

The node table and its edges are an interest graph; what a node carries besides
is kept apart, in `node`, so that a step that does not touch the table leaves the
graph as it is.  Node pointers are numbers that are never reused, which is what
lets the code compare pointers to tell incarnations apart.

A critical section of the code calls itself: making one node can complete another
and come back to a third that is still being unfolded.  The calls that are open
are therefore part of the state, as a stack of frames.  A frame is what is left to
do after the call on top of it returns.  Between two critical sections the stack
is empty.  The commit of a result and the first half of a submit run without the
lock; each is an entry of a list and takes its steps in between the others'.

Fields whose only use is to say what happened are marked as history: no step reads
them.
-/
import JobsIroh.Lib.InterestGraph
import JobsIroh.Sched.Gate

namespace JobsIroh

abbrev ReqID := String

/-- What a node carries besides its place in the graph. -/
structure Node (κ : Type) where
  phase : Phase := .waiting
  gen : Nat := 0
  defn : Bytes := []
  platform : String := ""
  /-- The F of a buildvalue, once resolved. -/
  f : Option κ := none
  /-- The KP of a buildvalue, once resolved. -/
  kp : Option κ := none
  pinnedRes : Resources := {}
  caches : List PinnedCache := []
  pinInputs : List Input := []
  runInputs : List Input := []
  label : String := ""
  consecRetry : Nat := 0
  consecControl : Nat := 0
  lastResultGen : Nat := 0
  runner : String := ""
  /-- Sequence of the queued job message, 0 for none. -/
  queueSeq : Nat := 0
  errSummary : String := ""
  cached : Bool := false
  /-- History: the inputs the node's own unfold read, once it has read them. -/
  inputs : Option (List Input) := none

/-- A submitted build. -/
structure Request (κ : Type) where
  k : κ
  platform : String
  res : Resources
  target : Nat
  cancelled : Bool := false
  failReason : String := ""
  /-- When the platform lost its last live runner. -/
  noRunnersSince : Option Nat := none

/-- The request still wants its target. -/
def Request.live {κ : Type} (r : Request κ) : Bool := !r.cancelled && r.failReason = ""

/-- A job handed to the work queue; `seq` is `none` when the publish call failed. -/
structure Job (κ : Type) where
  ptr : Nat
  id : NodeID κ
  gen : Nat
  platform : String
  cls : String
  defn : Bytes
  pullRefs : List (RefName κ)
  req : Resources
  seq : Option Nat
  deriving DecidableEq

/-- What is left of an open call. -/
inductive Frame (κ : Type) where
  /-- `unfoldLocked n`, then `maybeEnqueueLocked n`. -/
  | unfold (n : Nat)
  /-- The input loop of `unfoldLocked`, with the inputs not yet linked. -/
  | unfolding (n : Nat) (rest : List NamedInput)
  | advance (bv : Nat)
  /-- `advanceBuildValueLocked` after the `require` of each stage returned. -/
  | afterFrom (bv bf : Nat)
  | afterResolve (bv pr : Nat)
  | afterPin (bv pin : Nat)
  | afterRun (bv run : Nat)
  /-- The three writes of `deriveKP` under the lock. -/
  | putPinned (bv : Nat) (kp pinnedKey : κ)
  | putKPTree (bv : Nat) (kp : κ)
  | putPinCover (bv : Nat) (kp : κ)
  /-- The two writes of `ensureFAliasesLocked`. -/
  | putAliasDeps (bv : Nat) (deps out : κ)
  | putAliasOutput (bv : Nat) (out : κ)
  /-- The loop over the dependents of a node that got done. -/
  | notify (n : Nat) (todo seen : List Nat)
  /-- `Submit` after its `require` returned. -/
  | submitted (id : ReqID) (target : Nat) (scratchRef : String)
  deriving DecidableEq

/-- How far an unlocked commit has come. -/
inductive Stage (κ : Type) where
  | check
  | write (todo : List (RefName κ × κ))
  | derive
  | putPinned (kp pinnedKey : κ)
  | putKPTree (kp : κ)
  | putPinCover (kp : κ)
  | finished (err : Option CommitError)
  deriving DecidableEq

/-- A commit in progress: the snapshot `commitSpec`, and the attempt it is for. -/
structure Commit (κ : Type) where
  ptr : Nat
  id : NodeID κ
  gen : Nat
  platform : String
  caches : List PinnedCache
  refs : List RefProposal
  scratchRef : String
  stage : Stage κ := .check

/-- A submit that has done its unlocked half. -/
structure Submission (κ : Type) where
  k : κ
  defn : Bytes
  platform : String
  res : Resources
  label : String
  scratchRef : String

structure RunnerInfo where
  id : String
  platform : String
  seenNs : Nat
  deriving DecidableEq, Repr

structure State (κ : Type) where
  graph : InterestGraph.Graph (NodeID κ) ReqID
  node : Nat → Node κ
  store : Store κ
  requests : ReqID → Option (Request κ)
  stack : List (Frame κ) := []
  commits : List (Commit κ) := []
  submits : List (Submission κ) := []
  /-- Armed re-enqueue timers: the node and the generation they are fenced by. -/
  timers : List (Nat × Nat) := []
  fleet : List RunnerInfo := []
  closed : Bool := false
  ctxErr : Bool := false
  /-- History: jobs handed to the queue, newest first, and messages purged from it. -/
  jobs : List (Job κ) := []
  purged : List Nat := []
  /-- History: the highest generation any incarnation of an identity has had. -/
  lastGen : NodeID κ → Nat := fun _ => 0
  /-- History: attempts whose result was accepted, and attempts whose verdict was applied. -/
  accepted : List (NodeID κ × Nat) := []
  verdicts : List (NodeID κ × Nat) := []

/-- What a step leaves to its surroundings. -/
structure Choice where
  /-- `genSeed` for a node made in this step. -/
  seed : Nat := 0
  now : Nat := 0
  /-- The store accesses of the step that fail, with their error. -/
  io : Nat → Option String := fun _ => none
  /-- The sequence number of an accepted publish; `none` when the call failed. -/
  publish : Option Nat := none
  /-- Which entry a map iteration yields next. -/
  pick : Option Nat := none

variable {κ : Type}

namespace State

/-- No critical section is open. -/
def free (s : State κ) : Bool := s.stack.isEmpty && s.graph.pending.isEmpty

def kind (s : State κ) (n : Nat) : Kind := (s.graph.id n).kind

def key (s : State κ) (n : Nat) : κ := (s.graph.id n).key

def phase (s : State κ) (n : Nat) : Phase := (s.node n).phase

/-- Every dependency of `n` is done. -/
def depsDone (s : State κ) (n : Nat) : Bool := (s.graph.deps n).all (fun d => s.phase d = .done)

def setNode (s : State κ) (n : Nat) (nd : Node κ) : State κ :=
  { s with node := Function.update s.node n nd }

def push (s : State κ) (fs : List (Frame κ)) : State κ := { s with stack := fs ++ s.stack }

section

variable [DecidableEq κ]

def putRef (s : State κ) (r : RefName κ) (k : κ) : State κ :=
  { s with store := s.store.putRef r k }

/-- The live requests and what they want. -/
def target (s : State κ) (r : ReqID) : Option Nat :=
  match s.requests r with
  | some q => if q.live then some q.target else none
  | none => none

end

/-- A server that has just started: nothing in memory, any store. -/
def init [Inhabited κ] (st : Store κ) : State κ where
  graph := @InterestGraph.Graph.empty _ _ ⟨⟨.importK, default⟩⟩
  node := fun _ => {}
  store := st
  requests := fun _ => none

end State

end JobsIroh
