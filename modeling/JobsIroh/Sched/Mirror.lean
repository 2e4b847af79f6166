/-
The status KV: what clients that do not hold a watch see of a request.

Submit and cancel write the entry of their request under the lock. For everything else
there is the ticker. It compares every request with a fingerprint of what was last decided
to be written, notes the new fingerprint and what is to be written under the lock, and
writes after it has let go of it. Delete purges the entry after it has let go of the lock.

The machine is one life of the server: the scheduler with the entries beside it, and the
writes that are still to come. How a write ends is part of the event that makes it.
-/
import JobsIroh.Sched.Machine

namespace JobsIroh

variable {κ : Type}

/-! ### Statuses -/

/-- A summary of a request's closure. -/
structure Counts where
  total : Nat := 0
  done : Nat := 0
  running : Nat := 0
  failed : Nat := 0
  waiting : Nat := 0
  deriving DecidableEq, Repr

/-- One more node of the closure. -/
def Counts.add (n : Counts) (p : SnapPhase) : Counts :=
  let n := { n with total := n.total + 1 }
  match p with
  | .own .done => { n with done := n.done + 1 }
  | .own .failed | .upstream => { n with failed := n.failed + 1 }
  | .own .queued | .own .running | .own .publishing => { n with running := n.running + 1 }
  | .own .waiting => { n with waiting := n.waiting + 1 }

/-- The value of the entry `req.<id>`. -/
structure RequestStatus (κ : Type) where
  phase : ReqPhase
  targetK : κ
  platform : String
  counts : Counts
  createdNs : Nat
  error : String
  deriving DecidableEq

/-- What the ticker compares; the code prints it, one text for each. -/
structure Fingerprint where
  phase : ReqPhase
  counts : Counts
  deriving DecidableEq

def RequestStatus.fingerprint (q : RequestStatus κ) : Fingerprint := ⟨q.phase, q.counts⟩

def requestStatus (s : State κ) (createdNs : Nat) (r : Request κ) : RequestStatus κ where
  phase := assembleLocked s r
  targetK := r.k
  platform := r.platform
  counts := (closurePhases s r.target).foldl (fun n e => n.add e.2) {}
  createdNs := createdNs
  error := r.failReason

/-! ### The machine -/

structure Mirror (κ : Type) where
  sched : State κ
  /-- `createdNs` of the requests. -/
  created : ReqID → Nat := fun _ => 0
  version : Nat := 0
  lastKVVersion : Nat := 0
  lastReqKV : ReqID → Option Fingerprint := fun _ => none
  kv : ReqID → Option (RequestStatus κ)
  /-- Writes of the ticker that are still to be made. -/
  writes : List (ReqID × RequestStatus κ) := []
  /-- Purges of deletes that have let go of the lock. -/
  purges : List ReqID := []
  /-- History: every id handed out, and the requests that have been deleted. -/
  ids : List ReqID := []
  deleted : List ReqID := []

inductive Event (κ : Type) where
  /-- A step of the scheduler; `ok` is how the KV write ends that it makes under the lock. -/
  | sched (a : Label κ) (ok : Bool)
  /-- The critical section of the ticker, with the order in which it comes upon the requests. -/
  | collect (order : List ReqID)
  /-- The ticker's next write. -/
  | put (ok : Bool)
  /-- The `i`-th purge. -/
  | purge (i : Nat) (ok : Bool)

section Bumps

variable [DecidableEq κ]

/-! ### Version bumps

Whether a critical section moves the version. `bumpLocked` follows every assignment of a
phase but two: `retryLocked` for a control verdict leaves it to the `enqueueLocked` that it
calls, and that one does not bump when it stops early or when the publish fails. -/

def failNodeBumps (s : State κ) (n : Nat) : Bool := !(s.phase n).settled

def enqueueBumps (W : World κ) (c : Choice) (s : State κ) (n : Nat) : Bool :=
  if s.closed then false
  else
    let s := bumpGen s n
    match computePullRefsLocked W c s.store (s.graph.id n) (s.node n) with
    | (_, .error _) => failNodeBumps s n
    | (_, .ok _) => c.publish.isSome

def retryBumps (W : World κ) (c : Choice) (s : State κ) (n : Nat) (summary : String)
    (control : Bool) : Bool :=
  let nd := s.node n
  if control then
    let s := s.setNode n { nd with consecControl := nd.consecControl + 1 }
    if nd.consecControl + 1 > maxConsecControl then failNodeBumps s n
    else enqueueBumps W c
      (s.setNode n { s.node n with phase := .waiting, errSummary := summary }) n
  else if nd.consecRetry + 1 > maxConsecRetryable then failNodeBumps s n
  else true

/-- The verdict of a class, on the node as it is once the result is accepted. -/
def applyClassBumps (W : World κ) (c : Choice) (s : State κ) (n : Nat) (res : Result) : Bool :=
  match res.cls with
  | .ok => true
  | .hard | .unknown _ => failNodeBumps s n
  | .retryable => retryBumps W c s n res.errSummary false
  | .control => retryBumps W c s n res.errSummary true
  | .cancelled => s.graph.interest n ≠ [] && retryBumps W c s n res.errSummary true

def resultBumps (W : World κ) (c : Choice) (s : State κ) (res : Result) : Bool :=
  match parseNodeName W res.node with
  | none => false
  | some id =>
    match s.graph.nodes id with
    | none => false
    | some n =>
      accepts s n res &&
        applyClassBumps W c
          (s.setNode n { s.node n with lastResultGen := res.gen, runner := res.runner }) n res

def commitBumps (W : World κ) (c : Choice) (s : State κ) (cm : Commit κ) : Bool :=
  if s.graph.nodes (s.graph.id cm.ptr) = some cm.ptr ∧ (s.node cm.ptr).gen = cm.gen then
    match cm.stage with
    | .finished none => s.phase cm.ptr ≠ .done
    | .finished (some (.gate _)) => failNodeBumps s cm.ptr
    | .finished (some (.other msg)) => retryBumps W c s cm.ptr ("commit: " ++ msg) false
    | _ => false
  else false

/-- A critical section of more than one step is a submit, which bumps at its end, or follows
a node that got done, which has bumped. Where in a section the version moves makes no
difference: the ticker looks at it between two of them. -/
def bumps (W : World κ) (s : State κ) : Label κ → Bool
  | .exec _ => true
  | .submit _ _ _ => !s.closed
  | .cancel rid => (s.requests rid).any (fun r => !r.cancelled)
  | .delete rid => (s.requests rid).isSome
  | .watchdog rid now _ => (s.requests rid).any (fun r =>
    !(r.cancelled || r.failReason ≠ "" || terminal (assembleLocked s r) ||
      livePlatformLocked s r.platform now) &&
    r.noRunnersSince.any (fun since => since + noRunnerFailAfter ≤ now))
  | .result c res => resultBumps W c s res
  | .finish c i => (s.commits[i]?).any (commitBumps W c s)
  | .timer c i => (s.timers[i]?).any (fun t =>
    (s.graph.nodes (s.graph.id t.1) = some t.1 ∧ s.closed = false ∧ (s.node t.1).gen = t.2 ∧
      s.phase t.1 = .waiting ∧ s.graph.interest t.1 ≠ []) && enqueueBumps W c s t.1)
  | .logChunk name gen =>
    match parseNodeName W name with
    | none => false
    | some id =>
      match s.graph.nodes id with
      | none => false
      | some n => (s.node n).gen = gen && s.phase n = .queued
  | _ => false

end Bumps

/-! ### Steps -/

/-- The request whose entry a step writes under the lock: that of a submit that ends, or of a
cancel that finds it. -/
def State.writesStatus (s : State κ) : Label κ → Option ReqID
  | .exec _ =>
    match s.graph.pending, s.stack with
    | [], .submitted rid _ _ :: _ => some rid
    | _, _ => none
  | .cancel rid => if (s.requests rid).any (fun r => !r.cancelled) then some rid else none
  | _ => none

namespace Mirror

/-- A mirror that has just started, beside any entries of earlier lives. -/
def init [Inhabited κ] (st : Store κ) (kv : ReqID → Option (RequestStatus κ)) : Mirror κ where
  sched := State.init st
  kv := kv

/-- The current status of a registered request. -/
def status (m : Mirror κ) (rid : ReqID) : Option (RequestStatus κ) :=
  (m.sched.requests rid).map (requestStatus m.sched (m.created rid))

/-- The entry after a write that ended as `ok`. -/
def written (m : Mirror κ) (ok : Bool) (rid : ReqID) (q : Option (RequestStatus κ)) :
    ReqID → Option (RequestStatus κ) :=
  if ok then Function.update m.kv rid q else m.kv

def putRequestStatusLocked (m : Mirror κ) (rid : ReqID) (ok : Bool) : Mirror κ :=
  match m.status rid with
  | none => m
  | some q =>
    { m with
      lastReqKV := Function.update m.lastReqKV rid (some q.fingerprint)
      kv := m.written ok rid (some q) }

/-- The entry of a request is to be written when its fingerprint is new. -/
def changed (m : Mirror κ) (rid : ReqID) : Option (ReqID × RequestStatus κ) :=
  match m.status rid with
  | none => none
  | some q => if m.lastReqKV rid = some q.fingerprint then none else some (rid, q)

/-- The critical section of the ticker. It leaves every registered request with its
fingerprint noted, and forgets those of the others. -/
def collect (m : Mirror κ) (order : List ReqID) : Mirror κ :=
  if m.version = m.lastKVVersion then m
  else
    { m with
      lastKVVersion := m.version
      lastReqKV := fun rid => (m.status rid).map (·.fingerprint)
      writes := order.filterMap m.changed }

/-- The iteration comes upon every registered request once. -/
def covers (m : Mirror κ) (order : List ReqID) : Bool :=
  order.Nodup && m.ids.all (fun rid => (m.sched.requests rid).isNone || order.contains rid)

/-- What is noted of a step besides: a new id, a purge to be made. -/
def note (m : Mirror κ) : Label κ → Mirror κ
  | .submit c _ rid =>
    if m.sched.closed then m
    else { m with ids := rid :: m.ids, created := Function.update m.created rid c.now }
  | .delete rid =>
    if (m.sched.requests rid).isSome then
      { m with purges := rid :: m.purges, deleted := rid :: m.deleted }
    else m
  | _ => m

variable [DecidableEq κ]

/-- The scheduler has made the step `a` to `s`. -/
def follow (W : World κ) (m : Mirror κ) (a : Label κ) (ok : Bool) (s : State κ) : Mirror κ :=
  let m' := { m.note a with
    sched := s, version := if bumps W m.sched a then m.version + 1 else m.version }
  match m.sched.writesStatus a with
  | none => m'
  | some rid => m'.putRequestStatusLocked rid ok

/-- The server stays up, and ids, eight random bytes each, do not come twice. -/
def admits (m : Mirror κ) : Label κ → Bool
  | .crash => false
  | .submit _ _ rid => !m.ids.contains rid
  | _ => true

def step [Inhabited κ] (W : World κ) (m : Mirror κ) : Event κ → Option (Mirror κ)
  | .sched a ok =>
    if m.admits a then (JobsIroh.step W m.sched a).map (m.follow W a ok) else none
  | .collect order =>
    if m.sched.free && m.writes.isEmpty && m.covers order then some (m.collect order) else none
  | .put ok =>
    match m.writes with
    | [] => none
    | (rid, q) :: rest => some { m with writes := rest, kv := m.written ok rid (some q) }
  | .purge i ok =>
    match m.purges[i]? with
    | none => none
    | some rid => some { m with purges := m.purges.eraseIdx i, kv := m.written ok rid none }

end Mirror

end JobsIroh
