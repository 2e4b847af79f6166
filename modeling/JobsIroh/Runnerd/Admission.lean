/-
Admission on a runner (`runnerd/admission.go`, `fetchLoop` and `dispatch` in
`runnerd/runnerd.go`).

A ledger of reservations against a fixed capacity.  One sweeper walks the classes from the
largest down: it reserves a rung, asks the lane of that class for a message, and renames
the reservation onto the attempt when a job comes; in every other case it releases it.
Each job runs in a goroutine of its own, which releases the reservation at its end.

The queue is what the scheduler has published so far: a lane delivers any job of its class,
as often as it likes, or something that does not decode.  A reservation has a token, which
only serves to say that it is released once.
-/
import JobsIroh.Lib.Run
import JobsIroh.Sched.Enqueue

namespace JobsIroh.Runnerd

structure Config where
  platform : String
  capacity : Resources
  slots : Int
  /-- `newDaemon` refuses a capacity that no class fits in. -/
  serves : classesWithin capacity ≠ []

def Config.classes (cfg : Config) : List Rung := classesWithin cfg.capacity

/-! ### The ledger -/

structure Hold where
  id : String
  res : Resources
  token : Nat
  deriving DecidableEq

abbrev Held := List Hold

def Held.holds (held : Held) (id : String) : Bool := held.any fun h => h.id = id

def Held.cpu (held : Held) : Int := (held.map fun h => h.res.cpuMilli).sum

def Held.mem (held : Held) : Int := (held.map fun h => h.res.memBytes).sum

def tryAcquire (cfg : Config) (held : Held) (id : String) (r : Resources) (token : Nat) :
    Option Held :=
  if held.holds id then none
  else if cfg.slots > 0 ∧ (held.length : Int) ≥ cfg.slots then none
  else if held.cpu + r.cpuMilli > cfg.capacity.cpuMilli ∨
      held.mem + r.memBytes > cfg.capacity.memBytes then none
  else some ({ id, res := r, token } :: held)

def Hold.rename (old new : String) (h : Hold) : Hold :=
  if h.id = old then { h with id := new } else h

/-- A reservation passes from one name to another that is not held. -/
def rename (held : Held) (old new : String) : Option Held :=
  if !held.holds old then none
  else if held.holds new then none
  else some (held.map (Hold.rename old new))

def release (held : Held) (id : String) : Held := held.filter fun h => h.id ≠ id

/-- The reservations that a release gives back. -/
def freed (held : Held) (id : String) : List Nat :=
  (held.filter fun h => h.id = id).map Hold.token

/-! ### The daemon -/

variable {κ : Type}

/-- What a lane delivers. -/
inductive Payload (κ : Type) where
  | undecodable
  | job (j : Job κ)

/-- A job that runs here, and the lane it came from. -/
structure Execution (κ : Type) where
  job : Job κ
  rung : Rung
  deriving DecidableEq

/--
Where the sweeper is.  `left` classes of this sweep are still to be visited; while a lane
is being asked, its class is the one after those.
-/
inductive Sweeper (κ : Type) where
  | visit (left : Nat) (dispatched : Bool)
  | fetching (rung : Rung) (left : Nat) (dispatched : Bool)
  | batch (rung : Rung) (left : Nat) (dispatched claimed : Bool) (rest : List (Payload κ))
  | idle
  | stopped

structure Daemon (κ : Type) where
  held : Held := []
  sweeper : Sweeper κ
  jobs : List (Execution κ) := []
  /-- What the scheduler has published. -/
  queue : List (Job κ) := []
  /-- The token of the next reservation, and those that were given back. -/
  next : Nat := 0
  released : List Nat := []

inductive Event (κ : Type) where
  /-- The scheduler publishes a job for a node, in some state of its own. -/
  | enqueue (c : Choice) (s : State κ) (n : Nat) (pull : List (RefName κ))
  /-- The sweeper goes on to the next class, or ends a sweep. -/
  | sweep
  | fetchFailed
  | fetched (msgs : List (Payload κ))
  /-- The next message of a batch, or the end of the batch. -/
  | message
  | wake
  /-- The sweeper sees that its context has ended. -/
  | stop
  /-- `handleJob` returns. -/
  | finish (e : Execution κ)

def laneID (rung : Rung) : String := "lane/" ++ rung.name

def jobID (name : NodeID κ → String) (j : Job κ) : String :=
  "job/" ++ name j.id ++ "-" ++ toString j.gen

/-- A lane delivers what was published for its platform and class. -/
def deliverable (cfg : Config) (queue : List (Job κ)) (rung : Rung) [DecidableEq κ] :
    Payload κ → Bool
  | .undecodable => true
  | .job j => j ∈ queue && j.platform = cfg.platform && j.cls = rung.name

def giveBack (d : Daemon κ) (id : String) : Daemon κ :=
  { d with held := release d.held id, released := freed d.held id ++ d.released }

/-- `dispatch`: none when the reservation was not taken. -/
def dispatch (name : NodeID κ → String) (d : Daemon κ) (rung : Rung) :
    Payload κ → Option (Daemon κ)
  | .undecodable => none
  | .job j =>
    match rename d.held (laneID rung) (jobID name j) with
    | none => none
    | some held => some { d with held, jobs := { job := j, rung } :: d.jobs }

def startSweep (cfg : Config) : Sweeper κ := .visit cfg.classes.length false

variable [DecidableEq κ]

def step (name : NodeID κ → String) (cfg : Config) (d : Daemon κ) :
    Event κ → Option (Daemon κ)
  | .enqueue c s n pull => some { d with queue := newJob c s n pull :: d.queue }
  | .sweep =>
    match d.sweeper with
    | .visit 0 dispatched =>
      some { d with sweeper := if dispatched then startSweep cfg else .idle }
    | .visit (i + 1) dispatched =>
      match cfg.classes[i]? with
      | none => none
      | some rung =>
        match tryAcquire cfg d.held (laneID rung) rung.res d.next with
        | none => some { d with sweeper := .visit i dispatched }
        | some held =>
          some { d with held, next := d.next + 1
                        sweeper := .fetching rung i dispatched }
    | _ => none
  | .fetchFailed =>
    match d.sweeper with
    | .fetching rung i dispatched =>
      some { giveBack d (laneID rung) with sweeper := .visit i dispatched }
    | _ => none
  | .fetched msgs =>
    match d.sweeper with
    | .fetching rung i dispatched =>
      if msgs.all (deliverable cfg d.queue rung) then
        some { d with sweeper := .batch rung i dispatched false msgs }
      else none
    | _ => none
  | .message =>
    match d.sweeper with
    | .batch rung i dispatched true (_ :: rest) =>
      some { d with sweeper := .batch rung i dispatched true rest }
    | .batch rung i dispatched false (m :: rest) =>
      match dispatch name d rung m with
      | none => some { d with sweeper := .batch rung i dispatched false rest }
      | some d' => some { d' with sweeper := .batch rung i dispatched true rest }
    | .batch _ i _ true [] => some { d with sweeper := .visit i true }
    | .batch rung i dispatched false [] =>
      some { giveBack d (laneID rung) with sweeper := .visit i dispatched }
    | _ => none
  | .wake =>
    match d.sweeper with
    | .idle => some { d with sweeper := startSweep cfg }
    | _ => none
  | .stop =>
    match d.sweeper with
    | .idle => some { d with sweeper := .stopped }
    | .visit i false =>
      if i = cfg.classes.length then some { d with sweeper := .stopped } else none
    | _ => none
  | .finish e =>
    if e ∈ d.jobs then
      some { giveBack d (jobID name e.job) with jobs := d.jobs.erase e }
    else none

def newDaemon (cfg : Config) : Daemon κ := { sweeper := startSweep cfg }

end JobsIroh.Runnerd
