/-
The expiry of references while the server works (`gcsweep/gcsweep.go`).

A sweep lists the refs, reconciles the tracker with the listing, takes the list of
expired names and goes through it: it looks each name up once more, deletes the ref and
forgets the entry.  Sweeps exclude each other, but nothing else waits for one: refs are
written, read and pinned between any two of its steps, the tracker is written out, and
the server may be started again from what was written.  Each of these is a label, so a
run is an interleaving of them.

A build output is written by a writer that puts its deps first.  What is scored,
collected and logged after the deletions touches neither the refs nor the tracker.
-/
import JobsIroh.Lib.Run
import JobsIroh.Reftrack

namespace JobsIroh

/-- Where a sweep stands; `left` are the names to go through, `failed` the outputs it could
not delete. -/
inductive SweepAt where
  | started
  | listed (names : List String)
  | reconciled
  | deleting (left failed : List String)
  | checked (name : String) (left failed : List String)
  | deleted (name : String) (left failed : List String)
  deriving DecidableEq, Repr

structure Sweep where
  now : Int
  pos : SweepAt
  deriving DecidableEq, Repr

/-- A pin request at work (`amberiroh/server.go`, `handlePin`). -/
structure PinRequest where
  todo : List String
  /-- Found in the store and not marked yet. -/
  found : Option String := none
  marked : List String := []
  /-- Not in the store when it was looked up. -/
  skipped : List String := []
  deriving DecidableEq, Repr

structure Gc where
  refs : List String := []
  tracker : Tracker := []
  /-- The snapshot file, and the snapshots on their way to it. -/
  snapshot : Option Tracker := none
  flushes : List Tracker := []
  sweep : Option Sweep := none
  pins : List PinRequest := []
  /-- The builds whose deps are written and whose output is not. -/
  writers : List String := []
  clock : Int := 0
  /-- The names whose pin was acknowledged while the ref existed, up to an unpin. -/
  acked : List String := []
  /-- The last touch of each name. -/
  touched : String → Option Int := fun _ => none

namespace Gc

inductive Label where
  | tick (d : Nat)
  /-- A ref is written. -/
  | put (name : String)
  /-- A build output is written: first the deps, then the output, or the writer gives up. -/
  | beginWrite (x : String)
  | endWrite (i : Nat)
  | abandon (i : Nat)
  /-- A read; the clock was read before the tracker was locked. -/
  | touch (name : String) (now : Int)
  | pinRequest (names : List String)
  | pinNext (i : Nat) (now : Int)
  | unpin (name : String)
  /-- The tracker is encoded, and later the file is replaced. -/
  | flush
  | flushed (i : Nat)
  /-- The server starts again; an unreadable snapshot counts as none. -/
  | load (corrupt : Bool)
  | sweepStart
  /-- The next step of the running sweep; the store may refuse it. -/
  | sweepNext (err : Bool)
  deriving DecidableEq, Repr

def putRef (s : Gc) (name : String) : Gc := { s with refs := s.refs.insert name }

/-- The last touches once `name` and its tracked sibling are touched. -/
def record (s : Gc) (name : String) (now : Int) : String → Option Int :=
  fun n => if s.tracker.reaches name n then some (max now ((s.touched n).getD now)) else s.touched n

/-- One step of a pin request: look the next name up, mark the name found, or acknowledge. -/
def pinNext (s : Gc) (i : Nat) (r : PinRequest) (now : Int) : Gc :=
  match r.found, r.todo with
  | some name, _ =>
    { s with
      tracker := s.tracker.pin name now
      touched := s.record name now
      pins := s.pins.set i { r with found := none, marked := name :: r.marked } }
  | none, name :: todo =>
    if name ∈ s.refs then
      { s with pins := s.pins.set i { r with todo := todo, found := some name } }
    else { s with pins := s.pins.set i { r with todo := todo, skipped := name :: r.skipped } }
  | none, [] =>
    { s with
      pins := s.pins.eraseIdx i
      acked := (r.marked ++ r.skipped).filter (· ∈ s.refs) ++ s.acked }

/-- `depsOutputName`. -/
def depsOutputName (name : String) : Option String :=
  (Text.cutPrefix depsPrefix name).map (outputPrefix ++ ·)

/-- The output of a deps name could not be deleted in this sweep. -/
def outputFailed (failed : List String) (name : String) : Bool :=
  match depsOutputName name with
  | some out => out ∈ failed
  | none => false

variable (retention : Int)

/-- The sweep has got to a place. -/
def sweepTo (s : Gc) (sw : Sweep) (pos : SweepAt) : Gc :=
  { s with sweep := some { sw with pos := pos } }

/-- One step of `Sweep`. -/
def sweepNext (s : Gc) (sw : Sweep) (err : Bool) : Gc :=
  match sw.pos with
  | .started => if err then { s with sweep := none } else s.sweepTo sw (.listed s.refs)
  | .listed names =>
    { s.sweepTo sw .reconciled with tracker := s.tracker.reconcile names sw.now }
  | .reconciled => s.sweepTo sw (.deleting (s.tracker.expired retention sw.now) [])
  | .deleting [] _ => { s with sweep := none }
  | .deleting (name :: left) failed =>
    if outputFailed failed name then s.sweepTo sw (.deleting left failed)
    else match s.tracker.get name with
      | none => s.sweepTo sw (.deleting left failed)
      | some e =>
        if e.pinned then s.sweepTo sw (.deleting left failed)
        else s.sweepTo sw (.checked name left failed)
  | .checked name left failed =>
    -- deleting a ref that is not there is an error as well
    if err || name ∉ s.refs then
      if (Text.cutPrefix outputPrefix name).isSome then
        s.sweepTo sw (.deleting left (name :: failed))
      else s.sweepTo sw (.deleting left failed)
    else { s.sweepTo sw (.deleted name left failed) with refs := s.refs.filter (· ≠ name) }
  | .deleted name left failed =>
    { s.sweepTo sw (.deleting left failed) with tracker := s.tracker.forget name }

def step (s : Gc) : Label → Option Gc
  | .tick d => some { s with clock := s.clock + d }
  | .put name => some (s.putRef name)
  | .beginWrite x =>
    some { s.putRef (depsPrefix ++ x) with writers := s.writers ++ [x] }
  | .endWrite i =>
    match s.writers[i]? with
    | some x => some { s.putRef (outputPrefix ++ x) with writers := s.writers.eraseIdx i }
    | none => none
  | .abandon i => some { s with writers := s.writers.eraseIdx i }
  | .touch name now =>
    if now ≤ s.clock then
      some { s with tracker := s.tracker.touch name now, touched := s.record name now }
    else none
  | .pinRequest names => some { s with pins := s.pins ++ [{ todo := names }] }
  | .pinNext i now =>
    match s.pins[i]? with
    | some r => if now ≤ s.clock then some (s.pinNext i r now) else none
    | none => none
  | .unpin name =>
    some { s with
      tracker := s.tracker.unpin name
      acked := s.acked.filter fun n => n ≠ name && familySibling name ≠ some n }
  | .flush => some { s with flushes := s.flushes ++ [s.tracker] }
  | .flushed i =>
    match s.flushes[i]? with
    | some snap => some { s with snapshot := some snap, flushes := s.flushes.eraseIdx i }
    | none => none
  | .load corrupt =>
    some { s with
      tracker := if corrupt then [] else s.snapshot.getD []
      flushes := [], sweep := none, pins := [], writers := [] }
  | .sweepStart =>
    match s.sweep with
    | none => some { s with sweep := some ⟨s.clock, .started⟩ }
    | some _ => none
  | .sweepNext err =>
    match s.sweep with
    | some sw => some (s.sweepNext retention sw err)
    | none => none

/-- The server has just started over a store with these refs and this snapshot. -/
def init (refs : List String) (snapshot : Option Tracker) : Gc :=
  { refs := refs, snapshot := snapshot, tracker := snapshot.getD [] }

/-- The states reached from there by steps that satisfy `P`. -/
def Reached (P : Gc → Label → Prop) (refs : List String) (snapshot : Option Tracker) (s : Gc) :
    Prop :=
  Run.Steps (step retention) P (init refs snapshot) s

end Gc

end JobsIroh
