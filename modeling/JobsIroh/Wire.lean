/-
The vocabulary shared by the scheduler and the runners.

Node kinds, phases, result classes, the size ladder and the payloads of a job
and of a result (`wire/wire.go`, `wire/class.go`), with the resource arithmetic
of `resources/resources.go`.  An enumeration that travels as a string keeps its
spelling in `name`; a result class that is none of the five is kept as
`unknown`, because the scheduler fails closed on it.
-/
import Mathlib.Algebra.Group.Int.Defs
import Mathlib.Data.List.Basic

namespace JobsIroh

abbrev Bytes := List UInt8

/-! ### Nodes -/

/-- What a node of the scheduler's graph does. -/
inductive Kind where
  | importK
  | buildFrom
  | pluginResolve
  | pin
  | buildRun
  | buildValue
  deriving DecidableEq, Repr

namespace Kind

def all : List Kind := [importK, buildFrom, pluginResolve, pin, buildRun, buildValue]

/-- The spelling on the wire. -/
def name : Kind → String
  | importK => "import"
  | buildFrom => "buildfrom"
  | pluginResolve => "pluginresolve"
  | pin => "pin"
  | buildRun => "buildrun"
  | buildValue => "buildvalue"

def ofName (s : String) : Option Kind := all.find? (fun k => k.name = s)

/-- `buildvalue` only orchestrates: it never gets a job. -/
def placeable (k : Kind) : Bool := k != buildValue

end Kind

/-- The key of the node table. -/
structure NodeID (κ : Type) where
  kind : Kind
  key : κ
  deriving DecidableEq, Repr

/-- Where a node stands in its life. -/
inductive Phase where
  | waiting
  | queued
  | running
  | publishing
  | done
  | failed
  deriving DecidableEq, Repr

/-- `done` and `failed` are final while the node is watched. -/
def Phase.settled : Phase → Bool
  | .done | .failed => true
  | _ => false

/-- An attempt is out: its job was published and no verdict is in. -/
def Phase.inFlight : Phase → Bool
  | .queued | .running => true
  | _ => false

/-! ### Resources and the size ladder -/

structure Resources where
  cpuMilli : Int := 0
  memBytes : Int := 0
  deriving DecidableEq, Repr

/-- The element-wise maximum. -/
def Resources.max (r o : Resources) : Resources where
  cpuMilli := if o.cpuMilli > r.cpuMilli then o.cpuMilli else r.cpuMilli
  memBytes := if o.memBytes > r.memBytes then o.memBytes else r.memBytes

def mib : Int := 2 ^ 20
def gib : Int := 2 ^ 30

def defaultImport : Resources := ⟨200, 512 * mib⟩
def defaultLightBuild : Resources := ⟨200, 512 * mib⟩
def defaultBuild : Resources := ⟨1000, gib⟩

/-- The floor for a kind; `buildvalue` falls through to the light default. -/
def defaultFor : Kind → Resources
  | .importK => defaultImport
  | .buildRun => defaultBuild
  | .buildFrom | .pluginResolve | .pin | .buildValue => defaultLightBuild

/-- One rung of the fixed ladder. -/
structure Rung where
  name : String
  res : Resources
  deriving DecidableEq, Repr

/-- The ladder in the order it is tried. -/
def classes : List Rung :=
  [⟨"c0.2-m1", ⟨200, gib⟩⟩, ⟨"c1-m1", ⟨1000, gib⟩⟩, ⟨"c1-m2", ⟨1000, 2 * gib⟩⟩,
   ⟨"c1-m4", ⟨1000, 4 * gib⟩⟩, ⟨"c2-m4", ⟨2000, 4 * gib⟩⟩, ⟨"c2-m8", ⟨2000, 8 * gib⟩⟩,
   ⟨"c2-m16", ⟨2000, 16 * gib⟩⟩, ⟨"c4-m8", ⟨4000, 8 * gib⟩⟩, ⟨"c4-m16", ⟨4000, 16 * gib⟩⟩]

def topClass : Rung := ⟨"c4-m16", ⟨4000, 16 * gib⟩⟩

/-- The first rung that fits; past the top the top rung, flagged. -/
def classFor (req : Resources) : Rung × Bool :=
  match classes.find? (fun c => req.cpuMilli ≤ c.res.cpuMilli ∧ req.memBytes ≤ c.res.memBytes) with
  | some c => (c, true)
  | none => (topClass, false)

/-- The rungs that fit inside a size. -/
def classesWithin (size : Resources) : List Rung :=
  classes.filter fun c =>
    c.res.cpuMilli ≤ size.cpuMilli ∧ c.res.memBytes ≤ size.memBytes

/-! ### Messages -/

/-- One ref a runner proposes; the order within a batch is the order of the writes. -/
structure RefProposal where
  name : String
  key : Bytes
  label : String := ""
  deriving DecidableEq, Repr

inductive ResultClass where
  | ok
  | hard
  | retryable
  | control
  | cancelled
  | unknown (s : String)
  deriving DecidableEq, Repr

/-- The terminal report of one attempt. -/
structure Result where
  node : String
  gen : Nat
  runner : String := ""
  cls : ResultClass
  exit : Int := 0
  errSummary : String := ""
  refs : List RefProposal := []
  scratchRef : String := ""
  deriving DecidableEq, Repr

end JobsIroh
