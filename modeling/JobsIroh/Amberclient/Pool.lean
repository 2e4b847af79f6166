/-
The pool of shard connections of a client (`amberclient/pool.go`).

Each event is one critical section of the pool's mutex.  `acquire` has two of them: the
first evicts stale entries and starts growth dials, the second, after a cold pool has
waited, picks the entries.  A dial settles long after the acquire that started it, perhaps
after `drain`.  `discard`, and a dial that settles on a drained pool, close connections
after they have left the critical section, which is an event of its own.

Connections are numbered in the order in which their dials succeed; what can be seen of
them from outside (dead, on a relay) and the time are given with an event.
-/
import JobsIroh.Lib.Run
import Mathlib.Data.List.Basic

namespace JobsIroh.Amberclient

/-- `newShardPool` raises the baseline to one and the maximum to the baseline. -/
structure Config where
  baseline : Nat
  max : Nat
  one_le : 1 ≤ baseline
  baseline_le : baseline ≤ max

def newConfig (baseline max : Int) : Config where
  baseline := Nat.max 1 baseline.toNat
  max := Nat.max (Nat.max 1 baseline.toNat) max.toNat
  one_le := Nat.le_max_left _ _
  baseline_le := Nat.le_max_left _ _

def poolEntryMaxUses : Nat := 90

/-- Five minutes, in nanoseconds. -/
def punchAbandon : Nat := 5 * 60 * 1000000000

/-- An entry; the zero identity is `none`. -/
structure Entry (ι : Type) where
  id : Option ι := none
  streams : Int := 0
  uses : Nat := 0
  dialed : Nat := 0
  lastUsed : Nat := 0

/-- An acquire between its two critical sections. -/
structure Waiting where
  k : Nat
  directOnly : Bool
  cold : Bool
  deriving DecidableEq, Repr

/-- What an acquire has returned. -/
structure Acquired where
  picked : List Nat
  fresh : List Nat
  parked : Nat
  deriving DecidableEq, Repr

structure Pool (ι : Type) where
  entry : Nat → Entry ι := fun _ => {}
  entries : List Nat := []
  dialing : Int := 0
  active : Int := 0
  sweep : Bool := false
  closed : Bool := false
  /-- The slots of the dials that have not settled. -/
  flights : List Nat := []
  waiting : List Waiting := []
  holding : List Acquired := []
  /-- Connections dialed so far, closes that are due, and closes that were made. -/
  dialed : Nat := 0
  closing : List Nat := []
  closes : List Nat := []

/-- What is seen of the connections, and when. -/
structure View where
  dead : Nat → Bool := fun _ => false
  relayed : Nat → Bool := fun _ => false
  now : Nat := 0

inductive Event (ι : Type) where
  | acquire (k : Nat) (directOnly : Bool) (eps : List (Option ι)) (view : View)
  /-- The second half of an acquire; `expired` says that its context has ended. -/
  | pick (w : Waiting) (expired : Bool) (view : View)
  | release (a : Acquired) (now : Nat)
  /-- A dial settles: it fails, or yields a connection with an identity. -/
  | settle (slot : Nat) (result : Option (Option ι)) (now : Nat)
  | discard (es : List Nat)
  /-- A close that is due is made. -/
  | close (c : Nat)
  | scaleDown (view : View)
  | drain

section Acquire

variable {ι : Type} [DecidableEq ι] (cfg : Config) (p : Pool ι) (view : View)

def usable (directOnly : Bool) (c : Nat) : Bool := !(directOnly && view.relayed c)

def pickable (directOnly : Bool) : Nat := (p.entries.filter (usable view directOnly)).length

/-- Dead, no longer advertised, used up, or on a relay for too long. -/
def stale (eps : List (Option ι)) (c : Nat) : Bool :=
  let e := p.entry c
  view.dead c ||
    (!eps.isEmpty && e.id.isSome && !eps.contains e.id) ||
    (e.streams = 0 && e.uses ≥ poolEntryMaxUses) ||
    (e.streams = 0 && view.now - e.dialed > punchAbandon && view.relayed c)

def evict (eps : List (Option ι)) : Pool ι :=
  { p with entries := p.entries.filter fun c => !stale p view eps c,
           closes := p.closes ++ p.entries.filter fun c => stale p view eps c }

/-- How many dials an acquire may start, with so many acquires going on. -/
def need (active : Int) (k : Nat) : Int :=
  min (min ((cfg.baseline : Int) * active) cfg.max - p.entries.length - p.dialing) k

/-- The pooled connections of an advertised identity; one that does not parse comes first. -/
def perID (rec : Option ι) : Int :=
  if rec = none then -1 else (p.entries.filter fun c => (p.entry c).id = rec).length

/-- The slots to dial: identities with the fewest connections first, round and round. -/
def slots (eps : List (Option ι)) (n : Nat) : List Nat :=
  if eps.isEmpty then List.range n
  else
    let idx := (List.range eps.length).mergeSort fun a b =>
      decide (perID p (eps.getD a none) ≤ perID p (eps.getD b none))
    (List.range n).map fun i => idx.getD (i % idx.length) 0

/-- Start the dials. -/
def grow (active : Int) (k : Nat) (eps : List (Option ι)) : Pool ι :=
  let started := slots p eps (need cfg p active k).toNat
  { p with dialing := p.dialing + started.length, flights := started ++ p.flights }

/-- The first critical section of `acquire`, on a pool that is not drained. -/
def reserve (k : Nat) (directOnly : Bool) (eps : List (Option ι)) : Pool ι :=
  let active := p.active + 1
  let p := grow cfg (evict p view eps) active k eps
  let cold := pickable p view directOnly = 0 && p.dialing > 0
  { p with active, sweep := false, waiting := { k, directOnly, cold } :: p.waiting }

/-- A cold pool waits for enough entries, the last dial, or the end of the context. -/
def ready (w : Waiting) (expired : Bool) : Bool :=
  !w.cold || pickable p view w.directOnly ≥ w.k || p.dialing = 0 || expired

/-- Fewer streams first, then the one used last. -/
def lighter (a b : Nat) : Bool :=
  let ea := p.entry a
  let eb := p.entry b
  if ea.streams ≠ eb.streams then ea.streams ≤ eb.streams else ea.lastUsed ≥ eb.lastUsed

/-- The second critical section. -/
def pick (w : Waiting) : Pool ι :=
  let sorted := p.entries.mergeSort (lighter p)
  let picked := (sorted.filter (usable view w.directOnly)).take w.k
  let entry := fun c =>
    let e := p.entry c
    { e with streams := e.streams + picked.count c, uses := e.uses + picked.count c,
             lastUsed := if c ∈ picked then view.now else e.lastUsed }
  let acquired := { picked, fresh := picked.filter fun c => (entry c).uses = 1,
                    parked := (sorted.filter fun c => !usable view w.directOnly c).length }
  { p with entries := sorted, entry, waiting := p.waiting.erase w,
           holding := acquired :: p.holding }

def releaseOne (a : Acquired) (now : Nat) : Pool ι :=
  { p with
    entry := fun c =>
      let e := p.entry c
      { e with streams := e.streams - a.picked.count c,
               lastUsed := if c ∈ a.picked then now else e.lastUsed }
    holding := p.holding.erase a
    active := p.active - 1
    sweep := if p.active - 1 = 0 && !p.closed then true else p.sweep }

end Acquire

/-! ### Shrinking -/

section Shrink

variable {ι : Type} [DecidableEq ι] (cfg : Config) (p : Pool ι)

/-- Direct paths first, then the one used last. -/
def fresher (view : View) (a b : Nat) : Bool :=
  if view.relayed a ≠ view.relayed b then view.relayed b
  else (p.entry a).lastUsed ≥ (p.entry b).lastUsed

/-- The first pass: one entry for each identity, up to the baseline; and the rest. -/
def firstPass (seen : List (Option ι)) (n : Nat) : List Nat → List Nat × List Nat
  | [] => ([], [])
  | c :: cs =>
    let id := (p.entry c).id
    if n < cfg.baseline ∧ id ∉ seen then
      let r := firstPass (id :: seen) (n + 1) cs
      (c :: r.1, r.2)
    else
      let r := firstPass seen n cs
      (r.1, c :: r.2)

def scaleDown (view : View) : Pool ι :=
  if p.active > 0 || p.closed || p.entries.length ≤ cfg.baseline then p
  else
    let sorted := p.entries.mergeSort (fresher p view)
    let parts := firstPass cfg p [] 0 sorted
    let keep := parts.1 ++ parts.2.take (cfg.baseline - parts.1.length)
    { p with entries := keep, closes := p.closes ++ sorted.filter fun c => c ∉ keep }

def discard (es : List Nat) : Pool ι :=
  { p with entries := p.entries.filter fun c => c ∉ es,
           closing := p.closing ++ p.entries.filter fun c => c ∈ es }

def drain : Pool ι :=
  { p with closed := true, sweep := false, entries := [], closes := p.closes ++ p.entries }

/-- The end of `dialSlot`. -/
def settleDial (slot : Nat) (result : Option (Option ι)) (now : Nat) : Pool ι :=
  let p := { p with dialing := p.dialing - 1, flights := p.flights.erase slot }
  match result with
  | none => p
  | some id =>
    if p.closed then { p with dialed := p.dialed + 1, closing := p.closing ++ [p.dialed] }
    else
      { p with
        dialed := p.dialed + 1
        entries := p.entries ++ [p.dialed]
        entry := Function.update p.entry p.dialed { id, dialed := now, lastUsed := now } }

end Shrink

def step {ι : Type} [DecidableEq ι] (cfg : Config) (p : Pool ι) : Event ι → Option (Pool ι)
  | .acquire k directOnly eps view =>
    some (if p.closed then p else reserve cfg p view k directOnly eps)
  | .pick w expired view =>
    if w ∈ p.waiting ∧ ready p view w expired = true then some (pick p view w) else none
  | .release a now => if a ∈ p.holding then some (releaseOne p a now) else none
  | .settle slot result now =>
    if slot ∈ p.flights then some (settleDial p slot result now) else none
  | .discard es => some (discard p es)
  | .close c =>
    if c ∈ p.closing then
      some { p with closing := p.closing.erase c, closes := p.closes ++ [c] }
    else none
  | .scaleDown view => some (scaleDown cfg p view)
  | .drain => some (drain p)

def newPool {ι : Type} : Pool ι := {}

end JobsIroh.Amberclient
