/-
The registry that routes data streams to sharded transfers (`amberiroh/server.go`).

A transfer that takes extra data connections registers a token with a buffered
channel.  `HandleStream` attaches a stream that names the token, `shardChannels` and
`handlePull` gather what has been attached, and `drop` closes what was not gathered.
The lock guards only the table: a call that has looked its channel up works on it
after the lock is released.  Each stretch of a call from one operation on the table or
on a channel to the next is one step, so every interleaving of the calls is a run.

Streams are numbered as they arrive; the handler of a stream attaches it once.
-/
import JobsIroh.Wire
import JobsIroh.Lib.Run

namespace JobsIroh

/-- The room in a channel, and the most data connections a transfer may have. -/
def maxDataConns : Nat := 16

/-- A call that has its channel and has not returned. -/
inductive TransferCall where
  | attaching (rw ch : Nat)
  | gathering (ch n : Nat) (out : List Nat)
  | dropping (ch : Nat)
  deriving DecidableEq, Repr

namespace TransferCall

def ch : TransferCall → Nat
  | attaching _ ch => ch
  | gathering ch _ _ => ch
  | dropping ch => ch

/-- The stream of an `attach` that has not answered yet. -/
def asking : TransferCall → List Nat
  | attaching rw _ => [rw]
  | _ => []

/-- The streams a `gather` holds so far. -/
def taken : TransferCall → List Nat
  | gathering _ _ out => out
  | _ => []

end TransferCall

structure Transfers where
  /-- The token table, to channels by number. -/
  pending : List (Bytes × Nat) := []
  /-- What is in the buffer of each channel made so far. -/
  chans : List (List Nat) := []
  calls : List TransferCall := []
  streams : Nat := 0
  /-- The streams for which `attach` answered true, and false. -/
  attached : List Nat := []
  refused : List Nat := []
  /-- The streams some `gather` has returned, and those some `drop` has closed. -/
  gathered : List Nat := []
  closed : List Nat := []
  deriving DecidableEq, Repr

namespace Transfers

def chan (t : Transfers) (ch : Nat) : List Nat := t.chans.getD ch []

/-- `create`, with the token it has drawn. -/
def create (t : Transfers) (token : Bytes) : Transfers :=
  { t with
    pending := (token, t.chans.length) :: t.pending.filter (·.1 ≠ token)
    chans := t.chans ++ [[]] }

/-- `attach` up to the release of the lock. -/
def attach (t : Transfers) (token : Bytes) : Transfers :=
  let t' := { t with streams := t.streams + 1 }
  match t.pending.lookup token with
  | none => { t' with refused := t.streams :: t.refused }
  | some ch => { t' with calls := t.calls ++ [.attaching t.streams ch] }

/-- The rest of `attach`: send if there is room. -/
def send (t : Transfers) (i rw ch : Nat) : Transfers :=
  let t' := { t with calls := t.calls.eraseIdx i }
  if (t.chan ch).length < maxDataConns then
    { t' with chans := t.chans.set ch (t.chan ch ++ [rw]), attached := rw :: t.attached }
  else { t' with refused := rw :: t.refused }

def gather (t : Transfers) (token : Bytes) (n : Nat) : Transfers :=
  match t.pending.lookup token with
  | none => t
  | some ch => { t with calls := t.calls ++ [.gathering ch n []] }

/-- One turn of the loop in `gather` that receives. -/
def recv (t : Transfers) (i ch n : Nat) (out : List Nat) : Option Transfers :=
  if out.length < n then
    match t.chan ch with
    | [] => none
    | rw :: rest =>
      some { t with
        chans := t.chans.set ch rest
        calls := t.calls.set i (.gathering ch n (out ++ [rw])) }
  else none

/-- `drop` up to the release of the lock. -/
def drop (t : Transfers) (token : Bytes) : Transfers :=
  match t.pending.lookup token with
  | none => t
  | some ch =>
    { t with
      pending := t.pending.filter (·.1 ≠ token)
      calls := t.calls ++ [.dropping ch] }

/-- One turn of the loop in `drop`. -/
def drain (t : Transfers) (i ch : Nat) : Transfers :=
  match t.chan ch with
  | [] => { t with calls := t.calls.eraseIdx i }
  | rw :: rest => { t with chans := t.chans.set ch rest, closed := rw :: t.closed }

/-- A step; `i` is the number of a running call. -/
inductive Label where
  | create (token : Bytes)
  | attach (token : Bytes)
  | send (i : Nat)
  | gather (token : Bytes) (n : Nat)
  | recv (i : Nat)
  /-- `gather` returns: it has enough, or the deadline has passed. -/
  | gathered (i : Nat)
  | drop (token : Bytes)
  | drain (i : Nat)
  deriving DecidableEq, Repr

def step (t : Transfers) : Label → Option Transfers
  | .create token => some (t.create token)
  | .attach token => some (t.attach token)
  | .send i =>
    match t.calls[i]? with
    | some (.attaching rw ch) => some (t.send i rw ch)
    | _ => none
  | .gather token n => some (t.gather token n)
  | .recv i =>
    match t.calls[i]? with
    | some (.gathering ch n out) => t.recv i ch n out
    | _ => none
  | .gathered i =>
    match t.calls[i]? with
    | some (.gathering _ _ out) =>
      some { t with calls := t.calls.eraseIdx i, gathered := out ++ t.gathered }
    | _ => none
  | .drop token => some (t.drop token)
  | .drain i =>
    match t.calls[i]? with
    | some (.dropping ch) => some (t.drain i ch)
    | _ => none

/-- Somebody will still empty the channel: it is registered, or a `drop` is at work on it. -/
def live (t : Transfers) (ch : Nat) : Bool :=
  ch ∈ t.pending.map (·.2) || .dropping ch ∈ t.calls

/-- A send comes before the end of the `drop` of its channel, and no token is drawn twice. -/
def inTime (t : Transfers) : Label → Bool
  | .create token => t.pending.lookup token = none
  | .send i =>
    match t.calls[i]? with
    | some (.attaching _ ch) => t.live ch
    | _ => true
  | _ => true

/-- The states reached from an empty registry by steps that satisfy `P`. -/
def Reached (P : Transfers → Label → Prop) (t : Transfers) : Prop := Run.Steps step P {} t

end Transfers

end JobsIroh
