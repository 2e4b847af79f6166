/-
The push handler of the server (`amberiroh/server.go`).

A push checks its precondition once before the transfer and once more under the lock of
its ref name, and writes the ref there.  Handlers run side by side.  Each access of a
handler to what they share (the refs, the table of locks, a lock) is one step, so every
interleaving of the handlers is a run; the scheduler and the sweep write to the same refs
and show up as `write`.

The transfer itself is taken by its outcome.  Which objects the guard pins until the ref
is written is left to the collector.
-/
import JobsIroh.Amber
import JobsIroh.Lib.Run
import JobsIroh.Lib.Register

namespace JobsIroh

/-- The third-party reference package: a record is the encoding of a name and a key. -/
structure RefPkg (κ ρ : Type) extends KeyPkg κ where
  validateName : String → Except String Unit
  encode : String → κ → Nat → Except String ρ
  /-- The key bytes of a decoded record. -/
  decodeKey : ρ → Except String Bytes
  decodeKey_encode : ∀ {name root now raw}, encode name root now = .ok raw →
    decodeKey raw = .ok (bytes root)
  quote : String → String

structure PushMsg where
  name : String
  root : Bytes
  cas : Bool := false
  expectedOld : Bytes := []
  deriving DecidableEq, Repr

namespace Push

def codeCASMismatch : String := "cas-mismatch"
def codeBadRequest : String := "bad-request"
def codeInternal : String := "internal"

inductive Answer where
  | ok (key : Bytes)
  | err (code text : String) (current : Bytes)
  deriving DecidableEq, Repr

/-- What a handler does next. -/
inductive Pc (κ ρ : Type) where
  | start
  | transfer (root : κ)
  /-- `lockRef` up to the release of the table. -/
  | lookup (root : κ)
  | acquire (root : κ) (l : Nat)
  | recheck (root : κ) (l : Nat)
  | prepare (root : κ) (l : Nat)
  | put (root : κ) (l : Nat) (raw : ρ)
  | answer (root : κ) (l : Nat)
  /-- The deferred `unlock`. -/
  | unlock (l : Nat)
  | finished
  deriving DecidableEq, Repr

structure Handler (κ ρ : Type) where
  msg : PushMsg
  pc : Pc κ ρ := .start
  answer : Option Answer := none
  deriving DecidableEq, Repr

/-- A push whose ref has been written. -/
structure Commit (κ : Type) where
  id : Nat
  msg : PushMsg
  root : κ
  deriving DecidableEq, Repr

structure Server (κ ρ : Type) where
  refs : String → Option ρ
  refLocks : String → Option Nat := fun _ => none
  /-- The locks made so far, each with the handler that holds it. -/
  locks : List (Option Nat) := []
  pushes : List (Handler κ ρ) := []
  /-- The pushes in the order of their writes. -/
  committed : List (Commit κ) := []

/-- What is left open in a step. -/
structure Choice where
  now : Nat := 0
  /-- The call of the step fails, with this error. -/
  fault : Option String := none
  /-- The transfer failed with an error of the peer. -/
  remote : Bool := false
  /-- The answer cannot be written. -/
  lost : Bool := false
  deriving DecidableEq, Repr

inductive Label (ρ : Type) where
  | accept (m : PushMsg)
  | advance (i : Nat) (c : Choice)
  /-- Somebody else writes the ref or deletes it. -/
  | write (name : String) (raw : Option ρ)

variable {κ ρ : Type}

/-- The answer goes out unless the stream is broken. -/
def Handler.reply (p : Handler κ ρ) (c : Choice) (a : Answer) (next : Pc κ ρ) : Handler κ ρ :=
  { p with pc := next, answer := if c.lost then none else some a }

/-- `fail`. -/
def Handler.fail (p : Handler κ ρ) (c : Choice) (code text : String) (next : Pc κ ρ) :
    Handler κ ρ :=
  p.reply c (.err code text []) next

/-- The key the precondition is compared with; empty when there is no such ref. -/
def current (R : RefPkg κ ρ) (refs : String → Option ρ) (c : Choice) (name : String) :
    Except String Bytes :=
  match c.fault with
  | some e => .error e
  | none =>
    match refs name with
    | none => .ok []
    | some raw => R.decodeKey raw

/-- `checkCAS`: the answer that ends the push, if it may not go on. -/
def checkCAS (R : RefPkg κ ρ) (refs : String → Option ρ) (c : Choice) (m : PushMsg) :
    Option Answer :=
  match current R refs c m.name with
  | .error e => some (.err codeInternal e [])
  | .ok current =>
    if current = m.expectedOld then none
    else some (.err codeCASMismatch ("remote ref " ++ R.quote m.name ++ " changed") current)

/-- The precondition of a push that has one. -/
def precondition (R : RefPkg κ ρ) (refs : String → Option ρ) (c : Choice) (m : PushMsg) :
    Option Answer :=
  if m.cas then checkCAS R refs c m else none

namespace Server

def set (s : Server κ ρ) (i : Nat) (p : Handler κ ρ) : Server κ ρ :=
  { s with pushes := s.pushes.set i p }

/-- `handlePush` up to the transfer. -/
def start (R : RefPkg κ ρ) (s : Server κ ρ) (p : Handler κ ρ) (c : Choice) : Handler κ ρ :=
  match R.validateName p.msg.name with
  | .error e => p.fail c codeBadRequest e .finished
  | .ok () =>
    match R.parse p.msg.root with
    | .error e => p.fail c codeBadRequest ("root key: " ++ e) .finished
    | .ok root =>
      match precondition R s.refs c p.msg with
      | some a => p.reply c a .finished
      | none => { p with pc := .transfer root }

/-- `shardChannels` and `Receive`; an error of the peer is not echoed. -/
def transfer (p : Handler κ ρ) (c : Choice) (root : κ) : Handler κ ρ :=
  match c.fault with
  | none => { p with pc := .lookup root }
  | some e =>
    if c.remote then { p with pc := .finished, answer := none }
    else p.fail c codeInternal e .finished

/-- The lock of the name, made on first use. -/
def lookup (s : Server κ ρ) (i : Nat) (p : Handler κ ρ) (root : κ) : Server κ ρ :=
  match s.refLocks p.msg.name with
  | some l => s.set i { p with pc := .acquire root l }
  | none =>
    { s with
      refLocks := fun name =>
        if name = p.msg.name then some s.locks.length else s.refLocks name
      locks := s.locks ++ [none]
      pushes := s.pushes.set i { p with pc := .acquire root s.locks.length } }

def acquire (s : Server κ ρ) (i : Nat) (p : Handler κ ρ) (root : κ) (l : Nat) :
    Option (Server κ ρ) :=
  match s.locks[l]? with
  | some none =>
    some { s with
      locks := s.locks.set l (some i)
      pushes := s.pushes.set i { p with pc := .recheck root l } }
  | _ => none

def recheck (R : RefPkg κ ρ) (s : Server κ ρ) (p : Handler κ ρ) (c : Choice) (root : κ) (l : Nat) :
    Handler κ ρ :=
  match precondition R s.refs c p.msg with
  | some a => p.reply c a (.unlock l)
  | none => { p with pc := .prepare root l }

/-- Encode the record and have the guard prepare its root. -/
def prepare (R : RefPkg κ ρ) (p : Handler κ ρ) (c : Choice) (root : κ) (l : Nat) : Handler κ ρ :=
  match R.encode p.msg.name root c.now with
  | .error e => p.fail c codeInternal e (.unlock l)
  | .ok raw =>
    match c.fault with
    | some e => p.fail c codeInternal ("gc guard: " ++ e) (.unlock l)
    | none => { p with pc := .put root l raw }

def put (s : Server κ ρ) (i : Nat) (p : Handler κ ρ) (c : Choice) (root : κ) (l : Nat) (raw : ρ) :
    Server κ ρ :=
  match c.fault with
  | some e => s.set i (p.fail c codeInternal e (.unlock l))
  | none =>
    { s with
      refs := fun name => if name = p.msg.name then some raw else s.refs name
      pushes := s.pushes.set i { p with pc := .answer root l }
      committed := s.committed ++ [⟨i, p.msg, root⟩] }

def unlock (s : Server κ ρ) (i : Nat) (p : Handler κ ρ) (l : Nat) : Server κ ρ :=
  { s with
    locks := s.locks.set l none
    pushes := s.pushes.set i { p with pc := .finished } }

/-- The next step of a handler. -/
def advance (R : RefPkg κ ρ) (s : Server κ ρ) (i : Nat) (p : Handler κ ρ) (c : Choice) :
    Option (Server κ ρ) :=
  match p.pc with
  | .start => some (s.set i (start R s p c))
  | .transfer root => some (s.set i (transfer p c root))
  | .lookup root => some (s.lookup i p root)
  | .acquire root l => s.acquire i p root l
  | .recheck root l => some (s.set i (recheck R s p c root l))
  | .prepare root l => some (s.set i (prepare R p c root l))
  | .put root l raw => some (s.put i p c root l raw)
  | .answer root l => some (s.set i (p.reply c (.ok (R.bytes root)) (.unlock l)))
  | .unlock l => some (s.unlock i p l)
  | .finished => none

def step (R : RefPkg κ ρ) (s : Server κ ρ) : Label ρ → Option (Server κ ρ)
  | .accept m => some { s with pushes := s.pushes ++ [{ msg := m }] }
  | .advance i c =>
    match s.pushes[i]? with
    | some p => s.advance R i p c
    | none => none
  | .write name raw => some { s with refs := fun n => if n = name then raw else s.refs n }

/-- A server that has just been made over these refs. -/
def init (refs : String → Option ρ) : Server κ ρ := { refs := refs }

end Server

/-- The push as a write to the register of its name. -/
def Commit.write (R : RefPkg κ ρ) (c : Commit κ) : Register.Write Bytes where
  expected :=
    if c.msg.cas then
      some (if c.msg.expectedOld = [] then none else some c.msg.expectedOld)
    else none
  value := R.bytes c.root

/-- The committed pushes of one name, in their order. -/
def Server.writes (R : RefPkg κ ρ) (s : Server κ ρ) (name : String) :
    List (Register.Write Bytes) :=
  (s.committed.filter (·.msg.name = name)).map (Commit.write R)

end Push

end JobsIroh
