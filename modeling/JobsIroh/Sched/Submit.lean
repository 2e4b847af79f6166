/-
Requests: submit, cancel, delete, and the no-runners watchdog.

Submit first validates the definition and writes what the request needs in the
store, without the lock; then it registers the request and joins its target.
Cancel, delete, a submit that is turned down and the watchdog all let go of the
request's interest in the same way.
-/
import JobsIroh.Sched.Results

namespace JobsIroh

variable {κ : Type} [DecidableEq κ]

/-! ### Snapshots -/

/-- Whether some transitive dep of `n` is failed, by a memoised recursion that first enters
the answer "no" for `n` and stops at the first dep that says yes. -/
def upstreamFailed (deps : Nat → List Nat) (failed : Nat → Bool) :
    Nat → Nat → List (Nat × Bool) → Bool × List (Nat × Bool)
  | 0, _, memo => (false, memo)
  | fuel + 1, n, memo =>
    match memo.lookup n with
    | some v => (v, memo)
    | none =>
      let r := (deps n).foldl
        (fun (acc : Bool × List (Nat × Bool)) d =>
          if acc.1 then acc
          else if failed d then (true, acc.2)
          else upstreamFailed deps failed fuel d acc.2)
        (false, (n, false) :: memo)
      (r.1, (n, r.1) :: r.2)

/-- What a snapshot shows for a node: its phase, or that something upstream failed. -/
inductive SnapPhase where
  | own (p : Phase)
  | upstream
  deriving DecidableEq, Repr

/-- The request phases of a snapshot. -/
inductive ReqPhase where
  | running
  | cancelled
  | failed
  | done
  deriving DecidableEq, Repr

/-- The closure of a request, each node with the phase shown for it. -/
def closurePhases (s : State κ) (target : Nat) : List (Nat × SnapPhase) :=
  let closure := s.graph.subtree target
  (closure.foldl
    (fun (acc : List (Nat × SnapPhase) × List (Nat × Bool)) n =>
      if (s.phase n).settled then ((n, .own (s.phase n)) :: acc.1, acc.2)
      else
        let r := upstreamFailed s.graph.deps (fun d => s.phase d = .failed) (s.graph.next + 1) n
          acc.2
        ((n, if r.1 then .upstream else .own (s.phase n)) :: acc.1, r.2))
    ([], [])).1

/-- The phase `assembleLocked` reports for a request. -/
def assembleLocked (s : State κ) (r : Request κ) : ReqPhase :=
  if r.cancelled then .cancelled
  else if r.failReason ≠ "" then .failed
  else if s.phase r.target = .done then .done
  else if (closurePhases s r.target).any
      (fun e => e.2 = .upstream ∨ e.2 = .own .failed) then .failed
  else .running

def terminal (p : ReqPhase) : Bool := p ≠ .running

/-! ### The fleet -/

def runnerLiveWindow : Nat := 15 * 1000000000
def noRunnerFailAfter : Nat := 300 * 1000000000

/-- A runner of this platform was seen within the window. -/
def livePlatformLocked (s : State κ) (platform : String) (now : Nat) : Bool :=
  s.fleet.any (fun i => i.platform = platform && now ≤ i.seenNs + runnerLiveWindow)

def onRunnerHello (s : State κ) (id platform : String) (now : Nat) : State κ :=
  if id = "" then s
  else { s with fleet := ⟨id, platform, now⟩ :: s.fleet.filter (fun i => i.id ≠ id) }

/-- A heartbeat keeps the platform of the hello; without one there is none. -/
def onRunnerHeartbeat (s : State κ) (id : String) (now : Nat) : State κ :=
  if id = "" then s
  else
    let platform := ((s.fleet.find? (fun i => i.id = id)).map (·.platform)).getD ""
    { s with fleet := ⟨id, platform, now⟩ :: s.fleet.filter (fun i => i.id ≠ id) }

/-- The first output of an attempt shows that a runner has it. -/
def onLogChunk (W : World κ) (s : State κ) (name : String) (gen : Nat) : State κ :=
  match parseNodeName W name with
  | none => s
  | some id =>
    match s.graph.nodes id with
    | none => s
    | some n =>
      if (s.node n).gen = gen ∧ s.phase n = .queued then
        s.setNode n { s.node n with phase := .running }
      else s

/-! ### Letting go -/

/-- Queue messages of evicted nodes that are purged. -/
def purgedBy (s : State κ) (g : InterestGraph.Graph (NodeID κ) ReqID) (target : Nat) : List Nat :=
  ((s.graph.subtree target).filter (fun n =>
    s.graph.nodes (s.graph.id n) = some n ∧ g.nodes (s.graph.id n) ≠ some n ∧
      (s.node n).queueSeq ≠ 0 ∧ (s.phase n).inFlight)).map (fun n => (s.node n).queueSeq)

/-- Remove the request's interest and evict what nobody wants any more. -/
def dropInterestLocked (s : State κ) (rid : ReqID) (target : Nat) : State κ :=
  let g := s.graph.drop rid target
  { s with graph := g, purged := purgedBy s g target ++ s.purged }

def setRequest (s : State κ) (rid : ReqID) (r : Option (Request κ)) : State κ :=
  { s with requests := Function.update s.requests rid r }

def cancel (s : State κ) (rid : ReqID) : State κ :=
  match s.requests rid with
  | none => s
  | some r =>
    if r.cancelled then s
    else dropInterestLocked (setRequest s rid (some { r with cancelled := true })) rid r.target

def delete (s : State κ) (rid : ReqID) : State κ :=
  match s.requests rid with
  | none => s
  | some r => setRequest (dropInterestLocked s rid r.target) rid none

/-- The watchdog's turn for one request. -/
def checkNoRunnersLocked (s : State κ) (rid : ReqID) (now : Nat) (reason : String) : State κ :=
  match s.requests rid with
  | none => s
  | some r =>
    if r.cancelled ∨ r.failReason ≠ "" ∨ terminal (assembleLocked s r) ∨
        livePlatformLocked s r.platform now then
      setRequest s rid (some { r with noRunnersSince := none })
    else match r.noRunnersSince with
      | none => setRequest s rid (some { r with noRunnersSince := some now })
      | some since =>
        if now < since + noRunnerFailAfter then s
        else
          dropInterestLocked (setRequest s rid (some { r with
            failReason := "no live runners for platform " ++ r.platform ++ " for " ++ reason ++
              " — build failed (attach a runner and resubmit)" })) rid r.target

/-! ### Submitting -/

/-- A submit request as the client sends it. -/
structure SubmitRequest where
  defn : Bytes
  cpu : String := ""
  memory : String := ""
  scratchRef : String := ""
  label : String := ""
  deriving DecidableEq, Repr

inductive SubmitError where
  | badRequest (msg : String)
  | incomplete (msg : String)
  | internal (msg : String)
  | unavailable (msg : String)
  deriving DecidableEq, Repr

def parseOptional (parse : String → Except String Int) (s : String) : Except String Int :=
  if s = "" then .ok 0 else parse s

/-- What a submit checks without looking at the store. -/
def validateSubmit (W : World κ) (req : SubmitRequest) :
    Except SubmitError (Definition × Resources) :=
  if req.defn = [] then .error (.badRequest "submit: empty definition")
  else match W.decodeDefinition req.defn with
    | .error e => .error (.badRequest ("submit: decode definition: " ++ e))
    | .ok d =>
      match W.canonical d with
      | .error e => .error (.badRequest ("submit: canonicalize definition: " ++ e))
      | .ok canon =>
        if canon ≠ req.defn then
          .error (.badRequest "submit: definition is not canonical CBOR")
        else if d.platform = "" then
          .error (.badRequest "submit: definition has no platform")
        else match d.source.kind with
          | .other k => .error (.badRequest ("submit: unknown source kind " ++ W.quote k))
          | _ =>
            match parseOptional W.parseCPU req.cpu, parseOptional W.parseMem req.memory with
            | .error e, _ => .error (.badRequest ("submit: " ++ e))
            | _, .error e => .error (.badRequest ("submit: " ++ e))
            | .ok cpu, .ok mem => .ok (d, ⟨cpu, mem⟩)

omit [DecidableEq κ] in
/-- What is accepted is the canonical form of what it decodes to. -/
theorem validateSubmit_ok {W : World κ} {req : SubmitRequest} {d : Definition} {res : Resources}
    (h : validateSubmit W req = .ok (d, res)) :
    W.decodeDefinition req.defn = .ok d ∧ W.canonical d = .ok req.defn ∧ d.platform ≠ "" := by
  unfold validateSubmit at h
  split at h
  · cases h
  split at h
  · cases h
  rename_i d' hd
  split at h
  · cases h
  rename_i canon hcanon
  split at h
  · cases h
  rename_i heq
  split at h
  · cases h
  rename_i hne
  split at h
  · cases h
  split at h
  · cases h
  · cases h
  · obtain ⟨rfl, -⟩ := Prod.mk.inj (Except.ok.inj h)
    rw [Decidable.not_not] at heq
    exact ⟨hd, heq ▸ hcanon, hne⟩

/-- The carrier of a tree source, which must be complete; `io 0` is its write. -/
def publishTreeSource (W : World κ) (c : Choice) (st : Store κ) (d : Definition) :
    Except SubmitError (Store κ) :=
  match d.source.kind with
  | .tree =>
    match W.decodeTreeKey d.source.definition with
    | .error e => .error (.badRequest ("submit: decode tree source: " ++ e))
    | .ok t =>
      if st.complete t = false then
        .error (.incomplete ("submit: source tree " ++ W.string t ++ " incomplete: " ++ W.absent t))
      else match c.io 0 with
        | some e => .error (.internal ("submit: publish build-from-tree: " ++ e))
        | none => .ok (st.putRef (.buildFromTree t) t)
  | _ => .ok st

/-- The unlocked half of a submit: the store afterwards, and the submission or an error.
`io 1` is the ingest, `io 2` the bookkeeping write and `io 3` the request id. -/
def prepareSubmit (W : World κ) (c : Choice) (st : Store κ) (req : SubmitRequest) :
    Store κ × Except SubmitError (Submission κ) :=
  match validateSubmit W req with
  | .error e => (st, .error e)
  | .ok (d, res) =>
    match publishTreeSource W c st d with
    | .error e => (st, .error e)
    | .ok st =>
      match c.io 1, W.fileKey req.defn with
      | some e, _ => (st, .error (.internal ("submit: ingest definition: " ++ e)))
      | none, .error e => (st, .error (.internal ("submit: ingest definition: " ++ e)))
      | none, .ok k =>
        match c.io 2 with
        | some e => (st.ingest k, .error (.internal ("submit: bookkeeping ref: " ++ e)))
        | none =>
          let st := (st.ingest k).putRef (.build k) k
          match c.io 3 with
          | some e => (st, .error (.internal ("submit: " ++ e)))
          | none => (st, .ok ⟨k, req.defn, d.platform, res, req.label, req.scratchRef⟩)

/-- The locked half up to its `require`: register the request, join its target. The target
is entered right away; nothing looks at it before the call returns. -/
def joinSubmit (c : Choice) (s : State κ) (sub : Submission κ) (rid : ReqID) : State κ :=
  let n := s.graph.occupant ⟨.buildValue, sub.k⟩
  requireTarget c
    (setRequest s rid (some { k := sub.k, platform := sub.platform, res := sub.res, target := n }))
    sub.k sub.defn sub.platform rid sub.label (fun n => [.submitted rid n sub.scratchRef])

/-- The rest of a submit: turned down if work is left and no runner could do it. Only an
accepted submit gives up the client's push ref. -/
def afterSubmit (W : World κ) (c : Choice) (s : State κ) (rid : ReqID) (target : Nat)
    (scratchRef : String) : State κ :=
  match s.requests rid with
  | none => s
  | some r =>
    if terminal (assembleLocked s r) = false ∧ livePlatformLocked s r.platform c.now = false then
      setRequest (dropInterestLocked s rid target) rid none
    else deleteScratch W clientScratchPrefix scratchRef s

end JobsIroh
