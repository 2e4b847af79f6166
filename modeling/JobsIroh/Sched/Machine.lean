/-
The scheduler as a transition system.

A label is one thing that can happen next: the open critical section goes on by
one frame, somebody takes the lock, an unlocked commit makes its next write, a
peer pushes objects, a ref expires, the process dies.  A label that needs the lock
is only admitted when no critical section is open; everything else may come in
between any two frames.
-/
import JobsIroh.Lib.Run
import JobsIroh.Sched.Submit

namespace JobsIroh

variable {κ : Type} [DecidableEq κ]

inductive Label (κ : Type) where
  /-- The open critical section goes on. -/
  | exec (c : Choice)
  /-- The unlocked half of a submit, and the locked half of the `i`-th prepared one. -/
  | prepare (c : Choice) (req : SubmitRequest)
  | submit (c : Choice) (i : Nat) (rid : ReqID)
  | cancel (rid : ReqID)
  | delete (rid : ReqID)
  | watchdog (rid : ReqID) (now : Nat) (reason : String)
  | result (c : Choice) (res : Result)
  /-- The `i`-th commit makes a step; when it has finished, its verdict is applied. -/
  | commit (c : Choice) (i : Nat)
  | finish (c : Choice) (i : Nat)
  | timer (c : Choice) (i : Nat)
  | logChunk (name : String) (gen : Nat)
  | hello (id platform : String) (now : Nat)
  | heartbeat (id : String) (now : Nat)
  /-- A peer's objects become complete under a key. -/
  | push (k : κ)
  /-- A ref is deleted by somebody else. -/
  | expire (r : RefName κ)
  | close
  | cancelCtx
  | crash

/-- Run the frame on top; the stack of `s` is what lies below it. -/
def exec (W : World κ) (c : Choice) (s : State κ) : Frame κ → State κ
  | .unfold n => unfoldLocked W c s n
  | .unfolding n [] => maybeEnqueueLocked W c s n
  | .unfolding n (ni :: rest) => unfoldNext W c s n ni rest
  | .advance bv => advanceBuildValueLocked c s bv
  | .afterFrom bv bf => afterFrom W c s bv bf
  | .afterResolve bv pr => afterResolve c s bv pr
  | .afterPin bv pin => afterPin W c s bv pin
  | .afterRun bv run => afterRun W c s bv run
  | .putPinned bv kp pinnedKey => putPinned c s bv kp pinnedKey
  | .putKPTree bv kp => putKPTree c s bv kp
  | .putPinCover bv kp => putPinCover c s bv kp
  | .putAliasDeps bv deps out => putAliasDeps c s bv deps out
  | .putAliasOutput bv out => putAliasOutput c s bv out
  | .notify n todo seen => notifyNext W c s n todo seen
  | .submitted rid target scratchRef => afterSubmit W c s rid target scratchRef

/-- The critical section goes on: first the walk that adds interest, then the top frame. -/
def execStep (W : World κ) (c : Choice) (s : State κ) : Option (State κ) :=
  if s.graph.pending ≠ [] then some { s with graph := s.graph.visitNext }
  else match s.stack with
    | [] => none
    | fr :: rest => some (exec W c { s with stack := rest } fr)

/-- The server dies and starts again: memory is gone, the store and the history stay. -/
def crash [Inhabited κ] (s : State κ) : State κ :=
  { State.init s.store with
    jobs := s.jobs, purged := s.purged, lastGen := s.lastGen, accepted := s.accepted,
    verdicts := s.verdicts }

def whenFree (s : State κ) (s' : State κ) : Option (State κ) := if s.free then some s' else none

def step [Inhabited κ] (W : World κ) (s : State κ) : Label κ → Option (State κ)
  | .exec c => execStep W c s
  | .prepare c req =>
    match prepareSubmit W c s.store req with
    | (st, .ok sub) => some { s with store := st, submits := s.submits ++ [sub] }
    | (st, .error _) => some { s with store := st }
  | .submit c i rid =>
    match s.submits[i]? with
    | none => none
    | some sub =>
      let s' := { s with submits := s.submits.eraseIdx i }
      if s.requests rid ≠ none then none
      else whenFree s (if s.closed then s' else joinSubmit c s' sub rid)
  | .cancel rid => whenFree s (cancel s rid)
  | .delete rid => whenFree s (delete s rid)
  | .watchdog rid now reason => whenFree s (checkNoRunnersLocked s rid now reason)
  | .result c res => whenFree s (handleResult W c s res)
  | .commit c i =>
    match s.commits[i]? with
    | none => none
    | some cm =>
      let r := commitStep W c s.store cm
      some { s with store := r.1, commits := s.commits.set i { cm with stage := r.2 } }
  | .finish c i =>
    match s.commits[i]? with
    | none => none
    | some cm =>
      match cm.stage with
      | .finished err =>
        whenFree s (finishCommit W c { s with commits := s.commits.eraseIdx i } cm err)
      | _ => none
  | .timer c i =>
    match s.timers[i]? with
    | none => none
    | some (n, gen) =>
      whenFree s (fireTimer W c { s with timers := s.timers.eraseIdx i } n gen)
  | .logChunk name gen => whenFree s (onLogChunk W s name gen)
  | .hello id platform now => whenFree s (onRunnerHello s id platform now)
  | .heartbeat id now => whenFree s (onRunnerHeartbeat s id now)
  | .push k => some { s with store := s.store.ingest k }
  | .expire r => some { s with store := s.store.deleteRef r }
  | .close => whenFree s { s with closed := true }
  | .cancelCtx => some { s with ctxErr := true }
  | .crash => some (crash s)

/-- Runs of the scheduler. -/
abbrev runSched [Inhabited κ] (W : World κ) : State κ → List (Label κ) → Option (State κ) :=
  Run.run (step W)

/-- States reached from a fresh start on the store `st`, by steps that satisfy `P`. -/
abbrev Reached [Inhabited κ] (W : World κ) (P : State κ → Label κ → Prop) (st : Store κ) :
    State κ → Prop :=
  Run.Steps (step W) P (State.init st)

end JobsIroh
