/-
The rules of a step.

`StepRule` says what each label can do, with the critical section's own steps taken
from `ExecStep`; `step_rule` shows that `step` does nothing else.  A verdict on an
attempt, whether it comes with the result or after a commit, is one of the few
things listed in `Verdict`.
-/
import JobsIroh.Proofs.Rules

namespace JobsIroh

variable {κ : Type} [DecidableEq κ]

/-! ### Verdicts -/

/-- A node after a control verdict, before its next attempt. -/
def requeued (nd : Node κ) (e : String) : Node κ :=
  { nd with consecControl := nd.consecControl + 1, phase := .waiting, errSummary := e }

/-- A node after a retryable verdict, waiting for its timer. -/
def rearmed (nd : Node κ) (e : String) : Node κ :=
  { nd with
    consecRetry := nd.consecRetry + 1, consecControl := 0, phase := .waiting, errSummary := e }

/-- What a verdict does to the node `n` of an attempt. -/
inductive Verdict (W : World κ) (c : Choice) (s : State κ) (n : Nat) : State κ → Prop
  | fail (retry control : Nat) (e : String) :
    Verdict W c s n (s.setNode n
      (failedNode { s.node n with consecRetry := retry, consecControl := control } e))
  | requeue (hcap : (s.node n).consecControl < maxConsecControl) (e : String) :
    Verdict W c s n (enqueueLocked W c (s.setNode n (requeued (s.node n) e)) n)
  | rearm (hcap : (s.node n).consecRetry < maxConsecRetryable) (e : String) :
    Verdict W c s n
      { s.setNode n (rearmed (s.node n) e) with timers := (n, (s.node n).gen) :: s.timers }
  | unwatched (h : s.graph.interest n = []) : Verdict W c s n s

theorem retryLocked_verdict (W : World κ) (c : Choice) (s : State κ) (n : Nat) (summary : String)
    (control : Bool) : Verdict W c s n (retryLocked W c s n summary control) := by
  unfold retryLocked
  by_cases hc : control = true
  · rw [if_pos hc]
    by_cases hcap : (s.node n).consecControl + 1 > maxConsecControl
    · rw [if_pos hcap, failNodeLocked_eq, State.setNode_node, State.setNode_setNode]
      exact Verdict.fail _ _ _
    · rw [if_neg hcap, State.setNode_node, State.setNode_setNode]
      exact Verdict.requeue (by omega) _
  · rw [if_neg hc]
    by_cases hcap : (s.node n).consecRetry + 1 > maxConsecRetryable
    · rw [if_pos hcap, failNodeLocked_eq, State.setNode_node, State.setNode_setNode]
      exact Verdict.fail _ _ _
    · rw [if_neg hcap, State.setNode_node, State.setNode_setNode]
      exact Verdict.rearm (by omega) _

theorem failNodeLocked_verdict (W : World κ) (c : Choice) (s : State κ) (n : Nat) (e : String) :
    Verdict W c s n (failNodeLocked s n e) := by
  rw [failNodeLocked_eq]
  exact Verdict.fail (s.node n).consecRetry (s.node n).consecControl e

theorem applyClass_verdict {W : World κ} {c : Choice} {s : State κ} {n : Nat} {res : Result}
    (hok : res.cls ≠ .ok) : Verdict W c s n (applyClass W c s n res) := by
  unfold applyClass
  rcases hcls : res.cls with _ | _ | _ | _ | _ | cls
  · exact absurd hcls hok
  · exact failNodeLocked_verdict W c s n _
  · exact retryLocked_verdict W c s n _ _
  · exact retryLocked_verdict W c s n _ _
  · dsimp only
    by_cases hint : s.graph.interest n = []
    · rw [if_neg (by simpa using hint)]
      exact Verdict.unwatched hint
    · rw [if_pos hint]
      exact retryLocked_verdict W c s n _ _
  · exact failNodeLocked_verdict W c s n _

omit [DecidableEq κ] in
/-- Labels are all a recipe's name changes. -/
theorem applyRecipeLabelLocked_eq (s : State κ) (n : Nat) (refs : List RefProposal) :
    ∃ node, applyRecipeLabelLocked s n refs = { s with node := node } ∧
      ∀ m, ∃ label, node m = { s.node m with label := label } := by
  unfold applyRecipeLabelLocked
  split
  · exact ⟨s.node, rfl, fun m => ⟨(s.node m).label, rfl⟩⟩
  · rename_i r _
    refine ⟨_, rfl, fun m => ?_⟩
    split
    · exact ⟨r.label, rfl⟩
    · exact ⟨(s.node m).label, rfl⟩

/-- A node that has received a result. -/
def received (nd : Node κ) (res : Result) : Node κ :=
  { nd with lastResultGen := res.gen, runner := res.runner }

/-- The state in which the verdict of an accepted result is applied. -/
def judged (s : State κ) (n : Nat) (res : Result) : State κ :=
  { s.setNode n (received (s.node n) res) with
    accepted := (s.graph.id n, res.gen) :: s.accepted
    verdicts := (s.graph.id n, res.gen) :: s.verdicts }

/-- The state in which the commit of an accepted result starts. -/
def committing (s : State κ) (n : Nat) (res : Result) : State κ :=
  { s.setNode n { received (s.node n) res with phase := .publishing } with
    accepted := (s.graph.id n, res.gen) :: s.accepted
    commits := s.commits ++ [startCommit s n res] }

/-- What accepting a result does. -/
inductive AcceptRule (W : World κ) (c : Choice) (s : State κ) (n : Nat) (res : Result) :
    State κ → Prop
  | commits (hok : res.cls = .ok) : AcceptRule W c s n res (committing s n res)
  | verdict (hok : res.cls ≠ .ok) (s' : State κ) (hv : Verdict W c (judged s n res) n s') :
    AcceptRule W c s n res (deleteScratch W runnerScratchPrefix res.scratchRef s')

theorem acceptResult_rule (W : World κ) (c : Choice) (s : State κ) (n : Nat) (res : Result) :
    AcceptRule W c s n res (acceptResult W c s n res) := by
  unfold acceptResult
  split
  · rename_i hok
    have h := AcceptRule.commits (W := W) (c := c) (s := s) (n := n) hok
    simpa [committing, received, startCommit, State.setNode] using h
  · rename_i hok
    exact AcceptRule.verdict hok _ (applyClass_verdict hok)

/-- What the end of a commit does to its node. -/
inductive CommitVerdict (W : World κ) (c : Choice) (s : State κ) (cm : Commit κ) :
    Option CommitError → State κ → Prop
  | done (node : Nat → Node κ)
      (hnode : ∀ m, ∃ label retry control,
        node m = { s.node m with label := label, consecRetry := retry, consecControl := control } ∧
        (m ≠ cm.ptr → retry = (s.node m).consecRetry ∧ control = (s.node m).consecControl)) :
    CommitVerdict W c s cm none (nodeDoneLocked { s with node := node } cm.ptr)
  | verdict (e : CommitError) (s' : State κ) (hv : Verdict W c s cm.ptr s') :
    CommitVerdict W c s cm (some e) s'

/-- The state a finished commit is judged in. -/
abbrev State.judging (s : State κ) (i : Nat) (cm : Commit κ) : State κ :=
  { s with commits := s.commits.eraseIdx i, verdicts := (cm.id, cm.gen) :: s.verdicts }

theorem applyCommit_rule (W : World κ) (c : Choice) (s : State κ) (cm : Commit κ)
    (err : Option CommitError) : CommitVerdict W c s cm err (applyCommit W c s cm err) := by
  unfold applyCommit
  split
  · obtain ⟨node, heq, hl⟩ := applyRecipeLabelLocked_eq
      (s.setNode cm.ptr { s.node cm.ptr with consecRetry := 0, consecControl := 0 }) cm.ptr cm.refs
    rw [heq]
    refine CommitVerdict.done node fun m => ?_
    obtain ⟨label, hm⟩ := hl m
    by_cases hptr : m = cm.ptr
    · subst hptr
      rw [State.setNode_node] at hm
      exact ⟨label, 0, 0, hm, fun h => absurd rfl h⟩
    · rw [State.setNode_node_ne s _ hptr] at hm
      exact ⟨label, _, _, hm, fun _ => ⟨rfl, rfl⟩⟩
  · exact CommitVerdict.verdict _ _ (failNodeLocked_verdict W c s _ _)
  · exact CommitVerdict.verdict _ _ (retryLocked_verdict W c s _ _ _)

/-! ### Steps -/

/-- What one label does in state `s`. -/
inductive StepRule [Inhabited κ] (W : World κ) (s : State κ) : Label κ → State κ → Prop
  /- The critical section. -/
  | visit (c : Choice) (h : s.graph.pending ≠ []) :
    StepRule W s (.exec c) { s with graph := s.graph.visitNext }
  | frame (c : Choice) (fr : Frame κ) (rest : List (Frame κ)) (hp : s.graph.pending = [])
      (hst : s.stack = fr :: rest) (s' : State κ)
      (h : ExecStep W c { s with stack := rest } fr s') : StepRule W s (.exec c) s'
  /- Requests. -/
  | prepared (c : Choice) (req : SubmitRequest) (st : Store κ) (subs : List (Submission κ))
      (h : (∃ e, prepareSubmit W c s.store req = (st, .error e) ∧ subs = s.submits) ∨
        ∃ sub, prepareSubmit W c s.store req = (st, .ok sub) ∧ subs = s.submits ++ [sub]) :
    StepRule W s (.prepare c req) { s with store := st, submits := subs }
  | submitClosed (c : Choice) (i : Nat) (rid : ReqID) (hfree : s.free = true)
      (hclosed : s.closed = true) :
    StepRule W s (.submit c i rid) { s with submits := s.submits.eraseIdx i }
  | submit (c : Choice) (i : Nat) (rid : ReqID) (sub : Submission κ)
      (hsub : s.submits[i]? = some sub) (hrid : s.requests rid = none) (hfree : s.free = true)
      (hclosed : s.closed = false) :
    StepRule W s (.submit c i rid)
      (joinSubmit c { s with submits := s.submits.eraseIdx i } sub rid)
  | cancelled (rid : ReqID) (r : Request κ) (hr : s.requests rid = some r)
      (hfree : s.free = true) :
    StepRule W s (.cancel rid)
      (dropInterestLocked (setRequest s rid (some { r with cancelled := true })) rid r.target)
  | deleted (rid : ReqID) (r : Request κ) (hr : s.requests rid = some r) (hfree : s.free = true) :
    StepRule W s (.delete rid) (setRequest (dropInterestLocked s rid r.target) rid none)
  | watched (rid : ReqID) (now : Nat) (reason : String) (r : Request κ)
      (hr : s.requests rid = some r) (hfree : s.free = true) (since : Option Nat) :
    StepRule W s (.watchdog rid now reason)
      (setRequest s rid (some { r with noRunnersSince := since }))
  | starved (rid : ReqID) (now : Nat) (reason : String) (r : Request κ)
      (hr : s.requests rid = some r) (hfree : s.free = true) (msg : String) (hmsg : msg ≠ "")
      (ht : terminal (assembleLocked s r) = false) :
    StepRule W s (.watchdog rid now reason)
      (dropInterestLocked (setRequest s rid (some { r with failReason := msg })) rid r.target)
  | nothing (a : Label κ) (hfree : s.free = true) : StepRule W s a s
  /- Results. -/
  | dropped (c : Choice) (res : Result) (hfree : s.free = true) :
    StepRule W s (.result c res) (deleteScratch W runnerScratchPrefix res.scratchRef s)
  | accepted (c : Choice) (res : Result) (n : Nat) (hfree : s.free = true)
      (hid : parseNodeName W res.node = some (s.graph.id n)) (hn : s.graph.Alive n)
      (ha : accepts s n res = true) : StepRule W s (.result c res) (acceptResult W c s n res)
  | committed (c : Choice) (i : Nat) (cm : Commit κ) (hcm : s.commits[i]? = some cm) :
    StepRule W s (.commit c i)
      { s with
        store := (commitStep W c s.store cm).1,
        commits := s.commits.set i { cm with stage := (commitStep W c s.store cm).2 } }
  | finishStale (c : Choice) (i : Nat) (cm : Commit κ) (err : Option CommitError)
      (hcm : s.commits[i]? = some cm) (hst : cm.stage = .finished err) (hfree : s.free = true)
      (hstale : ¬ (s.graph.Alive cm.ptr ∧ (s.node cm.ptr).gen = cm.gen)) :
    StepRule W s (.finish c i)
      (deleteScratch W runnerScratchPrefix cm.scratchRef
        { s with commits := s.commits.eraseIdx i })
  | finish (c : Choice) (i : Nat) (cm : Commit κ) (err : Option CommitError)
      (hcm : s.commits[i]? = some cm) (hst : cm.stage = .finished err) (hfree : s.free = true)
      (hn : s.graph.Alive cm.ptr) (hgen : (s.node cm.ptr).gen = cm.gen) :
    StepRule W s (.finish c i)
      (deleteScratch W runnerScratchPrefix cm.scratchRef
        (applyCommit W c
          { s with
            commits := s.commits.eraseIdx i, verdicts := (cm.id, cm.gen) :: s.verdicts } cm err))
  | timerStale (c : Choice) (i n gen : Nat) (ht : s.timers[i]? = some (n, gen))
      (hfree : s.free = true)
      (hstale : ¬ (s.graph.Alive n ∧ s.closed = false ∧ (s.node n).gen = gen ∧
        s.phase n = .waiting ∧ s.graph.interest n ≠ [])) :
    StepRule W s (.timer c i) { s with timers := s.timers.eraseIdx i }
  | timer (c : Choice) (i n gen : Nat) (ht : s.timers[i]? = some (n, gen))
      (hfree : s.free = true) (hn : s.graph.Alive n) (hclosed : s.closed = false)
      (hgen : (s.node n).gen = gen) (hph : s.phase n = .waiting) :
    StepRule W s (.timer c i) (enqueueLocked W c { s with timers := s.timers.eraseIdx i } n)
  | running (name : String) (gen n : Nat) (hfree : s.free = true) (hn : s.graph.Alive n)
      (hph : s.phase n = .queued) :
    StepRule W s (.logChunk name gen) (s.setNode n { s.node n with phase := .running })
  /- The surroundings. -/
  | fleet (a : Label κ) (fleet : List RunnerInfo) (hfree : s.free = true)
      (ha : (∃ id platform now, a = .hello id platform now) ∨ ∃ id now, a = .heartbeat id now) :
    StepRule W s a { s with fleet := fleet }
  | push (k : κ) : StepRule W s (.push k) { s with store := s.store.ingest k }
  | expire (r : RefName κ) : StepRule W s (.expire r) { s with store := s.store.deleteRef r }
  | close (hfree : s.free = true) : StepRule W s .close { s with closed := true }
  | cancelCtx : StepRule W s .cancelCtx { s with ctxErr := true }
  | crash : StepRule W s .crash (crash s)

omit [DecidableEq κ] in
theorem whenFree_some {s s₁ s' : State κ} (h : whenFree s s₁ = some s') :
    s.free = true ∧ s₁ = s' := by
  unfold whenFree at h
  split at h
  · rename_i hf
    exact ⟨hf, Option.some.inj h⟩
  · cases h

variable [Inhabited κ] {W : World κ} {s s' : State κ}

theorem handleResult_rule {c : Choice} {res : Result} (hfree : s.free = true)
    (hg : s.graph.Inv s.target) : StepRule W s (.result c res) (handleResult W c s res) := by
  unfold handleResult
  split
  · exact StepRule.dropped c res hfree
  · rename_i id hid
    split
    · exact StepRule.dropped c res hfree
    · rename_i n hn
      have hocc := (hg.occ id n hn).1
      split
      · rename_i ha
        refine StepRule.accepted c res n hfree (by rw [hocc]; exact hid) ?_ ha
        show s.graph.nodes (s.graph.id n) = some n
        rw [hocc, hn]
      · exact StepRule.dropped c res hfree

theorem watchdog_rule {rid : ReqID} {now : Nat} {reason : String} (hfree : s.free = true) :
    StepRule W s (.watchdog rid now reason) (checkNoRunnersLocked s rid now reason) := by
  unfold checkNoRunnersLocked
  split
  · exact StepRule.nothing _ hfree
  · rename_i r hr
    split
    · exact StepRule.watched rid now reason r hr hfree none
    rename_i hcond
    split
    · exact StepRule.watched rid now reason r hr hfree (some now)
    · split
      · exact StepRule.nothing _ hfree
      · refine StepRule.starved rid now reason r hr hfree _ ?_ ?_
        · intro hc
          have hl := congrArg String.length hc
          simp only [String.length_append] at hl
          have : ("no live runners for platform " : String).length = 29 := rfl
          have h0 : ("" : String).length = 0 := rfl
          omega
        · rw [← Bool.not_eq_true]
          exact fun ht => hcond (Or.inr (Or.inr (Or.inl ht)))

/-- **`step` takes only the steps of the rules.** -/
theorem step_rule {a : Label κ} (hg : s.graph.Inv s.target) (h : step W s a = some s') :
    StepRule W s a s' := by
  rcases a with c | ⟨c, req⟩ | ⟨c, i, rid⟩ | rid | rid | ⟨rid, now, reason⟩ | ⟨c, res⟩ | ⟨c, i⟩ |
    ⟨c, i⟩ | ⟨c, i⟩ | ⟨name, gen⟩ | ⟨id, platform, now⟩ | ⟨id, now⟩ | k | r | _ | _ | _
  · replace h : execStep W c s = some s' := h
    unfold execStep at h
    by_cases hp : s.graph.pending = []
    · rw [if_neg (by simpa using hp)] at h
      split at h
      · cases h
      · rename_i fr rest hst
        rw [← Option.some.inj h]
        exact StepRule.frame c fr rest hp hst _ (exec_rule W c _ fr)
    · rw [if_pos hp] at h
      rw [← Option.some.inj h]
      exact StepRule.visit c hp
  · unfold step at h
    dsimp only at h
    split at h
    · rename_i st sub hp
      rw [← Option.some.inj h]
      exact StepRule.prepared c req st _ (Or.inr ⟨sub, hp, rfl⟩)
    · rename_i st e hp
      rw [← Option.some.inj h]
      exact StepRule.prepared c req st s.submits (Or.inl ⟨e, hp, rfl⟩)
  · unfold step at h
    dsimp only at h
    split at h
    · cases h
    · rename_i sub hsub
      split at h
      · cases h
      · rename_i hrid
        obtain ⟨hfree, rfl⟩ := whenFree_some h
        split
        · rename_i hclosed
          exact StepRule.submitClosed c i rid hfree hclosed
        · rename_i hclosed
          exact StepRule.submit c i rid sub hsub (by simpa using hrid) hfree
            (by simpa using hclosed)
  · obtain ⟨hfree, rfl⟩ := whenFree_some h
    unfold cancel
    split
    · exact StepRule.nothing _ hfree
    · rename_i r hr
      split
      · exact StepRule.nothing _ hfree
      · exact StepRule.cancelled rid r hr hfree
  · obtain ⟨hfree, rfl⟩ := whenFree_some h
    unfold delete
    split
    · exact StepRule.nothing _ hfree
    · rename_i r hr
      exact StepRule.deleted rid r hr hfree
  · obtain ⟨hfree, rfl⟩ := whenFree_some h
    exact watchdog_rule hfree
  · obtain ⟨hfree, rfl⟩ := whenFree_some h
    exact handleResult_rule hfree hg
  · unfold step at h
    dsimp only at h
    split at h
    · cases h
    · rename_i cm hcm
      rw [← Option.some.inj h]
      exact StepRule.committed c i cm hcm
  · unfold step at h
    dsimp only at h
    split at h
    · cases h
    · rename_i cm hcm
      split at h
      · rename_i err hst
        obtain ⟨hfree, rfl⟩ := whenFree_some h
        unfold finishCommit
        split
        · rename_i hc
          exact StepRule.finish c i cm err hcm hst hfree hc.1 hc.2
        · rename_i hc
          exact StepRule.finishStale c i cm err hcm hst hfree hc
      · cases h
  · unfold step at h
    dsimp only at h
    split at h
    · cases h
    · rename_i n gen ht
      obtain ⟨hfree, rfl⟩ := whenFree_some h
      unfold fireTimer
      split
      · rename_i hc
        exact StepRule.timer c i n gen ht hfree hc.1 hc.2.1 hc.2.2.1 hc.2.2.2.1
      · rename_i hc
        exact StepRule.timerStale c i n gen ht hfree hc
  · obtain ⟨hfree, rfl⟩ := whenFree_some h
    unfold onLogChunk
    split
    · exact StepRule.nothing _ hfree
    · rename_i id hid
      split
      · exact StepRule.nothing _ hfree
      · rename_i n hn
        split
        · rename_i hc
          refine StepRule.running name gen n hfree ?_ hc.2
          show s.graph.nodes (s.graph.id n) = some n
          rw [(hg.occ id n hn).1, hn]
        · exact StepRule.nothing _ hfree
  · obtain ⟨hfree, rfl⟩ := whenFree_some h
    unfold onRunnerHello
    split
    · exact StepRule.nothing _ hfree
    · exact StepRule.fleet _ _ hfree (Or.inl ⟨id, platform, now, rfl⟩)
  · obtain ⟨hfree, rfl⟩ := whenFree_some h
    unfold onRunnerHeartbeat
    split
    · exact StepRule.nothing _ hfree
    · exact StepRule.fleet _ _ hfree (Or.inr ⟨id, now, rfl⟩)
  · rw [← Option.some.inj h]
    exact StepRule.push k
  · rw [← Option.some.inj h]
    exact StepRule.expire r
  · obtain ⟨hfree, rfl⟩ := whenFree_some h
    exact StepRule.close hfree
  · rw [← Option.some.inj h]
    exact StepRule.cancelCtx
  · rw [← Option.some.inj h]
    exact StepRule.crash

/-- A step is a crash, or it is not. -/
theorem crash_or {a : Label κ} (h : step W s a = some s') :
    a = .crash ∧ s' = crash s ∨ a ≠ .crash := by
  by_cases ha : a = .crash
  · subst ha
    exact Or.inl ⟨rfl, (Option.some.inj h).symm⟩
  · exact Or.inr ha

/-- While a critical section is open, everybody else leaves the table alone. -/
theorem step_open {a : Label κ} (hg : s.graph.Inv s.target) (hopen : s.free = false)
    (ha : a ≠ .crash) (hex : ∀ c, a ≠ .exec c) (h : step W s a = some s') :
    s'.stack = s.stack ∧ s'.node = s.node ∧ s'.graph = s.graph ∧ s'.jobs = s.jobs ∧
      s'.requests = s.requests := by
  cases step_rule hg h with
  | visit c | frame c => exact absurd rfl (hex c)
  | crash => exact absurd rfl ha
  | submitClosed c i rid hfree | submit c i rid sub hsub hrid hfree | cancelled rid r hr hfree
  | deleted rid r hr hfree | watched rid now reason r hr hfree
  | starved rid now reason r hr hfree | nothing a hfree | dropped c res hfree
  | accepted c res n hfree | finishStale c i cm err hcm hst hfree
  | finish c i cm err hcm hst hfree | timerStale c i n gen ht hfree | timer c i n gen ht hfree
  | running name gen n hfree | fleet a fleet hfree | close hfree =>
    rw [hfree] at hopen
    cases hopen
  | _ => exact ⟨rfl, rfl, rfl, rfl, rfl⟩

end JobsIroh
