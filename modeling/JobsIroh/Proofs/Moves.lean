/-
How a step moves a node from one phase to the next.

A step moves at most one node of the table; `ExecMove` lists the ways the critical
section can do it, together with the frame that was run.  A node that is new after a
step is what its join made of it (`step_table`).  The arguments about attempts,
readiness and wake-ups are about phases and use these instead of the rules.
-/
import JobsIroh.Proofs.Table
import JobsIroh.Proofs.Writes

namespace JobsIroh

variable {κ : Type} [DecidableEq κ]

/-! ### Kinds of moves -/

/-- The generation of a node, and the highest seen for its identity, are as before. -/
structure SameGen (s s' : State κ) (q : Nat) : Prop where
  gen : (s'.node q).gen = (s.node q).gen
  lastGen : s'.lastGen (s.graph.id q) = s.lastGen (s.graph.id q)

/-- Nothing that a verdict is about has changed. -/
structure Stays (s s' : State κ) (q : Nat) : Prop extends SameGen s s' q where
  phase : s'.phase q = s.phase q
  consecRetry : (s'.node q).consecRetry = (s.node q).consecRetry
  consecControl : (s'.node q).consecControl = (s.node q).consecControl

/-- All nodes of the table other than `n` are as before. -/
def Others (s s' : State κ) (n : Nat) : Prop := ∀ q, s.graph.Alive q → q ≠ n → Stays s s' q

/-- No job was handed out and no timer armed. -/
structure Quiet (s s' : State κ) : Prop where
  timers : s'.timers = s.timers
  jobs : s'.jobs = s.jobs

/-- The job `j` of an attempt at `q`: computed on the store `st`, from the node as it is now. -/
structure Published (W : World κ) (s s' : State κ) (q : Nat) (j : Job κ) (st : Store κ) :
    Prop where
  healed : Healed (s.graph.id q) s.store st
  job : JobFor W st q (s.graph.id q) (s'.node q) j

/-- How an attempt ends. -/
inductive Outcome (W : World κ) (s s' : State κ) (q : Nat) (timers : List (Nat × Nat)) : Prop
  | refused (hph : s'.phase q = .failed) (ht : s'.timers = timers) (hj : s'.jobs = s.jobs)
  | queued (j : Job κ) (st : Store κ) (hp : Published W s s' q j st) (hph : s'.phase q = .queued)
      (ht : s'.timers = timers) (hj : s'.jobs = j :: s.jobs)
  | rearmed (j : Job κ) (st : Store κ) (hp : Published W s s' q j st) (hph : s'.phase q = .waiting)
      (ht : s'.timers = (q, (s'.node q).gen) :: timers) (hj : s'.jobs = j :: s.jobs)
  | goingDown (j : Job κ) (st : Store κ) (hp : Published W s s' q j st)
      (hph : s'.phase q = .waiting) (hdown : s.ctxErr = true) (ht : s'.timers = timers)
      (hj : s'.jobs = j :: s.jobs)

/-- A new attempt at `q`: the next generation; `timers` are those that were left before it. -/
structure Attempted (W : World κ) (s s' : State κ) (q : Nat) (timers : List (Nat × Nat)) :
    Prop where
  gen : (s'.node q).gen = (s.node q).gen + 1
  lastGen : s'.lastGen (s.graph.id q) = max (s.lastGen (s.graph.id q)) ((s.node q).gen + 1)
  graph : s'.graph = s.graph
  outcome : Outcome W s s' q timers

/-- A verdict other than done: failed, waiting for a timer, or at once the next attempt. -/
inductive Judged (W : World κ) (s s' : State κ) (q : Nat) : Prop
  | fails (hph : s'.phase q = .failed) (hgen : SameGen s s' q) (hq : Quiet s s')
  | rearmed (hph : s'.phase q = .waiting) (hgen : SameGen s s' q)
      (ht : s'.timers = (q, (s.node q).gen) :: s.timers) (hj : s'.jobs = s.jobs)
  | closed (hc : s.closed = true) (hph : s'.phase q = .waiting) (hgen : SameGen s s' q)
      (hq : Quiet s s')
  | attempted (hc : s.closed = false) (h : Attempted W s s' q s.timers)

/-- The node a frame is still unfolding. -/
def Frame.opens : Frame κ → Option Nat
  | .unfold n | .unfolding n _ => some n
  | _ => none

/-- The buildvalue that gets done when the frame runs: its alias is there, or about to be. -/
def completing (s : State κ) : Frame κ → Option Nat
  | .afterRun bv run =>
    match (s.node bv).f with
    | some f => if s.phase run = .done ∧ s.store.has (.output f) then some bv else none
    | none => none
  | .putAliasOutput bv _ => some bv
  | _ => none

omit [DecidableEq κ] in
theorem stageOf_of_completing {s : State κ} {fr : Frame κ} {bv : Nat}
    (h : completing s fr = some bv) : fr.stageOf = some bv := by
  unfold completing at h
  split at h
  · split at h
    · split at h
      · exact h
      · cases h
    · cases h
  · exact h
  · cases h

section

variable {W : World κ} {c : Choice} {s s' : State κ} {n q : Nat}

omit [DecidableEq κ] in
theorem Stays.refl (s : State κ) (q : Nat) : Stays s s q :=
  ⟨⟨rfl, rfl⟩, rfl, rfl, rfl⟩

omit [DecidableEq κ] in
/-- A step that does not write the node. -/
theorem Stays.of_node (hn : s'.node q = s.node q)
    (hl : s'.lastGen (s.graph.id q) = s.lastGen (s.graph.id q)) : Stays s s' q := by
  refine ⟨⟨?_, hl⟩, ?_, ?_, ?_⟩
  · rw [hn]
  · unfold State.phase
    rw [hn]
  · rw [hn]
  · rw [hn]

variable {nd : Node κ}

section

omit [DecidableEq κ]

/-- A write to a node that keeps its phase, its generations and its counters. -/
theorem Stays.setNode (hph : nd.phase = (s.node n).phase)
    (hgen : nd.gen = (s.node n).gen) (hr : nd.consecRetry = (s.node n).consecRetry)
    (hc : nd.consecControl = (s.node n).consecControl) (q : Nat) : Stays s (s.setNode n nd) q := by
  by_cases hq : q = n
  · refine ⟨⟨?_, rfl⟩, ?_, ?_, ?_⟩ <;> simp [State.phase, *]
  · exact Stays.of_node (s.setNode_node_ne nd hq) rfl

theorem Stays.sameRun (h : SameRun (s.node n) nd) (q : Nat) :
    Stays s (s.setNode n nd) q :=
  Stays.setNode h.phase h.gen h.consecRetry h.consecControl q

theorem Stays.trans {s'' : State κ} (h : Stays s s' q) (h' : Stays s' s'' q)
    (hid : s'.graph.id q = s.graph.id q) : Stays s s'' q := by
  have hl := h'.lastGen
  rw [hid] at hl
  exact ⟨⟨h'.gen.trans h.gen, hl.trans h.lastGen⟩,
    h'.phase.trans h.phase, h'.consecRetry.trans h.consecRetry,
    h'.consecControl.trans h.consecControl⟩

/-- The rest of the state before does not matter. -/
theorem Stays.congr {s₁ : State κ} (h : Stays s₁ s' q) (hn : s₁.node = s.node)
    (hl : s₁.lastGen = s.lastGen) (hid : s₁.graph.id q = s.graph.id q) : Stays s s' q := by
  refine Stays.trans (Stays.of_node ?_ ?_) h hid
  · rw [hn]
  · rw [hl]

end

/-! ### Joining and enqueueing -/

variable {id : NodeID κ}

/-- A join leaves the nodes that were in the table as they were. -/
theorem Joined.stays {st : Store κ} {defn : Bytes} {platform label : String}
    {lg : NodeID κ → Nat} {fs : List (Frame κ)} (hg : s.graph.Inv s.target)
    (hj : Joined c st id ((s.graph.nodes id).map s.node) defn platform label
      (s.graph.occupant id) s.lastGen nd fs lg)
    (hnode : s'.node = Function.update s.node (s.graph.occupant id) nd) (hlg : s'.lastGen = lg)
    (hq : s.graph.Alive q) : Stays s s' q := by
  rcases hj.table_node hg hq with ⟨hqo, -, hfill, rfl⟩ | ⟨hne, hid⟩
  · rw [← hqo, ← hfill] at hnode
    have hnd : s'.node q = fillNode (s.node q) defn platform label := by
      rw [hnode, Function.update_self]
    refine ⟨⟨?_, by rw [hlg]⟩, ?_, ?_, ?_⟩
    · rw [hnd]
      rfl
    · unfold State.phase
      rw [hnd]
      rfl
    · rw [hnd]
      rfl
    · rw [hnd]
      rfl
  · refine Stays.of_node (by rw [hnode, Function.update_of_ne hne]) ?_
    rw [hlg]
    cases hj with
    | existed => rfl
    | _ => exact Function.update_of_ne hid _ _

theorem require_stays (hg : s.graph.Inv s.target) (kind : Kind) (k : κ) (defn : Bytes)
    (platform : String) (parent : Nat) (label : String) (ret : Nat → List (Frame κ))
    (hq : s.graph.Alive q) :
    Stays s (require c s kind k defn platform parent label ret) q := by
  obtain ⟨nd, fs, lg, heq, hj⟩ := require_eq hg kind k defn platform parent label ret
  rw [heq]
  exact hj.stays hg rfl rfl hq

/-- An attempt, told from the state before and the state after. -/
theorem Attempt.outcome (s' : State κ) {st : Store κ} {nd' : Node κ}
    {timers timers' : List (Nat × Nat)} {jobs' : List (Job κ)}
    (hheal : Healed (s.graph.id n) s.store st) (hw : nd.phase = .waiting)
    (h : Attempt W st n (s.graph.id n) s.ctxErr nd timers s.jobs nd' timers' jobs')
    (hnode : s'.node n = nd') (ht : s'.timers = timers') (hj : s'.jobs = jobs') :
    nd'.gen = nd.gen ∧ Outcome W s s' n timers := by
  have published : ∀ {j : Job κ} (seq : Nat) (ph : Phase), JobFor W st n (s.graph.id n) nd j →
      s'.node n = { nd with queueSeq := seq, phase := ph } → Published W s s' n j st := by
    intro j seq ph hjob heq
    refine ⟨hheal, ?_⟩
    rw [heq]
    exact ⟨hjob.ptr, hjob.id, hjob.gen, hjob.pull, hjob.healed, hjob.platform⟩
  have phase : s'.phase n = nd'.phase := by rw [State.phase, hnode]
  cases h with
  | refused e =>
    rw [failedNode_of_unsettled e (by rw [hw]; rfl)] at hnode phase ⊢
    exact ⟨rfl, Outcome.refused phase ht hj⟩
  | queued seq job hjob =>
    exact ⟨rfl, Outcome.queued job st (published seq .queued hjob hnode) phase ht hj⟩
  | rearmed job hjob =>
    have hp := published nd.queueSeq .waiting hjob hnode
    refine ⟨rfl, Outcome.rearmed job st hp phase ?_ hj⟩
    rw [ht, hnode]
  | goingDown job hjob hd =>
    have hp := published nd.queueSeq nd.phase hjob hnode
    exact ⟨rfl, Outcome.goingDown job st hp (phase.trans hw) hd ht hj⟩

/-- An enqueue attempts its node and leaves the others alone. -/
theorem enqueueLocked_moves (W : World κ) (c : Choice) (hclosed : s.closed = false)
    (hn : s.graph.Alive n) (hw : s.phase n = .waiting) :
    Attempted W s (enqueueLocked W c s n) n s.timers ∧ Others s (enqueueLocked W c s n) n := by
  obtain ⟨st, nd, timers, jobs, heq, hheal, hat⟩ :=
    (enqueueLocked_eq W c s n).resolve_left (by simp [hclosed])
  rw [heq]
  refine ⟨?_, fun q hq hqn => ?_⟩
  · obtain ⟨hgen, hout⟩ := hat.outcome { s with
        node := Function.update s.node n nd, store := st, timers := timers, jobs := jobs,
        lastGen := raise s.lastGen (s.graph.id n) ((s.node n).gen + 1) }
      hheal (by exact hw) (by simp) rfl rfl
    refine ⟨?_, ?_, rfl, hout⟩
    · dsimp only
      rw [Function.update_self, hgen]
      rfl
    · dsimp only
      rw [raise, Function.update_self]
  · refine Stays.of_node (Function.update_of_ne hqn _ _) ?_
    exact Function.update_of_ne (hq.id_ne hn hqn) _ _

/-- The state an attempt is told from may differ in what attempts do not read. -/
theorem Attempted.congr {s₁ : State κ} {timers : List (Nat × Nat)}
    (h : Attempted W s₁ s' q timers) (hgen : (s₁.node q).gen = (s.node q).gen)
    (hg : s₁.graph = s.graph) (hl : s₁.lastGen = s.lastGen) (hst : s₁.store = s.store)
    (hj : s₁.jobs = s.jobs) (hc : s₁.ctxErr = s.ctxErr) : Attempted W s s' q timers := by
  have published : ∀ {j : Job κ} {st : Store κ}, Published W s₁ s' q j st →
      Published W s s' q j st := by
    intro j st hp
    have h1 := hp.healed
    have h2 := hp.job
    rw [hg, hst] at h1
    rw [hg] at h2
    exact ⟨h1, h2⟩
  refine ⟨?_, ?_, h.graph.trans hg, ?_⟩
  · rw [h.gen, hgen]
  · rw [← hg, h.lastGen, hl, hgen]
  · cases h.outcome with
    | refused hph ht hjobs => exact Outcome.refused hph ht (by rw [hjobs, hj])
    | queued j st hp hph ht hjobs =>
      exact Outcome.queued j st (published hp) hph ht (by rw [hjobs, hj])
    | rearmed j st hp hph ht hjobs =>
      exact Outcome.rearmed j st (published hp) hph ht (by rw [hjobs, hj])
    | goingDown j st hp hph hdown ht hjobs =>
      exact Outcome.goingDown j st (published hp) hph (by rw [← hc, hdown]) ht (by rw [hjobs, hj])

/-- What happens to the store after an attempt does not matter. -/
theorem Attempted.setStore {timers : List (Nat × Nat)} (h : Attempted W s s' q timers)
    (st' : Store κ) : Attempted W s { s' with store := st' } q timers := by
  refine ⟨h.gen, h.lastGen, h.graph, ?_⟩
  cases h.outcome with
  | refused hph ht hj => exact Outcome.refused hph ht hj
  | queued j st hp hph ht hj => exact Outcome.queued j st ⟨hp.healed, hp.job⟩ hph ht hj
  | rearmed j st hp hph ht hj => exact Outcome.rearmed j st ⟨hp.healed, hp.job⟩ hph ht hj
  | goingDown j st hp hph hd ht hj =>
    exact Outcome.goingDown j st ⟨hp.healed, hp.job⟩ hph hd ht hj

/-! ### Critical sections -/

/-- How a frame may move the nodes of the table: at most one of them. -/
inductive ExecMove (W : World κ) (s : State κ) (fr : Frame κ) (s' : State κ) : Prop
  | still (hq : Quiet s s') (h : ∀ q, s.graph.Alive q → Stays s s' q)
  | fails (n : Nat) (hq : Quiet s s') (hfr : fr.opens = some n ∨ fr.stageOf = some n)
      (hu : (s.phase n).settled = false) (hph : s'.phase n = .failed) (hgen : SameGen s s' n)
      (ho : Others s s' n)
  | completes (n : Nat) (hq : Quiet s s') (hfr : completing s fr = some n)
      (hph : s'.phase n = .done) (hgen : SameGen s s' n) (ho : Others s s' n)
      (hg : s'.graph = s.graph)
      (hst : s'.stack = .notify n (s.graph.dependents n) [] :: s.stack)
  | attempts (n : Nat) (hfr : fr = .unfolding n [] ∨ fr.opens = none) (hn : s.graph.Alive n)
      (hr : ready s n = true) (hc : s.closed = false)
      (h : Attempted W s s' n s.timers) (ho : Others s s' n)

variable {fr : Frame κ}

/-- A node that fails unless it is settled. -/
theorem ExecMove.failedNode (hnd : SameRun (s.node n) nd)
    (hfr : fr.opens = some n ∨ fr.stageOf = some n) (e : String) (hq : Quiet s s')
    (hnode : s'.node = Function.update s.node n (JobsIroh.failedNode nd e))
    (hl : s'.lastGen = s.lastGen) : ExecMove W s fr s' := by
  have others : Others s s' n := by
    intro q _ hne
    exact Stays.of_node (by rw [hnode, Function.update_of_ne hne]) (by rw [hl])
  have hself : s'.node n = JobsIroh.failedNode nd e := by rw [hnode, Function.update_self]
  by_cases hset : (s.node n).phase.settled = true
  · have hnd' : s'.node n = nd := by
      rw [hself, JobsIroh.failedNode, hnd.phase, if_pos hset]
    refine ExecMove.still hq fun q hqa => ?_
    by_cases hqn : q = n
    · subst hqn
      refine ⟨⟨?_, by rw [hl]⟩, ?_, ?_, ?_⟩
      · rw [hnd', hnd.gen]
      · rw [State.phase, hnd', hnd.phase]
        rfl
      · rw [hnd', hnd.consecRetry]
      · rw [hnd', hnd.consecControl]
    · exact others q hqa hqn
  · have hu : nd.phase.settled = false := by
      rw [hnd.phase]
      simpa using hset
    rw [failedNode_of_unsettled e hu] at hself
    refine ExecMove.fails n hq hfr (by simpa [State.phase] using hset) ?_ ⟨?_, by rw [hl]⟩ others
    · rw [State.phase, hself]
    · rw [hself, hnd.gen]

theorem ExecMove.nodeDone (s₁ : State κ) (hnode : s₁.node = s.node)
    (hl : s₁.lastGen = s.lastGen) (hq : Quiet s s₁) (hg : s₁.graph = s.graph)
    (hst : s₁.stack = s.stack) (hfr : completing s fr = some n) :
    ExecMove W s fr (nodeDoneLocked s₁ n) := by
  unfold nodeDoneLocked
  by_cases hd : s₁.phase n = .done
  · rw [if_pos hd]
    exact ExecMove.still hq fun q _ => Stays.of_node (by rw [hnode]) (by rw [hl])
  · rw [if_neg hd]
    refine ExecMove.completes n ⟨hq.timers, hq.jobs⟩ hfr ?_ ⟨?_, ?_⟩ (fun q _ hne => ?_) hg ?_
    · simp [State.phase, State.push]
    · simp [State.push, hnode]
    · simp [State.push, State.setNode, hl]
    · refine Stays.of_node ?_ ?_
      · rw [← hnode]
        exact s₁.setNode_node_ne _ hne
      · simp [State.push, State.setNode, hl]
    · simp [State.push, State.setNode, hg, hst]

omit [DecidableEq κ] in
theorem phase_of_ready (h : ready s n = true) : s.phase n = .waiting ∧ s.kind n ≠ .buildValue := by
  simp only [ready, Bool.and_eq_true, decide_eq_true_eq] at h
  refine ⟨h.1.1.2, ?_⟩
  intro hk
  simp [hk, Kind.placeable] at h

theorem ExecMove.maybeEnqueue (W : World κ) (c : Choice)
    (hfr : fr = .unfolding n [] ∨ fr.opens = none) (hn : s.graph.Alive n) :
    ExecMove W s fr (maybeEnqueueLocked W c s n) := by
  unfold maybeEnqueueLocked
  by_cases hr : ready s n = true
  · rw [if_pos hr]
    by_cases hc : s.closed = true
    · unfold enqueueLocked
      rw [if_pos hc]
      exact ExecMove.still ⟨rfl, rfl⟩ fun q _ => Stays.refl s q
    · have hc' : s.closed = false := by simpa using hc
      obtain ⟨h, ho⟩ := enqueueLocked_moves W c hc' hn (phase_of_ready hr).1
      exact ExecMove.attempts n hfr hn hr hc' h ho
  · rw [if_neg hr]
    exact ExecMove.still ⟨rfl, rfl⟩ fun q _ => Stays.refl s q

theorem require_quiet (hg : s.graph.Inv s.target) (kind : Kind) (k : κ) (defn : Bytes)
    (platform : String) (parent : Nat) (label : String) (ret : Nat → List (Frame κ)) :
    Quiet s (require c s kind k defn platform parent label ret) := by
  obtain ⟨nd, fs, lg, heq, -⟩ := require_eq hg kind k defn platform parent label ret
  rw [heq]
  exact ⟨rfl, rfl⟩

/-- A `require` after a write that keeps every node's run. -/
theorem ExecMove.require (s₁ : State κ) (hg : s.graph.Inv s.target)
    (hgr : s₁.graph = s.graph) (ht : s₁.target = s.target) (hq : Quiet s s₁)
    (hs : ∀ q, Stays s s₁ q) (kind : Kind) (k : κ) (defn : Bytes) (platform : String) (p : Nat)
    (label : String) (ret : Nat → List (Frame κ)) :
    ExecMove W s fr (JobsIroh.require c s₁ kind k defn platform p label ret) := by
  have hg₁ : s₁.graph.Inv s₁.target := by
    rw [hgr, ht]
    exact hg
  have hq' := require_quiet (c := c) hg₁ kind k defn platform p label ret
  refine ExecMove.still ⟨hq'.timers.trans hq.timers, hq'.jobs.trans hq.jobs⟩ fun q hqa => ?_
  exact (hs q).trans (require_stays hg₁ _ _ _ _ _ _ _ (by rw [hgr]; exact hqa)) (by rw [hgr])

theorem ExecMove.input {ni : NamedInput} {rest : List NamedInput} (hg : s.graph.Inv s.target)
    (hi : InputStep W c (loopState s n ni rest) n ni.input s') :
    ExecMove W s (.unfolding n (ni :: rest)) s' := by
  have hkeep := keepInput_sameRun (s.node n) (s.kind n) ni.input
  have hloop : ∀ q, Stays s (loopState s n ni rest) q := by
    intro q
    have h := Stays.sameRun hkeep q
    exact ⟨⟨h.gen, h.lastGen⟩, h.phase, h.consecRetry, h.consecControl⟩
  have fail : ∀ e, ExecMove W s (.unfolding n (ni :: rest))
      (failNodeLocked (loopState s n ni rest) n e) := by
    intro e
    rw [failNodeLocked_eq]
    refine ExecMove.failedNode hkeep (Or.inl rfl) e ⟨rfl, rfl⟩ ?_ rfl
    simp [loopState, State.push, State.setNode]
  cases hi with
  | tree hk => exact ExecMove.still ⟨rfl, rfl⟩ fun q _ => hloop q
  | link kind hk k he hc platform label =>
    exact ExecMove.require (loopState s n ni rest) hg rfl rfl ⟨rfl, rfl⟩ hloop kind k _
      platform n label _
  | _ => exact fail _

/-- **How a frame moves the nodes of the table.** -/
theorem ExecStep.move (hb : Base s) (hfr : FrameOK s fr)
    (h : ExecStep W c s fr s') : ExecMove W s fr s' := by
  have still : ∀ {s₁ : State κ}, s₁.node = s.node → s₁.lastGen = s.lastGen → Quiet s s₁ →
      ExecMove W s fr s₁ := by
    intro s₁ hn hl hq
    exact ExecMove.still hq fun q _ => Stays.of_node (by rw [hn]) (by rw [hl])
  cases h with
  | unfoldFail n nd hnd e =>
    exact ExecMove.failedNode hnd (Or.inl rfl) e ⟨rfl, rfl⟩ rfl rfl
  | unfoldRead n nd rest hr =>
    refine ExecMove.still ⟨rfl, rfl⟩ fun q _ => ?_
    have hs := Stays.sameRun hr.sameRun q
    exact ⟨⟨hs.gen, hs.lastGen⟩, hs.phase, hs.consecRetry, hs.consecControl⟩
  | unfoldFetcher n nd d hr =>
    exact ExecMove.require (s.setNode n nd) hb.graph rfl rfl ⟨rfl, rfl⟩
      (Stays.sameRun hr.same) _ _ _ _ _ _ _
  | unfolded => exact ExecMove.maybeEnqueue W c (Or.inl rfl) hfr.1
  | input n ni rest s' hi => exact ExecMove.input hb.graph hi
  | advance =>
    exact ExecMove.require s hb.graph rfl rfl ⟨rfl, rfl⟩ (Stays.refl s) _ _ _ _ _ _ _
  | stageFail fr bv hbv e =>
    rw [failNodeLocked_eq]
    exact ExecMove.failedNode (SameRun.refl _) (Or.inr hbv) e ⟨rfl, rfl⟩ rfl rfl
  | nextStage fr bv nd kind k ret hn =>
    refine ExecMove.require (s.setNode bv nd) hb.graph rfl rfl ⟨rfl, rfl⟩ (fun q => ?_)
      _ _ _ _ _ _ _
    cases hn with
    | readF | readKP => refine Stays.setNode ?_ ?_ ?_ ?_ q <;> rfl
    | _ => exact Stays.sameRun (SameRun.refl _) q
  | putPinCover bv kp f =>
    refine ExecMove.require (s.bound bv f kp) hb.graph rfl rfl ⟨rfl, rfl⟩ (fun q => ?_)
      _ _ _ _ _ _ _
    have hput : Stays s (s.putRef (.pinCover f) kp) q := Stays.of_node rfl rfl
    refine hput.trans ?_ rfl
    refine Stays.setNode ?_ ?_ ?_ ?_ q <;> rfl
  | aliased bv run hdone f kp hf hk ho =>
    refine ExecMove.nodeDone s rfl rfl ⟨rfl, rfl⟩ rfl rfl ?_
    simp [completing, hf, hdone, ho]
  | putAliasOutput bv out f =>
    exact ExecMove.nodeDone (s.putRef (.output f) out) rfl rfl ⟨rfl, rfl⟩ rfl rfl rfl
  | notifyNode n todo seen d hd =>
    have hda := hfr.notified hb.graph hd
    let s₁ := s.push [.notify n (todo.filter (fun x => x ≠ d)) (d :: seen)]
    have hm : ExecMove W s₁ (.notify n todo seen) (maybeEnqueueLocked W c s₁ d) :=
      ExecMove.maybeEnqueue W c (Or.inr rfl) hda
    have back : ∀ {q}, Stays s₁ (maybeEnqueueLocked W c s₁ d) q →
        Stays s (maybeEnqueueLocked W c s₁ d) q :=
      fun h' => h'.congr rfl rfl rfl
    cases hm with
    | still hq h' => exact ExecMove.still ⟨hq.timers, hq.jobs⟩ fun q hqa => back (h' q hqa)
    | fails _ _ hfr' => simp [Frame.opens, Frame.stageOf] at hfr'
    | completes _ _ hfr' => simp [completing] at hfr'
    | attempts m hfr' hm hr hc h' ho =>
      exact ExecMove.attempts m hfr' hm hr hc (h'.congr rfl rfl rfl rfl rfl rfl)
        fun q hqa hne => back (ho q hqa hne)
  | submitted rid t scratch =>
    rw [deleteScratch_eta]
    exact still rfl rfl ⟨rfl, rfl⟩
  | _ => exact still rfl rfl ⟨rfl, rfl⟩

/-! ### New nodes -/

/-- A node that is new after a step: what the join made of it, in the store of the step. -/
structure Fresh (c : Choice) (s s' : State κ) (q : Nat) : Prop where
  absent : s.graph.nodes (s'.graph.id q) = none
  joined : ∃ defn platform label fs, Joined c s'.store (s'.graph.id q) none defn platform label q
    s.lastGen (s'.node q) fs s'.lastGen ∧ ∀ fr ∈ fs, fr ∈ s'.stack

/-- A new node is what was found of its output. -/
theorem Fresh.made (h : Fresh c s s' q) :
    ∃ r, outputExistsLocked c s'.store (s'.graph.id q) = ((s'.node q).f, r) ∧
      (s'.phase q = .failed ∧ (∃ e, r = .error e) ∨ s'.phase q = .done ∧ r = .ok true ∨
        s'.phase q = .waiting ∧ r = .ok false ∧ .unfold q ∈ s'.stack) := by
  obtain ⟨defn, platform, label, fs, hj, hfs⟩ := h.joined
  unfold State.phase
  generalize s'.node q = nd, s'.lastGen = lg at hj
  cases hj with
  | existed nd hold => cases hold
  | failed hold f e hout => exact ⟨_, hout, Or.inl ⟨rfl, e, rfl⟩⟩
  | cached hold f hout => exact ⟨_, hout, Or.inr (Or.inl ⟨rfl, rfl⟩)⟩
  | fresh hold f hout => exact ⟨_, hout, Or.inr (Or.inr ⟨rfl, rfl, hfs _ List.mem_cons_self⟩)⟩

/-- A new node has no KP and no inputs yet, and the generation of its seed. -/
theorem Fresh.blank (h : Fresh c s s' q) : (s'.node q).kp = none ∧ (s'.node q).inputs = none ∧
    (s'.node q).gen = c.seed ∧ s'.lastGen = raise s.lastGen (s'.graph.id q) c.seed := by
  obtain ⟨defn, platform, label, fs, hj, -⟩ := h.joined
  generalize s'.node q = nd, s'.lastGen = lg at hj
  cases hj with
  | existed nd hold => cases hold
  | _ => exact ⟨rfl, rfl, rfl, rfl⟩

/-- A new node that is not settled is about to be unfolded. -/
theorem Fresh.unfold_mem (h : Fresh c s s' q) (hu : (s'.phase q).settled = false) :
    .unfold q ∈ s'.stack := by
  obtain ⟨r, -, ⟨hph, -⟩ | ⟨hph, -⟩ | ⟨-, -, hmem⟩⟩ := h.made
  · simp [hph, Phase.settled] at hu
  · simp [hph, Phase.settled] at hu
  · exact hmem

theorem joinNode_fresh {s₀ : State κ} {g : InterestGraph.Graph (NodeID κ) ReqID}
    (hg : s.graph.Inv s₀.target) (hgr : s.graph = s₀.graph) (hlg : s.lastGen = s₀.lastGen)
    (hold : q = s.graph.occupant id ∨ s.graph.Alive q) (hid : g.id (s.graph.occupant id) = id)
    (defn : Bytes) (platform label : String) (ret : List (Frame κ)) (hnew : s₀.graph.next ≤ q) :
    Fresh c s₀ (joinNode c s id g defn platform label ret) q := by
  rw [← hgr] at hnew
  obtain ⟨nd, fs, lg, heq, hj⟩ := joinNode_eq defn platform label ret hid
  rw [heq]
  have hqo : q = s.graph.occupant id := by
    refine hold.resolve_right fun h => ?_
    have := hg.alive_lt h
    omega
  have hnone : s.graph.nodes id = none := hg.absent_of_occupant (hqo ▸ hnew)
  rw [← hqo] at hid
  refine ⟨?_, defn, platform, label, fs, ?_, ?_⟩
  · show s₀.graph.nodes (g.id q) = none
    rw [hid, ← hgr]
    exact hnone
  · dsimp only
    rw [hid, hqo, Function.update_self, ← hlg]
    rw [hnone] at hj
    exact hj
  · exact fun fr hfr => List.mem_append_left _ hfr

/-! ### One step -/

/-- The choices of a step that can make a node. -/
def Label.choice : Label κ → Choice
  | .exec c | .submit c _ _ => c
  | _ => {}

/-- The platform a frame gives to the node it asks for. -/
def Frame.gives (W : World κ) (s : State κ) : Frame κ → String
  | .unfold n =>
    match W.decodeImport (s.node n).defn with
    | .ok d => if d.platform = "" then (s.node n).platform else d.platform
    | .error _ => (s.node n).platform
  | .unfolding n (ni :: _) => linkPlatform W (s.node n).platform ni.input
  | .advance bv => (s.node bv).platform
  | fr => (fr.stageOf.map (fun bv => (s.node bv).platform)).getD ""

/-- The edges a frame may add: whose they are, and the identity they lead to. -/
inductive NewEdge (W : World κ) (s : State κ) : Frame κ → Nat → NodeID κ → Prop
  | fetcher (n : Nat) (nd : Node κ) (d : ImportDef) (hr : FetcherRead W s n nd d) (fk : κ)
      (hk : W.inputKey ⟨.build, d.fetcherDef⟩ = .ok fk) :
    NewEdge W s (.unfold n) n ⟨.buildValue, fk⟩
  | input (n : Nat) (ni : NamedInput) (rest : List NamedInput) (kind : Kind)
      (hkind : nodeKind ni.input.kind = some kind) (k : κ) (hk : W.inputKey ni.input = .ok k)
      (hc : ni.input.kind = .build → cycleChainLocked s n ⟨.buildValue, k⟩ = none) :
    NewEdge W s (.unfolding n (ni :: rest)) n ⟨kind, k⟩
  | first (bv : Nat) (hu : (s.phase bv).settled = false) :
    NewEdge W s (.advance bv) bv ⟨.buildFrom, s.key bv⟩
  | stage (fr : Frame κ) (bv : Nat) (nd : Node κ) (kind : Kind) (k : κ) (ret : Nat → Frame κ)
      (h : NextStage s fr bv nd kind k ret) : NewEdge W s fr bv ⟨kind, k⟩
  | run (bv : Nat) (kp f : κ) (hf : (s.node bv).f = some f) :
    NewEdge W s (.putPinCover bv kp) bv ⟨.buildRun, kp⟩

omit [DecidableEq κ] in
/-- A stage frame goes on to another stage frame of the same buildvalue. -/
theorem NextStage.stageOf {s : State κ} {bv : Nat} {kind : Kind}
    {k : κ} {ret : Nat → Frame κ} (h : NextStage s fr bv nd kind k ret) :
    fr.stageOf = some bv ∧ ∀ x, (ret x).stageOf = some bv := by
  cases h <;> exact ⟨rfl, fun _ => rfl⟩

/-- An edge is added by the loop of its upper end, or by the pipeline of a buildvalue. -/
theorem NewEdge.owner {W : World κ} {s : State κ} {p : Nat}
    (h : NewEdge W s fr p id) (hfr : FrameOK s fr) :
    fr.opens = some p ∨ s.kind p = .buildValue := by
  cases h with
  | fetcher | input => exact Or.inl rfl
  | first => exact Or.inr hfr.2
  | stage _ _ nd kind k ret h => exact Or.inr (hfr.stage h.stageOf.1).2
  | run => exact Or.inr hfr.2.1

theorem NewEdge.alive {W : World κ} {s : State κ} {p : Nat}
    (h : NewEdge W s fr p id) (hfr : FrameOK s fr) : s.graph.Alive p := by
  cases h with
  | fetcher => exact hfr
  | stage _ _ nd kind k ret h => exact (hfr.stage h.stageOf.1).1
  | _ => exact hfr.1

/-- What a frame may do to the graph: nothing, one `require`, or the drop of a request. -/
inductive GraphRule (W : World κ) (c : Choice) (s : State κ) (fr : Frame κ) : State κ → Prop
  | same (s' : State κ) (h : s'.graph = s.graph) : GraphRule W c s fr s'
  | require (s₁ : State κ) (hgr : s₁.graph = s.graph) (hlg : s₁.lastGen = s.lastGen) (kind : Kind)
      (k : κ) (defn : Bytes) (platform : String) (p : Nat) (label : String)
      (ret : Nat → List (Frame κ)) (he : NewEdge W s fr p ⟨kind, k⟩)
      (hplat : platform = fr.gives W s) (hst : s₁.store = s.store ∨ fr.opens = none) :
    GraphRule W c s fr (require c s₁ kind k defn platform p label ret)
  | dropped (s' : State κ) (r : ReqID) (h : s.graph.Dropped s'.graph r)
      (hfr : fr.isSubmitted = true) : GraphRule W c s fr s'

omit [DecidableEq κ] in
/-- A stage is asked for with the platform of its buildvalue. -/
theorem NextStage.gives (W : World κ) {s : State κ} {bv : Nat}
    {kind : Kind} {k : κ} {ret : Nat → Frame κ} (h : NextStage s fr bv nd kind k ret) :
    fr.gives W s = nd.platform := by
  cases h <;> rfl

omit [DecidableEq κ] in
theorem loopState_platform (s : State κ) (n : Nat) (ni : NamedInput) (rest : List NamedInput) :
    ((loopState s n ni rest).node n).platform = (s.node n).platform := by
  show ((s.setNode n (keepInput (s.node n) (s.kind n) ni.input)).node n).platform = _
  rw [State.setNode_node, keepInput_platform]

theorem ExecStep.graphRule (hb : Base s) (hp : s.graph.pending = [])
    (hfr : FrameOK s fr) (h : ExecStep W c s fr s') : GraphRule W c s fr s' := by
  cases h with
  | unfoldFetcher n nd d hr fk hk platform label hpl =>
    refine GraphRule.require (s := s) (s.setNode n nd) rfl rfl _ _ _ _ _ _ _
      (NewEdge.fetcher n nd d hr fk hk) ?_ (Or.inl rfl)
    rw [hpl, hr.platform, Frame.gives, hr.decoded]
  | unfolded n => exact GraphRule.same _ (maybeEnqueueLocked_inner W c s n (.refl s)).graph
  | input n ni rest s' hi =>
    cases hi with
    | tree => exact GraphRule.same _ rfl
    | link kind hk k he hc platform label hpl =>
      refine GraphRule.require (s := s) (loopState s n ni rest) rfl rfl _ _ _ _ _ _ _
        (NewEdge.input n ni rest kind hk k he hc) ?_ (Or.inl rfl)
      rw [hpl, Frame.gives, loopState_platform]
    | _ => exact GraphRule.same _ (failNodeLocked_inner _ n _ (.refl _)).graph
  | advance bv hs =>
    exact GraphRule.require s rfl rfl _ _ _ _ _ _ _
      (NewEdge.first bv hs) rfl (Or.inl rfl)
  | stageFail fr bv => exact GraphRule.same _ (failNodeLocked_inner _ bv _ (.refl _)).graph
  | nextStage fr bv nd kind k ret hn =>
    refine GraphRule.require (s := s) (s.setNode bv nd) rfl rfl _ _ _ _ _ _ _
      (NewEdge.stage fr bv nd kind k ret hn) ?_ (Or.inl rfl)
    rw [State.setNode_node, hn.gives W]
  | putPinCover bv kp f hf =>
    exact GraphRule.require (s := s) (s.bound bv f kp) rfl rfl _ _ _ _ _ _ _
      (NewEdge.run bv kp f hf) (by rw [State.setNode_node]; rfl) (Or.inr rfl)
  | aliased bv => exact GraphRule.same _ (nodeDoneLocked_inner s bv (.refl s)).graph
  | putAliasOutput bv => exact GraphRule.same _ (nodeDoneLocked_inner _ bv (.refl _)).graph
  | notifyNode n todo seen d =>
    exact GraphRule.same _ (maybeEnqueueLocked_inner W c _ d (.refl _)).graph
  | rejected rid t scratch r hr =>
    obtain ⟨r', hr', rfl⟩ := hfr
    obtain rfl : r = r' := Option.mem_unique hr hr'
    exact GraphRule.dropped _ rid (hb.graph.drop_dropped hb.watched hp (target_eq hr)) rfl
  | submitted rid t scratch =>
    rw [deleteScratch_eta]
    exact GraphRule.same _ rfl
  | _ => exact GraphRule.same _ rfl

omit [DecidableEq κ] in
theorem extends_of_eq {g g' : InterestGraph.Graph (NodeID κ) ReqID} (h : g' = g) :
    g.Extends g' := by
  rw [h]
  exact .refl g

section

variable (h : GraphRule W c s fr s') (hg : s.graph.Inv s.target)
include h hg

theorem GraphRule.extends : s.graph.Extends s'.graph := by
  cases h with
  | same _ h => exact extends_of_eq h
  | require s₁ hgr hlg kind k defn platform p label ret =>
    rw [← hgr] at hg ⊢
    obtain ⟨nd, fs, lg, heq, -⟩ := require_eq hg kind k defn platform p label ret
    rw [heq]
    exact hg.require_extends _ p
  | dropped _ r h => exact h.extends

/-- The edges are as before, but for one that the frame may add. -/
theorem GraphRule.edges :
    s'.graph.deps = s.graph.deps ∨
      ∃ p id, NewEdge W s fr p id ∧ s'.graph = s.graph.require id p := by
  cases h with
  | same _ h => exact Or.inl (by rw [h])
  | require s₁ hgr hlg kind k defn platform p label ret he =>
    refine Or.inr ⟨p, ⟨kind, k⟩, he, ?_⟩
    rw [← hgr] at hg ⊢
    obtain ⟨nd, fs, lg, heq, -⟩ := require_eq hg kind k defn platform p label ret
    rw [heq]
  | dropped _ r h => exact Or.inl h.deps

theorem GraphRule.fresh
    (hq : s'.graph.Alive q) (hnew : s.graph.next ≤ q) : Fresh c s s' q := by
  have old : s.graph.Alive q → Fresh c s s' q := by
    intro hold
    have := hg.alive_lt hold
    omega
  cases h with
  | same _ h =>
    rw [h] at hq
    exact old hq
  | require s₁ hgr hlg kind k defn platform p label ret =>
    rw [← hgr] at hg
    obtain ⟨nd, fs, lg, heq, -⟩ := require_eq hg kind k defn platform p label ret
    rw [heq] at hq
    exact joinNode_fresh hg hgr hlg ((hg.require_alive _ p q).mp hq) (hg.require_id _ p)
      defn platform label _ hnew
  | dropped _ r h => exact old ((h.alive_iff q).mp hq).1

end

variable [Inhabited κ] {a : Label κ}

omit [Inhabited κ] in
/-- A request of a state at rest is dropped as a whole. -/
theorem Base.dropped {rid : ReqID} {r : Request κ} (hb : Base s) (hr : s.requests rid = some r)
    (hfree : s.free = true) : s.graph.Dropped (s.graph.drop rid r.target) rid :=
  hb.graph.drop_dropped hb.watched (s.free_iff.mp hfree).2 (target_eq hr)

/-- **What a step does to the table**: pointers do not come back, and a new node is what its
join made of it. -/
theorem step_table (hb : Base s) (ha : a ≠ .crash) (hs : step W s a = some s') :
    s.graph.Extends s'.graph ∧
      ∀ q, s'.graph.Alive q → s.graph.next ≤ q → Fresh a.choice s s' q := by
  have same : s'.graph = s.graph → s.graph.Extends s'.graph ∧
      ∀ q, s'.graph.Alive q → s.graph.next ≤ q → Fresh a.choice s s' q := by
    intro h
    refine ⟨extends_of_eq h, fun q hq hnew => ?_⟩
    rw [h] at hq
    have := hb.graph.alive_lt hq
    omega
  have dropped : ∀ {r}, s.graph.Dropped s'.graph r → s.graph.Extends s'.graph ∧
      ∀ q, s'.graph.Alive q → s.graph.next ≤ q → Fresh a.choice s s' q := by
    intro r h
    refine ⟨h.extends, fun q hq hnew => ?_⟩
    have := hb.graph.alive_lt ((h.alive_iff q).mp hq).1
    omega
  have hr := step_rule hb.graph hs
  have hhandled := hr.handled
  cases hr with
  | visit =>
    refine ⟨⟨?_, ?_, ?_⟩, ?_⟩
    · simp
    · simp
    · intro q hq
      exact Or.inl ⟨(InterestGraph.Graph.visitNext_alive _ q).mp hq, by simp⟩
    · intro q hq hnew
      have := hb.graph.alive_lt ((InterestGraph.Graph.visitNext_alive _ q).mp hq)
      omega
  | frame c fr rest hp hst s' he =>
    have hg := he.graphRule (hb.pop hst) hp (hb.top hst).1
    refine ⟨hg.extends hb.graph, fun q hq hnew => ?_⟩
    have hf := hg.fresh hb.graph hq hnew
    exact ⟨hf.absent, hf.joined⟩
  | submit c i rid sub =>
    have heq : (joinSubmit c { s with submits := s.submits.eraseIdx i } sub rid).graph =
        s.graph.requireTarget ⟨.buildValue, sub.k⟩ rid := by
      obtain ⟨nd, fs, lg, heq, -⟩ := joinSubmit_eq
        (s := { s with submits := s.submits.eraseIdx i }) hb.graph sub rid
      rw [heq]
    refine ⟨by rw [heq]; exact hb.graph.requireTarget_extends _ rid, fun q hq hnew => ?_⟩
    rw [heq] at hq
    refine joinNode_fresh ?_ ?_ ?_ ?_ ?_ _ _ _ _ hnew
    · exact hb.graph
    · rfl
    · rfl
    · exact (hb.graph.requireTarget_alive _ rid q).mp hq
    · exact hb.graph.requireTarget_id _ rid
  | cancelled rid r hr hfree | deleted rid r hr hfree | starved rid now reason r hr hfree =>
    exact dropped (hb.dropped hr hfree)
  | dropped | accepted | finishStale | finish | timer => exact same (hhandled rfl).graph
  | crash => exact absurd rfl ha
  | _ => exact same rfl

end

end JobsIroh
