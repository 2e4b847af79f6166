/-
What each stretch of the scheduler does to its state.

Every function of the model is restated as an update of the few fields it writes,
with the new values constrained by what later arguments need.  All other fields
are then unchanged by definition, and no later proof opens a function again.

* `failNodeLocked` and `nodeDoneLocked` change one node.
* `enqueueLocked` changes one node, perhaps the carrier ref, and adds a job and
  perhaps a timer (`Attempt`).
* `require` changes the graph and one node and pushes frames (`Joined`).
-/
import JobsIroh.Sched.Machine

namespace JobsIroh

variable {κ : Type}

/-! ### Nodes -/

namespace State

@[simp]
theorem setNode_self (s : State κ) (n : Nat) : s.setNode n (s.node n) = s := by
  simp [setNode]

@[simp]
theorem setNode_setNode (s : State κ) (n : Nat) (a b : Node κ) :
    (s.setNode n a).setNode n b = s.setNode n b := by
  simp [setNode]

@[simp]
theorem setNode_node (s : State κ) (n : Nat) (a : Node κ) : (s.setNode n a).node n = a := by
  simp [setNode]

theorem setNode_node_ne (s : State κ) {n m : Nat} (a : Node κ) (h : m ≠ n) :
    (s.setNode n a).node m = s.node m := by
  simp [setNode, h]

theorem free_iff (s : State κ) : s.free = true ↔ s.stack = [] ∧ s.graph.pending = [] := by
  simp [free]

theorem free_of_stack {s : State κ} {fr : Frame κ} {rest : List (Frame κ)}
    (h : s.stack = fr :: rest) : s.free = false := by
  simp [free, h]

theorem top_mem {s : State κ} {fr : Frame κ} {rest : List (Frame κ)}
    (h : s.stack = fr :: rest) : fr ∈ s.stack := by
  rw [h]
  exact List.mem_cons_self

theorem below_mem {s : State κ} {fr fr' : Frame κ} {rest : List (Frame κ)}
    (h : s.stack = fr :: rest) (hfr' : fr' ∈ rest) : fr' ∈ s.stack := by
  rw [h]
  exact List.mem_cons_of_mem _ hfr'

end State

theorem Label.exec_or (a : Label κ) : (∃ c, a = .exec c) ∨ ∀ c, a ≠ .exec c := by
  cases a with
  | exec c => exact Or.inl ⟨c, rfl⟩
  | _ => exact Or.inr nofun

theorem depsDone_iff (s : State κ) (n : Nat) :
    s.depsDone n = true ↔ ∀ d ∈ s.graph.deps n, s.phase d = .done := by
  simp [State.depsDone]

/-- A node after `failNodeLocked`. -/
def failedNode (nd : Node κ) (summary : String) : Node κ :=
  if nd.phase.settled then nd else { nd with phase := .failed, errSummary := summary }

theorem failNodeLocked_eq (s : State κ) (n : Nat) (summary : String) :
    failNodeLocked s n summary = s.setNode n (failedNode (s.node n) summary) := by
  unfold failNodeLocked failedNode State.phase
  split
  · simp
  · rfl

theorem failedNode_settled (nd : Node κ) (summary : String) :
    (failedNode nd summary).phase.settled = true := by
  unfold failedNode
  split
  · assumption
  · rfl

theorem failedNode_of_unsettled {nd : Node κ} (summary : String) (h : nd.phase.settled = false) :
    failedNode nd summary = { nd with phase := .failed, errSummary := summary } := by
  simp [failedNode, h]

section

variable [DecidableEq κ]

theorem deleteScratch_eq (W : World κ) (ns ref : String) (s : State κ) :
    ∃ st, deleteScratch W ns ref s = { s with store := st } ∧
      (st = s.store ∨ st = s.store.deleteRef (RefName.parse W.toKeyPkg ref) ∧
        ∃ rest, ref = ns ++ rest) := by
  unfold deleteScratch
  split
  · exact ⟨s.store, rfl, Or.inl rfl⟩
  · split
    · exact ⟨s.store, rfl, Or.inl rfl⟩
    · rename_i rest hc
      exact ⟨_, rfl, Or.inr ⟨rfl, rest, Text.cutPrefix_eq_some_iff.mp hc⟩⟩

theorem deleteScratch_eta (W : World κ) (ns ref : String) (s : State κ) :
    deleteScratch W ns ref s = { s with store := (deleteScratch W ns ref s).store } := by
  obtain ⟨st, heq, -⟩ := deleteScratch_eq W ns ref s
  rw [heq]

/-! ### Attempts -/

/-- The carrier of the stage, written if it was missing. -/
inductive Healed (id : NodeID κ) (st : Store κ) : Store κ → Prop
  | same : Healed id st st
  | wrote (r : RefName κ) (hr : carrier id = some r) (hmiss : ¬ st.has r) :
    Healed id st (st.putRef r id.key)

variable {c : Choice} {st st' : Store κ} {id : NodeID κ}

theorem healStage_healed
    (h : healStage c st id = .ok st') : Healed id st st' := by
  unfold healStage at h
  split at h
  · cases h
    exact Healed.same
  · rename_i r hr
    unfold healCarrierLocked at h
    split at h
    · cases h
    split at h
    · cases h
      exact Healed.same
    · rename_i hmiss
      split at h
      · cases h
      · cases h
        exact Healed.wrote r hr hmiss

/-- After a heal the carrier is there. -/
theorem healStage_has {r : RefName κ}
    (h : healStage c st id = .ok st') (hr : carrier id = some r) : st'.has r := by
  unfold healStage at h
  rw [hr] at h
  dsimp only at h
  unfold healCarrierLocked at h
  split at h
  · cases h
  split at h
  · rename_i hhas
    cases h
    exact hhas
  · split at h
    · cases h
    · cases h
      simp [Store.has, Store.putRef]

theorem computePullRefsLocked_healed {W : World κ}
    {nd : Node κ} {r : Except String (List (RefName κ))}
    (h : computePullRefsLocked W c st id nd = (st', r)) : Healed id st st' := by
  unfold computePullRefsLocked at h
  split at h
  · cases h
    exact Healed.same
  · rename_i hst
    split at h
    · cases h
      exact healStage_healed hst
    · cases h
      exact healStage_healed hst

/-- The job an attempt hands out: the pull refs are those of the healed store. -/
structure JobFor (W : World κ) (st : Store κ) (n : Nat) (i : NodeID κ) (nd : Node κ)
    (job : Job κ) : Prop where
  ptr : job.ptr = n
  id : job.id = i
  gen : job.gen = nd.gen
  pull : computePullRefs W st i nd = .ok job.pullRefs
  healed : ∀ r, carrier i = some r → st.has r
  platform : job.platform = nd.platform

/-- The node, the timers and the jobs after an attempt; `nd` is the node at its new
generation, and `down` says that the scheduler is going down. -/
inductive Attempt (W : World κ) (st : Store κ) (n : Nat) (id : NodeID κ) (down : Bool)
    (nd : Node κ) (timers : List (Nat × Nat)) (jobs : List (Job κ)) :
    Node κ → List (Nat × Nat) → List (Job κ) → Prop
  | refused (e : String) : Attempt W st n id down nd timers jobs (failedNode nd e) timers jobs
  | queued (seq : Nat) (job : Job κ) (hj : JobFor W st n id nd job) :
    Attempt W st n id down nd timers jobs { nd with queueSeq := seq, phase := .queued } timers
      (job :: jobs)
  | rearmed (job : Job κ) (hj : JobFor W st n id nd job) :
    Attempt W st n id down nd timers jobs { nd with phase := .waiting } ((n, nd.gen) :: timers)
      (job :: jobs)
  | goingDown (job : Job κ) (hj : JobFor W st n id nd job) (h : down = true) :
    Attempt W st n id down nd timers jobs nd timers (job :: jobs)

/-- A node at the start of a new attempt. -/
def bumped (nd : Node κ) : Node κ := { nd with gen := nd.gen + 1, runner := "", queueSeq := 0 }

/-- The highest generation seen, after a node of this identity has come to `gen`. -/
def raise (lastGen : NodeID κ → Nat) (id : NodeID κ) (gen : Nat) : NodeID κ → Nat :=
  Function.update lastGen id (max (lastGen id) gen)

variable {s : State κ}

theorem publishJob_attempt {W : World κ} {n : Nat}
    {pull : List (RefName κ)} (hclosed : s.closed = false)
    (hpull : computePullRefs W s.store (s.graph.id n) (s.node n) = .ok pull)
    (hcar : ∀ r, carrier (s.graph.id n) = some r → s.store.has r) :
    ∃ nd timers jobs, publishJob c s n pull =
        { s with node := Function.update s.node n nd, timers := timers, jobs := jobs } ∧
      Attempt W s.store n (s.graph.id n) s.ctxErr (s.node n) s.timers s.jobs nd timers jobs := by
  have hj : JobFor W s.store n (s.graph.id n) (s.node n) (newJob c s n pull) :=
    ⟨rfl, rfl, rfl, hpull, hcar, rfl⟩
  unfold publishJob
  split
  · rename_i seq hseq
    exact ⟨_, _, _, rfl, Attempt.queued seq _ hj⟩
  · by_cases hc : s.ctxErr = true
    · rw [if_pos (by simp [hc])]
      refine ⟨s.node n, s.timers, newJob c s n pull :: s.jobs, ?_, Attempt.goingDown _ hj hc⟩
      rw [Function.update_eq_self]
    · rw [if_neg (by simp [hc, hclosed])]
      exact ⟨_, _, _, rfl, Attempt.rearmed _ hj⟩

/-- **An enqueue is one attempt**, unless the scheduler is closed: the carrier may be healed, the
node moves to its next generation, and at most one job and one timer are added. -/
theorem enqueueLocked_eq (W : World κ) (c : Choice) (s : State κ) (n : Nat) :
    s.closed = true ∧ enqueueLocked W c s n = s ∨ ∃ st nd timers jobs, enqueueLocked W c s n =
        { s with
          node := Function.update s.node n nd, store := st, timers := timers, jobs := jobs,
          lastGen := raise s.lastGen (s.graph.id n) ((s.node n).gen + 1) } ∧
      Healed (s.graph.id n) s.store st ∧
      Attempt W st n (s.graph.id n) s.ctxErr (bumped (s.node n)) s.timers s.jobs nd timers
        jobs := by
  by_cases hclosed : s.closed = true
  · refine Or.inl ⟨hclosed, ?_⟩
    unfold enqueueLocked
    rw [if_pos hclosed]
  refine Or.inr ?_
  have hbump : bumpGen s n = { s with
      node := Function.update s.node n (bumped (s.node n))
      lastGen := raise s.lastGen (s.graph.id n) ((s.node n).gen + 1) } := rfl
  have hnode : (bumpGen s n).node n = bumped (s.node n) := by
    rw [hbump]
    simp
  unfold enqueueLocked
  rw [if_neg hclosed]
  dsimp only
  rw [hnode]
  rcases hp : computePullRefsLocked W c (bumpGen s n).store ((bumpGen s n).graph.id n)
    (bumped (s.node n)) with ⟨st, e | pull⟩
  · refine ⟨st, failedNode (bumped (s.node n)) ("compute pull refs: " ++ e), s.timers, s.jobs,
      ?_, computePullRefsLocked_healed hp, Attempt.refused _⟩
    dsimp only
    rw [failNodeLocked_eq, hbump]
    simp [State.setNode]
  · have hheal := computePullRefsLocked_healed hp
    unfold computePullRefsLocked at hp
    split at hp
    · cases hp
    rename_i st' hst
    split at hp
    · cases hp
    obtain ⟨rfl, hpull⟩ := Prod.mk.inj hp
    have hcar := fun r hr => healStage_has (r := r) hst hr
    obtain ⟨nd, timers, jobs, heq, hat⟩ := publishJob_attempt
      (s := { bumpGen s n with store := st' }) (Bool.eq_false_iff.mpr hclosed)
      (by rw [← hnode] at hpull; exact hpull) hcar
    refine ⟨st', nd, timers, jobs, ?_, hheal, ?_⟩
    · dsimp only
      rw [heq, hbump]
      simp
    · have hat' : Attempt W st' n (s.graph.id n) s.ctxErr ((bumpGen s n).node n) s.timers s.jobs nd
          timers jobs := hat
      rwa [hnode] at hat'

/-! ### Joining -/

/-- A node that has just been made. -/
def freshNode (c : Choice) (defn : Bytes) (platform label : String) : Node κ :=
  fillNode { gen := c.seed } defn platform label

/-- The node `n` for the identity `id` after a `require`, the frames pushed for it and the
highest generations; `old` is the node that was there. -/
inductive Joined (c : Choice) (st : Store κ) (id : NodeID κ) (old : Option (Node κ))
    (defn : Bytes) (platform label : String) (n : Nat) (lastGen : NodeID κ → Nat) :
    Node κ → List (Frame κ) → (NodeID κ → Nat) → Prop
  | existed (nd : Node κ) (hold : old = some nd) :
    Joined c st id old defn platform label n lastGen (fillNode nd defn platform label) [] lastGen
  | failed (hold : old = none) (f : Option κ) (e : String)
      (hout : outputExistsLocked c st id = (f, .error e)) :
    Joined c st id old defn platform label n lastGen
      { freshNode c defn platform label with
        f := f, phase := .failed, errSummary := "doneness check: " ++ e } []
      (raise lastGen id c.seed)
  | cached (hold : old = none) (f : Option κ)
      (hout : outputExistsLocked c st id = (f, .ok true)) :
    Joined c st id old defn platform label n lastGen
      { freshNode c defn platform label with f := f, phase := .done, cached := true } []
      (raise lastGen id c.seed)
  | fresh (hold : old = none) (f : Option κ)
      (hout : outputExistsLocked c st id = (f, .ok false)) :
    Joined c st id old defn platform label n lastGen
      { freshNode c defn platform label with f := f } [.unfold n] (raise lastGen id c.seed)

theorem joinNode_eq {g : InterestGraph.Graph (NodeID κ) ReqID}
    (defn : Bytes) (platform label : String) (ret : List (Frame κ))
    (hid : g.id (s.graph.occupant id) = id) :
    ∃ nd fs lastGen, joinNode c s id g defn platform label ret =
        { s with
          graph := g, node := Function.update s.node (s.graph.occupant id) nd,
          stack := fs ++ (ret ++ s.stack), lastGen := lastGen } ∧
      Joined c s.store id ((s.graph.nodes id).map s.node) defn platform label
        (s.graph.occupant id) s.lastGen nd fs lastGen := by
  unfold joinNode
  rcases hn : s.graph.nodes id with _ | m
  · unfold activate
    dsimp only
    rw [hid]
    have hself : Function.update s.node (s.graph.occupant id)
        (fillNode { gen := c.seed } defn platform label) (s.graph.occupant id) =
        freshNode c defn platform label := by
      rw [Function.update_self]
      rfl
    rcases hout : outputExistsLocked c s.store id with ⟨f, e | b⟩
    · refine ⟨_, _, _, ?_, Joined.failed rfl f e hout⟩
      dsimp only
      rw [failNodeLocked_eq, State.setNode_node, State.setNode_setNode,
        failedNode_of_unsettled _ (by simp [fillNode, Phase.settled]), hself]
      simp [State.setNode, raise]
    · cases b
      · refine ⟨_, _, _, ?_, Joined.fresh rfl f hout⟩
        rw [hself]
        simp [State.setNode, State.push, raise]
      · refine ⟨_, _, _, ?_, Joined.cached rfl f hout⟩
        rw [hself]
        simp [State.setNode, raise]
  · refine ⟨fillNode (s.node m) defn platform label, [], s.lastGen, ?_,
      Joined.existed (s.node m) rfl⟩
    rw [InterestGraph.Graph.occupant_of_some hn]
    rfl

/-- A join fills in the node of its identity, and leaves the others of the table alone. -/
theorem Joined.table_node {target : ReqID → Option Nat} {st : Store κ} {defn : Bytes}
    {platform label : String} {lg lg' : NodeID κ → Nat} {nd : Node κ} {fs : List (Frame κ)}
    {q : Nat} (hj : Joined c st id ((s.graph.nodes id).map s.node) defn platform label
      (s.graph.occupant id) lg nd fs lg') (hg : s.graph.Inv target) (hq : s.graph.Alive q) :
    q = s.graph.occupant id ∧ s.graph.id q = id ∧ fillNode (s.node q) defn platform label = nd ∧
      lg = lg' ∨ q ≠ s.graph.occupant id ∧ s.graph.id q ≠ id := by
  by_cases hid : s.graph.id q = id
  · have hn : s.graph.nodes id = some q := by
      rw [← hid]
      exact hq
    rw [hn] at hj
    cases hj with
    | existed nd hold =>
      obtain rfl := Option.some.inj hold
      exact Or.inl ⟨(InterestGraph.Graph.occupant_of_some hn).symm, hid, rfl, rfl⟩
    | failed hold | cached hold | fresh hold => cases hold
  · refine Or.inr ⟨fun he => ?_, hid⟩
    rcases hn : s.graph.nodes id with _ | m
    · exact hg.not_alive_occupant hn (he ▸ hq)
    · rw [InterestGraph.Graph.occupant_of_some hn] at he
      exact hid (he ▸ (hg.occ _ m hn).1)

/-- **A `require` is one join**: the graph grows by the edge, one node is filled or made. -/
theorem require_eq {target : ReqID → Option Nat}
    (hg : s.graph.Inv target) (kind : Kind) (k : κ) (defn : Bytes) (platform : String)
    (parent : Nat) (label : String) (ret : Nat → List (Frame κ)) :
    ∃ nd fs lastGen, require c s kind k defn platform parent label ret =
        { s with
          graph := s.graph.require ⟨kind, k⟩ parent,
          node := Function.update s.node (s.graph.occupant ⟨kind, k⟩) nd,
          stack := fs ++ (ret (s.graph.occupant ⟨kind, k⟩) ++ s.stack), lastGen := lastGen } ∧
      Joined c s.store ⟨kind, k⟩ ((s.graph.nodes ⟨kind, k⟩).map s.node) defn platform label
        (s.graph.occupant ⟨kind, k⟩) s.lastGen nd fs lastGen :=
  joinNode_eq defn platform label _ (hg.require_id _ parent)

/-- The request of a submission. -/
def Submission.request (s : State κ) (sub : Submission κ) : Request κ :=
  { k := sub.k, platform := sub.platform, res := sub.res
    target := s.graph.occupant ⟨.buildValue, sub.k⟩ }

theorem joinSubmit_eq {target : ReqID → Option Nat}
    (hg : s.graph.Inv target) (sub : Submission κ) (rid : ReqID) :
    ∃ nd fs lastGen, joinSubmit c s sub rid =
        { s with
          requests := Function.update s.requests rid (some (sub.request s)),
          graph := s.graph.requireTarget ⟨.buildValue, sub.k⟩ rid,
          node := Function.update s.node (s.graph.occupant ⟨.buildValue, sub.k⟩) nd,
          stack := fs ++
            (.submitted rid (s.graph.occupant ⟨.buildValue, sub.k⟩) sub.scratchRef :: s.stack),
          lastGen := lastGen } ∧
      Joined c s.store ⟨.buildValue, sub.k⟩ ((s.graph.nodes ⟨.buildValue, sub.k⟩).map s.node)
        sub.defn sub.platform sub.label (s.graph.occupant ⟨.buildValue, sub.k⟩) s.lastGen nd fs
        lastGen :=
  joinNode_eq (s := setRequest s rid (some (sub.request s))) sub.defn sub.platform sub.label _
    (hg.requireTarget_id _ rid)

end

end JobsIroh
