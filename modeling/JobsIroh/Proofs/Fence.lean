/-
The fence around an attempt.

The commit of an accepted result runs without the lock and comes back later.  While a
commit for the node's current generation is open the node is `publishing`, nothing else
moves it, and the verdict goes to the same incarnation at the same generation.  `Fenced`
is that invariant; under it every step is one of the moves listed in `Move`.
-/
import Mathlib.Data.List.Perm.Basic
import JobsIroh.Proofs.Moves

namespace JobsIroh

variable {κ : Type} [DecidableEq κ]

/-! ### The invariant -/

/-- The attempt a commit is for. -/
def Commit.attempt (cm : Commit κ) : Nat × Nat := (cm.ptr, cm.gen)

/-- Jobs, timers and commits belong to the attempt they were made for. -/
structure Fenced (s : State κ) : Prop where
  /-- A buildvalue is never handed out. -/
  values : ∀ n, s.graph.Alive n → s.kind n = .buildValue →
    (s.phase n).inFlight = false ∧ s.phase n ≠ .publishing
  timers : ∀ t ∈ s.timers, t.1 < s.graph.next ∧
    (s.graph.Alive t.1 → s.kind t.1 ≠ .buildValue ∧ t.2 ≤ (s.node t.1).gen)
  ptrs : ∀ cm ∈ s.commits, cm.ptr < s.graph.next
  /-- A node that is still being unfolded has no commit. -/
  opens : ∀ fr ∈ s.stack, ∀ n, fr.opens = some n → ∀ cm ∈ s.commits, cm.ptr ≠ n
  /-- A node is publishing for as long as a commit of its current attempt is open. -/
  commits : ∀ cm ∈ s.commits, s.graph.Alive cm.ptr → cm.id = s.graph.id cm.ptr ∧
    cm.gen ≤ (s.node cm.ptr).gen ∧ (cm.gen = (s.node cm.ptr).gen → s.phase cm.ptr = .publishing)
  distinct : (s.commits.map Commit.attempt).Nodup

/-- The commits in progress and the record of results are as before. -/
structure History (s s' : State κ) : Prop where
  commits : s'.commits = s.commits
  accepted : s'.accepted = s.accepted
  verdicts : s'.verdicts = s.verdicts

/-- What a step does to the nodes of the table, to the queue, to the timers and to the
commits. Every step moves at most one node. -/
inductive Move [Inhabited κ] (W : World κ) (s : State κ) : Label κ → State κ → Prop
  | still (a : Label κ) (s' : State κ) (hh : History s s') (hq : Quiet s s')
      (h : ∀ q, s.graph.Alive q → Stays s s' q) : Move W s a s'
  | frame (c : Choice) (fr : Frame κ) (rest : List (Frame κ)) (hst : s.stack = fr :: rest)
      (s' : State κ) (hh : History s s') (hfr : FrameOK { s with stack := rest } fr)
      (h : ExecMove W { s with stack := rest } fr s') : Move W s (.exec c) s'
  /- Timers. -/
  | timer (c : Choice) (i n : Nat) (ht : s.timers[i]? = some (n, (s.node n).gen))
      (hn : s.graph.Alive n) (hph : s.phase n = .waiting) (hc : s.closed = false) (s' : State κ)
      (hh : History s s') (h : Attempted W s s' n (s.timers.eraseIdx i)) (ho : Others s s' n) :
    Move W s (.timer c i) s'
  | timerStale (c : Choice) (i n gen : Nat) (ht : s.timers[i]? = some (n, gen))
      (hstale : ¬ (s.graph.Alive n ∧ s.closed = false ∧ (s.node n).gen = gen ∧
        s.phase n = .waiting ∧ s.graph.interest n ≠ [])) (s' : State κ) (hh : History s s')
      (ht' : s'.timers = s.timers.eraseIdx i) (hj : s'.jobs = s.jobs)
      (h : ∀ q, s.graph.Alive q → Stays s s' q) : Move W s (.timer c i) s'
  /- Results. -/
  | received (c : Choice) (res : Result) (n : Nat)
      (hid : parseNodeName W res.node = some (s.graph.id n)) (hn : s.graph.Alive n)
      (ha : accepts s n res = true) (hok : res.cls = .ok) (s' : State κ)
      (hcs : s'.commits = s.commits ++ [startCommit s n res])
      (hacc : s'.accepted = (s.graph.id n, res.gen) :: s.accepted)
      (hv : s'.verdicts = s.verdicts) (hq : Quiet s s') (hph : s'.phase n = .publishing)
      (hgen : SameGen s s' n) (ho : Others s s' n) : Move W s (.result c res) s'
  | judged (c : Choice) (res : Result) (n : Nat)
      (hid : parseNodeName W res.node = some (s.graph.id n)) (hn : s.graph.Alive n)
      (ha : accepts s n res = true) (hok : res.cls ≠ .ok) (s' : State κ)
      (hcs : s'.commits = s.commits)
      (hacc : s'.accepted = (s.graph.id n, res.gen) :: s.accepted)
      (hv : s'.verdicts = (s.graph.id n, res.gen) :: s.verdicts) (h : Judged W s s' n)
      (ho : Others s s' n) : Move W s (.result c res) s'
  | running (name : String) (gen n : Nat) (hn : s.graph.Alive n) (hph : s.phase n = .queued)
      (s' : State κ) (hh : History s s') (hq : Quiet s s') (hph' : s'.phase n = .running)
      (hgen : SameGen s s' n) (ho : Others s s' n) : Move W s (.logChunk name gen) s'
  /- Commits. -/
  | staged (c : Choice) (i : Nat) (cm : Commit κ) (hcm : s.commits[i]? = some cm) (s' : State κ)
      (hcs : s'.commits = s.commits.set i { cm with stage := (commitStep W c s.store cm).2 })
      (hacc : s'.accepted = s.accepted) (hv : s'.verdicts = s.verdicts) (hq : Quiet s s')
      (h : ∀ q, s.graph.Alive q → Stays s s' q) : Move W s (.commit c i) s'
  | stale (c : Choice) (i : Nat) (cm : Commit κ) (hcm : s.commits[i]? = some cm)
      (hstale : ¬ (s.graph.Alive cm.ptr ∧ (s.node cm.ptr).gen = cm.gen)) (s' : State κ)
      (hcs : s'.commits = s.commits.eraseIdx i) (hacc : s'.accepted = s.accepted)
      (hv : s'.verdicts = s.verdicts) (hq : Quiet s s')
      (h : ∀ q, s.graph.Alive q → Stays s s' q) : Move W s (.finish c i) s'
  | done (c : Choice) (i : Nat) (cm : Commit κ) (hcm : s.commits[i]? = some cm)
      (hst : cm.stage = .finished none) (hn : s.graph.Alive cm.ptr)
      (hgen : (s.node cm.ptr).gen = cm.gen) (hph : s.phase cm.ptr = .publishing) (s' : State κ)
      (hcs : s'.commits = s.commits.eraseIdx i) (hacc : s'.accepted = s.accepted)
      (hv : s'.verdicts = (cm.id, cm.gen) :: s.verdicts) (hq : Quiet s s')
      (hph' : s'.phase cm.ptr = .done) (hsame : SameGen s s' cm.ptr) (ho : Others s s' cm.ptr)
      (hg : s'.graph = s.graph)
      (hst' : s'.stack = .notify cm.ptr (s.graph.dependents cm.ptr) [] :: s.stack) :
    Move W s (.finish c i) s'
  | rejudged (c : Choice) (i : Nat) (cm : Commit κ) (hcm : s.commits[i]? = some cm)
      (e : CommitError) (hst : cm.stage = .finished (some e)) (hn : s.graph.Alive cm.ptr)
      (hgen : (s.node cm.ptr).gen = cm.gen) (hph : s.phase cm.ptr = .publishing) (s' : State κ)
      (hcs : s'.commits = s.commits.eraseIdx i) (hacc : s'.accepted = s.accepted)
      (hv : s'.verdicts = (cm.id, cm.gen) :: s.verdicts) (h : Judged W s s' cm.ptr)
      (ho : Others s s' cm.ptr) : Move W s (.finish c i) s'
  | crash : Move W s .crash (crash s)

section

variable {W : World κ} {c : Choice} {s s' : State κ} {n q : Nat}

/-! ### Verdicts -/

theorem Verdict.others (h : Verdict W c s n s') (hn : s.graph.Alive n) : Others s s' n := by
  intro q hq hne
  cases h with
  | fail | rearm => exact Stays.of_node (s.setNode_node_ne _ hne) rfl
  | requeue hcap e =>
    have hs : Stays s (s.setNode n (requeued (s.node n) e)) q :=
      Stays.of_node (s.setNode_node_ne _ hne) rfl
    by_cases hclosed : s.closed = true
    · unfold enqueueLocked
      rw [if_pos (by exact hclosed)]
      exact hs
    · have hm := enqueueLocked_moves (s := s.setNode n (requeued (s.node n) e)) W c
        (by simpa [State.setNode] using hclosed) hn (by simp [State.phase, requeued])
      exact hs.trans (hm.2 q hq hne) rfl
  | unwatched => exact Stays.refl s q

/-- A verdict on a node that is not settled. -/
theorem Verdict.judged (h : Verdict W c s n s') (hn : s.graph.Alive n)
    (hu : (s.phase n).settled = false) (hint : s.graph.interest n ≠ []) : Judged W s s' n := by
  cases h with
  | fail retry control e =>
    rw [failedNode_of_unsettled e (by exact hu)]
    refine Judged.fails ?_ ⟨?_, rfl⟩ ⟨rfl, rfl⟩
    · simp [State.phase]
    · simp
  | requeue hcap e =>
    by_cases hclosed : s.closed = true
    · unfold enqueueLocked
      rw [if_pos (by exact hclosed)]
      refine Judged.closed hclosed ?_ ⟨?_, rfl⟩ ⟨rfl, rfl⟩
      · simp [State.phase, requeued]
      · simp [requeued]
    · have hclosed' : s.closed = false := by simpa using hclosed
      have hm := enqueueLocked_moves (s := s.setNode n (requeued (s.node n) e)) W c
        hclosed' hn (by simp [State.phase, requeued])
      exact Judged.attempted hclosed' (hm.1.congr (by simp [requeued]) rfl rfl rfl rfl rfl)
  | rearm =>
    refine Judged.rearmed ?_ ⟨?_, rfl⟩ rfl rfl
    · simp [State.phase, State.setNode, rearmed]
    · simp [State.setNode, rearmed]
  | unwatched hempty => exact absurd hempty hint

theorem Judged.deleteScratch (W : World κ) (ns ref : String) (h : Judged W s s' q) :
    Judged W s (deleteScratch W ns ref s') q := by
  rw [deleteScratch_eta]
  cases h with
  | fails hph hgen hq => exact Judged.fails hph ⟨hgen.gen, hgen.lastGen⟩ ⟨hq.timers, hq.jobs⟩
  | rearmed hph hgen ht hj => exact Judged.rearmed hph ⟨hgen.gen, hgen.lastGen⟩ ht hj
  | closed hc hph hgen hq =>
    exact Judged.closed hc hph ⟨hgen.gen, hgen.lastGen⟩ ⟨hq.timers, hq.jobs⟩
  | attempted hc h => exact Judged.attempted hc (h.setStore _)

/-- The state a verdict is told from may differ in the node's bookkeeping. -/
theorem Judged.congr {s₁ : State κ} (h : Judged W s₁ s' q)
    (hgen : (s₁.node q).gen = (s.node q).gen) (hg : s₁.graph = s.graph)
    (hl : s₁.lastGen = s.lastGen) (hst : s₁.store = s.store) (hj : s₁.jobs = s.jobs)
    (hc : s₁.ctxErr = s.ctxErr) (ht : s₁.timers = s.timers) (hcl : s₁.closed = s.closed) :
    Judged W s s' q := by
  have gen : SameGen s₁ s' q → SameGen s s' q := by
    intro h'
    refine ⟨h'.gen.trans hgen, ?_⟩
    rw [← hg, h'.lastGen, hl]
  cases h with
  | fails hph hs hq => exact Judged.fails hph (gen hs) ⟨hq.timers.trans ht, hq.jobs.trans hj⟩
  | rearmed hph hs ht' hj' =>
    refine Judged.rearmed hph (gen hs) ?_ (hj'.trans hj)
    rw [ht', hgen, ht]
  | closed hc' hph hs hq =>
    exact Judged.closed (hcl ▸ hc') hph (gen hs) ⟨hq.timers.trans ht, hq.jobs.trans hj⟩
  | attempted hc' h' =>
    have h'' := h'.congr hgen hg hl hst hj hc
    rw [ht] at h''
    exact Judged.attempted (hcl ▸ hc') h''

theorem Stays.deleteScratch (W : World κ) (ns ref : String) (h : Stays s s' q) :
    Stays s (deleteScratch W ns ref s') q := by
  rw [deleteScratch_eta]
  exact ⟨⟨h.gen, h.lastGen⟩, h.phase, h.consecRetry, h.consecControl⟩

theorem Others.deleteScratch (W : World κ) (ns ref : String) (h : Others s s' n) :
    Others s (deleteScratch W ns ref s') n :=
  fun q hq hne => (h q hq hne).deleteScratch W ns ref

omit [DecidableEq κ] in
theorem accepts_iff (s : State κ) (n : Nat) (res : Result) : accepts s n res = true ↔
    res.gen = (s.node n).gen ∧ (s.node n).lastResultGen < res.gen ∧
      (s.phase n).inFlight = true := by
  simp [accepts, and_assoc]

theorem unsettled_of_inFlight {p : Phase} (h : p.inFlight = true) : p.settled = false := by
  cases p <;> simp_all [Phase.inFlight, Phase.settled]

/-- How an accepted result moves the nodes. -/
theorem AcceptRule.move [Inhabited κ] {res : Result} (h : AcceptRule W c s n res s')
    (hn : s.graph.Alive n) (hint : s.graph.interest n ≠ [])
    (hid : parseNodeName W res.node = some (s.graph.id n)) (ha : accepts s n res = true) :
    Move W s (.result c res) s' := by
  cases h with
  | commits hok =>
    refine Move.received c res n hid hn ha hok _ rfl rfl rfl ⟨rfl, rfl⟩ ?_ ⟨?_, rfl⟩ ?_
    · simp [State.phase, committing, State.setNode]
    · simp [committing, State.setNode, received]
    · exact fun q _ hne => Stays.of_node (s.setNode_node_ne _ hne) rfl
  | verdict hok s' hv =>
    have hout : Outside (JobsIroh.judged s n res) (JobsIroh.deleteScratch W runnerScratchPrefix
        res.scratchRef s') := (deleteScratch_inner W _ _ s' (hv.inner (.refl _))).toOutside
    have hnode : (JobsIroh.judged s n res).node n = JobsIroh.received (s.node n) res :=
      s.setNode_node n _
    have hu : ((JobsIroh.judged s n res).phase n).settled = false := by
      rw [State.phase, hnode]
      exact unsettled_of_inFlight ((accepts_iff s n res).mp ha).2.2
    have hj := (hv.judged hn hu hint).deleteScratch W runnerScratchPrefix res.scratchRef
    refine Move.judged c res n hid hn ha hok _ hout.commits hout.accepted hout.verdicts ?_ ?_
    · exact hj.congr (by rw [hnode]; rfl) rfl rfl rfl rfl rfl rfl rfl
    · refine Others.deleteScratch W _ _ fun q hq hne => ?_
      have hs : Stays s (JobsIroh.judged s n res) q :=
        Stays.of_node (s.setNode_node_ne _ hne) rfl
      exact hs.trans (hv.others hn q hq hne) rfl

/-- The end of a good commit completes its node. -/
theorem CommitVerdict.completes {cm : Commit κ} (h : CommitVerdict W c s cm none s')
    (hph : s.phase cm.ptr = .publishing) : Quiet s s' ∧ s'.phase cm.ptr = .done ∧
      SameGen s s' cm.ptr ∧ Others s s' cm.ptr ∧ s'.graph = s.graph ∧
      s'.stack = .notify cm.ptr (s.graph.dependents cm.ptr) [] :: s.stack := by
  cases h with
  | done node hnode =>
    have hphase : ({ s with node := node } : State κ).phase cm.ptr = .publishing := by
      obtain ⟨label, retry, control, hm, -⟩ := hnode cm.ptr
      show (node cm.ptr).phase = _
      rw [hm]
      exact hph
    obtain ⟨label, retry, control, hm, -⟩ := hnode cm.ptr
    unfold nodeDoneLocked
    rw [if_neg (by rw [hphase]; simp)]
    refine ⟨⟨rfl, rfl⟩, ?_, ⟨?_, rfl⟩, fun q _ hne => ?_, rfl, rfl⟩
    · simp [State.phase, State.push]
    · simp [State.push, hm]
    · obtain ⟨label, retry, control, hq, hkeep⟩ := hnode q
      obtain ⟨hr, hc⟩ := hkeep hne
      have hnq : ((({ s with node := node } : State κ).setNode cm.ptr
          { node cm.ptr with phase := .done, errSummary := "" }).push
          [.notify cm.ptr (s.graph.dependents cm.ptr) []]).node q = node q :=
        State.setNode_node_ne _ _ hne
      refine ⟨⟨?_, rfl⟩, ?_, ?_, ?_⟩
      · rw [hnq, hq]
      · rw [State.phase, hnq, hq]
        rfl
      · rw [hnq, hq, hr]
      · rw [hnq, hq, hc]

omit [DecidableEq κ] in
theorem Outside.history (h : Outside s s') : History s s' := ⟨h.commits, h.accepted, h.verdicts⟩

/-- The verdict of a finished commit, on a node that waits for it. -/
theorem CommitVerdict.move [Inhabited κ] {i : Nat} {cm : Commit κ} {err : Option CommitError}
    (hcm : s.commits[i]? = some cm) (hst : cm.stage = .finished err) (hn : s.graph.Alive cm.ptr)
    (hgen : (s.node cm.ptr).gen = cm.gen) (hph : s.phase cm.ptr = .publishing)
    (hint : s.graph.interest cm.ptr ≠ [])
    (h : CommitVerdict W c (s.judging i cm) cm err s') :
    Move W s (.finish c i) (JobsIroh.deleteScratch W runnerScratchPrefix cm.scratchRef s') := by
  have hout := deleteScratch_inner W runnerScratchPrefix cm.scratchRef s'
    (h.inner (.refl _))
  have back : ∀ {q}, Stays (s.judging i cm) s' q →
      Stays s s' q :=
    fun h' => h'.congr rfl rfl rfl
  rcases err with _ | e
  · obtain ⟨hq, hdone, hsame, ho, hg, hstack⟩ := h.completes hph
    have hothers := Others.deleteScratch W runnerScratchPrefix cm.scratchRef
      fun q hqa hne => back (ho q hqa hne)
    rw [deleteScratch_eta] at hout hothers ⊢
    exact Move.done c i cm hcm hst hn hgen hph _ hout.commits hout.accepted hout.verdicts
      ⟨hq.timers, hq.jobs⟩ hdone ⟨hsame.gen, hsame.lastGen⟩ hothers hg hstack
  · cases h with
    | verdict _ _ hv =>
      have hu : (s.phase cm.ptr).settled = false := by
        rw [hph]
        rfl
      have hj := hv.judged hn hu hint
      refine Move.rejudged c i cm hcm e hst hn hgen hph _ hout.commits hout.accepted
        hout.verdicts ?_ (Others.deleteScratch W _ _ fun q hqa hne => back (hv.others hn q hqa hne))
      refine Judged.deleteScratch W _ _ ?_
      exact hj.congr rfl rfl rfl rfl rfl rfl rfl rfl

variable [Inhabited κ] {a : Label κ}

omit [DecidableEq κ] [Inhabited κ] in
theorem Base.interest_ne_nil {n : Nat} (hb : Base s) (hfree : s.free = true)
    (hn : s.graph.Alive n) : s.graph.interest n ≠ [] :=
  (hb.graph.alive_iff_of_settled hb.watched (s.free_iff.mp hfree).2 n).mp hn

/-- **Every step is one of the moves.** -/
theorem step_move (hb : Base s) (hf : Fenced s) (hs : step W s a = some s') : Move W s a s' := by
  have still : ∀ {s₁ : State κ}, s₁.node = s.node → s₁.lastGen = s.lastGen → History s s₁ →
      Quiet s s₁ → Move W s a s₁ := by
    intro s₁ hn hl hh hq
    exact Move.still a s₁ hh hq fun q _ => Stays.of_node (by rw [hn]) (by rw [hl])
  have hr := step_rule hb.graph hs
  cases hr with
  | frame c fr rest hp hst s' he =>
    have hout := he.outside
    exact Move.frame c fr rest hst s' ⟨hout.commits, hout.accepted, hout.verdicts⟩
      (hb.top hst).1 (he.move (hb.pop hst) (hb.top hst).1)
  | submit c i rid sub =>
    obtain ⟨nd, fs, lg, heq, hj⟩ := joinSubmit_eq
      (s := { s with submits := s.submits.eraseIdx i }) hb.graph sub rid
    rw [heq]
    refine Move.still _ _ ⟨rfl, rfl, rfl⟩ ⟨rfl, rfl⟩ fun q hq => ?_
    exact Joined.stays hb.graph hj rfl rfl hq
  | dropped =>
    rw [deleteScratch_eta]
    exact still rfl rfl ⟨rfl, rfl, rfl⟩ ⟨rfl, rfl⟩
  | accepted c res n hfree hid hn ha =>
    exact (acceptResult_rule W c s n res).move hn (hb.interest_ne_nil hfree hn) hid ha
  | committed c i cm hcm =>
    exact Move.staged c i cm hcm _ rfl rfl rfl ⟨rfl, rfl⟩ fun q _ => Stays.of_node rfl rfl
  | finishStale c i cm err hcm hst hfree hstale =>
    rw [deleteScratch_eta]
    exact Move.stale c i cm hcm hstale _ rfl rfl rfl ⟨rfl, rfl⟩ fun q _ => Stays.of_node rfl rfl
  | finish c i cm err hcm hst hfree hn hgen =>
    have hph := (hf.commits cm (List.mem_of_getElem? hcm) hn).2.2 hgen.symm
    exact (applyCommit_rule W c _ cm err).move hcm hst hn hgen hph (hb.interest_ne_nil hfree hn)
  | timerStale c i n gen ht hfree hstale =>
    exact Move.timerStale c i n gen ht hstale _ ⟨rfl, rfl, rfl⟩ rfl rfl
      fun q _ => Stays.of_node rfl rfl
  | timer c i n gen ht hfree hn hclosed hgen hph =>
    subst hgen
    have hout : Inner s (enqueueLocked W c { s with timers := s.timers.eraseIdx i } n) :=
      enqueueLocked_inner W c _ n ⟨⟨rfl, fun _ => Nat.le_refl _⟩, rfl, rfl⟩
    obtain ⟨h, ho⟩ := enqueueLocked_moves (s := { s with timers := s.timers.eraseIdx i }) W c
      hclosed hn hph
    refine Move.timer c i n ht hn hph hclosed _ hout.history
      (h.congr rfl rfl rfl rfl rfl rfl) fun q hq hne => ?_
    exact (ho q hq hne).congr rfl rfl rfl
  | running name gen n hfree hn hph =>
    refine Move.running name gen n hn hph _ ⟨rfl, rfl, rfl⟩ ⟨rfl, rfl⟩ ?_ ⟨?_, rfl⟩ ?_
    · simp [State.phase]
    · simp
    · exact fun q _ hne => Stays.of_node (s.setNode_node_ne _ hne) rfl
  | crash => exact Move.crash
  | _ => exact still rfl rfl ⟨rfl, rfl, rfl⟩ ⟨rfl, rfl⟩

end

/-! ### Nodes that are being unfolded -/

section

variable {W : World κ} {c : Choice} {s s' : State κ} {n : Nat}

theorem joinNode_stack {id : NodeID κ} {g : InterestGraph.Graph (NodeID κ) ReqID} {defn : Bytes}
    {platform label : String} {ret : List (Frame κ)} (hid : g.id (s.graph.occupant id) = id) :
    ∃ fs, (joinNode c s id g defn platform label ret).stack = fs ++ (ret ++ s.stack) ∧
      (fs = [] ∨ fs = [.unfold s.graph.next]) := by
  obtain ⟨nd, fs, lg, heq, hj⟩ := joinNode_eq defn platform label ret hid
  refine ⟨fs, by rw [heq], ?_⟩
  rcases hn : s.graph.nodes id with _ | m
  · rw [InterestGraph.Graph.occupant_of_none hn] at hj
    cases hj with
    | fresh => exact Or.inr rfl
    | _ => exact Or.inl rfl
  · rw [hn] at hj
    cases hj with
    | existed => exact Or.inl rfl
    | failed hold | cached hold | fresh hold => cases hold

theorem enqueueLocked_stack (W : World κ) (c : Choice) (s : State κ) (n : Nat) :
    (enqueueLocked W c s n).stack = s.stack := by
  rcases enqueueLocked_eq W c s n with ⟨-, heq⟩ | ⟨st, nd, timers, jobs, heq, -, -⟩
  · rw [heq]
  · rw [heq]

theorem maybeEnqueueLocked_stack (W : World κ) (c : Choice) (s : State κ) (n : Nat) :
    (maybeEnqueueLocked W c s n).stack = s.stack := by
  unfold maybeEnqueueLocked
  split
  · exact enqueueLocked_stack W c s n
  · rfl

section

omit [DecidableEq κ]

theorem failNodeLocked_stack (s : State κ) (n : Nat) (e : String) :
    (failNodeLocked s n e).stack = s.stack := by
  rw [failNodeLocked_eq]
  rfl

theorem nodeDoneLocked_stack (s : State κ) (n : Nat) :
    (nodeDoneLocked s n).stack = s.stack ∨
      (nodeDoneLocked s n).stack = .notify n (s.graph.dependents n) [] :: s.stack := by
  unfold nodeDoneLocked
  split
  · exact Or.inl rfl
  · exact Or.inr rfl

theorem opens_of_stageOf {fr : Frame κ} {bv : Nat} (h : fr.stageOf = some bv) :
    fr.opens = none := by
  cases fr <;> first | rfl | cases h

end

/-- The frames that go on with the work of a frame. -/
inductive Leaves (s : State κ) : Frame κ → List (Frame κ) → Prop
  | nothing (fr : Frame κ) : Leaves s fr []
  | reads (n : Nat) (left : List NamedInput) : Leaves s (.unfold n) [.unfolding n left]
  | loops (n : Nat) (ni : NamedInput) (rest : List NamedInput) :
    Leaves s (.unfolding n (ni :: rest)) [.unfolding n rest]
  | value (n : Nat) : Leaves s (.unfold n) [.advance n]
  | first (bv bf : Nat) : Leaves s (.advance bv) [.afterFrom bv bf]
  | stage (fr fr' : Frame κ) (bv : Nat) (h : fr.stageOf = some bv) (h' : fr'.stageOf = some bv) :
    Leaves s fr [fr']
  | done (fr : Frame κ) (bv : Nat) (h : fr.stageOf = some bv) (ds : List Nat)
      (hds : ds = s.graph.dependents bv) :
    Leaves s fr [.notify bv ds []]
  | advances (n : Nat) (todo todo' seen seen' : List Nat) (d : Nat)
      (hd : d ∈ todo ∨ d ∈ s.graph.dependents n) (hkind : s.kind d = .buildValue)
      (hsub : todo' ⊆ todo) : Leaves s (.notify n todo seen) [.advance d, .notify n todo' seen']
  | notifies (n : Nat) (todo todo' seen seen' : List Nat) (hsub : todo' ⊆ todo) :
    Leaves s (.notify n todo seen) [.notify n todo' seen']

/-- At most the unfold of one new node, on top of what goes on with the work of the frame. -/
def LeavesOn (s : State κ) (fr : Frame κ) (stack : List (Frame κ)) : Prop :=
  ∃ fs p, stack = fs ++ (p ++ s.stack) ∧ (fs = [] ∨ fs = [.unfold s.graph.next]) ∧ Leaves s fr p

theorem require_stack (hg : s.graph.Inv s.target) {s₁ : State κ} (hgr : s₁.graph = s.graph)
    {kind : Kind} {k : κ} {defn : Bytes} {platform label : String} {ret : Nat → List (Frame κ)} :
    ∃ fs, (require c s₁ kind k defn platform n label ret).stack =
        fs ++ (ret (s₁.graph.occupant ⟨kind, k⟩) ++ s₁.stack) ∧
      (fs = [] ∨ fs = [.unfold s.graph.next]) := by
  have hid := hg.require_id ⟨kind, k⟩ n
  rw [← hgr] at hid ⊢
  exact joinNode_stack hid

/-- **What a frame leaves on the stack.** -/
theorem ExecStep.leaves {fr : Frame κ} (h : ExecStep W c s fr s') (hg : s.graph.Inv s.target) :
    LeavesOn s fr s'.stack := by
  have own : ∀ (s₁ : State κ) (p : List (Frame κ)), s₁.stack = p ++ s.stack → Leaves s fr p →
      LeavesOn s fr s₁.stack := by
    intro s₁ p hst hp
    exact ⟨[], p, by rw [hst, List.nil_append], Or.inl rfl, hp⟩
  have none : ∀ (s₁ : State κ), s₁.stack = s.stack → LeavesOn s fr s₁.stack := by
    intro s₁ hst
    exact own s₁ [] hst (.nothing fr)
  have done : ∀ (s₁ : State κ) (bv : Nat), s₁.stack = s.stack → s₁.graph = s.graph →
      fr.stageOf = some bv → LeavesOn s fr (nodeDoneLocked s₁ bv).stack := by
    intro s₁ bv hst hgr hbv
    rcases nodeDoneLocked_stack s₁ bv with heq | heq
    · exact none _ (heq.trans hst)
    · rw [hst, hgr] at heq
      exact own _ [_] heq (.done fr bv hbv _ rfl)
  have join : ∀ (s₁ : State κ) (kind : Kind) (k : κ) (defn : Bytes) (platform label : String)
      (n : Nat) (ret : Nat → List (Frame κ)), s₁.graph = s.graph →
      (∃ p, ret (s₁.graph.occupant ⟨kind, k⟩) ++ s₁.stack = p ++ s.stack ∧ Leaves s fr p) →
      LeavesOn s fr (require c s₁ kind k defn platform n label ret).stack := by
    intro s₁ kind k defn platform label n ret hgr hret
    obtain ⟨p, hp, hleft⟩ := hret
    obtain ⟨fs, heq, hfs⟩ := require_stack hg hgr
    rw [hp] at heq
    exact ⟨fs, p, heq, hfs, hleft⟩
  cases h with
  | unfoldRead n nd rest => exact own _ [_] rfl (.reads n rest)
  | unfoldFetcher n nd =>
    exact join (s.setNode n nd) _ _ _ _ _ _ _ rfl ⟨[_], rfl, .reads n []⟩
  | unfoldValue n => exact own _ [_] rfl (.value n)
  | unfolded n => exact none _ (maybeEnqueueLocked_stack W c s n)
  | input n ni rest s' hi =>
    have loop : ∀ (s₁ : State κ), s₁.stack = (loopState s n ni rest).stack →
        LeavesOn s (.unfolding n (ni :: rest)) s₁.stack :=
      fun s₁ hst => own s₁ [.unfolding n rest] hst (.loops n ni rest)
    cases hi with
    | tree => exact loop _ rfl
    | link =>
      exact join (loopState s n ni rest) _ _ _ _ _ _ _ rfl
        ⟨[.unfolding n rest], rfl, .loops n ni rest⟩
    | _ => exact loop _ (failNodeLocked_stack _ n _)
  | advance bv => exact join s _ _ _ _ _ _ _ rfl ⟨[_], rfl, .first bv _⟩
  | stageFail fr bv hbv e => exact none _ (failNodeLocked_stack s bv e)
  | nextStage fr bv nd kind k ret hn =>
    refine join (s.setNode bv nd) _ _ _ _ _ _ _ rfl ⟨[_], rfl, ?_⟩
    exact .stage fr _ bv hn.stageOf.1 (hn.stageOf.2 _)
  | deriveKP bv | putPinned bv | putKPTree bv | putAliasDeps bv =>
    exact own _ [_] rfl (.stage _ _ bv rfl rfl)
  | putPinCover bv kp f =>
    exact join (s.bound bv f kp) _ _ _ _ _ _ _ rfl ⟨[_], rfl, .stage _ _ bv rfl rfl⟩
  | aliased bv => exact done s bv rfl rfl rfl
  | startAlias bv =>
    exact own _ [_] rfl (.stage _ _ bv rfl rfl)
  | putAliasOutput bv out f => exact done (s.putRef (.output f) out) bv rfl rfl rfl
  | notifyValue n todo seen d hd hkind =>
    exact own _ [_, _] rfl (.advances n todo _ seen _ d hd hkind (List.filter_subset_self _))
  | notifyNode n todo seen d =>
    exact own _ [_] (maybeEnqueueLocked_stack W c _ d)
      (.notifies n todo _ seen _ (List.filter_subset_self _))
  | submitted rid t scratch =>
    rw [deleteScratch_eta]
    exact none _ rfl
  | _ => exact none _ rfl

/-- The frames a frame leaves in its place: at most the unfold of one new node, on top of
what goes on with its own work. -/
structure Pushes (s : State κ) (fr : Frame κ) (fs p : List (Frame κ)) : Prop where
  made : fs = [] ∨ fs = [.unfold s.graph.next]
  opened : (p.filterMap Frame.opens).Sublist fr.opens.toList
  read : ∀ fr' ∈ p, ∀ n, fr' ≠ .unfold n

theorem ExecStep.stack {fr : Frame κ} (h : ExecStep W c s fr s') (hg : s.graph.Inv s.target) :
    ∃ fs p, s'.stack = fs ++ (p ++ s.stack) ∧ Pushes s fr fs p := by
  obtain ⟨fs, p, hst, hmade, hleft⟩ := h.leaves hg
  refine ⟨fs, p, hst, hmade, ?_, ?_⟩
  · cases hleft with
    | stage fr fr' bv h h' => simp [opens_of_stageOf h']
    | done => exact List.nil_sublist _
    | _ => simp [Frame.opens]
  · cases hleft with
    | stage fr fr' bv h h' =>
      intro fr₁ hfr₁ n heq
      rw [List.mem_singleton.mp hfr₁] at heq
      rw [heq] at h'
      cases h'
    | _ => simp

/-- A frame that unfolds a node goes on unfolding the same node, or the node is new. -/
theorem ExecStep.opens {fr fr' : Frame κ} (h : ExecStep W c s fr s')
    (hg : s.graph.Inv s.target) (hfr : fr' ∈ s'.stack) (ho : fr'.opens = some n) :
    fr' ∈ s.stack ∨ fr.opens = some n ∨ n = s.graph.next := by
  obtain ⟨fs, p, hst, hpush⟩ := h.stack hg
  rw [hst] at hfr
  rcases List.mem_append.mp hfr with hnew | hfr
  · rcases hpush.made with hfs | hfs
    · rw [hfs] at hnew
      cases hnew
    · rw [hfs] at hnew
      rw [List.mem_singleton.mp hnew] at ho
      exact Or.inr (Or.inr (Option.some.inj ho).symm)
  · rcases List.mem_append.mp hfr with hown | hold
    · have hmem := hpush.opened.subset (List.mem_filterMap.mpr ⟨fr', hown, ho⟩)
      exact Or.inr (Or.inl (Option.mem_toList.mp hmem))
    · exact Or.inl hold

theorem Verdict.stack (h : Verdict W c s n s') : s'.stack = s.stack := by
  cases h with
  | requeue => exact enqueueLocked_stack W c _ n
  | _ => rfl

theorem AcceptRule.stack {res : Result} (h : AcceptRule W c s n res s') : s'.stack = s.stack := by
  cases h with
  | commits => rfl
  | verdict hok s' hv =>
    rw [deleteScratch_eta]
    exact hv.stack

theorem CommitVerdict.stack {cm : Commit κ} {err : Option CommitError}
    (h : CommitVerdict W c s cm err s') : s'.stack = s.stack ∨
      s'.stack = .notify cm.ptr (s.graph.dependents cm.ptr) [] :: s.stack := by
  cases h with
  | done => exact nodeDoneLocked_stack _ _
  | verdict e s' hv => exact Or.inl hv.stack

variable [Inhabited κ] {a : Label κ}

omit [Inhabited κ] in
theorem joinSubmit_stack {c : Choice} (hb : Base s) (i : Nat) (sub : Submission κ) (rid : ReqID) :
    ∃ fs, (joinSubmit c { s with submits := s.submits.eraseIdx i } sub rid).stack =
        fs ++ (.submitted rid (s.graph.occupant ⟨.buildValue, sub.k⟩) sub.scratchRef :: s.stack) ∧
      (fs = [] ∨ fs = [.unfold s.graph.next]) := by
  exact joinNode_stack (hb.graph.requireTarget_id ⟨.buildValue, sub.k⟩ rid)

/-- Whatever is being unfolded after a step was so before, or is new. -/
theorem step_opens (hb : Base s) (hs : step W s a = some s') :
    ∀ fr ∈ s'.stack, ∀ n, fr.opens = some n →
      (∃ fr' ∈ s.stack, fr'.opens = some n) ∨ s.graph.next ≤ n := by
  intro fr hfr n ho
  have same : s'.stack = s.stack → (∃ fr' ∈ s.stack, fr'.opens = some n) ∨ s.graph.next ≤ n := by
    intro h
    rw [h] at hfr
    exact Or.inl ⟨fr, hfr, ho⟩
  have hr := step_rule hb.graph hs
  cases hr with
  | frame c fr₀ rest hp hst s' he =>
    rcases he.opens hb.graph hfr ho with hold | htop | hnew
    · exact Or.inl ⟨fr, State.below_mem hst hold, ho⟩
    · exact Or.inl ⟨fr₀, State.top_mem hst, htop⟩
    · exact Or.inr (Nat.le_of_eq hnew.symm)
  | submit c i rid sub hsub hrid hfree =>
    obtain ⟨fs, heq, hfs⟩ := joinSubmit_stack hb i sub rid
    rw [heq, (s.free_iff.mp hfree).1] at hfr
    rcases List.mem_append.mp hfr with hnew | hret
    · rcases hfs with rfl | rfl
      · cases hnew
      · rw [List.mem_singleton.mp hnew] at ho
        exact Or.inr (Nat.le_of_eq (Option.some.inj ho))
    · rw [List.mem_singleton.mp hret] at ho
      cases ho
  | dropped | finishStale => exact same (by rw [deleteScratch_eta])
  | accepted c res m => exact same (acceptResult_rule W c s m res).stack
  | finish c i cm err =>
    rw [deleteScratch_eta] at hfr same
    rcases (applyCommit_rule W c _ cm err).stack with heq | heq
    · exact same heq
    · rw [heq] at hfr
      rcases List.mem_cons.mp hfr with hnotify | hold
      · rw [hnotify] at ho
        cases ho
      · exact Or.inl ⟨fr, hold, ho⟩
  | timer c i m => exact same (enqueueLocked_stack W c _ m)
  | crash => cases hfr
  | _ => exact same rfl

/-! ### The fence holds -/

omit [Inhabited κ] in
theorem Fresh.calm {c : Choice} {q : Nat} (h : Fresh c s s' q) :
    (s'.phase q).inFlight = false ∧ s'.phase q ≠ .publishing := by
  obtain ⟨r, -, ⟨hph, -⟩ | ⟨hph, -⟩ | ⟨hph, -⟩⟩ := h.made <;> simp [hph, Phase.inFlight]

omit [DecidableEq κ] [Inhabited κ] in
/-- A node that is handed out is not a buildvalue. -/
theorem Fenced.placeable_of_accepts {n : Nat} {res : Result} (hf : Fenced s)
    (hn : s.graph.Alive n) (ha : accepts s n res = true) : s.kind n ≠ .buildValue := by
  intro hk
  have h := (hf.values n hn hk).1
  rw [((accepts_iff s n res).mp ha).2.2] at h
  cases h

omit [DecidableEq κ] [Inhabited κ] in
theorem Fenced.placeable_of_publishing {n : Nat} (hf : Fenced s) (hn : s.graph.Alive n)
    (hph : s.phase n = .publishing) : s.kind n ≠ .buildValue :=
  fun hk => (hf.values n hn hk).2 hph

/-- The moves as one node sees them. -/
inductive NodeMove (W : World κ) (s s' : State κ) (q : Nat) : Prop
  | stays (h : Stays s s' q)
  /-- A buildvalue is moved by its own pipeline. -/
  | pipeline (hk : s.kind q = .buildValue) (hgen : SameGen s s' q)
      (h : (s.phase q).settled = false ∧ s'.phase q = .failed ∨ s'.phase q = .done)
  | unfoldFails (fr : Frame κ) (hfr : fr ∈ s.stack) (ho : fr.opens = some q)
      (hu : (s.phase q).settled = false) (hgen : SameGen s s' q) (h : s'.phase q = .failed)
  | attempts (hk : s.kind q ≠ .buildValue) (hph : s.phase q = .waiting)
      (timers : List (Nat × Nat)) (h : Attempted W s s' q timers)
  | reported (hk : s.kind q ≠ .buildValue) (hph : (s.phase q).inFlight = true)
      (h : SameGen s s' q ∧ (s'.phase q = .publishing ∨ s'.phase q = .running) ∨ Judged W s s' q)
  | committed (hk : s.kind q ≠ .buildValue) (i : Nat) (cm : Commit κ)
      (hcm : s.commits[i]? = some cm) (hptr : cm.ptr = q) (hgen : cm.gen = (s.node q).gen)
      (hcs : s'.commits = s.commits.eraseIdx i) (hph : s.phase q = .publishing)
      (h : SameGen s s' q ∧ s'.phase q = .done ∨ Judged W s s' q)

theorem Move.node {q : Nat} (hm : Move W s a s') (hf : Fenced s) (hca : a ≠ .crash)
    (hq : s.graph.Alive q) : NodeMove W s s' q := by
  -- a step that moves `n` moves no other node
  have moved : ∀ {n}, Others s s' n → (q = n → NodeMove W s s' q) → NodeMove W s s' q := by
    intro n ho hmoved
    by_cases hqn : q = n
    · exact hmoved hqn
    · exact NodeMove.stays (ho q hq hqn)
  cases hm with
  | still a s' hh hqu h | timerStale c i n gen ht hstale s' hh ht' hj h
  | staged c i cm hcm s' hcs hacc hv hqu h | stale c i cm hcm hstale s' hcs hacc hv hqu h =>
    exact NodeMove.stays (h q hq)
  | frame c fr rest hst s' hh hfr h =>
    have hmem := State.top_mem hst
    have back : ∀ {q}, Stays { s with stack := rest } s' q → Stays s s' q :=
      fun h' => h'.congr rfl rfl rfl
    cases h with
    | still hqu h => exact NodeMove.stays (back (h q hq))
    | fails n hqu hopen hu hph hgen ho =>
      refine moved (fun q hq hne => back (ho q hq hne)) fun hqn => ?_
      subst hqn
      rcases hopen with hopen | hstage
      · exact NodeMove.unfoldFails fr hmem hopen hu ⟨hgen.gen, hgen.lastGen⟩ hph
      · exact NodeMove.pipeline (hfr.stage hstage).2 ⟨hgen.gen, hgen.lastGen⟩ (Or.inl ⟨hu, hph⟩)
    | completes n hqu hdone hph hgen ho =>
      refine moved (fun q hq hne => back (ho q hq hne)) fun hqn => ?_
      subst hqn
      have hstage := stageOf_of_completing hdone
      exact NodeMove.pipeline (hfr.stage hstage).2 ⟨hgen.gen, hgen.lastGen⟩ (Or.inr hph)
    | attempts n hfr' hn hr hc h ho =>
      refine moved (fun q hq hne => back (ho q hq hne)) fun hqn => ?_
      subst hqn
      obtain ⟨hw, hk⟩ := phase_of_ready hr
      exact NodeMove.attempts hk hw s.timers (h.congr rfl rfl rfl rfl rfl rfl)
  | timer c i n ht hn hph hc s' hh h ho =>
    refine moved ho fun hqn => ?_
    subst hqn
    exact NodeMove.attempts ((hf.timers _ (List.mem_of_getElem? ht)).2 hn).1 hph _ h
  | received c res n hid hn ha hok s' hcs hacc hv hqu hph hgen ho =>
    refine moved ho fun hqn => ?_
    subst hqn
    exact NodeMove.reported (hf.placeable_of_accepts hn ha) ((accepts_iff s q res).mp ha).2.2
      (Or.inl ⟨hgen, Or.inl hph⟩)
  | judged c res n hid hn ha hok s' hcs hacc hv h ho =>
    refine moved ho fun hqn => ?_
    subst hqn
    exact NodeMove.reported (hf.placeable_of_accepts hn ha) ((accepts_iff s q res).mp ha).2.2
      (Or.inr h)
  | running name gen n hn hph s' hh hqu hph' hgen ho =>
    refine moved ho fun hqn => ?_
    subst hqn
    have hin : (s.phase q).inFlight = true := by
      rw [hph]
      rfl
    refine NodeMove.reported (fun hk => ?_) hin (Or.inl ⟨hgen, Or.inr hph'⟩)
    have hcalm := (hf.values q hq hk).1
    rw [hin] at hcalm
    cases hcalm
  | done c i cm hcm hst hn hgen hph s' hcs hacc hv hqu hph' hsame ho =>
    refine moved ho fun hqn => ?_
    subst hqn
    exact NodeMove.committed (hf.placeable_of_publishing hn hph) i cm hcm rfl hgen.symm hcs hph
      (Or.inl ⟨hsame, hph'⟩)
  | rejudged c i cm hcm e hst hn hgen hph s' hcs hacc hv h ho =>
    refine moved ho fun hqn => ?_
    subst hqn
    exact NodeMove.committed (hf.placeable_of_publishing hn hph) i cm hcm rfl hgen.symm hcs hph
      (Or.inr h)
  | crash => exact absurd rfl hca

omit [Inhabited κ] in
/-- An attempt arms at most the timer of its own generation. -/
theorem Outcome.timers {q : Nat} {timers : List (Nat × Nat)} (h : Outcome W s s' q timers) :
    ∀ t ∈ s'.timers, t ∈ timers ∨ t = (q, (s'.node q).gen) ∧ s'.phase q = .waiting := by
  intro t ht
  cases h with
  | refused hph heq | queued j st hp hph heq | goingDown j st hp hph hd heq =>
    exact Or.inl (heq ▸ ht)
  | rearmed j st hp hph heq =>
    rw [heq] at ht
    rcases List.mem_cons.mp ht with hnew | hold
    · exact Or.inr ⟨hnew, hph⟩
    · exact Or.inl hold

omit [Inhabited κ] in
theorem Judged.timers {q : Nat} (h : Judged W s s' q) :
    ∀ t ∈ s'.timers, t ∈ s.timers ∨ t = (q, (s'.node q).gen) ∧ s'.phase q = .waiting := by
  intro t ht
  cases h with
  | fails hph hgen hq | closed hc hph hgen hq => exact Or.inl (hq.timers ▸ ht)
  | rearmed hph hgen heq =>
    rw [heq, ← hgen.gen] at ht
    rcases List.mem_cons.mp ht with hnew | hold
    · exact Or.inr ⟨hnew, hph⟩
    · exact Or.inl hold
  | attempted hc h => exact h.outcome.timers t ht

/-- A timer that a step arms is for a node that waits, at its generation, which is a new one
if the node was waiting before. -/
theorem Move.timers (hm : Move W s a s') (hf : Fenced s) :
    ∀ t ∈ s'.timers, t ∈ s.timers ∨ s.graph.Alive t.1 ∧ s.kind t.1 ≠ .buildValue ∧
      t.2 = (s'.node t.1).gen ∧ s'.phase t.1 = .waiting ∧
      (s.phase t.1 = .waiting → (s.node t.1).gen < t.2) := by
  intro t ht
  have armed : ∀ {n}, s.graph.Alive n → s.kind n ≠ .buildValue →
      (s.phase n = .waiting → (s.node n).gen < (s'.node n).gen) →
      t = (n, (s'.node n).gen) ∧ s'.phase n = .waiting →
      s.graph.Alive t.1 ∧ s.kind t.1 ≠ .buildValue ∧ t.2 = (s'.node t.1).gen ∧
        s'.phase t.1 = .waiting ∧ (s.phase t.1 = .waiting → (s.node t.1).gen < t.2) := by
    intro n hn hk hnew h
    obtain ⟨rfl, hph⟩ := h
    exact ⟨hn, hk, rfl, hph, hnew⟩
  cases hm with
  | still a s' hh hqu | received c res n hid hn ha hok s' hcs hacc hv hqu
  | running name gen n hn hph s' hh hqu | staged c i cm hcm s' hcs hacc hv hqu
  | stale c i cm hcm hstale s' hcs hacc hv hqu => exact Or.inl (hqu.timers ▸ ht)
  | frame c fr rest hst s' hh hfr h =>
    cases h with
    | still hqu | fails n hqu | completes n hqu => exact Or.inl (hqu.timers ▸ ht)
    | attempts n hfr' hn hr hc h =>
      exact (h.outcome.timers t ht).imp id
        (armed hn (phase_of_ready hr).2 fun _ => Nat.lt_of_succ_le (Nat.le_of_eq h.gen.symm))
  | timer c i n htm hn hph hc s' hh h =>
    have hk := ((hf.timers _ (List.mem_of_getElem? htm)).2 hn).1
    exact (h.outcome.timers t ht).imp List.mem_of_mem_eraseIdx
      (armed hn hk fun _ => Nat.lt_of_succ_le (Nat.le_of_eq h.gen.symm))
  | timerStale c i n gen htm hstale s' hh ht' =>
    rw [ht'] at ht
    exact Or.inl (List.mem_of_mem_eraseIdx ht)
  | judged c res n hid hn ha hok s' hcs hacc hv h =>
    refine (h.timers t ht).imp id (armed hn (hf.placeable_of_accepts hn ha) fun hw => ?_)
    have hin := ((accepts_iff s n res).mp ha).2.2
    rw [hw] at hin
    cases hin
  | done c i cm hcm hst hn hgen hph s' hcs hacc hv hqu =>
    exact Or.inl (hqu.timers ▸ ht)
  | rejudged c i cm hcm e hst hn hgen hph s' hcs hacc hv h =>
    refine (h.timers t ht).imp id (armed hn (hf.placeable_of_publishing hn hph) fun hw => ?_)
    rw [hph] at hw
    cases hw
  | crash => cases ht

section

omit [Inhabited κ]

/-- A node keeps its generation, or goes to the next with an attempt. -/
theorem NodeMove.generation {q : Nat} (h : NodeMove W s s' q) :
    SameGen s s' q ∨ ∃ timers, Attempted W s s' q timers := by
  have judged : Judged W s s' q → SameGen s s' q ∨ ∃ timers, Attempted W s s' q timers := by
    intro h
    cases h with
    | fails hph hgen | rearmed hph hgen | closed hc hph hgen => exact Or.inl hgen
    | attempted hc h => exact Or.inr ⟨_, h⟩
  cases h with
  | stays h => exact Or.inl h.toSameGen
  | pipeline hk hgen | unfoldFails fr hfr ho hu hgen => exact Or.inl hgen
  | attempts hk hph timers h => exact Or.inr ⟨timers, h⟩
  | reported hk hph h | committed hk i cm hcm hptr hgen hcs hph h =>
    exact h.elim (fun hsame => Or.inl hsame.1) judged

/-- Generations do not go down. -/
theorem NodeMove.gen_le {q : Nat} (h : NodeMove W s s' q) :
    (s.node q).gen ≤ (s'.node q).gen := by
  rcases h.generation with hgen | ⟨timers, h⟩
  · exact Nat.le_of_eq hgen.gen.symm
  · have := h.gen
    omega

/-- Done is for good. -/
theorem NodeMove.done {q : Nat} (h : NodeMove W s s' q) (hd : s.phase q = .done) :
    s'.phase q = .done := by
  cases h with
  | stays h => rw [h.phase, hd]
  | pipeline hk hgen h =>
    rcases h with ⟨hu, -⟩ | h
    · rw [hd] at hu
      cases hu
    · exact h
  | unfoldFails fr hfr ho hu =>
    rw [hd] at hu
    cases hu
  | attempts hk hph | reported hk hph | committed hk i cm hcm hptr hgen hcs hph =>
    rw [hd] at hph
    cases hph

theorem Outcome.not_done {n : Nat} {timers : List (Nat × Nat)} (h : Outcome W s s' n timers) :
    s'.phase n ≠ .done := by
  cases h with
  | refused hph | queued j st hp hph | rearmed j st hp hph | goingDown j st hp hph => simp [hph]

theorem Judged.not_done {n : Nat} (h : Judged W s s' n) : s'.phase n ≠ .done := by
  cases h with
  | fails hph | rearmed hph | closed hc hph => simp [hph]
  | attempted hc h => exact h.outcome.not_done

end

/-- Who makes a node done: its own pipeline, or the end of its commit. -/
inductive Completer (s : State κ) (n : Nat) : Label κ → Prop
  | pipeline (c : Choice) (fr : Frame κ) (rest : List (Frame κ)) (hst : s.stack = fr :: rest)
      (hfr : completing { s with stack := rest } fr = some n) : Completer s n (.exec c)
  | commit (c : Choice) (i : Nat) (cm : Commit κ) (hcm : s.commits[i]? = some cm)
      (hst : cm.stage = .finished none) (hptr : cm.ptr = n) (hph : s.phase n = .publishing)
      (hgen : (s.node n).gen = cm.gen) : Completer s n (.finish c i)

/-- A node gets done: no other node moves, and its dependents are notified next. -/
structure GetsDone (s : State κ) (a : Label κ) (s' : State κ) (n : Nat) : Prop where
  completer : Completer s n a
  others : Others s s' n
  graph : s'.graph = s.graph
  notify : .notify n (s.graph.dependents n) [] ∈ s'.stack

theorem Move.getsDone {n : Nat} (hm : Move W s a s') (ha : a ≠ .crash) (hn : s.graph.Alive n)
    (hnd : s.phase n ≠ .done) (hd : s'.phase n = .done) : GetsDone s a s' n := by
  have stays : Stays s s' n → GetsDone s a s' n := fun h => absurd (h.phase ▸ hd) hnd
  have moved : ∀ {m}, Others s s' m → s'.phase m ≠ .done → GetsDone s a s' n := by
    intro m ho hm
    by_cases hnm : n = m
    · exact absurd (hnm ▸ hd) hm
    · exact stays (ho n hn hnm)
  cases hm with
  | still a s' hh hqu h | timerStale c i m gen htm hstale s' hh ht' hj h
  | staged c i cm hcm s' hcs hacc hv hqu h | stale c i cm hcm hstale s' hcs hacc hv hqu h =>
    exact stays (h n hn)
  | frame c fr rest hst s' hh hfr h =>
    have back : ∀ {q}, Stays { s with stack := rest } s' q → Stays s s' q :=
      fun h' => h'.congr rfl rfl rfl
    cases h with
    | still hqu h => exact stays (back (h n hn))
    | fails m hqu hopen hu hph hgen ho =>
      exact moved (fun q hq hne => back (ho q hq hne)) (by simp [hph])
    | completes m hqu hdone hph hgen ho hg hst' =>
      by_cases hnm : n = m
      · subst hnm
        refine ⟨Completer.pipeline c fr rest hst hdone, fun q hq hne => back (ho q hq hne), hg,
          ?_⟩
        rw [hst']
        exact List.mem_cons_self
      · exact stays (back (ho n hn hnm))
    | attempts m hfr' hma hr hc h ho =>
      exact moved (fun q hq hne => back (ho q hq hne)) h.outcome.not_done
  | timer c i m htm hma hph hc s' hh h ho => exact moved ho h.outcome.not_done
  | received c res m hid hma ha hok s' hcs hacc hv hqu hph hgen ho => exact moved ho (by simp [hph])
  | judged c res m hid hma ha hok s' hcs hacc hv h ho
  | rejudged c i cm hcm e hst hma hgen hph s' hcs hacc hv h ho => exact moved ho h.not_done
  | running name gen m hma hph s' hh hqu hph' hgen ho => exact moved ho (by simp [hph'])
  | done c i cm hcm hst hma hgen hph s' hcs hacc hv hqu hph' hsame ho hg hst' =>
    by_cases hnm : n = cm.ptr
    · subst hnm
      refine ⟨Completer.commit c i cm hcm hst rfl hph hgen, ho, hg, ?_⟩
      rw [hst']
      exact List.mem_cons_self
    · exact stays (ho n hn hnm)
  | crash => exact absurd rfl ha

omit [DecidableEq κ] [Inhabited κ] in
/-- The commit that a verdict ends is the only one for its attempt. -/
theorem attempt_ne_of_mem_eraseIdx {l : List (Commit κ)} (hl : (l.map Commit.attempt).Nodup)
    {i : Nat} {cm cm' : Commit κ} (hi : l[i]? = some cm) (hm : cm' ∈ l.eraseIdx i) :
    cm'.attempt ≠ cm.attempt := by
  obtain ⟨hlt, rfl⟩ := List.getElem?_eq_some_iff.mp hi
  have hp := ((List.getElem_cons_eraseIdx_perm hlt).map Commit.attempt).nodup_iff.mpr hl
  rw [List.map_cons, List.nodup_cons] at hp
  intro he
  exact hp.1 (he ▸ List.mem_map_of_mem hm)

/-- The commits a step leaves are old ones, or the one a result has just started. -/
theorem Move.commits (hm : Move W s a s') : ∀ cm ∈ s'.commits,
    (∃ cm₀ ∈ s.commits, cm₀.attempt = cm.attempt ∧ cm₀.id = cm.id) ∨
      ∃ c res n, a = .result c res ∧ s.graph.Alive n ∧ accepts s n res = true ∧
        cm = startCommit s n res ∧ s'.phase n = .publishing ∧ SameGen s s' n := by
  intro cm hcm
  have old : cm ∈ s.commits → (∃ cm₀ ∈ s.commits, cm₀.attempt = cm.attempt ∧ cm₀.id = cm.id) ∨
      ∃ c res n, a = .result c res ∧ s.graph.Alive n ∧ accepts s n res = true ∧
        cm = startCommit s n res ∧ s'.phase n = .publishing ∧ SameGen s s' n :=
    fun h => Or.inl ⟨cm, h, rfl, rfl⟩
  cases hm with
  | still a s' hh | frame c fr rest hst s' hh | timer c i n htm hn hph hc s' hh
  | timerStale c i n gen htm hstale s' hh | running name gen n hn hph s' hh =>
    exact old (hh.commits ▸ hcm)
  | received c res n hid hn ha hok s' hcs hacc hv hqu hph hgen =>
    rw [hcs] at hcm
    rcases List.mem_append.mp hcm with hold | hnew
    · exact old hold
    · exact Or.inr ⟨c, res, n, rfl, hn, ha, List.mem_singleton.mp hnew, hph, hgen⟩
  | judged c res n hid hn ha hok s' hcs => exact old (hcs ▸ hcm)
  | staged c i cm₀ hcm₀ s' hcs =>
    rw [hcs] at hcm
    rcases List.mem_or_eq_of_mem_set hcm with hold | hnew
    · exact old hold
    · exact Or.inl ⟨cm₀, List.mem_of_getElem? hcm₀, by rw [hnew]; rfl, by rw [hnew]⟩
  | stale c i cm₀ hcm₀ hstale s' hcs | done c i cm₀ hcm₀ hst hn hgen hph s' hcs
  | rejudged c i cm₀ hcm₀ e hst hn hgen hph s' hcs =>
    rw [hcs] at hcm
    exact old (List.mem_of_mem_eraseIdx hcm)
  | crash => cases hcm

omit [Inhabited κ] in
/-- While a commit of the current attempt is open, its node does not move. -/
theorem NodeMove.publishing {cm : Commit κ} (h : NodeMove W s s' cm.ptr) (hf : Fenced s)
    (hn : s.graph.Alive cm.ptr) (hcm : ∃ cm₀ ∈ s.commits, cm₀.attempt = cm.attempt)
    (hcm' : cm ∈ s'.commits) (hph : s.phase cm.ptr = .publishing)
    (hgen : cm.gen = (s.node cm.ptr).gen) : s'.phase cm.ptr = .publishing := by
  have hk := hf.placeable_of_publishing hn hph
  cases h with
  | stays h => rw [h.phase, hph]
  | pipeline hk' => exact absurd hk' hk
  | unfoldFails fr hfr ho =>
    obtain ⟨cm₀, hcm₀, he⟩ := hcm
    exact absurd (congrArg Prod.fst he) (hf.opens fr hfr _ ho cm₀ hcm₀)
  | attempts hk' hw =>
    rw [hph] at hw
    cases hw
  | reported hk' hin =>
    rw [hph] at hin
    cases hin
  | committed hk' i cm₁ hcm₁ hptr hgen₁ hcs =>
    rw [hcs] at hcm'
    have hne := attempt_ne_of_mem_eraseIdx hf.distinct hcm₁ hcm'
    exact absurd (Prod.ext hptr.symm (hgen.trans hgen₁.symm)) hne

theorem Move.distinct (hm : Move W s a s') (hf : Fenced s) :
    (s'.commits.map Commit.attempt).Nodup := by
  have hd := hf.distinct
  have erased : ∀ i, ((s.commits.eraseIdx i).map Commit.attempt).Nodup := fun i =>
    hd.sublist ((List.eraseIdx_sublist s.commits i).map _)
  cases hm with
  | still a s' hh | frame c fr rest hst s' hh | timer c i n htm hn hph hc s' hh
  | timerStale c i n gen htm hstale s' hh | running name gen n hn hph s' hh => exact hh.commits ▸ hd
  | received c res n hid hn ha hok s' hcs =>
    rw [hcs, List.map_append, List.nodup_append]
    refine ⟨hd, by simp, ?_⟩
    intro x hx y hy he
    obtain ⟨cm, hcm, rfl⟩ := List.mem_map.mp hx
    obtain rfl : y = (startCommit s n res).attempt := by simpa using hy
    have hptr : cm.ptr = n := congrArg Prod.fst he
    have hgen' : cm.gen = res.gen := congrArg Prod.snd he
    obtain ⟨hcur, -, hin⟩ := (accepts_iff s n res).mp ha
    have hpub := (hf.commits cm hcm (by rw [hptr]; exact hn)).2.2
      (by rw [hptr, hgen', hcur])
    rw [hptr] at hpub
    rw [hpub] at hin
    cases hin
  | judged c res n hid hn ha hok s' hcs => exact hcs ▸ hd
  | staged c i cm hcm s' hcs =>
    rw [hcs, Run.map_set_eq hcm (by rfl)]
    exact hd
  | stale c i cm hcm hstale s' hcs | done c i cm hcm hst hn hgen hph s' hcs
  | rejudged c i cm hcm e hst hn hgen hph s' hcs => exact hcs ▸ erased i
  | crash => exact List.nodup_nil

omit [Inhabited κ] in
/-- A buildvalue stays out of the queue. -/
theorem NodeMove.calm {q : Nat} (h : NodeMove W s s' q) (hk : s.kind q = .buildValue)
    (hcalm : (s.phase q).inFlight = false ∧ s.phase q ≠ .publishing) :
    (s'.phase q).inFlight = false ∧ s'.phase q ≠ .publishing := by
  cases h with
  | stays h =>
    rw [h.phase]
    exact hcalm
  | pipeline hk' hgen h =>
    have hph : s'.phase q = .failed ∨ s'.phase q = .done := h.imp And.right id
    rcases hph with hph | hph
    · simp [hph, Phase.inFlight]
    · simp [hph, Phase.inFlight]
  | unfoldFails fr hfr ho hu hgen h => simp [h, Phase.inFlight]
  | attempts hk' | reported hk' | committed hk' => exact absurd hk hk'

omit [DecidableEq κ] in
theorem Fenced.init (st : Store κ) : Fenced (State.init st) := by
  exact ⟨nofun, nofun, nofun, nofun, nofun, List.nodup_nil⟩

/-- **Every step keeps the fence.** -/
theorem Fenced.step (hf : Fenced s) (hb : Base s) (hs : step W s a = some s') : Fenced s' := by
  rcases crash_or hs with ⟨rfl, rfl⟩ | ha
  · have h := Fenced.init s.store
    exact ⟨h.values, h.timers, h.ptrs, h.opens, h.commits, h.distinct⟩
  have hm := step_move hb hf hs
  obtain ⟨hext, hfresh⟩ := step_table hb ha hs
  have old : ∀ {q}, s'.graph.Alive q → q < s.graph.next →
      s.graph.Alive q ∧ s'.graph.id q = s.graph.id q ∧ NodeMove W s s' q := by
    intro q hq hlt
    rcases hext.alive q hq with ⟨hq₀, hid⟩ | hnew
    · exact ⟨hq₀, hid, hm.node hf ha hq₀⟩
    · omega
  have ptrs : ∀ cm ∈ s'.commits, cm.ptr < s.graph.next := by
    intro cm hcm
    rcases hm.commits cm hcm with ⟨cm₀, hcm₀, he, -⟩ | ⟨c, res, n, -, hn, -, rfl, -, -⟩
    · have hptr : cm₀.ptr = cm.ptr := congrArg Prod.fst he
      exact hptr ▸ hf.ptrs cm₀ hcm₀
    · exact hb.graph.alive_lt hn
  refine ⟨?_, ?_, ?_, ?_, ?_, hm.distinct hf⟩
  · intro q hq hk
    by_cases hlt : q < s.graph.next
    · obtain ⟨hq₀, hid, hmove⟩ := old hq hlt
      have hk₀ : s.kind q = .buildValue := by
        rw [State.kind, ← hid]
        exact hk
      exact hmove.calm hk₀ (hf.values q hq₀ hk₀)
    · exact (hfresh q hq (by omega)).calm
  · intro t ht
    rcases hm.timers hf t ht with hold | ⟨hn, hk, hgen, -⟩
    · obtain ⟨hlt, hal⟩ := hf.timers t hold
      refine ⟨Nat.lt_of_lt_of_le hlt hext.next, fun hq => ?_⟩
      obtain ⟨hq₀, hid, hmove⟩ := old hq hlt
      obtain ⟨hk, hle⟩ := hal hq₀
      rw [State.kind, hid]
      exact ⟨hk, hle.trans hmove.gen_le⟩
    · have hlt := hb.graph.alive_lt hn
      refine ⟨Nat.lt_of_lt_of_le hlt hext.next, fun hq => ?_⟩
      rw [State.kind, (old hq hlt).2.1]
      exact ⟨hk, Nat.le_of_eq hgen⟩
  · exact fun cm hcm => Nat.lt_of_lt_of_le (ptrs cm hcm) hext.next
  · intro fr hfr n ho cm hcm hptr
    have hlt := ptrs cm hcm
    rcases step_opens hb hs fr hfr n ho with ⟨fr', hfr', ho'⟩ | hnew
    · rcases hm.commits cm hcm with ⟨cm₀, hcm₀, he, -⟩ | ⟨c, res, m, rfl, hn, -, rfl, -, -⟩
      · exact hf.opens fr' hfr' n ho' cm₀ hcm₀ ((congrArg Prod.fst he).trans hptr)
      · -- a result is only taken when nothing is being unfolded
        have hfree := (whenFree_some hs).1
        rw [(s.free_iff.mp hfree).1] at hfr'
        cases hfr'
    · omega
  · intro cm hcm hq
    obtain ⟨hq₀, hid, hmove⟩ := old hq (ptrs cm hcm)
    rw [hid]
    rcases hm.commits cm hcm with ⟨cm₀, hcm₀, he, hcid⟩ | ⟨c, res, n, -, hn, ha', rfl, hph, hsame⟩
    · have hptr : cm₀.ptr = cm.ptr := congrArg Prod.fst he
      have hgen : cm₀.gen = cm.gen := congrArg Prod.snd he
      obtain ⟨hid₀, hle, hpub⟩ := hf.commits cm₀ hcm₀ (by rw [hptr]; exact hq₀)
      rw [hptr] at hid₀ hle hpub
      rw [hgen] at hle hpub
      refine ⟨by rw [← hcid, hid₀], hle.trans hmove.gen_le, fun he' => ?_⟩
      have hcur : cm.gen = (s.node cm.ptr).gen := by
        have := hmove.gen_le
        omega
      exact hmove.publishing hf hq₀ ⟨cm₀, hcm₀, he⟩ hcm (hpub hcur) hcur
    · have hcur := ((accepts_iff s n res).mp ha').1
      have hgen : (startCommit s n res).gen = (s'.node n).gen := by
        rw [hsame.gen]
        exact hcur
      exact ⟨rfl, Nat.le_of_eq hgen, fun _ => hph⟩

/-- The fence holds in every state of every run. -/
theorem Reached.fenced {P : State κ → Label κ → Prop} {st : Store κ} (h : Reached W P st s) :
    Base s ∧ Fenced s :=
  h.inv (I := fun s => Base s ∧ Fenced s) ⟨Base.init st, Fenced.init st⟩
    fun _ _ _ hi _ hs => ⟨hi.1.step hs, hi.2.step hi.1 hs⟩

/-- What a step from a fenced state keeps holds in every state of a run. -/
theorem Reached.inv_fenced {P : State κ → Label κ → Prop} {st : Store κ} {I : State κ → Prop}
    (h : Reached W P st s) (h₀ : I (State.init st))
    (hstep : ∀ s a s', Base s → Fenced s → P s a → step W s a = some s' → I s → I s') :
    (Base s ∧ Fenced s) ∧ I s := by
  refine h.inv (I := fun s => (Base s ∧ Fenced s) ∧ I s) ⟨⟨Base.init st, Fenced.init st⟩, h₀⟩ ?_
  intro s a s' hi hp hs
  obtain ⟨⟨hb, hf⟩, hi⟩ := hi
  exact ⟨⟨hb.step hs, hf.step hb hs⟩, hstep s a s' hb hf hp hs hi⟩

/-- **One commit for an attempt**, in every run: no two are under way for one attempt, and a
node whose current attempt has one is publishing. -/
theorem one_commit_per_attempt (W : World κ) (st : Store κ) (as : List (Label κ)) :
    (Run.run (step W) (State.init st) as).all fun s => (s.commits.map Commit.attempt).Nodup ∧
      ∀ cm ∈ s.commits, s.graph.Alive cm.ptr → cm.gen = (s.node cm.ptr).gen →
        s.phase cm.ptr = .publishing := by
  simp only [Option.all_eq_true, decide_eq_true_eq]
  intro s hrun
  have hf := (Reached.fenced (Run.Steps.of_run _ hrun)).2
  exact ⟨hf.distinct, fun cm hcm hn => (hf.commits cm hcm hn).2.2⟩

end

end JobsIroh
