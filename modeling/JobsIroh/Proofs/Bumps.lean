/-
What a step does to the statuses of the requests.

The ticker only looks at the requests when the version has moved.  A step that leaves the
version alone leaves every status alone, with one exception: a verdict that has its job run
again puts the node back and leaves the bump to the enqueue, which makes none when the
publish fails.
-/
import JobsIroh.Proofs.Snapshots
import JobsIroh.Sched.Mirror

namespace JobsIroh

variable {κ : Type} [DecidableEq κ]

/-! ### Steps that leave the statuses alone -/

/-- Nothing a status shows has moved. -/
structure Unmoved (s s' : State κ) : Prop where
  graph : s'.graph = s.graph
  phase : ∀ n, s'.phase n = s.phase n

section

variable {W : World κ} {c : Choice} {s s' s'' : State κ} {n : Nat}

section

omit [DecidableEq κ]

theorem Unmoved.refl (s : State κ) : Unmoved s s := ⟨rfl, fun _ => rfl⟩

theorem Unmoved.of_node (hg : s'.graph = s.graph) (hn : s'.node = s.node) : Unmoved s s' :=
  ⟨hg, fun n => by unfold State.phase; rw [hn]⟩

theorem Unmoved.trans (h : Unmoved s s') (h' : Unmoved s' s'') : Unmoved s s'' :=
  ⟨h'.graph.trans h.graph, fun n => (h'.phase n).trans (h.phase n)⟩

end

theorem Unmoved.deleteScratch (h : Unmoved s s') (ns ref : String) :
    Unmoved s (deleteScratch W ns ref s') := by
  rw [deleteScratch_eta]
  exact ⟨h.graph, h.phase⟩

section

omit [DecidableEq κ]

/-- A node that keeps its phase. -/
theorem Unmoved.setNode (s : State κ) (n : Nat) (nd : Node κ) (hph : nd.phase = s.phase n) :
    Unmoved s (s.setNode n nd) := by
  refine ⟨rfl, fun m => ?_⟩
  by_cases hm : m = n
  · subst hm
    show ((s.setNode m nd).node m).phase = _
    rw [State.setNode_node]
    exact hph
  · show ((s.setNode n nd).node m).phase = _
    rw [State.setNode_node_ne s nd hm]
    rfl

theorem Unmoved.closurePhases (h : Unmoved s s') (t : Nat) :
    closurePhases s' t = closurePhases s t := by
  unfold JobsIroh.closurePhases
  simp only [h.graph, h.phase]

/-- The status of a request, whatever the watchdog has noted of it. -/
theorem Unmoved.requestStatus (h : Unmoved s s') (ns : Nat) (r : Request κ) (since : Option Nat) :
    requestStatus s' ns { r with noRunnersSince := since } = requestStatus s ns r := by
  have hphase : assembleLocked s' { r with noRunnersSince := since } = assembleLocked s r := by
    unfold assembleLocked
    simp only [h.closurePhases, h.phase]
  unfold JobsIroh.requestStatus
  simp only [hphase, h.closurePhases]

theorem failNodeLocked_unmoved {e : String} (h : failNodeBumps s n = false) :
    Unmoved s (failNodeLocked s n e) := by
  unfold failNodeLocked
  rw [if_pos (by simpa [failNodeBumps] using h)]
  exact Unmoved.refl s

end

theorem bumpGen_phase (s : State κ) (n m : Nat) : (bumpGen s n).phase m = s.phase m :=
  (Unmoved.setNode s n
    { s.node n with gen := (s.node n).gen + 1, runner := "", queueSeq := 0 } rfl).phase m

/-- A waiting node whose enqueue does not bump goes on waiting. -/
theorem enqueueLocked_unmoved (h : enqueueBumps W c s n = false) (hw : s.phase n = .waiting) :
    Unmoved s (enqueueLocked W c s n) := by
  have hgen : Unmoved s (bumpGen s n) := ⟨rfl, bumpGen_phase s n⟩
  unfold enqueueLocked
  unfold enqueueBumps at h
  split at h
  · rename_i hc
    rw [if_pos hc]
    exact Unmoved.refl s
  rename_i hc
  rw [if_neg hc]
  dsimp only at h ⊢
  obtain ⟨⟨st, r⟩, hpull⟩ : ∃ p, computePullRefsLocked W c (bumpGen s n).store
      ((bumpGen s n).graph.id n) ((bumpGen s n).node n) = p := ⟨_, rfl⟩
  rw [hpull] at h ⊢
  cases r with
  | error e => simp [failNodeBumps, bumpGen_phase, hw, Phase.settled] at h
  | ok pull =>
    have hnone : c.publish = none := by simpa using h
    unfold publishJob
    rw [hnone]
    dsimp only
    split
    · exact ⟨hgen.graph, hgen.phase⟩
    · refine hgen.trans ⟨rfl, fun m => ?_⟩
      have hset := Unmoved.setNode (bumpGen s n) n
        { (bumpGen s n).node n with phase := .waiting } (by rw [bumpGen_phase, hw])
      exact hset.phase m

/-- A verdict that is acted on bumps: the node fails, or it waits for a timer, or its job is
published again. -/
theorem retryBumps_true (summary : String) (control : Bool) (hph : (s.phase n).settled = false)
    (hagain : control = true → s.closed = false ∧ c.publish ≠ none) :
    retryBumps W c s n summary control = true := by
  unfold retryBumps
  dsimp only
  split
  · rename_i hcon
    obtain ⟨hclosed, hpub⟩ := hagain hcon
    split
    · have := (Unmoved.setNode s n
        { s.node n with consecControl := (s.node n).consecControl + 1 } rfl).phase n
      unfold failNodeBumps
      rw [this, hph]
      rfl
    · unfold enqueueBumps
      rw [if_neg (by simpa [State.setNode] using hclosed)]
      dsimp only
      split
      · unfold failNodeBumps
        rw [bumpGen_phase]
        unfold State.phase
        rw [State.setNode_node]
        rfl
      · exact Option.isSome_iff_ne_none.mpr hpub
  · split
    · unfold failNodeBumps
      rw [hph]
      rfl
    · rfl

theorem retryLocked_unmoved {summary : String}
    (h : retryBumps W c s n summary false = false) :
    Unmoved s (retryLocked W c s n summary false) := by
  unfold retryBumps at h
  unfold retryLocked
  rw [if_neg Bool.false_ne_true] at h ⊢
  split at h
  · rename_i hover
    rw [if_pos hover]
    have hset := Unmoved.setNode s n
      { s.node n with consecRetry := (s.node n).consecRetry + 1, consecControl := 0 } rfl
    refine hset.trans (failNodeLocked_unmoved ?_)
    unfold failNodeBumps at h ⊢
    rw [hset.phase]
    exact h
  · cases h

end

/-- The verdict has the job run again. -/
def ResultClass.reruns : ResultClass → Bool
  | .control | .cancelled => true
  | _ => false

section

variable {W : World κ} {c : Choice} {s s' : State κ} {n : Nat}

theorem acceptResult_unmoved {res : Result} (hacc : accepts s n res = true)
    (hagain : res.cls.reruns = true → s.closed = false ∧ c.publish ≠ none)
    (h : applyClassBumps W c
      (s.setNode n { s.node n with lastResultGen := res.gen, runner := res.runner }) n res =
        false) :
    Unmoved s (acceptResult W c s n res) := by
  have hset := Unmoved.setNode s n
    { s.node n with lastResultGen := res.gen, runner := res.runner } rfl
  have hflight : (s.phase n).settled = false := by
    unfold accepts at hacc
    simp only [Bool.and_eq_true] at hacc
    have hin := hacc.2
    revert hin
    cases s.phase n <;> simp [Phase.inFlight, Phase.settled]
  have hph := (congrArg Phase.settled (hset.phase n)).trans hflight
  unfold applyClassBumps at h
  unfold acceptResult applyClass
  cases hcls : res.cls with
  | ok => rw [hcls] at h; cases h
  | hard | unknown =>
    rw [hcls] at h
    simp [failNodeBumps, hph] at h
  | retryable =>
    rw [hcls] at h
    simp [retryBumps_true res.errSummary false hph (by simp)] at h
  | control =>
    rw [hcls] at h hagain
    simp [retryBumps_true (W := W) res.errSummary true hph fun _ => hagain rfl] at h
  | cancelled =>
    rw [hcls] at h hagain
    rw [retryBumps_true res.errSummary true hph fun _ => hagain rfl] at h
    have hint : s.graph.interest n = [] := by
      by_contra hne
      simp [State.setNode, hne] at h
    dsimp only
    refine Unmoved.deleteScratch ?_ _ _
    rw [if_neg (by simpa [State.setNode] using hint)]
    exact ⟨hset.graph, hset.phase⟩

theorem handleResult_unmoved {res : Result}
    (hagain : res.cls.reruns = true → s.closed = false ∧ c.publish ≠ none)
    (h : resultBumps W c s res = false) : Unmoved s (handleResult W c s res) := by
  have hdrop := (Unmoved.refl s).deleteScratch (W := W) runnerScratchPrefix res.scratchRef
  unfold resultBumps at h
  unfold handleResult
  cases hid : parseNodeName W res.node with
  | none => exact hdrop
  | some id =>
    rw [hid] at h
    dsimp only at h ⊢
    cases hn : s.graph.nodes id with
    | none => exact hdrop
    | some n =>
      rw [hn] at h
      dsimp only at h ⊢
      split
      · rename_i hacc
        rw [hacc, Bool.true_and] at h
        exact acceptResult_unmoved hacc hagain h
      · exact hdrop

omit [DecidableEq κ] in
theorem nodeDoneLocked_unmoved (h : s.phase n = .done) : Unmoved s (nodeDoneLocked s n) := by
  unfold nodeDoneLocked
  rw [if_pos h]
  exact Unmoved.refl s

theorem finishCommit_unmoved {cm : Commit κ} {err : Option CommitError} {cms : List (Commit κ)}
    (hst : cm.stage = .finished err) (h : commitBumps W c s cm = false) :
    Unmoved s (finishCommit W c { s with commits := cms } cm err) := by
  refine Unmoved.deleteScratch ?_ _ _
  unfold commitBumps at h
  split
  · rename_i hcur
    rw [if_pos hcur, hst] at h
    unfold applyCommit
    split
    · have hdone : s.phase cm.ptr = .done := by simpa using h
      obtain ⟨node, heq, hl⟩ := applyRecipeLabelLocked_eq
        (({ s with commits := cms, verdicts := (cm.id, cm.gen) :: s.verdicts } : State κ).setNode
          cm.ptr { s.node cm.ptr with consecRetry := 0, consecControl := 0 }) cm.ptr cm.refs
      have hset := Unmoved.setNode s cm.ptr
        { s.node cm.ptr with consecRetry := 0, consecControl := 0 } rfl
      have hlab : Unmoved s ({ s with
          commits := cms, verdicts := (cm.id, cm.gen) :: s.verdicts, node := node } : State κ) := by
        refine ⟨rfl, fun m => ?_⟩
        obtain ⟨label, hm⟩ := hl m
        refine Eq.trans ?_ (hset.phase m)
        show (node m).phase = _
        rw [hm]
        rfl
      rw [show applyRecipeLabelLocked _ _ _ = _ from heq]
      exact hlab.trans (nodeDoneLocked_unmoved ((hlab.phase _).trans hdone))
    · have hfail := failNodeLocked_unmoved
        (s := ({ s with commits := cms, verdicts := (cm.id, cm.gen) :: s.verdicts } : State κ))
        (e := CommitError.text (.gate ‹_›)) h
      exact ⟨hfail.graph, hfail.phase⟩
    · have hretry := retryLocked_unmoved (W := W) (c := c)
        (s := ({ s with commits := cms, verdicts := (cm.id, cm.gen) :: s.verdicts } : State κ))
        h
      exact ⟨hretry.graph, hretry.phase⟩
  · exact ⟨rfl, fun _ => rfl⟩

theorem fireTimer_unmoved {n gen : Nat} {ts : List (Nat × Nat)}
    (h : ((s.graph.nodes (s.graph.id n) = some n ∧ s.closed = false ∧ (s.node n).gen = gen ∧
      s.phase n = .waiting ∧ s.graph.interest n ≠ [] : Bool) && enqueueBumps W c s n) = false) :
    Unmoved s (fireTimer W c { s with timers := ts } n gen) := by
  unfold fireTimer
  split
  · rename_i hcur
    have hbump : enqueueBumps W c s n = false :=
      (Bool.and_eq_false_iff.mp h).resolve_left fun hno => of_decide_eq_false hno hcur
    have henq := enqueueLocked_unmoved (s := { s with timers := ts }) hbump hcur.2.2.2.1
    exact ⟨henq.graph, henq.phase⟩
  · exact ⟨rfl, fun _ => rfl⟩

theorem onLogChunk_unmoved {name : String} {gen : Nat}
    (h : bumps W s (.logChunk name gen) = false) :
    Unmoved s (onLogChunk W s name gen) := by
  dsimp only [bumps] at h
  unfold onLogChunk
  cases hid : parseNodeName W name with
  | none => exact Unmoved.refl s
  | some id =>
    rw [hid] at h
    dsimp only at h ⊢
    cases hn : s.graph.nodes id with
    | none => exact Unmoved.refl s
    | some n =>
      rw [hn] at h
      dsimp only at h ⊢
      rw [if_neg (by simpa using h)]
      exact Unmoved.refl s

theorem checkNoRunnersLocked_watched {rid : ReqID} {now : Nat} {reason : String}
    (h : bumps W s (.watchdog rid now reason) = false) :
    checkNoRunnersLocked s rid now reason = s ∨ ∃ r since, s.requests rid = some r ∧
      checkNoRunnersLocked s rid now reason =
        setRequest s rid (some { r with noRunnersSince := since }) := by
  dsimp only [bumps] at h
  unfold checkNoRunnersLocked
  split
  · exact Or.inl rfl
  rename_i r hr
  split
  · exact Or.inr ⟨r, none, hr, rfl⟩
  rename_i hlive
  split
  · exact Or.inr ⟨r, some now, hr, rfl⟩
  rename_i since hsince
  split
  · exact Or.inl rfl
  rename_i hlate
  exfalso
  rw [hr, Option.any_some, hsince, Option.any_some] at h
  simp only [not_or] at hlive
  simp [hlive, Nat.le_of_not_lt hlate] at h

variable [Inhabited κ] {a : Label κ}

/-- A verdict that has its job run again gets it published. -/
def Republishes (s : State κ) : Label κ → Bool
  | .result c res => !res.cls.reruns || (!s.closed && c.publish.isSome)
  | _ => true

theorem step_unmoved (ha : a ≠ .crash) (hs : step W s a = some s')
    (hpub : Republishes s a = true) (h : bumps W s a = false) : Unmoved s s' := by
  cases a with
  | exec => cases h
  | prepare =>
    unfold step at hs
    dsimp only at hs
    split at hs <;> · rw [← Option.some.inj hs]; exact .of_node rfl rfl
  | submit =>
    unfold step at hs
    dsimp only at hs
    split at hs
    · cases hs
    split at hs
    · cases hs
    obtain ⟨-, rfl⟩ := whenFree_some hs
    rw [if_pos (by simpa [bumps] using h)]
    exact .of_node rfl rfl
  | cancel =>
    obtain ⟨-, rfl⟩ := whenFree_some hs
    dsimp only [bumps] at h
    unfold cancel
    split
    · exact Unmoved.refl s
    · rename_i r hr
      rw [hr] at h
      rw [if_pos (by simpa using h)]
      exact Unmoved.refl s
  | delete rid =>
    obtain ⟨-, rfl⟩ := whenFree_some hs
    have hr : s.requests rid = none := by simpa [bumps] using h
    unfold delete
    rw [hr]
    exact Unmoved.refl s
  | watchdog =>
    obtain ⟨-, rfl⟩ := whenFree_some hs
    rcases checkNoRunnersLocked_watched h with heq | ⟨r, since, -, heq⟩ <;> rw [heq] <;>
      exact .of_node rfl rfl
  | result =>
    obtain ⟨-, rfl⟩ := whenFree_some hs
    refine handleResult_unmoved (fun hcls => ?_) h
    simpa [Republishes, hcls, Option.isSome_iff_ne_none] using hpub
  | commit =>
    unfold step at hs
    dsimp only at hs
    split at hs
    · cases hs
    · rw [← Option.some.inj hs]
      exact .of_node rfl rfl
  | finish =>
    dsimp only [bumps] at h
    unfold step at hs
    dsimp only at hs
    split at hs
    · cases hs
    rename_i cm hcm
    rw [hcm] at h
    split at hs
    · rename_i err hst
      obtain ⟨-, rfl⟩ := whenFree_some hs
      exact finishCommit_unmoved hst h
    · cases hs
  | timer =>
    dsimp only [bumps] at h
    unfold step at hs
    dsimp only at hs
    split at hs
    · cases hs
    rename_i n gen ht
    rw [ht] at h
    obtain ⟨-, rfl⟩ := whenFree_some hs
    exact fireTimer_unmoved h
  | logChunk =>
    obtain ⟨-, rfl⟩ := whenFree_some hs
    exact onLogChunk_unmoved h
  | hello =>
    obtain ⟨-, rfl⟩ := whenFree_some hs
    unfold onRunnerHello
    split
    · exact Unmoved.refl s
    · exact .of_node rfl rfl
  | heartbeat =>
    obtain ⟨-, rfl⟩ := whenFree_some hs
    unfold onRunnerHeartbeat
    split
    · exact Unmoved.refl s
    · exact .of_node rfl rfl
  | close =>
    obtain ⟨-, rfl⟩ := whenFree_some hs
    exact .of_node rfl rfl
  | crash => exact absurd rfl ha
  | _ => rw [← Option.some.inj hs]; exact .of_node rfl rfl

/-- A new request is one that has yet to be accepted. -/
theorem new_request_joins {rid : ReqID} {r' : Request κ} (hb : Base s)
    (hs : step W s a = some s') (hr : s.requests rid = none) (hr' : s'.requests rid = some r') :
    (∃ t scratch, .submitted rid t scratch ∈ s'.stack) ∧
      ∃ c i, a = .submit c i rid ∧ s.closed = false := by
  obtain ⟨c, i, rfl⟩ : ∃ c i, a = .submit c i rid := by
    by_contra hno
    rw [step_no_request hb hs hr fun c i heq => hno ⟨c, i, heq⟩] at hr'
    cases hr'
  cases step_rule hb.graph hs with
  | submitClosed c i rid =>
    rw [show State.requests { s with submits := s.submits.eraseIdx i } rid = none from hr] at hr'
    cases hr'
  | nothing => rw [hr] at hr'; cases hr'
  | fleet a fleet =>
    rw [show State.requests { s with fleet := fleet } rid = none from hr] at hr'
    cases hr'
  | submit c i rid sub hsub hrid hfree hclosed =>
    obtain ⟨fs, hst, -⟩ := joinSubmit_stack hb i sub rid
    refine ⟨⟨s.graph.occupant ⟨.buildValue, sub.k⟩, sub.scratchRef, ?_⟩, c, i, rfl, hclosed⟩
    rw [hst]
    exact List.mem_append_right _ List.mem_cons_self

/-- **A step that leaves the version alone leaves every status alone.** -/
theorem step_status (hb : Base s) (ha : a ≠ .crash) (hs : step W s a = some s')
    (hpub : Republishes s a = true) (h : bumps W s a = false) (rid : ReqID) (ns : Nat) :
    (s'.requests rid).map (requestStatus s' ns) = (s.requests rid).map (requestStatus s ns) := by
  have hsame := step_unmoved ha hs hpub h
  cases hr : s.requests rid with
  | none =>
    rw [Option.map_none, Option.map_eq_none_iff]
    by_contra hne
    obtain ⟨r', hr'⟩ := Option.ne_none_iff_exists'.mp hne
    obtain ⟨-, c, i, rfl, hclosed⟩ := new_request_joins hb hs hr hr'
    simp [bumps, hclosed] at h
  | some r =>
    have hkeep : ∀ since, some (requestStatus s' ns { r with noRunnersSince := since }) =
        some (requestStatus s ns r) := fun since => by rw [hsame.requestStatus]
    have hstep := step_request hb hs hr
    generalize ho : s'.requests rid = o at hstep
    cases hstep with
    | kept => exact hkeep r.noRunnersSince
    | watched now reason since => exact hkeep since
    | starved now reason msg hmsg ht =>
      obtain ⟨-, rfl⟩ := whenFree_some hs
      exfalso
      have hfail : r.failReason = "" := by
        by_contra hne
        unfold assembleLocked at ht
        by_cases hc : r.cancelled = true <;> simp [hc, hne, terminal] at ht
      rcases checkNoRunnersLocked_watched h with heq | ⟨r', since, hr', heq⟩
      · rw [heq, hr] at ho
        exact hmsg ((congrArg Request.failReason (Option.some.inj ho)).symm.trans hfail)
      · rw [heq] at ho
        simp only [setRequest, Function.update_self] at ho
        obtain rfl := Option.mem_unique hr' hr
        exact hmsg ((congrArg Request.failReason (Option.some.inj ho)).symm.trans hfail)
    | cancelled =>
      have hc : r.cancelled = true := by simpa [bumps, hr] using h
      have hself : { r with cancelled := true } = r := by rw [← hc]
      rw [hself]
      exact hkeep r.noRunnersSince
    | deleted => simp [bumps, hr] at h
    | rejected => cases h
    | crashed => exact absurd rfl ha

/-- A request that is over is over for good. -/
theorem terminal_step {rid : ReqID} {r r' : Request κ} (hb : Base s) (hf : Fenced s)
    (hpl : Pipelines s) (ha : a ≠ .crash) (hs : step W s a = some s')
    (hr : s.requests rid = some r) (hr' : s'.requests rid = some r')
    (h : terminal (assembleLocked s r) = true) : terminal (assembleLocked s' r') = true := by
  -- what is withdrawn or has failed of itself is over whatever its nodes do
  have hover : ∀ {s₁ : State κ} {r₁ : Request κ}, r₁.live = false →
      terminal (assembleLocked s₁ r₁) = true := by
    intro s₁ r₁ h₁
    unfold assembleLocked
    by_cases hc : r₁.cancelled = true
    · simp [hc, terminal]
    · have hfail : r₁.failReason ≠ "" := by simpa [Request.live, hc] using h₁
      simp [hc, hfail, terminal]
  have hkept : ∀ since, r' = { r with noRunnersSince := since } →
      terminal (assembleLocked s' r') = true := by
    intro since heq
    by_cases hlive : r.live = true
    · obtain ⟨hc, hfail⟩ := r.live_iff.mp hlive
      have hc' : r'.cancelled = false := by rw [heq]; exact hc
      have hfail' : r'.failReason = "" := by rw [heq]; exact hfail
      have htarget : r'.target = r.target := by rw [heq]
      have ht := hb.target_alive hr hc hfail
      by_cases hdone : s.phase r.target = .done
      · have hdone' := ((step_move hb hf hs).node hf ha ht).done hdone
        rw [(assembleLocked_done_iff hc' hfail').mpr (htarget ▸ hdone')]
        rfl
      have hst : Stricken s r.target := by
        have hne : assembleLocked s r ≠ .running := by simpa [terminal] using h
        rw [assembleLocked_live hc hfail, if_neg hdone] at hne
        rw [← closurePhases_failed hb.graph ht]
        by_contra hno
        rw [if_neg hno] at hne
        exact hne rfl
      have hst' := hst.step hpl hb hf ha hs ht
      rw [← htarget] at hst'
      exact hst'.over (hb.step hs) hr' hc' hfail'
    · refine hover ?_
      rw [heq]
      simpa [Request.live] using hlive
  have hstep := step_request hb hs hr
  rw [hr'] at hstep
  generalize ho : some r' = o at hstep
  cases hstep with
  | kept => exact hkept r.noRunnersSince (Option.some.inj ho)
  | watched now reason since => exact hkept since (Option.some.inj ho)
  | starved now reason msg hmsg ht => simp [h] at ht
  | cancelled =>
    rw [Option.some.inj ho]
    exact hover (by simp [Request.live])
  | _ => cases ho

/-- The end of a submit stays on the stack until it runs. -/
theorem submitted_stays {rid : ReqID} {t : Nat} {scratch : String} (hb : Base s) (ha : a ≠ .crash)
    (hs : step W s a = some s') (hfr : .submitted rid t scratch ∈ s.stack)
    (hno : s.writesStatus a ≠ some rid) : .submitted rid t scratch ∈ s'.stack := by
  rcases step_cases hb ha hs with ⟨c, fr, rest, rfl, hp, hst, he⟩ | haside
  · obtain ⟨fs, p, hst', -⟩ := he.stack hb.graph
    rw [hst] at hfr
    rcases List.mem_cons.mp hfr with rfl | hrest
    · exact absurd (by unfold State.writesStatus; rw [hp, hst]) hno
    · rw [hst']
      simp [hrest]
  · exact haside.frames _ hfr

end

end JobsIroh
