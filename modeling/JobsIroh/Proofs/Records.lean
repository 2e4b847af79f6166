/-
What a step writes in the record of a node, besides its phase.

The inputs a node has read, the F and KP a buildvalue has resolved and the definition a
node was made for are written by the node's own frames and by nobody else.  `RecordStep`
lists these writes.
-/
import JobsIroh.Proofs.Fence

namespace JobsIroh

variable {κ : Type} [DecidableEq κ]

/-- Nothing a node has read or resolved is changed; a missing definition or
platform may be filled in. -/
structure Kept (nd nd' : Node κ) : Prop where
  inputs : nd'.inputs = nd.inputs
  pinInputs : nd'.pinInputs = nd.pinInputs
  runInputs : nd'.runInputs = nd.runInputs
  f : nd'.f = nd.f
  kp : nd'.kp = nd.kp
  defn : nd.defn ≠ [] → nd'.defn = nd.defn
  platform : nd.platform ≠ "" → nd'.platform = nd.platform

section

omit [DecidableEq κ]

theorem Kept.refl (nd : Node κ) : Kept nd nd :=
  ⟨rfl, rfl, rfl, rfl, rfl, fun _ => rfl, fun _ => rfl⟩

theorem Kept.of_eq {nd nd' : Node κ} (h : nd' = nd) : Kept nd nd' := h ▸ Kept.refl nd

theorem Kept.trans {nd₁ nd₂ nd₃ : Node κ} (h : Kept nd₁ nd₂) (h' : Kept nd₂ nd₃) :
    Kept nd₁ nd₃ := by
  refine ⟨h'.inputs.trans h.inputs, h'.pinInputs.trans h.pinInputs,
    h'.runInputs.trans h.runInputs, h'.f.trans h.f, h'.kp.trans h.kp, fun hne => ?_, fun hne => ?_⟩
  · have h₂ := h.defn hne
    rw [h'.defn (by rw [h₂]; exact hne), h₂]
  · have h₂ := h.platform hne
    rw [h'.platform (by rw [h₂]; exact hne), h₂]

end

/-- What a frame writes in the record of the node `q`. -/
inductive RecordStep (W : World κ) (c : Choice) (s : State κ) (fr : Frame κ) (q : Nat)
    (nd' : Node κ) : Prop
  | kept (h : Kept (s.node q) nd')
  | read (nd : Node κ) (rest : List NamedInput) (hfr : fr = .unfold q)
      (h : UnfoldRead W c s q nd rest) (hk : Kept nd nd')
  | fetcher (nd : Node κ) (d : ImportDef) (hfr : fr = .unfold q) (h : FetcherRead W s q nd d)
      (hk : Kept nd nd')
  /-- The inputs cannot be read: the node has failed. -/
  | unreadable (hfr : fr = .unfold q) (hset : nd'.phase.settled = true)
      (hf : nd'.f = (s.node q).f) (hkp : nd'.kp = (s.node q).kp)
      (hdefn : nd'.defn = (s.node q).defn)
      (hp : s.kind q = .importK ∨ nd'.platform = (s.node q).platform)
  | loop (ni : NamedInput) (rest : List NamedInput) (hfr : fr = .unfolding q (ni :: rest))
      (hk : Kept (keepInput (s.node q) (s.kind q) ni.input) nd')
  | resolvedF (bf : Nat) (f : κ) (hfr : fr = .afterFrom q bf) (hf : (s.node q).f = none)
      (hr : s.store.refs (.buildFrom (s.key q)) = some f)
      (hk : Kept { s.node q with f := some f } nd')
  | resolvedKP (kp : κ) (hfr : fr.stageOf = some q)
      (hkp : (s.node q).kp = none ∧
          (∃ f, (s.node q).f = some f ∧ s.store.refs (.pinCover f) = some kp) ∨
        fr = .putPinCover q kp)
      (hk : Kept { s.node q with kp := some kp } nd')

section

variable {W : World κ} {c : Choice} {s s' : State κ} {n q : Nat} {fr : Frame κ}

section

omit [DecidableEq κ]

theorem failedNode_kept (nd : Node κ) (e : String) : Kept nd (failedNode nd e) := by
  unfold failedNode
  split
  · exact Kept.refl nd
  · exact ⟨rfl, rfl, rfl, rfl, rfl, fun _ => rfl, fun _ => rfl⟩

theorem fillNode_kept (nd : Node κ) (defn : Bytes) (platform label : String) :
    Kept nd (fillNode nd defn platform label) := by
  refine ⟨rfl, rfl, rfl, rfl, rfl, fun hne => ?_, fun hne => ?_⟩
  · simp [fillNode, hne]
  · simp [fillNode, hne]

theorem failedNode_defn (nd : Node κ) (e : String) : (failedNode nd e).defn = nd.defn := by
  unfold failedNode
  split <;> rfl

theorem failedNode_platform (nd : Node κ) (e : String) :
    (failedNode nd e).platform = nd.platform := by
  unfold failedNode
  split <;> rfl

/-- A write to one node that keeps its record keeps all records. -/
theorem Kept.update (nd : Node κ) (hnode : s'.node = Function.update s.node n nd)
    (h : Kept (s.node n) nd) (q : Nat) : Kept (s.node q) (s'.node q) := by
  rw [hnode]
  by_cases hqn : q = n
  · subst hqn
    rw [Function.update_self]
    exact h
  · rw [Function.update_of_ne hqn]
    exact Kept.refl _

theorem failNodeLocked_kept (s : State κ) (n : Nat) (e : String) (q : Nat) :
    Kept (s.node q) ((failNodeLocked s n e).node q) := by
  rw [failNodeLocked_eq]
  exact Kept.update _ rfl (failedNode_kept (s.node n) e) q

theorem nodeDoneLocked_kept (s : State κ) (n q : Nat) :
    Kept (s.node q) ((nodeDoneLocked s n).node q) := by
  unfold nodeDoneLocked
  split
  · exact Kept.refl _
  · exact Kept.update { s.node n with phase := .done, errSummary := "" } rfl
      ⟨rfl, rfl, rfl, rfl, rfl, fun _ => rfl, fun _ => rfl⟩ q

end

theorem Attempt.kept {st : Store κ} {id : NodeID κ} {down : Bool} {nd nd' : Node κ}
    {timers timers' : List (Nat × Nat)} {jobs jobs' : List (Job κ)}
    (h : Attempt W st n id down nd timers jobs nd' timers' jobs') : Kept nd nd' := by
  cases h with
  | refused e => exact failedNode_kept nd e
  | queued seq job hj | rearmed job hj =>
    exact ⟨rfl, rfl, rfl, rfl, rfl, fun _ => rfl, fun _ => rfl⟩
  | goingDown => exact Kept.refl _

theorem enqueueLocked_kept (W : World κ) (c : Choice) (s : State κ) (n q : Nat) :
    Kept (s.node q) ((enqueueLocked W c s n).node q) := by
  rcases enqueueLocked_eq W c s n with ⟨-, heq⟩ | ⟨st, nd, timers, jobs, heq, -, hat⟩
  · rw [heq]
    exact Kept.refl _
  · have hb : Kept (s.node n) (bumped (s.node n)) :=
      ⟨rfl, rfl, rfl, rfl, rfl, fun _ => rfl, fun _ => rfl⟩
    rw [heq]
    exact Kept.update _ rfl (hb.trans hat.kept) q

theorem maybeEnqueueLocked_kept (W : World κ) (c : Choice) (s : State κ) (n q : Nat) :
    Kept (s.node q) ((maybeEnqueueLocked W c s n).node q) := by
  unfold maybeEnqueueLocked
  split
  · exact enqueueLocked_kept W c s n q
  · exact Kept.refl _

/-- A join fills in the node that was there, and touches no other node of the table. -/
theorem Joined.kept {st : Store κ} {id : NodeID κ} {defn : Bytes} {platform label : String}
    {lg lg' : NodeID κ → Nat} {nd : Node κ} {fs : List (Frame κ)} (hg : s.graph.Inv s.target)
    (hj : Joined c st id ((s.graph.nodes id).map s.node) defn platform label
      (s.graph.occupant id) lg nd fs lg')
    (hnode : s'.node = Function.update s.node (s.graph.occupant id) nd) (hq : s.graph.Alive q) :
    Kept (s.node q) (s'.node q) := by
  rcases hj.table_node hg hq with ⟨hqo, -, hfill, -⟩ | ⟨hne, -⟩
  · rw [hnode, ← hqo, ← hfill, Function.update_self]
    exact fillNode_kept _ _ _ _
  · rw [hnode, Function.update_of_ne hne]
    exact Kept.refl _

theorem require_kept (hg : s.graph.Inv s.target) (kind : Kind) (k : κ) (defn : Bytes)
    (platform : String) (p : Nat) (label : String) (ret : Nat → List (Frame κ))
    (hq : s.graph.Alive q) :
    Kept (s.node q) ((require c s kind k defn platform p label ret).node q) := by
  obtain ⟨nd, fs, lg, heq, hj⟩ := require_eq hg kind k defn platform p label ret
  rw [heq]
  exact hj.kept hg rfl hq

theorem requireStage_kept (hg : s.graph.Inv s.target) (bv : Nat) (kind : Kind) (k : κ)
    (defn : Bytes) (ret : Nat → Frame κ) (hq : s.graph.Alive q) :
    Kept (s.node q) ((requireStage c s bv kind k defn ret).node q) :=
  require_kept hg _ _ _ _ _ _ _ hq

/-- A loop turn keeps what `keepInput` wrote. -/
theorem InputStep.kept {i : Input} (h : InputStep W c s n i s') (hg : s.graph.Inv s.target)
    (hq : s.graph.Alive q) : Kept (s.node q) (s'.node q) := by
  cases h with
  | tree => exact Kept.refl _
  | link => exact require_kept hg _ _ _ _ _ _ _ hq
  | _ => exact failNodeLocked_kept s n _ q

omit [DecidableEq κ] in
/-- What the next stage writes in the record of the buildvalue: F, KP or nothing. -/
theorem NextStage.resolves {nd : Node κ} {kind : Kind} {k : κ} {ret : Nat → Frame κ}
    (h : NextStage s fr n nd kind k ret) : nd = s.node n ∨
      (∃ bf f, fr = .afterFrom n bf ∧ (s.node n).f = none ∧
        s.store.refs (.buildFrom (s.key n)) = some f ∧ nd = { s.node n with f := some f }) ∨
      ∃ kp, fr.stageOf = some n ∧ ((s.node n).kp = none ∧
          ∃ f, (s.node n).f = some f ∧ s.store.refs (.pinCover f) = some kp) ∧
        nd = { s.node n with kp := some kp } := by
  cases h with
  | readF _ bf hdone _ hf hr => exact Or.inr (Or.inl ⟨bf, k, rfl, hf, hr, rfl⟩)
  | readKP _ pin hdone f _ hf hk hr => exact Or.inr (Or.inr ⟨k, rfl, ⟨hk, f, hf, hr⟩, rfl⟩)
  | _ => exact Or.inl rfl

/-- **What a frame writes in the records.** -/
theorem ExecStep.record (h : ExecStep W c s fr s') (hb : Base s) (hq : s.graph.Alive q) :
    RecordStep W c s fr q (s'.node q) := by
  have same : s'.node q = s.node q → RecordStep W c s fr q (s'.node q) := fun he =>
    RecordStep.kept (Kept.of_eq he)
  cases h with
  | unfoldFail n nd hnd e hkind hp =>
    by_cases hqn : q = n
    · subst hqn
      have hk := failedNode_kept nd e
      rw [State.setNode_node]
      refine RecordStep.unreadable rfl (failedNode_settled nd e) ?_ ?_ ?_ ?_
      · rw [hk.f, hnd.f]
      · rw [hk.kp, hnd.kp]
      · rw [failedNode_defn, hnd.defn]
      · rw [failedNode_platform]
        exact hp
    · exact same (s.setNode_node_ne _ hqn)
  | unfoldRead n nd rest hr =>
    by_cases hqn : q = n
    · subst hqn
      refine RecordStep.read nd rest rfl hr (Kept.of_eq ?_)
      exact s.setNode_node q nd
    · exact same (s.setNode_node_ne _ hqn)
  | unfoldFetcher n nd d hr fk hk platform label =>
    have hkept := require_kept (c := c) (s := s.setNode n nd) hb.graph .buildValue fk d.fetcherDef
      platform n label (fun _ => [.unfolding n []]) hq
    by_cases hqn : q = n
    · subst hqn
      rw [State.setNode_node] at hkept
      exact RecordStep.fetcher nd d rfl hr hkept
    · rw [State.setNode_node_ne s nd hqn] at hkept
      exact RecordStep.kept hkept
  | unfolded n => exact RecordStep.kept (maybeEnqueueLocked_kept W c s n q)
  | input n ni rest s' hi =>
    have hkept := hi.kept hb.graph hq
    by_cases hqn : q = n
    · subst hqn
      refine RecordStep.loop ni rest rfl (Kept.trans (Kept.of_eq ?_) hkept)
      exact s.setNode_node q _
    · refine RecordStep.kept (Kept.trans (Kept.of_eq ?_) hkept)
      exact s.setNode_node_ne _ hqn
  | advance => exact RecordStep.kept (require_kept hb.graph _ _ _ _ _ _ _ hq)
  | stageFail fr bv hbv e => exact RecordStep.kept (failNodeLocked_kept s bv e q)
  | nextStage fr bv nd kind k ret hn =>
    have hkept := requireStage_kept (c := c) (s := s.setNode bv nd) hb.graph bv kind k [] ret hq
    by_cases hqb : q = bv
    · subst hqb
      rw [State.setNode_node] at hkept
      rcases hn.resolves with hnd | ⟨bf, f, hfr, hf, hr, hnd⟩ | ⟨kp, hfr, hkp, hnd⟩
      · exact RecordStep.kept ((Kept.of_eq hnd).trans hkept)
      · exact RecordStep.resolvedF bf f hfr hf hr ((Kept.of_eq hnd).trans hkept)
      · exact RecordStep.resolvedKP kp hfr (Or.inl hkp) ((Kept.of_eq hnd).trans hkept)
    · rw [State.setNode_node_ne s nd hqb] at hkept
      exact RecordStep.kept hkept
  | putPinCover bv kp f =>
    have hkept := requireStage_kept (c := c) (s := s.bound bv f kp)
      hb.graph bv .buildRun kp [] (.afterRun bv) hq
    by_cases hqb : q = bv
    · subst hqb
      rw [State.setNode_node] at hkept
      exact RecordStep.resolvedKP kp rfl (Or.inr rfl) hkept
    · rw [State.setNode_node_ne _ _ hqb] at hkept
      exact RecordStep.kept hkept
  | aliased bv => exact RecordStep.kept (nodeDoneLocked_kept s bv q)
  | putAliasOutput bv out f =>
    exact RecordStep.kept (nodeDoneLocked_kept (s.putRef (.output f) out) bv q)
  | notifyNode n todo seen d =>
    exact RecordStep.kept (maybeEnqueueLocked_kept W c
      (s.push [.notify n (todo.filter (fun x => x ≠ d)) (d :: seen)]) d q)
  | submitted rid t scratch =>
    exact same (by rw [deleteScratch_eta])
  | _ => exact same rfl

theorem Verdict.kept (h : Verdict W c s n s') (q : Nat) : Kept (s.node q) (s'.node q) := by
  have write : ∀ (nd : Node κ), Kept (s.node n) nd → Kept (s.node q) ((s.setNode n nd).node q) :=
    fun nd hk => Kept.update nd rfl hk q
  cases h with
  | fail retry control e =>
    have hk : Kept (s.node n)
        { s.node n with consecRetry := retry, consecControl := control } :=
      ⟨rfl, rfl, rfl, rfl, rfl, fun _ => rfl, fun _ => rfl⟩
    exact write _ (hk.trans (failedNode_kept _ e))
  | requeue hcap e =>
    have hk := write (requeued (s.node n) e) ⟨rfl, rfl, rfl, rfl, rfl, fun _ => rfl, fun _ => rfl⟩
    exact hk.trans (enqueueLocked_kept W c _ n q)
  | rearm hcap e =>
    exact write (rearmed (s.node n) e) ⟨rfl, rfl, rfl, rfl, rfl, fun _ => rfl, fun _ => rfl⟩
  | unwatched => exact Kept.refl _

theorem AcceptRule.kept {res : Result} (h : AcceptRule W c s n res s') (q : Nat) :
    Kept (s.node q) (s'.node q) := by
  cases h with
  | commits =>
    exact Kept.update { received (s.node n) res with phase := .publishing } rfl
      ⟨rfl, rfl, rfl, rfl, rfl, fun _ => rfl, fun _ => rfl⟩ q
  | verdict hok s' hv =>
    have hr : Kept (s.node q) ((judged s n res).node q) :=
      Kept.update (received (s.node n) res) rfl
        ⟨rfl, rfl, rfl, rfl, rfl, fun _ => rfl, fun _ => rfl⟩ q
    rw [deleteScratch_eta]
    exact hr.trans (hv.kept q)

theorem CommitVerdict.kept {cm : Commit κ} {err : Option CommitError}
    (h : CommitVerdict W c s cm err s') (q : Nat) : Kept (s.node q) (s'.node q) := by
  cases h with
  | done node hnode =>
    obtain ⟨label, retry, control, hq, -⟩ := hnode q
    refine Kept.trans ?_ (nodeDoneLocked_kept { s with node := node } cm.ptr q)
    show Kept (s.node q) (node q)
    rw [hq]
    exact ⟨rfl, rfl, rfl, rfl, rfl, fun _ => rfl, fun _ => rfl⟩
  | verdict e s' hv => exact hv.kept q

end

omit [DecidableEq κ] in
/-- F is resolved once, from `build-from`, and KP by a frame of the pipeline. -/
theorem RecordStep.resolved {W : World κ} {c : Choice} {s : State κ} {fr : Frame κ} {q : Nat}
    {nd' : Node κ} (h : RecordStep W c s fr q nd') :
    (nd'.f = (s.node q).f ∨ (s.node q).f = none ∧
      ∃ f, nd'.f = some f ∧ s.store.refs (.buildFrom (s.key q)) = some f) ∧
    (nd'.kp = (s.node q).kp ∨ ∃ kp, nd'.kp = some kp ∧ fr.stageOf = some q ∧
      ((s.node q).kp = none ∧
          (∃ f, (s.node q).f = some f ∧ s.store.refs (.pinCover f) = some kp) ∨
        fr = .putPinCover q kp)) := by
  cases h with
  | kept h => exact ⟨Or.inl h.f, Or.inl h.kp⟩
  | read nd rest hfr h hk =>
    exact ⟨Or.inl (hk.f.trans h.sameRun.f), Or.inl (hk.kp.trans h.sameRun.kp)⟩
  | fetcher nd d hfr h hk => exact ⟨Or.inl (hk.f.trans h.same.f), Or.inl (hk.kp.trans h.same.kp)⟩
  | unreadable hfr hset hf hkp => exact ⟨Or.inl hf, Or.inl hkp⟩
  | loop ni rest hfr hk =>
    have h := keepInput_sameRun (s.node q) (s.kind q) ni.input
    exact ⟨Or.inl (hk.f.trans h.f), Or.inl (hk.kp.trans h.kp)⟩
  | resolvedF bf f hfr hf hr hk => exact ⟨Or.inr ⟨hf, f, hk.f, hr⟩, Or.inl hk.kp⟩
  | resolvedKP kp hfr hkp hk => exact ⟨Or.inl hk.f, Or.inr ⟨kp, hk.kp, hfr, hkp⟩⟩

/-! ### Steps -/

/-- What a step outside the critical section does: it touches no edge and no record, and the
frames it leaves start a critical section. -/
structure Aside (s s' : State κ) : Prop where
  deps : s'.graph.deps = s.graph.deps
  record : ∀ q, s.graph.Alive q → Kept (s.node q) (s'.node q)
  stack : s'.stack = s.stack ∨ s.stack = [] ∧ ∃ fs b, s'.stack = fs ++ [b] ∧
    (fs = [] ∨ fs = [.unfold s.graph.next]) ∧
    ((∃ rid t scratch, b = .submitted rid t scratch) ∨
      ∃ n, b = .notify n (s.graph.dependents n) [])

section

variable [Inhabited κ] {W : World κ} {s s' : State κ} {a : Label κ}

omit [DecidableEq κ] [Inhabited κ] in
theorem Aside.frames (h : Aside s s') : ∀ fr ∈ s.stack, fr ∈ s'.stack := by
  intro fr hfr
  rcases h.stack with heq | ⟨hnil, -⟩
  · rw [heq]
    exact hfr
  · rw [hnil] at hfr
    cases hfr

/-- **A step runs the frame on top, or it is aside.** -/
theorem step_cases (hb : Base s) (ha : a ≠ .crash) (hs : step W s a = some s') :
    (∃ c fr rest, a = .exec c ∧ s.graph.pending = [] ∧ s.stack = fr :: rest ∧
      ExecStep W c { s with stack := rest } fr s') ∨ Aside s s' := by
  have same : ∀ {s₁ : State κ}, s₁.graph.deps = s.graph.deps → s₁.node = s.node →
      s₁.stack = s.stack → Aside s s₁ := by
    intro s₁ hd hn hst
    exact ⟨hd, fun q _ => Kept.of_eq (by rw [hn]), Or.inl hst⟩
  have hr := step_rule hb.graph hs
  have hhandled := hr.handled
  cases hr with
  | visit => exact Or.inr (same (by simp) rfl rfl)
  | frame c fr rest hp hst s' he => exact Or.inl ⟨c, fr, rest, rfl, hp, hst, he⟩
  | submit c i rid sub hsub hrid hfree =>
    obtain ⟨hnil, -⟩ := s.free_iff.mp hfree
    obtain ⟨fs, hst, hfs⟩ := joinSubmit_stack hb i sub rid
    have hst' := hst.trans (congrArg (fun l => fs ++ (_ :: l)) hnil)
    obtain ⟨nd, gs, lg, heq, hj⟩ := joinSubmit_eq
      (s := { s with submits := s.submits.eraseIdx i }) hb.graph sub rid
    refine Or.inr ⟨?_, fun q hq => ?_, Or.inr ⟨hnil, fs, _, hst', hfs, Or.inl ⟨_, _, _, rfl⟩⟩⟩
    · rw [heq]
      exact hb.graph.requireTarget_deps _ rid
    · rw [heq]
      exact Joined.kept hb.graph hj rfl hq
  | cancelled rid r hr hfree | deleted rid r hr hfree | starved rid now reason r hr hfree =>
    exact Or.inr (same (hb.dropped hr hfree).deps rfl rfl)
  | dropped c res =>
    rw [deleteScratch_eta]
    exact Or.inr (same rfl rfl rfl)
  | accepted c res n =>
    have hrule := acceptResult_rule W c s n res
    exact Or.inr ⟨by rw [(hhandled rfl).graph], fun q _ => hrule.kept q, Or.inl hrule.stack⟩
  | finishStale c i cm =>
    rw [deleteScratch_eta]
    exact Or.inr (same rfl rfl rfl)
  | finish c i cm err hcm hst hfree =>
    have hrule := applyCommit_rule W c (s.judging i cm) cm err
    have hdeps := congrArg (·.deps) (hhandled rfl).graph
    rw [deleteScratch_eta] at hdeps ⊢
    refine Or.inr ⟨hdeps, fun q _ => hrule.kept q, ?_⟩
    rcases hrule.stack with hst' | hst'
    · exact Or.inl hst'
    · refine Or.inr ⟨(s.free_iff.mp hfree).1, [], _, ?_, Or.inl rfl, Or.inr ⟨cm.ptr, rfl⟩⟩
      rw [hst']
      simp [(s.free_iff.mp hfree).1]
  | timer c i n =>
    exact Or.inr ⟨by rw [(hhandled rfl).graph],
      fun q _ => enqueueLocked_kept W c { s with timers := s.timers.eraseIdx i } n q,
      Or.inl (enqueueLocked_stack W c _ n)⟩
  | running name gen n =>
    refine Or.inr ⟨rfl, fun q _ => ?_, Or.inl rfl⟩
    exact Kept.update { s.node n with phase := .running } rfl
      ⟨rfl, rfl, rfl, rfl, rfl, fun _ => rfl, fun _ => rfl⟩ q
  | crash => exact absurd rfl ha
  | _ => exact Or.inr (same rfl rfl rfl)

/-- A new edge is added by the frame on top. -/
theorem step_edge {n d : Nat} (hb : Base s) (ha : a ≠ .crash) (hs : step W s a = some s')
    (hd : d ∈ s'.graph.deps n) : d ∈ s.graph.deps n ∨ ∃ fr rest id, s.stack = fr :: rest ∧
      NewEdge W { s with stack := rest } fr n id := by
  rcases step_cases hb ha hs with ⟨c, fr, rest, -, hp, hst, he⟩ | haside
  · rcases (he.graphRule (hb.pop hst) hp (hb.top hst).1).edges hb.graph with heq | ⟨p, id, hne, heq⟩
    · exact Or.inl (heq ▸ hd)
    · rw [heq] at hd
      rcases (hb.graph.mem_require_deps id p n d).mp hd with hold | ⟨rfl, -⟩
      · exact Or.inl hold
      · exact Or.inr ⟨fr, rest, id, hst, hne⟩
  · exact Or.inl (haside.deps ▸ hd)

/-- F of a node that stays in the table. -/
theorem step_f {q : Nat} (hb : Base s) (ha : a ≠ .crash) (hs : step W s a = some s')
    (hq : s.graph.Alive q) : (s'.node q).f = (s.node q).f ∨
      (s.node q).f = none ∧
        ∃ f, (s'.node q).f = some f ∧ s.store.refs (.buildFrom (s.key q)) = some f := by
  rcases step_cases hb ha hs with ⟨c, fr, rest, -, hp, hst, he⟩ | haside
  · exact (he.record (hb.pop hst) hq).resolved.1
  · exact Or.inl (haside.record q hq).f

end

end JobsIroh
