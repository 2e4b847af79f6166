/-
What a step may write to the store.

The store is shared by the critical sections, the unlocked commits and the submits.
`Write` lists who may give which ref which value, `Delete` who may take one away;
`step_store` shows that a step does nothing else to the refs and never loses an
object.  The arguments about outputs, pull sets and aliases all start from here.
-/
import JobsIroh.Proofs.Labels
import JobsIroh.Proofs.Names

namespace JobsIroh

variable {κ : Type} [DecidableEq κ]

/-! ### Changes of a store -/

/-- Every ref keeps its value, gets one it may be given, or is deleted; objects stay. -/
structure StoreStep (Write : RefName κ → κ → Prop) (Delete : RefName κ → Prop)
    (st st' : Store κ) : Prop where
  refs : ∀ r, st'.refs r = st.refs r ∨ (∃ v, st'.refs r = some v ∧ Write r v) ∨
    st'.refs r = none ∧ Delete r
  complete : ∀ k, st.complete k = true → st'.complete k = true

namespace StoreStep

variable {Write : RefName κ → κ → Prop} {Delete : RefName κ → Prop} {st st' st'' : Store κ}

section

omit [DecidableEq κ]

theorem refl (st : Store κ) : StoreStep Write Delete st st :=
  ⟨fun _ => Or.inl rfl, fun _ h => h⟩

theorem trans (h : StoreStep Write Delete st st') (h' : StoreStep Write Delete st' st'') :
    StoreStep Write Delete st st'' := by
  refine ⟨fun r => ?_, fun k hk => h'.complete k (h.complete k hk)⟩
  rcases h'.refs r with hr | hr
  · rw [hr]
    exact h.refs r
  · exact Or.inr hr

theorem mono {Write' : RefName κ → κ → Prop} {Delete' : RefName κ → Prop}
    (h : StoreStep Write Delete st st') (hw : ∀ r v, Write r v → Write' r v)
    (hd : ∀ r, Delete r → Delete' r) : StoreStep Write' Delete' st st' := by
  refine ⟨fun r => ?_, h.complete⟩
  rcases h.refs r with hr | ⟨v, hr, hv⟩ | ⟨hr, hv⟩
  · exact Or.inl hr
  · exact Or.inr (Or.inl ⟨v, hr, hw r v hv⟩)
  · exact Or.inr (Or.inr ⟨hr, hd r hv⟩)

end

variable {r : RefName κ}

theorem put (st : Store κ) {v : κ} (h : Write r v) :
    StoreStep Write Delete st (st.putRef r v) := by
  refine ⟨fun r' => ?_, fun _ hk => hk⟩
  by_cases hr : r' = r
  · subst hr
    exact Or.inr (Or.inl ⟨v, by simp [Store.putRef], h⟩)
  · exact Or.inl (by simp [Store.putRef, hr])

theorem delete (st : Store κ) (h : Delete r) :
    StoreStep Write Delete st (st.deleteRef r) := by
  refine ⟨fun r' => ?_, fun _ hk => hk⟩
  by_cases hr : r' = r
  · subst hr
    exact Or.inr (Or.inr ⟨by simp [Store.deleteRef], h⟩)
  · exact Or.inl (by simp [Store.deleteRef, hr])

theorem ingest (st : Store κ) (k : κ) : StoreStep Write Delete st (st.ingest k) := by
  refine ⟨fun _ => Or.inl rfl, fun k' hk => ?_⟩
  by_cases hk' : k' = k
  · simp [Store.ingest, hk']
  · simp [Store.ingest, hk', hk]

omit [DecidableEq κ] in
/-- A ref that nobody deletes stays. -/
theorem has (h : StoreStep Write Delete st st') (hd : ¬ Delete r)
    (hr : st.has r) : st'.has r := by
  unfold Store.has at *
  rcases h.refs r with he | ⟨v, he, -⟩ | ⟨-, he⟩
  · rwa [he]
  · simp [he]
  · exact absurd he hd

end StoreStep

/-! ### Who writes -/

/-- A carrier is named after its value. -/
def Carrier (r : RefName κ) (v : κ) : Prop := r = .fTree v ∨ r = .kpTree v

/-- What the next step of a commit writes. -/
inductive CommitWrite (cm : Commit κ) : RefName κ → κ → Prop
  | entry (r : RefName κ) (v : κ) (rest : List (RefName κ × κ))
      (h : cm.stage = .write ((r, v) :: rest)) : CommitWrite cm r v
  | pinned (kp pk : κ) (h : cm.stage = .putPinned kp pk) : CommitWrite cm (.pinned kp) pk
  | kpTree (kp : κ) (h : cm.stage = .putKPTree kp) : CommitWrite cm (.kpTree kp) kp
  | pinCover (kp : κ) (h : cm.stage = .putPinCover kp) : CommitWrite cm (.pinCover cm.id.key) kp

/-- What an open frame writes. -/
inductive FrameWrite (node : Nat → Node κ) : Frame κ → RefName κ → κ → Prop
  | pinned (bv : Nat) (kp pk : κ) : FrameWrite node (.putPinned bv kp pk) (.pinned kp) pk
  | kpTree (bv : Nat) (kp : κ) : FrameWrite node (.putKPTree bv kp) (.kpTree kp) kp
  | pinCover (bv : Nat) (kp f : κ) (hf : (node bv).f = some f) :
    FrameWrite node (.putPinCover bv kp) (.pinCover f) kp
  | aliasDeps (bv : Nat) (deps out f : κ) (hf : (node bv).f = some f) :
    FrameWrite node (.putAliasDeps bv deps out) (.outputDeps f) deps
  | aliasOutput (bv : Nat) (out f : κ) (hf : (node bv).f = some f) :
    FrameWrite node (.putAliasOutput bv out) (.output f) out
  | heal (fr : Frame κ) (r : RefName κ) (v : κ) (h : Carrier r v) : FrameWrite node fr r v

/-- Who may give the ref `r` the value `v` in a step from `s`. -/
inductive Write (s : State κ) : Label κ → RefName κ → κ → Prop
  | source (c : Choice) (req : SubmitRequest) (t : κ) :
    Write s (.prepare c req) (.buildFromTree t) t
  | build (c : Choice) (req : SubmitRequest) (k : κ) : Write s (.prepare c req) (.build k) k
  | commit (c : Choice) (i : Nat) (cm : Commit κ) (hcm : s.commits[i]? = some cm) (r : RefName κ)
      (v : κ) (hw : CommitWrite cm r v) : Write s (.commit c i) r v
  | frame (c : Choice) (fr : Frame κ) (rest : List (Frame κ)) (hst : s.stack = fr :: rest)
      (r : RefName κ) (v : κ) (hw : FrameWrite s.node fr r v) : Write s (.exec c) r v
  | heal (a : Label κ) (ha : (∃ c res, a = .result c res) ∨ ∃ c i, a = .timer c i)
      (r : RefName κ) (v : κ) (h : Carrier r v) : Write s a r v

/-- A name in one of the push namespaces. -/
def ScratchRef (r : RefName κ) : Prop :=
  ∃ rest, r = .raw (runnerScratchPrefix ++ rest) ∨ r = .raw (clientScratchPrefix ++ rest)

/-- Who may delete the ref `r`. -/
def Delete (a : Label κ) (r : RefName κ) : Prop := ScratchRef r ∨ a = .expire r

section

variable {Write : RefName κ → κ → Prop} {W : World κ} {c : Choice} {s s' : State κ} {n : Nat}

omit [DecidableEq κ] in
theorem carrier_carrier {id : NodeID κ} {r : RefName κ} (h : carrier id = some r) :
    Carrier r id.key := by
  unfold carrier at h
  split at h
  · exact Or.inl (Option.some.inj h).symm
  · exact Or.inl (Option.some.inj h).symm
  · exact Or.inr (Option.some.inj h).symm
  · cases h

theorem Healed.storeStep {id : NodeID κ} {st st' : Store κ} (h : Healed id st st') :
    StoreStep Carrier ScratchRef st st' := by
  cases h with
  | same => exact StoreStep.refl st
  | wrote r hr => exact StoreStep.put st (carrier_carrier hr)

theorem deleteScratch_store (W : World κ) {ns : String}
    (hns : ns = runnerScratchPrefix ∨ ns = clientScratchPrefix) (ref : String) (s : State κ)
    {st : Store κ} (hst : s.store = st) :
    StoreStep Write ScratchRef st (deleteScratch W ns ref s).store := by
  subst hst
  have hforeign : RefName.Foreign ns := by
    rcases hns with rfl | rfl
    · decide
    · decide
  obtain ⟨st, heq, hst⟩ := deleteScratch_eq W ns ref s
  rw [heq]
  rcases hst with rfl | ⟨rfl, rest, rfl⟩
  · exact StoreStep.refl _
  · refine StoreStep.delete _ ⟨rest, ?_⟩
    rw [RefName.parse_foreign W.toKeyPkg hforeign]
    rcases hns with rfl | rfl
    · exact Or.inl rfl
    · exact Or.inr rfl

/-! ### Critical sections -/

/-- A join writes neither to the store nor to the table of requests. -/
theorem joinNode_same (c : Choice) (s : State κ) (id : NodeID κ)
    (g : InterestGraph.Graph (NodeID κ) ReqID) (defn : Bytes) (platform label : String)
    (ret : List (Frame κ)) :
    (joinNode c s id g defn platform label ret).store = s.store ∧
      (joinNode c s id g defn platform label ret).requests = s.requests := by
  unfold joinNode
  dsimp only
  split
  · exact ⟨rfl, rfl⟩
  · unfold activate
    split
    · rw [failNodeLocked_eq]
      exact ⟨rfl, rfl⟩
    · exact ⟨rfl, rfl⟩
    · exact ⟨rfl, rfl⟩

theorem enqueueLocked_store (W : World κ) (c : Choice) (s : State κ) (n : Nat) {st : Store κ}
    (hst : s.store = st) : StoreStep Carrier ScratchRef st (enqueueLocked W c s n).store := by
  subst hst
  rcases enqueueLocked_eq W c s n with ⟨-, heq⟩ | ⟨st, nd, timers, jobs, heq, hheal, -⟩
  · rw [heq]
    exact StoreStep.refl _
  · rw [heq]
    exact hheal.storeStep

theorem maybeEnqueueLocked_store (W : World κ) (c : Choice) (s : State κ) (n : Nat)
    {st : Store κ} (hst : s.store = st) :
    StoreStep Carrier ScratchRef st (maybeEnqueueLocked W c s n).store := by
  subst hst
  unfold maybeEnqueueLocked
  split
  · exact enqueueLocked_store W c s n rfl
  · exact StoreStep.refl _

omit [DecidableEq κ] in
theorem nodeDoneLocked_store (s : State κ) (n : Nat) : (nodeDoneLocked s n).store = s.store := by
  unfold nodeDoneLocked
  split
  · rfl
  · rfl

omit [DecidableEq κ] in
theorem failNodeLocked_store (s : State κ) (n : Nat) (e : String) :
    (failNodeLocked s n e).store = s.store := by
  rw [failNodeLocked_eq]
  rfl

theorem InputStep.store {i : Input} (h : InputStep W c s n i s') : s'.store = s.store := by
  cases h with
  | tree => rfl
  | link => exact (joinNode_same c s _ _ _ _ _ _).1
  | _ => exact failNodeLocked_store s n _

/-- **What a frame does to the store.** -/
theorem ExecStep.store {fr : Frame κ} (h : ExecStep W c s fr s') :
    StoreStep (FrameWrite s.node fr) ScratchRef s.store s'.store := by
  have heal : ∀ st', StoreStep Carrier ScratchRef s.store st' →
      StoreStep (FrameWrite s.node fr) ScratchRef s.store st' :=
    fun _ h => h.mono (fun r v hc => FrameWrite.heal fr r v hc) fun _ h => h
  have same : ∀ {st' : Store κ}, st' = s.store →
      StoreStep (FrameWrite s.node fr) ScratchRef s.store st' := by
    intro st' h
    rw [h]
    exact StoreStep.refl _
  cases h with
  | unfoldFetcher | advance | nextStage => exact same (joinNode_same _ _ _ _ _ _ _ _).1
  | unfolded n => exact heal _ (maybeEnqueueLocked_store W c s n rfl)
  | input n ni rest s' hi => exact same hi.store
  | stageFail fr bv hbv e => exact same (failNodeLocked_store s bv e)
  | deriveKP bv pin hdone f kp => exact StoreStep.ingest _ kp
  | putPinned bv kp pk => exact StoreStep.put _ (FrameWrite.pinned bv kp pk)
  | putKPTree bv kp => exact StoreStep.put _ (FrameWrite.kpTree bv kp)
  | putPinCover bv kp f hf =>
    rw [JobsIroh.requireStage, JobsIroh.require, (joinNode_same _ _ _ _ _ _ _ _).1]
    exact StoreStep.put _ (FrameWrite.pinCover bv kp f hf)
  | aliased bv => exact same (nodeDoneLocked_store s bv)
  | putAliasDeps bv deps out f hf => exact StoreStep.put _ (FrameWrite.aliasDeps bv deps out f hf)
  | putAliasOutput bv out f hf =>
    rw [nodeDoneLocked_store]
    exact StoreStep.put _ (FrameWrite.aliasOutput bv out f hf)
  | notifyNode n todo seen d => exact heal _ (maybeEnqueueLocked_store W c _ d rfl)
  | submitted rid t scratch => exact deleteScratch_store W (Or.inr rfl) scratch s rfl
  | _ => exact same rfl

/-! ### Results and submits -/

theorem Verdict.store {st : Store κ} (hst : s.store = st) (h : Verdict W c s n s') :
    StoreStep Carrier ScratchRef st s'.store := by
  subst hst
  cases h with
  | requeue => exact enqueueLocked_store W c _ n rfl
  | _ => exact StoreStep.refl _

theorem AcceptRule.store {res : Result} (h : AcceptRule W c s n res s') :
    StoreStep Carrier ScratchRef s.store s'.store := by
  cases h with
  | commits => exact StoreStep.refl _
  | verdict hok s' hv => exact (hv.store rfl).trans (deleteScratch_store W (Or.inl rfl) _ _ rfl)

variable {cm : Commit κ}

/-- The end of a commit writes nothing: a failed one is retried by a timer. -/
theorem applyCommit_store (W : World κ) (c : Choice) (s : State κ) (cm : Commit κ)
    (err : Option CommitError) : (applyCommit W c s cm err).store = s.store := by
  unfold applyCommit
  split
  · rw [nodeDoneLocked_store]
    unfold applyRecipeLabelLocked
    split <;> rfl
  · exact failNodeLocked_store s _ _
  · simp only [retryLocked, Bool.false_eq_true, if_false]
    split
    · exact failNodeLocked_store _ _ _
    · rfl

/-- What one step of a commit does: it stops with an error, or goes on to its next stage. -/
inductive CommitRule (W : World κ) (st : Store κ) (cm : Commit κ) : Store κ → Stage κ → Prop
  | failed (e : CommitError) : CommitRule W st cm st (.finished (some e))
  | checked (h : cm.stage = .check) (plan : List (RefName κ × κ))
      (hp : checkBatch W st cm.id.kind cm.id.key cm.platform cm.refs cm.caches = .ok plan) :
    CommitRule W st cm st (if plan = [] then afterWrites cm.id.kind else .write plan)
  | written (h : cm.stage = .write []) : CommitRule W st cm st (afterWrites cm.id.kind)
  | entry (r : RefName κ) (v : κ) (rest : List (RefName κ × κ))
      (h : cm.stage = .write ((r, v) :: rest)) :
    CommitRule W st cm (st.putRef r v) (if rest = [] then afterWrites cm.id.kind else .write rest)
  | derived (h : cm.stage = .derive) (kp pk : κ)
      (hd : deriveKPValue W st cm.id.key = .ok (kp, pk)) :
    CommitRule W st cm (st.ingest kp) (.putPinned kp pk)
  | pinned (kp pk : κ) (h : cm.stage = .putPinned kp pk) :
    CommitRule W st cm (st.putRef (.pinned kp) pk) (.putKPTree kp)
  | kpTree (kp : κ) (h : cm.stage = .putKPTree kp) :
    CommitRule W st cm (st.putRef (.kpTree kp) kp) (.putPinCover kp)
  | pinCover (kp : κ) (h : cm.stage = .putPinCover kp) :
    CommitRule W st cm (st.putRef (.pinCover cm.id.key) kp) (.finished none)
  | ended (err : Option CommitError) (h : cm.stage = .finished err) :
    CommitRule W st cm st (.finished err)

theorem putStep_rule {W : World κ} {c : Choice} {st : Store κ} {r : RefName κ}
    {k : κ} {next : Stage κ} (what : String) (h : CommitRule W st cm (st.putRef r k) next) :
    CommitRule W st cm (putStep c st what r k next).1 (putStep c st what r k next).2 := by
  unfold putStep
  split
  · exact CommitRule.failed _
  · exact h

/-- **`commitStep` takes only the steps of the rules.** -/
theorem commitStep_rule (W : World κ) (c : Choice) (st : Store κ) (cm : Commit κ) :
    CommitRule W st cm (commitStep W c st cm).1 (commitStep W c st cm).2 := by
  unfold commitStep
  rcases hst : cm.stage with _ | ⟨_ | ⟨⟨r, k⟩, rest⟩⟩ | _ | ⟨kp, pk⟩ | kp | kp | err
  · dsimp only
    split
    · exact CommitRule.failed _
    · rename_i hp
      exact CommitRule.checked hst [] hp
    · rename_i plan hne hp
      split
      · exact CommitRule.failed _
      · have h := CommitRule.checked hst plan hp
        rwa [if_neg hne] at h
  · exact CommitRule.written hst
  · exact putStep_rule _ (CommitRule.entry r k rest hst)
  · dsimp only
    split
    · exact CommitRule.failed _
    split
    · exact CommitRule.failed _
    · rename_i kp pk hd
      exact CommitRule.derived hst kp pk hd
  · exact putStep_rule _ (CommitRule.pinned kp pk hst)
  · exact putStep_rule _ (CommitRule.kpTree kp hst)
  · exact putStep_rule _ (CommitRule.pinCover kp hst)
  · exact CommitRule.ended err hst

theorem CommitRule.store {st st' : Store κ} {stage : Stage κ}
    {Delete : RefName κ → Prop} (h : CommitRule W st cm st' stage) :
    StoreStep (CommitWrite cm) Delete st st' := by
  cases h with
  | entry r v rest h => exact StoreStep.put _ (CommitWrite.entry r v rest h)
  | derived h kp => exact StoreStep.ingest _ kp
  | pinned kp pk h => exact StoreStep.put _ (CommitWrite.pinned kp pk h)
  | kpTree kp h => exact StoreStep.put _ (CommitWrite.kpTree kp h)
  | pinCover kp h => exact StoreStep.put _ (CommitWrite.pinCover kp h)
  | _ => exact StoreStep.refl _

theorem publishTreeSource_store {st st' : Store κ} {d : Definition} {Delete : RefName κ → Prop}
    (hw : ∀ t, Write (.buildFromTree t) t) (h : publishTreeSource W c st d = .ok st') :
    StoreStep Write Delete st st' := by
  unfold publishTreeSource at h
  split at h
  · split at h
    · cases h
    split at h
    · cases h
    split at h
    · cases h
    · cases h
      exact StoreStep.put _ (hw _)
  · cases h
    exact StoreStep.refl _

theorem prepareSubmit_store (W : World κ) (c : Choice) (st : Store κ) (req : SubmitRequest)
    {Delete : RefName κ → Prop} (hs : ∀ t, Write (.buildFromTree t) t)
    (hb : ∀ k, Write (.build k) k) :
    StoreStep Write Delete st (prepareSubmit W c st req).1 := by
  unfold prepareSubmit
  split
  · exact StoreStep.refl _
  split
  · exact StoreStep.refl _
  rename_i st₁ hst
  have h₁ : StoreStep Write Delete st st₁ := publishTreeSource_store hs hst
  split
  · exact h₁
  · exact h₁
  · rename_i k _ _
    have h₂ : StoreStep Write Delete st (st₁.ingest k) := h₁.trans (StoreStep.ingest _ k)
    have h₃ : StoreStep Write Delete st ((st₁.ingest k).putRef (.build k) k) :=
      h₂.trans (StoreStep.put _ (hb k))
    split
    · exact h₂
    · split
      · exact h₃
      · exact h₃

end

/-! ### One step -/

variable {a : Label κ}

/-- **What a step does to the store.** -/
theorem step_store [Inhabited κ] {W : World κ} {s s' : State κ}
    (hg : s.graph.Inv s.target) (hs : step W s a = some s') :
    StoreStep (Write s a) (Delete a) s.store s'.store := by
  have scratch : ∀ {X : RefName κ → κ → Prop} {st st' : Store κ},
      (∀ r v, X r v → Write s a r v) → StoreStep X ScratchRef st st' →
      StoreStep (Write s a) (Delete a) st st' :=
    fun hX h => h.mono hX fun _ hr => Or.inl hr
  have hr := step_rule hg hs
  cases hr with
  | frame c fr rest hp hst s' he => exact scratch (Write.frame c fr rest hst) he.store
  | prepared c req st subs hp =>
    have hst : (prepareSubmit W c s.store req).1 = st := by
      rcases hp with ⟨e, hp, -⟩ | ⟨sub, hp, -⟩
      · rw [hp]
      · rw [hp]
    rw [← hst]
    exact prepareSubmit_store W c s.store req (Write.source c req) (Write.build c req)
  | submit =>
    unfold joinSubmit requireTarget
    rw [(joinNode_same _ _ _ _ _ _ _ _).1]
    exact StoreStep.refl _
  | dropped | finishStale =>
    exact scratch (fun _ _ h => h) (deleteScratch_store W (Or.inl rfl) _ _ rfl)
  | accepted c res n =>
    exact scratch (Write.heal _ (Or.inl ⟨c, res, rfl⟩))
      (acceptResult_rule W c s n res).store
  | committed c i cm hcm =>
    exact (commitStep_rule W c s.store cm).store.mono (Write.commit c i cm hcm) fun _ h => h
  | finish c i cm err =>
    exact scratch (fun _ _ h => h)
      (deleteScratch_store W (Or.inl rfl) _ _ (applyCommit_store W c (s.judging i cm) cm err))
  | timer c i n =>
    refine scratch (Write.heal _ (Or.inr ⟨c, i, rfl⟩)) ?_
    exact enqueueLocked_store W c _ n rfl
  | push k => exact StoreStep.ingest _ k
  | expire => exact StoreStep.delete _ (Or.inr rfl)
  | _ => exact StoreStep.refl _

/-! ### The commits in progress -/

/-- What a critical section does not touch. -/
def State.ledger (s : State κ) := (s.commits, s.submits, s.accepted, s.verdicts, s.closed, s.ctxErr)

/-- A critical section does not touch the commits, the prepared submits, the verdicts or the
shutdown flags, and the highest generations only go up. -/
structure Outside (s s' : State κ) : Prop where
  ledger : s'.ledger = s.ledger
  lastGen : ∀ i, s.lastGen i ≤ s'.lastGen i

section

variable {W : World κ} {c : Choice} {s s' : State κ} {n : Nat}

theorem le_raise (lastGen : NodeID κ → Nat) (id : NodeID κ) (gen : Nat) (i : NodeID κ) :
    lastGen i ≤ raise lastGen id gen i := by
  unfold raise
  by_cases hi : i = id
  · subst hi
    rw [Function.update_self]
    exact Nat.le_max_left _ _
  · rw [Function.update_of_ne hi]

namespace Outside

section

variable (h : Outside s s')
include h
omit [DecidableEq κ]

theorem commits : s'.commits = s.commits := congrArg (·.1) h.ledger

theorem submits : s'.submits = s.submits := congrArg (·.2.1) h.ledger

theorem accepted : s'.accepted = s.accepted := congrArg (·.2.2.1) h.ledger

theorem verdicts : s'.verdicts = s.verdicts := congrArg (·.2.2.2.1) h.ledger

theorem closed : s'.closed = s.closed := congrArg (·.2.2.2.2.1) h.ledger

theorem ctxErr : s'.ctxErr = s.ctxErr := congrArg (·.2.2.2.2.2) h.ledger

end

end Outside

omit [DecidableEq κ] in
theorem Outside.refl (s : State κ) : Outside s s := ⟨rfl, fun _ => Nat.le_refl _⟩

/-- What is done to one node leaves the graph and the requests alone as well. -/
structure Inner (s s' : State κ) : Prop extends Outside s s' where
  graph : s'.graph = s.graph
  requests : s'.requests = s.requests

omit [DecidableEq κ] in
theorem Inner.refl (s : State κ) : Inner s s := ⟨Outside.refl s, rfl, rfl⟩

variable {s₀ : State κ}

theorem joinNode_outside (c : Choice) (s : State κ) (id : NodeID κ)
    (g : InterestGraph.Graph (NodeID κ) ReqID) (defn : Bytes) (platform label : String)
    (ret : List (Frame κ)) (h : Outside s₀ s) :
    Outside s₀ (joinNode c s id g defn platform label ret) := by
  have raised : ∀ i, s₀.lastGen i ≤
      Function.update s.lastGen id (max (s.lastGen id) c.seed) i :=
    fun i => (h.lastGen i).trans (le_raise s.lastGen id c.seed i)
  unfold joinNode
  dsimp only
  split
  · exact ⟨h.ledger, h.lastGen⟩
  · unfold activate
    split
    · rw [failNodeLocked_eq]
      exact ⟨h.ledger, raised⟩
    · exact ⟨h.ledger, raised⟩
    · exact ⟨h.ledger, raised⟩

theorem enqueueLocked_inner (W : World κ) (c : Choice) (s : State κ) (n : Nat)
    (h : Inner s₀ s) : Inner s₀ (enqueueLocked W c s n) := by
  rcases enqueueLocked_eq W c s n with ⟨-, heq⟩ | ⟨st, nd, timers, jobs, heq, -, -⟩
  · rw [heq]
    exact h
  · rw [heq]
    exact ⟨⟨h.ledger, fun i => (h.lastGen i).trans (le_raise _ _ _ i)⟩, h.graph, h.requests⟩

theorem maybeEnqueueLocked_inner (W : World κ) (c : Choice) (s : State κ) (n : Nat)
    (h : Inner s₀ s) : Inner s₀ (maybeEnqueueLocked W c s n) := by
  unfold maybeEnqueueLocked
  split
  · exact enqueueLocked_inner W c s n h
  · exact h

omit [DecidableEq κ] in
theorem nodeDoneLocked_inner (s : State κ) (n : Nat) (h : Inner s₀ s) :
    Inner s₀ (nodeDoneLocked s n) := by
  unfold nodeDoneLocked
  split
  · exact h
  · exact ⟨⟨h.ledger, h.lastGen⟩, h.graph, h.requests⟩

omit [DecidableEq κ] in
theorem failNodeLocked_inner (s : State κ) (n : Nat) (e : String) (h : Inner s₀ s) :
    Inner s₀ (failNodeLocked s n e) := by
  rw [failNodeLocked_eq]
  exact ⟨⟨h.ledger, h.lastGen⟩, h.graph, h.requests⟩

theorem deleteScratch_inner (W : World κ) (ns ref : String) (s : State κ) (h : Inner s₀ s) :
    Inner s₀ (deleteScratch W ns ref s) := by
  rw [deleteScratch_eta]
  exact ⟨⟨h.ledger, h.lastGen⟩, h.graph, h.requests⟩

theorem InputStep.outside {i : Input} (h : InputStep W c s n i s')
    (hs : Inner s₀ s) : Outside s₀ s' := by
  cases h with
  | tree => exact hs.toOutside
  | link => exact joinNode_outside c s _ _ _ _ _ _ hs.toOutside
  | _ => exact (failNodeLocked_inner s n _ hs).toOutside

theorem ExecStep.outside {fr : Frame κ} (h : ExecStep W c s fr s') : Outside s s' := by
  have same : Inner s s := .refl s
  cases h with
  | unfoldFail n nd hnd e hkind | unfoldRead n nd rest hr | unfoldValue n hkind
  | deriveKP bv pin hdone f kp pk hf hk hr hd | putPinned bv kp pk | putKPTree bv kp
  | startAlias bv run hdone f kp deps out hf hk hd ho | putAliasDeps bv deps out f hf
  | notifyValue n todo seen d hd hkind | rejected rid t scratch r hr =>
    exact ⟨rfl, same.lastGen⟩
  | unfoldFetcher | nextStage | advance | putPinCover =>
    exact joinNode_outside _ _ _ _ _ _ _ _ ⟨rfl, same.lastGen⟩
  | unfolded n => exact (maybeEnqueueLocked_inner W c s n same).toOutside
  | input n ni rest s' hi => exact hi.outside ⟨⟨rfl, same.lastGen⟩, rfl, rfl⟩
  | stageFail fr bv hbv e => exact (failNodeLocked_inner s bv e same).toOutside
  | aliased bv => exact (nodeDoneLocked_inner s bv same).toOutside
  | putAliasOutput bv =>
    exact Inner.toOutside (nodeDoneLocked_inner _ bv ⟨⟨rfl, same.lastGen⟩, rfl, rfl⟩)
  | notifyNode n todo seen d =>
    exact Inner.toOutside (maybeEnqueueLocked_inner W c _ d ⟨⟨rfl, same.lastGen⟩, rfl, rfl⟩)
  | submitted rid t scratch => exact (deleteScratch_inner W _ scratch s same).toOutside
  | _ => exact same.toOutside

theorem Verdict.inner (h : Verdict W c s n s') (hs : Inner s₀ s) : Inner s₀ s' := by
  have same : ∀ {s₁ : State κ}, s₁.ledger = s.ledger → s₁.lastGen = s.lastGen →
      s₁.graph = s.graph → s₁.requests = s.requests → Inner s₀ s₁ := by
    intro s₁ hl hg hgr hr
    exact ⟨⟨hl.trans hs.ledger, fun i => by rw [hg]; exact hs.lastGen i⟩, hgr.trans hs.graph,
      hr.trans hs.requests⟩
  cases h with
  | fail | rearm => exact same rfl rfl rfl rfl
  | requeue => exact enqueueLocked_inner W c _ n (same rfl rfl rfl rfl)
  | unwatched => exact hs

theorem CommitVerdict.inner {cm : Commit κ} {err : Option CommitError}
    (h : CommitVerdict W c s cm err s') (hs : Inner s₀ s) : Inner s₀ s' := by
  cases h with
  | done =>
    exact nodeDoneLocked_inner _ _ ⟨⟨hs.ledger, hs.lastGen⟩, hs.graph, hs.requests⟩
  | verdict e s' hv => exact hv.inner hs

end

/-- Where a commit comes from: it was there, or a result has just started it, or it has just
made a step. -/
inductive CommitFrom [Inhabited κ] (W : World κ) (s : State κ) (a : Label κ) (s' : State κ)
    (cm : Commit κ) : Prop
  | old (h : cm ∈ s.commits)
  | started (c : Choice) (res : Result) (n : Nat) (ha : a = .result c res)
      (hid : parseNodeName W res.node = some (s.graph.id n)) (hn : s.graph.Alive n)
      (hacc : accepts s n res = true) (hok : res.cls = .ok) (h : cm = startCommit s n res)
  | staged (cm₀ : Commit κ) (hmem : cm₀ ∈ s.commits) (stage : Stage κ)
      (hr : CommitRule W s.store cm₀ s'.store stage) (h : cm = { cm₀ with stage := stage })

theorem step_commits [Inhabited κ] {W : World κ} {s s' : State κ}
    (hg : s.graph.Inv s.target) (hs : step W s a = some s') :
    ∀ cm ∈ s'.commits, CommitFrom W s a s' cm := by
  have same : s'.commits = s.commits → ∀ cm ∈ s'.commits, CommitFrom W s a s' cm := by
    intro h cm hcm
    rw [h] at hcm
    exact CommitFrom.old hcm
  have hr := step_rule hg hs
  cases hr with
  | frame c fr rest hp hst s' he => exact same he.outside.commits
  | submit c i rid sub =>
    have h : Outside { s with submits := s.submits.eraseIdx i }
        (joinSubmit c { s with submits := s.submits.eraseIdx i } sub rid) := by
      exact joinNode_outside _ _ _ _ _ _ _ _ ⟨rfl, fun _ => Nat.le_refl _⟩
    exact same h.commits
  | dropped => exact same (deleteScratch_inner W _ _ s (.refl s)).commits
  | accepted c res n hfree hid hn ha =>
    have hrule := acceptResult_rule W c s n res
    generalize acceptResult W c s n res = s₁ at hrule
    cases hrule with
    | commits hok =>
      intro cm hcm
      rcases List.mem_append.mp hcm with hcm | hcm
      · exact CommitFrom.old hcm
      · exact CommitFrom.started c res n rfl hid hn ha hok (List.mem_singleton.mp hcm)
    | verdict hok s₁ hv =>
      intro cm hcm
      rw [(deleteScratch_inner W _ _ s₁ (hv.inner (.refl _))).commits] at hcm
      exact CommitFrom.old hcm
  | committed c i cm hcm =>
    intro cm' hcm'
    rcases List.mem_or_eq_of_mem_set hcm' with h | h
    · exact CommitFrom.old h
    · exact CommitFrom.staged cm (List.mem_of_getElem? hcm) _ (commitStep_rule W c s.store cm) h
  | finishStale =>
    intro cm' hcm'
    rw [(deleteScratch_inner W _ _ _ (.refl _)).commits] at hcm'
    exact CommitFrom.old (List.mem_of_mem_eraseIdx hcm')
  | finish c i cm err =>
    intro cm' hcm'
    have hc := (applyCommit_rule W c (s.judging i cm) cm err).inner (.refl _)
    rw [(deleteScratch_inner W _ _ _ hc).commits] at hcm'
    exact CommitFrom.old (List.mem_of_mem_eraseIdx hcm')
  | timer c i n =>
    exact same (enqueueLocked_inner W c { s with timers := s.timers.eraseIdx i } n
      (.refl _)).commits
  | crash =>
    intro cm hcm
    cases hcm
  | _ => exact same rfl

/-- What only goes one way, until the process dies. -/
structure Onward (s s' : State κ) : Prop where
  lastGen : ∀ i, s.lastGen i ≤ s'.lastGen i
  closed : s.closed = true → s'.closed = true
  ctxErr : s.ctxErr = true → s'.ctxErr = true

variable {s s' s₁ : State κ}

omit [DecidableEq κ] in
theorem Outside.onward (h : Outside s₁ s') (h₁ : Onward s s₁) : Onward s s' := by
  refine ⟨fun i => (h₁.lastGen i).trans (h.lastGen i), fun hc => ?_, fun hc => ?_⟩
  · rw [h.closed, h₁.closed hc]
  · rw [h.ctxErr, h₁.ctxErr hc]

/-- What the handling of a result, of a finished commit or of a timer leaves alone. -/
structure Handled (s s' : State κ) : Prop extends Onward s s' where
  graph : s'.graph = s.graph
  requests : s'.requests = s.requests
  submits : s'.submits = s.submits

omit [DecidableEq κ] in
theorem Inner.handled (h : Inner s₁ s') (h₁ : Handled s s₁) : Handled s s' where
  toOnward := h.onward h₁.toOnward
  graph := h.graph.trans h₁.graph
  requests := h.requests.trans h₁.requests
  submits := h.submits.trans h₁.submits

def Label.handles : Label κ → Bool
  | .result _ _ | .finish _ _ | .timer _ _ => true
  | _ => false

section

variable [Inhabited κ] {W : World κ}

theorem StepRule.handled (h : StepRule W s a s') (ha : a.handles = true) : Handled s s' := by
  have same : ∀ {s₁ : State κ}, s₁.lastGen = s.lastGen →
      (s₁.closed, s₁.ctxErr) = (s.closed, s.ctxErr) → s₁.graph = s.graph →
      s₁.requests = s.requests → s₁.submits = s.submits → Handled s s₁ := by
    intro s₁ hl hc hg hr hs
    obtain ⟨hc, hx⟩ := Prod.mk.inj hc
    exact ⟨⟨fun i => by rw [hl], hc.trans, hx.trans⟩, hg, hr, hs⟩
  cases h with
  | dropped => exact (deleteScratch_inner W _ _ s (.refl s)).handled (same rfl rfl rfl rfl rfl)
  | accepted c res n =>
    have hrule := acceptResult_rule W c s n res
    generalize acceptResult W c s n res = s₁ at hrule
    cases hrule with
    | commits => exact same rfl rfl rfl rfl rfl
    | verdict hok s₁ hv =>
      exact (deleteScratch_inner W _ _ s₁ (hv.inner (.refl _))).handled
        (same rfl rfl rfl rfl rfl)
  | finishStale c i cm =>
    exact (deleteScratch_inner W _ _ { s with commits := s.commits.eraseIdx i } (.refl _)).handled
      (same rfl rfl rfl rfl rfl)
  | finish c i cm err =>
    have hc := (applyCommit_rule W c (s.judging i cm) cm err).inner (.refl _)
    exact (deleteScratch_inner W _ _ _ hc).handled (same rfl rfl rfl rfl rfl)
  | timer c i n =>
    exact (enqueueLocked_inner W c { s with timers := s.timers.eraseIdx i } n (.refl _)).handled
      (same rfl rfl rfl rfl rfl)
  | nothing | timerStale => exact same rfl rfl rfl rfl rfl
  | fleet a fleet hfree hf =>
    rcases hf with ⟨id, platform, now, rfl⟩ | ⟨id, now, rfl⟩
    · cases ha
    · cases ha
  | _ => cases ha

theorem step_onward (hg : s.graph.Inv s.target) (ha : a ≠ .crash) (hs : step W s a = some s') :
    Onward s s' := by
  have same : ∀ {s₁ : State κ}, s₁.lastGen = s.lastGen → s₁.closed = s.closed →
      s₁.ctxErr = s.ctxErr → Onward s s₁ := by
    intro s₁ hl hc hx
    exact ⟨fun i => by rw [hl], fun h => hc.trans h, fun h => hx.trans h⟩
  have hr := step_rule hg hs
  have hhandled := hr.handled
  cases hr with
  | frame c fr rest hp hst s' he => exact he.outside.onward (same rfl rfl rfl)
  | submit c =>
    exact (joinNode_outside c _ _ _ _ _ _ _ (Outside.refl _)).onward (same rfl rfl rfl)
  | dropped | accepted | finishStale | finish | timer => exact (hhandled rfl).toOnward
  | close hfree => exact ⟨fun _ => Nat.le_refl _, fun _ => rfl, fun h => h⟩
  | cancelCtx => exact ⟨fun _ => Nat.le_refl _, fun h => h, fun _ => rfl⟩
  | crash => exact absurd rfl ha
  | _ => exact same rfl rfl rfl

end

end JobsIroh
