/-
The rules of a critical section.

`ExecStep` says once what the frame on top of the stack can do, one constructor for
each way through the code; `exec_rule` shows that `exec` does nothing else.  The
invariants are proved rule by rule, and a change to one function of the model
changes its rules only.
-/
import JobsIroh.Proofs.Effects

namespace JobsIroh

variable {κ : Type}

/-- Fields an unfold or a loop turn does not write. -/
structure SameRun (nd nd' : Node κ) : Prop where
  phase : nd'.phase = nd.phase
  gen : nd'.gen = nd.gen
  lastResultGen : nd'.lastResultGen = nd.lastResultGen
  consecRetry : nd'.consecRetry = nd.consecRetry
  consecControl : nd'.consecControl = nd.consecControl
  defn : nd'.defn = nd.defn
  f : nd'.f = nd.f
  kp : nd'.kp = nd.kp
  queueSeq : nd'.queueSeq = nd.queueSeq

theorem SameRun.refl (nd : Node κ) : SameRun nd nd :=
  ⟨rfl, rfl, rfl, rfl, rfl, rfl, rfl, rfl, rfl⟩

/-! ### Unfolding -/

/-- The node `nd` an unfold leaves, and the inputs it goes on to link. -/
inductive UnfoldRead (W : World κ) (c : Choice) (s : State κ) (n : Nat) :
    Node κ → List NamedInput → Prop
  | named (hkind : s.kind n = .importK) (hne : (s.node n).defn ≠ []) (d : ImportDef)
      (hd : W.decodeImport (s.node n).defn = .ok d) (hf : d.fetcherDef = []) (label : String) :
    UnfoldRead W c s n
      { s.node n with
        platform := if d.platform = "" then (s.node n).platform else d.platform
        label := label, inputs := some [] } []
  | source (hkind : s.kind n = .buildFrom) (hne : (s.node n).defn ≠ []) (d : Definition)
      (hd : W.decodeDefinition (s.node n).defn = .ok d) (label : String) :
    UnfoldRead W c s n
      { s.node n with
        platform := if d.platform = "" then (s.node n).platform else d.platform
        label := label, inputs := some [d.source] } [⟨"", d.source⟩]
  | selfContained (hkind : s.kind n = .pluginResolve) :
    UnfoldRead W c s n { s.node n with inputs := some [] } []
  | plugins (hkind : s.kind n = .pin) (pr : PluginResolved)
      (hr : readBlobLocked W c s.store (.pluginResolved (s.key n)) W.decodePluginResolved =
        .ok pr) :
    UnfoldRead W c s n
      { s.node n with
        pinInputs := [], inputs := some ((sortedNamedInputs pr.plugins pr.deps).map (·.input)) }
      (sortedNamedInputs pr.plugins pr.deps)
  | pinned (hkind : s.kind n = .buildRun) (p : Pinned)
      (hr : readBlobLocked W c s.store (.pinned (s.key n)) W.decodePinned = .ok p) :
    UnfoldRead W c s n
      { s.node n with
        pinnedRes := p.resources.getD (s.node n).pinnedRes, caches := p.caches, runInputs := [],
        inputs := some (p.inputs.map (·.input)) } p.inputs

theorem readBlobLocked_ok {β : Type} {W : World κ} {c : Choice} {st : Store κ} {r : RefName κ}
    {decode : Bytes → Except String β} {x : β} (h : readBlobLocked W c st r decode = .ok x) :
    ∃ b, st.readRefFile W r = .ok b ∧ decode b = .ok x := by
  unfold readBlobLocked at h
  split at h
  · cases h
  split at h
  · cases h
  split at h
  · cases h
  · rename_i b hb
    exact ⟨b, hb, h⟩

namespace UnfoldRead

variable {W : World κ} {c : Choice} {s : State κ} {n : Nat} {nd : Node κ} {rest : List NamedInput}
theorem sameRun (h : UnfoldRead W c s n nd rest) : SameRun (s.node n) nd := by
  cases h <;> exact ⟨rfl, rfl, rfl, rfl, rfl, rfl, rfl, rfl, rfl⟩

theorem inputs (h : UnfoldRead W c s n nd rest) : nd.inputs = some (rest.map (·.input)) := by
  cases h <;> rfl

theorem placeable (h : UnfoldRead W c s n nd rest) : s.kind n ≠ .buildValue := by
  cases h <;> simp_all

end UnfoldRead

/-- The fetcher's build is the import's only input. -/
structure FetcherRead (W : World κ) (s : State κ) (n : Nat) (nd : Node κ) (d : ImportDef) :
    Prop where
  kind : s.kind n = .importK
  known : (s.node n).defn ≠ []
  decoded : W.decodeImport (s.node n).defn = .ok d
  fetcher : d.fetcherDef ≠ []
  same : SameRun (s.node n) nd
  inputs : nd.inputs = some [⟨.build, d.fetcherDef⟩]
  platform : nd.platform = if d.platform = "" then (s.node n).platform else d.platform

/-! ### One turn of the input loop -/

/-- The state in which an input is linked: the loop goes on below. -/
def loopState (s : State κ) (n : Nat) (ni : NamedInput) (rest : List NamedInput) : State κ :=
  (s.setNode n (keepInput (s.node n) (s.kind n) ni.input)).push [.unfolding n rest]

section

variable (nd : Node κ) (kind : Kind) (i : Input)

theorem keepInput_sameRun :
    SameRun nd (keepInput nd kind i) := by
  unfold keepInput
  split <;> exact ⟨rfl, rfl, rfl, rfl, rfl, rfl, rfl, rfl, rfl⟩

theorem keepInput_inputs :
    (keepInput nd kind i).inputs = nd.inputs := by
  unfold keepInput
  split <;> rfl

theorem keepInput_platform :
    (keepInput nd kind i).platform = nd.platform := by
  unfold keepInput
  split <;> rfl

end

/-- The kind of node an input asks for. -/
def nodeKind : InputKind → Option Kind
  | .importK => some .importK
  | .build => some .buildValue
  | _ => none

/-- The platform an input's node is asked for with: that of a build's definition, else the
parent's. -/
def linkPlatform (W : World κ) (own : String) (i : Input) : String :=
  match i.kind with
  | .build =>
    match W.decodeDefinition i.definition with
    | .ok d => if d.platform = "" then own else d.platform
    | .error _ => own
  | _ => own

variable [DecidableEq κ]

/-- What linking one input does. A `build` input is only linked when the search for it among
the ancestors finds nothing. -/
inductive InputStep (W : World κ) (c : Choice) (s : State κ) (p : Nat) (i : Input) :
    State κ → Prop
  | badKey (kind : Kind) (hkind : nodeKind i.kind = some kind) (e : String)
      (hk : W.inputKey i = .error e) :
    InputStep W c s p i (failNodeLocked s p ("input key: " ++ e))
  | cycle (hkind : i.kind = .build) (k : κ) (hk : W.inputKey i = .ok k) (chain : List Nat)
      (hc : cycleChainLocked s p ⟨.buildValue, k⟩ = some chain) :
    InputStep W c s p i (failNodeLocked s p ("sub-build cycle: " ++
      String.intercalate " -> " (chain.map fun n => nodeName W (s.graph.id n))))
  | tree (hkind : i.kind = .tree) : InputStep W c s p i s
  | unknown (kind : String) (hkind : i.kind = .other kind) :
    InputStep W c s p i (failNodeLocked s p ("unknown input kind: " ++ kind))
  | link (kind : Kind) (hkind : nodeKind i.kind = some kind) (k : κ) (hk : W.inputKey i = .ok k)
      (hc : i.kind = .build → cycleChainLocked s p ⟨.buildValue, k⟩ = none)
      (platform label : String) (hp : platform = linkPlatform W (s.node p).platform i) :
    InputStep W c s p i (require c s kind k i.definition platform p label (fun _ => []))

theorem requireInputLocked_rule (W : World κ) (c : Choice) (s : State κ) (p : Nat) (i : Input)
    (label : String) : InputStep W c s p i (requireInputLocked W c s p i label) := by
  unfold requireInputLocked
  split
  · rename_i hkind
    split
    · rename_i e hk
      exact InputStep.badKey .importK (by rw [hkind]; rfl) e hk
    · rename_i k hk
      exact InputStep.link .importK (by rw [hkind]; rfl) k hk (by simp [hkind]) _ _
        (by simp [linkPlatform, hkind])
  · rename_i hkind
    split
    · rename_i e hk
      exact InputStep.badKey .buildValue (by rw [hkind]; rfl) e hk
    · rename_i k hk
      split
      · rename_i chain hc
        exact InputStep.cycle hkind k hk chain hc
      · rename_i hc
        exact InputStep.link .buildValue (by rw [hkind]; rfl) k hk (fun _ => hc) _ _
          (by cases hd : W.decodeDefinition i.definition <;> simp [linkPlatform, hkind, hd])
  · rename_i hkind
    exact InputStep.tree hkind
  · rename_i kind hkind
    exact InputStep.unknown kind hkind

/-! ### The frames -/

/-- The buildvalue a stage frame works for. -/
def Frame.stageOf : Frame κ → Option Nat
  | .afterFrom bv _ | .afterResolve bv _ | .afterPin bv _ | .afterRun bv _ => some bv
  | .putPinned bv _ _ | .putKPTree bv _ | .putPinCover bv _ => some bv
  | .putAliasDeps bv _ _ | .putAliasOutput bv _ => some bv
  | _ => none

/-- The stage node an `after` frame waits for. -/
def Frame.stageNode : Frame κ → Option Nat
  | .afterFrom _ x | .afterResolve _ x | .afterPin _ x | .afterRun _ x => some x
  | _ => none

/-- How a stage frame goes on to the next stage: the node of the buildvalue with what has
been resolved, the stage's kind and key, and the frame that waits for it. -/
inductive NextStage (s : State κ) : Frame κ → Nat → Node κ → Kind → κ → (Nat → Frame κ) → Prop
  | knownF (bv bf : Nat) (hdone : s.phase bf = .done) (f : κ) (hf : (s.node bv).f = some f) :
    NextStage s (.afterFrom bv bf) bv (s.node bv) .pluginResolve f (.afterResolve bv)
  | readF (bv bf : Nat) (hdone : s.phase bf = .done) (f : κ) (hf : (s.node bv).f = none)
      (hr : s.store.refs (.buildFrom (s.key bv)) = some f) :
    NextStage s (.afterFrom bv bf) bv { s.node bv with f := some f } .pluginResolve f
      (.afterResolve bv)
  | resolved (bv pr : Nat) (hdone : s.phase pr = .done) (f : κ) (hf : (s.node bv).f = some f) :
    NextStage s (.afterResolve bv pr) bv (s.node bv) .pin f (.afterPin bv)
  | knownKP (bv pin : Nat) (hdone : s.phase pin = .done) (kp : κ)
      (hk : (s.node bv).kp = some kp) :
    NextStage s (.afterPin bv pin) bv (s.node bv) .buildRun kp (.afterRun bv)
  | readKP (bv pin : Nat) (hdone : s.phase pin = .done) (f kp : κ)
      (hf : (s.node bv).f = some f) (hk : (s.node bv).kp = none)
      (hr : s.store.refs (.pinCover f) = some kp) :
    NextStage s (.afterPin bv pin) bv { s.node bv with kp := some kp } .buildRun kp (.afterRun bv)

/-- The state in which the run is joined: KP is bound to F and kept. -/
abbrev State.bound (s : State κ) (bv : Nat) (f kp : κ) : State κ :=
  (s.putRef (.pinCover f) kp).setNode bv { s.node bv with kp := some kp }

/-- What the frame on top can do; the stack of `s` is what lies below it. -/
inductive ExecStep (W : World κ) (c : Choice) (s : State κ) : Frame κ → State κ → Prop
  /- Unfolding. -/
  | unfoldFail (n : Nat) (nd : Node κ) (hnd : SameRun (s.node n) nd) (e : String)
      (hkind : s.kind n ≠ .buildValue)
      (hp : s.kind n = .importK ∨ nd.platform = (s.node n).platform) :
    ExecStep W c s (.unfold n) (s.setNode n (failedNode nd e))
  | unfoldRead (n : Nat) (nd : Node κ) (rest : List NamedInput)
      (hr : UnfoldRead W c s n nd rest) :
    ExecStep W c s (.unfold n) ((s.setNode n nd).push [.unfolding n rest])
  | unfoldFetcher (n : Nat) (nd : Node κ) (d : ImportDef) (hr : FetcherRead W s n nd d) (fk : κ)
      (hk : W.inputKey ⟨.build, d.fetcherDef⟩ = .ok fk) (platform label : String)
      (hp : platform = nd.platform) :
    ExecStep W c s (.unfold n)
      (require c (s.setNode n nd) .buildValue fk d.fetcherDef platform n label
        (fun _ => [.unfolding n []]))
  | unfoldValue (n : Nat) (hkind : s.kind n = .buildValue) :
    ExecStep W c s (.unfold n) (s.push [.advance n])
  | unfolded (n : Nat) : ExecStep W c s (.unfolding n []) (maybeEnqueueLocked W c s n)
  | input (n : Nat) (ni : NamedInput) (rest : List NamedInput) (s' : State κ)
      (hi : InputStep W c (loopState s n ni rest) n ni.input s') :
    ExecStep W c s (.unfolding n (ni :: rest)) s'
  /- The pipeline of a buildvalue. -/
  | advanceSettled (bv : Nat) (h : (s.phase bv).settled = true) : ExecStep W c s (.advance bv) s
  | advance (bv : Nat) (h : (s.phase bv).settled = false) :
    ExecStep W c s (.advance bv)
      (requireStage c s bv .buildFrom (s.key bv) (s.node bv).defn (.afterFrom bv))
  | stageWaits (fr : Frame κ) (x : Nat) (hx : fr.stageNode = some x) (h : s.phase x ≠ .done) :
    ExecStep W c s fr s
  | stageUnresolved (fr : Frame κ) (bv : Nat) (hbv : fr.stageOf = some bv)
      (h : (s.node bv).f = none ∨ (s.node bv).kp = none)
      (hfr : (s.node bv).f = none ∧ (∀ bf, fr ≠ .afterFrom bv bf) ∨ ∃ run, fr = .afterRun bv run) :
    ExecStep W c s fr s
  | stageFail (fr : Frame κ) (bv : Nat) (hbv : fr.stageOf = some bv) (e : String) :
    ExecStep W c s fr (failNodeLocked s bv e)
  | nextStage (fr : Frame κ) (bv : Nat) (nd : Node κ) (kind : Kind) (k : κ) (ret : Nat → Frame κ)
      (h : NextStage s fr bv nd kind k ret) :
    ExecStep W c s fr (requireStage c (s.setNode bv nd) bv kind k [] ret)
  | deriveKP (bv pin : Nat) (hdone : s.phase pin = .done) (f kp pk : κ)
      (hf : (s.node bv).f = some f) (hk : (s.node bv).kp = none)
      (hr : s.store.refs (.pinCover f) = none) (hd : deriveKPValue W s.store f = .ok (kp, pk)) :
    ExecStep W c s (.afterPin bv pin)
      ({ s with store := s.store.ingest kp }.push [.putPinned bv kp pk])
  | putPinned (bv : Nat) (kp pk : κ) :
    ExecStep W c s (.putPinned bv kp pk) ((s.putRef (.pinned kp) pk).push [.putKPTree bv kp])
  | putKPTree (bv : Nat) (kp : κ) :
    ExecStep W c s (.putKPTree bv kp) ((s.putRef (.kpTree kp) kp).push [.putPinCover bv kp])
  | putPinCover (bv : Nat) (kp f : κ) (hf : (s.node bv).f = some f) :
    ExecStep W c s (.putPinCover bv kp)
      (requireStage c ((s.putRef (.pinCover f) kp).setNode bv { s.node bv with kp := some kp }) bv
        .buildRun kp [] (.afterRun bv))
  | aliased (bv run : Nat) (hdone : s.phase run = .done) (f kp : κ) (hf : (s.node bv).f = some f)
      (hk : (s.node bv).kp = some kp) (ho : s.store.has (.output f)) :
    ExecStep W c s (.afterRun bv run) (nodeDoneLocked s bv)
  | startAlias (bv run : Nat) (hdone : s.phase run = .done) (f kp deps out : κ)
      (hf : (s.node bv).f = some f) (hk : (s.node bv).kp = some kp)
      (hd : s.store.refs (.outputDeps kp) = some deps) (ho : s.store.refs (.output kp) = some out) :
    ExecStep W c s (.afterRun bv run) (s.push [.putAliasDeps bv deps out])
  | putAliasDeps (bv : Nat) (deps out f : κ) (hf : (s.node bv).f = some f) :
    ExecStep W c s (.putAliasDeps bv deps out)
      ((s.putRef (.outputDeps f) deps).push [.putAliasOutput bv out])
  | putAliasOutput (bv : Nat) (out f : κ) (hf : (s.node bv).f = some f) :
    ExecStep W c s (.putAliasOutput bv out) (nodeDoneLocked (s.putRef (.output f) out) bv)
  /- The dependents of a node that got done. -/
  | notified (n : Nat) (seen : List Nat) : ExecStep W c s (.notify n [] seen) s
  | notifyValue (n : Nat) (todo seen : List Nat) (d : Nat)
      (hd : d ∈ todo ∨ d ∈ s.graph.dependents n) (hkind : s.kind d = .buildValue) :
    ExecStep W c s (.notify n todo seen)
      (s.push [.advance d, .notify n (todo.filter (fun x => x ≠ d)) (d :: seen)])
  | notifyNode (n : Nat) (todo seen : List Nat) (d : Nat)
      (hd : d ∈ todo ∨ d ∈ s.graph.dependents n) (hkind : s.kind d ≠ .buildValue) :
    ExecStep W c s (.notify n todo seen)
      (maybeEnqueueLocked W c
        (s.push [.notify n (todo.filter (fun x => x ≠ d)) (d :: seen)]) d)
  /- The end of a submit. -/
  | rejected (rid : ReqID) (t : Nat) (scratch : String) (r : Request κ)
      (hr : s.requests rid = some r) :
    ExecStep W c s (.submitted rid t scratch) (setRequest (dropInterestLocked s rid t) rid none)
  | submitGone (rid : ReqID) (t : Nat) (scratch : String) (hr : s.requests rid = none) :
    ExecStep W c s (.submitted rid t scratch) s
  | submitted (rid : ReqID) (t : Nat) (scratch : String) (r : Request κ)
      (hr : s.requests rid = some r) :
    ExecStep W c s (.submitted rid t scratch) (deleteScratch W clientScratchPrefix scratch s)

section

variable {W : World κ} {c : Choice} {s : State κ} {fr : Frame κ}

theorem unfoldFail_rule {n : Nat} (hkind : s.kind n ≠ .buildValue) (e : String) :
    ExecStep W c s (.unfold n) (failNodeLocked s n e) := by
  rw [failNodeLocked_eq]
  exact ExecStep.unfoldFail n _ (SameRun.refl _) _ hkind (Or.inr rfl)

/-- A frame that waits for a stage goes on when the stage is done. -/
theorem waits_rule {x : Nat} (hx : fr.stageNode = some x) {go : State κ}
    (h : s.phase x = .done → ExecStep W c s fr go) :
    ExecStep W c s fr (if s.phase x ≠ .done then s else go) := by
  by_cases hdone : s.phase x = .done
  · rw [if_neg (not_not.mpr hdone)]
    exact h hdone
  · rw [if_pos hdone]
    exact ExecStep.stageWaits _ x hx hdone

/-- The next stage of a buildvalue that knows its key. -/
theorem nextStage_rule {bv : Nat} {kind : Kind} {k : κ} {ret : Nat → Frame κ}
    (h : NextStage s fr bv (s.node bv) kind k ret) :
    ExecStep W c s fr (requireStage c s bv kind k [] ret) := by
  have hnext := ExecStep.nextStage (W := W) (c := c) _ _ _ _ _ _ h
  rwa [State.setNode_self] at hnext

theorem putOrFail_rule {bv : Nat} (hbv : fr.stageOf = some bv) (what : String) (r : RefName κ)
    (k : κ) {next : State κ → State κ} (h : ExecStep W c s fr (next (s.putRef r k))) :
    ExecStep W c s fr (putOrFail c s bv what r k next) := by
  unfold putOrFail
  split
  · exact ExecStep.stageFail _ bv hbv _
  · exact h

/-- A frame that needs the F of its buildvalue does nothing without it. -/
theorem needF_rule {bv : Nat} (hbv : fr.stageOf = some bv) (hfr : ∀ bf, fr ≠ .afterFrom bv bf)
    {go : κ → State κ} (h : ∀ f, (s.node bv).f = some f → ExecStep W c s fr (go f)) :
    ExecStep W c s fr (match (s.node bv).f with
      | none => s
      | some f => go f) := by
  rcases hf : (s.node bv).f with _ | f
  · exact ExecStep.stageUnresolved _ bv hbv (Or.inl hf) (Or.inl ⟨hf, hfr⟩)
  · exact h f hf

end

section

variable (W : World κ) (c : Choice) (s : State κ)

theorem unfoldLocked_rule (n : Nat) :
    ExecStep W c s (.unfold n) (unfoldLocked W c s n) := by
  unfold unfoldLocked
  rcases hkind : s.kind n with _ | _ | _ | _ | _ | _
  all_goals dsimp only
  · unfold unfoldImport
    dsimp only
    split
    · exact unfoldFail_rule (by simp [hkind]) _
    rename_i hne
    split
    · exact unfoldFail_rule (by simp [hkind]) _
    rename_i d hd
    split
    · rename_i hf
      exact ExecStep.unfoldRead n _ _ (UnfoldRead.named hkind hne d hd hf _)
    rename_i hf
    split
    · rw [failNodeLocked_eq]
      unfold readInputs
      rw [State.setNode_node, State.setNode_setNode]
      refine ExecStep.unfoldFail n _ ?_ _ (by simp [hkind]) (Or.inl hkind)
      exact ⟨rfl, rfl, rfl, rfl, rfl, rfl, rfl, rfl, rfl⟩
    · rename_i fk hk
      refine ExecStep.unfoldFetcher n _ d ?_ fk hk _ _ rfl
      exact ⟨hkind, hne, hd, hf, ⟨rfl, rfl, rfl, rfl, rfl, rfl, rfl, rfl, rfl⟩, rfl, rfl⟩
  · unfold unfoldBuildFrom
    dsimp only
    split
    · exact unfoldFail_rule (by simp [hkind]) _
    rename_i hne
    split
    · exact unfoldFail_rule (by simp [hkind]) _
    · rename_i d hd
      exact ExecStep.unfoldRead n _ _ (UnfoldRead.source hkind hne d hd _)
  · exact ExecStep.unfoldRead n _ _ (UnfoldRead.selfContained hkind)
  · unfold unfoldPin
    split
    · exact unfoldFail_rule (by simp [hkind]) _
    · rename_i pr hr
      exact ExecStep.unfoldRead n _ _ (UnfoldRead.plugins hkind pr hr)
  · unfold unfoldBuildRun
    split
    · exact unfoldFail_rule (by simp [hkind]) _
    · rename_i p hr
      exact ExecStep.unfoldRead n _ _ (UnfoldRead.pinned hkind p hr)
  · exact ExecStep.unfoldValue n hkind

theorem afterFrom_rule (bv bf : Nat) :
    ExecStep W c s (.afterFrom bv bf) (afterFrom W c s bv bf) := by
  refine waits_rule rfl fun hdone => ?_
  split
  · rename_i f hf
    exact nextStage_rule (NextStage.knownF bv bf hdone f hf)
  · rename_i hf
    split
    · exact ExecStep.stageFail _ bv rfl _
    split
    · exact ExecStep.stageFail _ bv rfl _
    · rename_i f hr
      exact ExecStep.nextStage _ _ _ _ _ _ (NextStage.readF bv bf hdone f hf hr)

theorem afterResolve_rule (bv pr : Nat) :
    ExecStep W c s (.afterResolve bv pr) (afterResolve c s bv pr) := by
  refine waits_rule rfl fun hdone => ?_
  split
  · rename_i f hf
    exact nextStage_rule (NextStage.resolved bv pr hdone f hf)
  · rename_i hf
    exact ExecStep.stageUnresolved _ bv rfl (Or.inl hf) (Or.inl ⟨hf, by simp⟩)

theorem afterPin_rule (bv pin : Nat) :
    ExecStep W c s (.afterPin bv pin) (afterPin W c s bv pin) := by
  refine waits_rule rfl fun hdone => ?_
  split
  · rename_i kp hk
    exact nextStage_rule (NextStage.knownKP bv pin hdone kp hk)
  · rename_i hk hf
    exact ExecStep.stageUnresolved _ bv rfl (Or.inl hf) (Or.inl ⟨hf, by simp⟩)
  · rename_i f hk hf
    split
    · exact ExecStep.stageFail _ bv rfl _
    split
    · rename_i kp hr
      exact ExecStep.nextStage _ _ _ _ _ _ (NextStage.readKP bv pin hdone f kp hf hk hr)
    · rename_i hr
      split
      · exact ExecStep.stageFail _ bv rfl _
      split
      · exact ExecStep.stageFail _ bv rfl _
      · rename_i kp pk hd
        exact ExecStep.deriveKP bv pin hdone f kp pk hf hk hr hd

theorem afterRun_rule (bv run : Nat) :
    ExecStep W c s (.afterRun bv run) (afterRun W c s bv run) := by
  refine waits_rule rfl fun hdone => ?_
  rcases hf : (s.node bv).f with _ | f
  · exact ExecStep.stageUnresolved _ bv rfl (Or.inl hf) (Or.inr ⟨run, rfl⟩)
  rcases hk : (s.node bv).kp with _ | kp
  · exact ExecStep.stageUnresolved _ bv rfl (Or.inr hk) (Or.inr ⟨run, rfl⟩)
  dsimp only
  split
  · exact ExecStep.stageFail _ bv rfl _
  split
  · rename_i ho
    exact ExecStep.aliased bv run hdone f kp hf hk ho
  split
  · exact ExecStep.stageFail _ bv rfl _
  split
  · rename_i deps out hd ho
    exact ExecStep.startAlias bv run hdone f kp deps out hf hk hd ho
  · exact ExecStep.stageFail _ bv rfl _

theorem notifyNext_rule (n : Nat) (todo seen : List Nat) :
    ExecStep W c s (.notify n todo seen) (notifyNext W c s n todo seen) := by
  unfold notifyNext
  rcases hd : nextDependent c s n todo seen with _ | d
  · have htodo : todo = [] := by
      unfold nextDependent at hd
      split at hd
      · simpa using hd
      · split at hd
        · cases hd
        · simpa using hd
    subst htodo
    exact ExecStep.notified n seen
  · have hmem : d ∈ todo ∨ d ∈ s.graph.dependents n := by
      unfold nextDependent at hd
      split at hd
      · exact Or.inl (List.mem_of_head? hd)
      · split at hd
        · rename_i hc
          obtain rfl := Option.some.inj hd
          exact hc.imp id And.left
        · exact Or.inl (List.mem_of_head? hd)
    dsimp only
    unfold onDepDoneLocked
    split
    · rename_i hkind
      exact ExecStep.notifyValue n todo seen d hmem hkind
    · rename_i hkind
      exact ExecStep.notifyNode n todo seen d hmem hkind

/-- **`exec` takes only the steps of the rules.** -/
theorem exec_rule (fr : Frame κ) : ExecStep W c s fr (exec W c s fr) := by
  rcases fr with n | ⟨n, _ | ⟨ni, rest⟩⟩ | bv | ⟨bv, bf⟩ | ⟨bv, pr⟩ | ⟨bv, pin⟩ | ⟨bv, run⟩ |
    ⟨bv, kp, pk⟩ | ⟨bv, kp⟩ | ⟨bv, kp⟩ | ⟨bv, deps, out⟩ | ⟨bv, out⟩ | ⟨n, todo, seen⟩ |
    ⟨rid, t, scratch⟩
  · exact unfoldLocked_rule W c s n
  · exact ExecStep.unfolded n
  · exact ExecStep.input n ni rest _ (requireInputLocked_rule W c _ n ni.input ni.name)
  · show ExecStep W c s _ (advanceBuildValueLocked c s bv)
    unfold advanceBuildValueLocked
    by_cases h : (s.phase bv).settled = true
    · rw [if_pos h]
      exact ExecStep.advanceSettled bv h
    · rw [if_neg h]
      exact ExecStep.advance bv (by simpa using h)
  · exact afterFrom_rule W c s bv bf
  · exact afterResolve_rule W c s bv pr
  · exact afterPin_rule W c s bv pin
  · exact afterRun_rule W c s bv run
  · show ExecStep W c s (.putPinned bv kp pk) (putPinned c s bv kp pk)
    exact putOrFail_rule rfl _ _ _ (ExecStep.putPinned bv kp pk)
  · show ExecStep W c s (.putKPTree bv kp) (putKPTree c s bv kp)
    exact putOrFail_rule rfl _ _ _ (ExecStep.putKPTree bv kp)
  · exact needF_rule rfl (by simp) fun f hf =>
      putOrFail_rule rfl _ _ _ (ExecStep.putPinCover bv kp f hf)
  · exact needF_rule rfl (by simp) fun f hf =>
      putOrFail_rule rfl _ _ _ (ExecStep.putAliasDeps bv deps out f hf)
  · exact needF_rule rfl (by simp) fun f hf =>
      putOrFail_rule rfl _ _ _ (ExecStep.putAliasOutput bv out f hf)
  · exact notifyNext_rule W c s n todo seen
  · show ExecStep W c s _ (afterSubmit W c s rid t scratch)
    unfold afterSubmit
    split
    · rename_i hr
      exact ExecStep.submitGone rid t scratch hr
    · rename_i r hr
      split
      · exact ExecStep.rejected rid t scratch r hr
      · exact ExecStep.submitted rid t scratch r hr

end

end JobsIroh
