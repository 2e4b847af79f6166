/-
The pipelines that are under way.

A critical section may have several buildvalues in hand, one inside the other.  Each of
them is in hand once: only the loop over the dependents of a stage advances a buildvalue
that was there before, and that loop lies at the bottom of the stack.  So nothing settles
a buildvalue but its own frame, and a failed node stays failed.

A buildvalue goes from stage to stage only when the stage is done, so its deps are done
but for the last one.
-/
import JobsIroh.Proofs.Durable
import JobsIroh.Proofs.Ready

namespace JobsIroh

variable {κ : Type} [DecidableEq κ]

/-- The node a frame has in hand. -/
def Frame.works : Frame κ → Option Nat
  | .unfold n | .advance n => some n
  | fr => fr.stageOf

omit [DecidableEq κ] in
theorem Frame.works_of_stageOf {fr : Frame κ} {bv : Nat} (h : fr.stageOf = some bv) :
    fr.works = some bv := by
  cases fr <;> simp_all [Frame.works, Frame.stageOf]

/-- What a frame relies on. -/
def StageKnown (s : State κ) : Frame κ → Prop
  | .afterFrom _ x => s.kind x = .buildFrom
  | .afterResolve _ x => s.kind x = .pluginResolve
  | .afterPin _ x => s.kind x = .pin
  | .afterRun _ x => s.kind x = .buildRun
  | .putPinned bv _ _ | .putKPTree bv _ | .putPinCover bv _ =>
    (s.node bv).kp = none ∧ ∃ d ∈ s.graph.deps bv, s.kind d = .pin ∧ s.phase d = .done
  | .putAliasDeps bv _ _ | .putAliasOutput bv _ =>
    ∃ d ∈ s.graph.deps bv, s.kind d = .buildRun ∧ s.phase d = .done
  | .notify n todo _ => n < s.graph.next ∧ ∀ d ∈ todo, n ∈ s.graph.deps d
  | _ => True

/-- What is known of the nodes of an open frame. -/
structure FrameKnown (s : State κ) (fr : Frame κ) : Prop where
  known : StageKnown s fr
  unsettled : ∀ bv, fr.stageOf = some bv → (s.phase bv).settled = false
  /-- A node that is still being unfolded is not done. -/
  opened : ∀ n, fr.opens = some n → s.phase n ≠ .done

section

variable {W : World κ} {c : Choice} {s s' : State κ} {n q : Nat} {fr fr' : Frame κ}

/-! ### The frames a frame leaves -/

omit [DecidableEq κ] in
theorem FrameKnown.plain (hst : fr.stageOf = none) (ho : fr.opens = none)
    (hk : StageKnown s fr) : FrameKnown s fr :=
  ⟨hk, by simp [hst], by simp [ho]⟩

theorem joinNode_pushed {id : NodeID κ} {g : InterestGraph.Graph (NodeID κ) ReqID} {defn : Bytes}
    {platform label : String} {ret : List (Frame κ)} (hid : g.id (s.graph.occupant id) = id)
    (hmem : fr' ∈ (joinNode c s id g defn platform label ret).stack) :
    fr' ∈ ret ++ s.stack ∨ FrameKnown (joinNode c s id g defn platform label ret) fr' := by
  obtain ⟨nd, fs, lg, heq, hj⟩ := joinNode_eq defn platform label ret hid
  rw [heq] at hmem ⊢
  rcases List.mem_append.mp hmem with hnew | hold
  · cases hj with
    | fresh =>
      rw [List.mem_singleton.mp hnew]
      refine Or.inr ⟨trivial, by simp [Frame.stageOf], ?_⟩
      intro n hn
      obtain rfl : s.graph.occupant id = n := Option.some.inj hn
      simp [State.phase, freshNode, fillNode]
    | _ => cases hnew
  · exact Or.inl hold

/-- The frame that waits for a stage knows its kind. -/
theorem requireStage_pushed {bv : Nat} {kind : Kind} {k : κ} {defn : Bytes} {ret : Nat → Frame κ}
    (hb : Base s) (hbv : s.graph.Alive bv) (hu : (s.phase bv).settled = false)
    (hret : ∀ x, (ret x).stageOf = some bv ∧ (ret x).opens = none)
    (hknown : ∀ (s₁ : State κ) x, s₁.kind x = kind → StageKnown s₁ (ret x))
    (hmem : fr' ∈ (requireStage c s bv kind k defn ret).stack) :
    fr' ∈ s.stack ∨ FrameKnown (requireStage c s bv kind k defn ret) fr' := by
  have hreq : Required s (requireStage c s bv kind k defn ret) kind k bv
      (s.graph.occupant ⟨kind, k⟩) := hb.required
  have hstays := require_stays (c := c) hb.graph kind k defn (s.node bv).platform bv
    (s.node bv).label (fun n => [ret n]) hbv
  rcases joinNode_pushed (hb.graph.require_id ⟨kind, k⟩ bv) hmem with hold | hnew
  · rcases List.mem_append.mp hold with hnew | hold
    · rw [List.mem_singleton.mp hnew]
      refine Or.inr ⟨hknown _ _ (congrArg NodeID.kind hreq.id), ?_, ?_⟩
      · intro b hb'
        rw [(hret _).1] at hb'
        obtain rfl : bv = b := Option.some.inj hb'
        show ((require c s kind k defn _ bv _ _).phase bv).settled = false
        rw [hstays.phase]
        exact hu
      · intro n hn
        rw [(hret _).2] at hn
        cases hn
    · exact Or.inl hold
  · exact Or.inr hnew

section

omit [DecidableEq κ]

theorem nodeDoneLocked_pushed {bv : Nat} (hg : s.graph.Inv s.target) (hbv : s.graph.Alive bv)
    (hmem : fr' ∈ (nodeDoneLocked s bv).stack) :
    fr' ∈ s.stack ∨ FrameKnown (nodeDoneLocked s bv) fr' := by
  rcases nodeDoneLocked_stack s bv with heq | heq
  · rw [heq] at hmem
    exact Or.inl hmem
  · rw [heq] at hmem
    rcases List.mem_cons.mp hmem with rfl | hold
    · refine Or.inr (.plain rfl rfl ⟨?_, ?_⟩)
      · rw [(nodeDoneLocked_inner _ _ (.refl _)).graph]
        exact hg.alive_lt hbv
      · intro d hd
        rw [(nodeDoneLocked_inner _ _ (.refl _)).graph]
        exact ((hg.dependentsIff d bv).mp hd).2
    · exact Or.inl hold

/-- A loop that goes on: its node is as open as it was. -/
theorem FrameKnown.loop {left : List NamedInput} (hph : s'.phase n = .done → s.phase n = .done)
    (h : s.phase n ≠ .done) : FrameKnown s' (.unfolding n left) := by
  refine ⟨trivial, by simp [Frame.stageOf], ?_⟩
  intro m hm
  obtain rfl : n = m := Option.some.inj hm
  exact fun hd => h (hph hd)

theorem failNodeLocked_done (s : State κ) (n : Nat) (e : String) (q : Nat)
    (h : (failNodeLocked s n e).phase q = .done) : s.phase q = .done := by
  unfold failNodeLocked at h
  split at h
  · exact h
  · by_cases hq : q = n
    · subst hq
      simp [State.phase] at h
    · rw [State.phase, State.setNode_node_ne s _ hq] at h
      exact h

end

/-- **What a frame leaves in its place relies on what is so.** -/
theorem ExecStep.pushed (h : ExecStep W c s fr s') (hb : Base s) (hok : FrameOK s fr)
    (hf : FrameKnown s fr) (hmem : fr' ∈ s'.stack) : fr' ∈ s.stack ∨ FrameKnown s' fr' := by
  have one : ∀ {s₁ : State κ} {fr₁ : Frame κ}, s₁.stack = fr₁ :: s.stack → fr' ∈ s₁.stack →
      FrameKnown s₁ fr₁ → fr' ∈ s.stack ∨ FrameKnown s₁ fr' := by
    intro s₁ fr₁ hst hmem hk
    rw [hst] at hmem
    rcases List.mem_cons.mp hmem with rfl | hold
    · exact Or.inr hk
    · exact Or.inl hold
  -- the frame of a buildvalue goes on to another one of it
  have stage : ∀ {s₁ : State κ} {fr₁ : Frame κ} (bv : Nat), s₁.stack = fr₁ :: s.stack →
      fr' ∈ s₁.stack → s₁.phase bv = s.phase bv → fr.stageOf = some bv →
      fr₁.stageOf = some bv → fr₁.opens = none → StageKnown s₁ fr₁ →
      fr' ∈ s.stack ∨ FrameKnown s₁ fr' := by
    intro s₁ fr₁ bv hst hmem hph hbv hbv₁ ho hk
    refine one hst hmem ⟨hk, ?_, by simp [ho]⟩
    intro b hb'
    obtain rfl : bv = b := Option.mem_unique hbv₁ hb'
    rw [hph]
    exact hf.unsettled bv hbv
  cases h with
  | unfoldRead n nd rest hr =>
    refine one rfl hmem (FrameKnown.loop (fun hd => ?_) (hf.opened n rfl))
    rw [← hd]
    simp [State.phase, State.setNode, State.push, hr.sameRun.phase]
  | unfoldFetcher n nd d hr fk hk platform label =>
    have hsame : (s.setNode n nd).phase n = s.phase n := by
      simp [State.phase, hr.same.phase]
    have hstays := require_stays (c := c) (s := s.setNode n nd) hb.graph .buildValue fk
      d.fetcherDef platform n label (fun _ => [.unfolding n []]) hok
    rcases joinNode_pushed (s := s.setNode n nd)
      (hb.graph.require_id ⟨.buildValue, fk⟩ n) hmem with hold | hnew
    · rcases List.mem_cons.mp hold with rfl | hold
      · refine Or.inr (FrameKnown.loop (fun hd => ?_) (hf.opened n rfl))
        rw [hstays.phase, hsame] at hd
        exact hd
      · exact Or.inl hold
    · exact Or.inr hnew
  | unfoldValue => exact one rfl hmem (.plain rfl rfl trivial)
  | unfolded =>
    rw [maybeEnqueueLocked_stack] at hmem
    exact Or.inl hmem
  | input n ni rest s' hi =>
    have hsame : (loopState s n ni rest).phase n = s.phase n := by
      simp [State.phase, loopState, State.push, (keepInput_sameRun _ _ _).phase]
    have hopen := hf.opened n rfl
    have fails : ∀ e, fr' ∈ (failNodeLocked (loopState s n ni rest) n e).stack →
        fr' ∈ s.stack ∨ FrameKnown (failNodeLocked (loopState s n ni rest) n e) fr' := by
      intro e hmem
      refine one (failNodeLocked_stack _ n e) hmem (FrameKnown.loop (fun hd => ?_) hopen)
      rw [← hsame]
      exact failNodeLocked_done _ n e n hd
    cases hi with
    | tree =>
      exact one rfl hmem (FrameKnown.loop (s := s) (fun hd => hsame ▸ hd) hopen)
    | link kind hk k he hc platform label =>
      have hstays := require_stays (c := c) (s := loopState s n ni rest) hb.graph kind k
        ni.input.definition platform n label (fun _ => []) hok.1
      rcases joinNode_pushed (s := loopState s n ni rest)
        (hb.graph.require_id ⟨kind, k⟩ n) hmem with hold | hnew
      · rcases List.mem_cons.mp hold with rfl | hold
        · refine Or.inr (FrameKnown.loop (s := s) (fun hd => ?_) hopen)
          rw [hstays.phase, hsame] at hd
          exact hd
        · exact Or.inl hold
      · exact Or.inr hnew
    | _ => exact fails _ hmem
  | advance bv hs =>
    exact requireStage_pushed hb hok.1 hs (fun x => ⟨rfl, rfl⟩) (fun s₁ x hx => hx) hmem
  | stageFail =>
    rw [failNodeLocked_stack] at hmem
    exact Or.inl hmem
  | nextStage fr bv nd kind k ret hn =>
    have hstage := hok.stage hn.stageOf.1
    have hu := hf.unsettled bv hn.stageOf.1
    have hnd : nd.phase = (s.node bv).phase := by cases hn <;> rfl
    have hb₁ : Base (s.setNode bv nd) := by
      refine hb.setNode ?_
      cases hn <;> simp_all [Keeps]
    refine requireStage_pushed hb₁ hstage.1 ?_ ?_ ?_ hmem
    · rw [State.phase, State.setNode_node, hnd]
      exact hu
    · intro x
      refine ⟨hn.stageOf.2 x, ?_⟩
      cases hn <;> rfl
    · intro s₁ x hx
      cases hn <;> exact hx
  | deriveKP bv pin hdone f kp pk hf' hk =>
    refine stage bv rfl hmem rfl rfl rfl rfl ⟨hk, pin, hok.2, hf.known, hdone⟩
  | putPinned bv | putKPTree bv | putAliasDeps bv =>
    exact stage bv rfl hmem rfl rfl rfl rfl hf.known
  | putPinCover bv kp f =>
    have hb₁ : Base (s.bound bv f kp) := by
      refine Base.setNode (s := s.putRef (.pinCover f) kp) ?_ ⟨fun hne => hne, by simp⟩
      exact hb.congr rfl rfl rfl rfl
    refine requireStage_pushed (s := s.bound bv f kp) hb₁ hok.1 ?_ (fun x => ⟨rfl, rfl⟩)
      (fun s₁ x hx => hx) hmem
    rw [State.phase, State.setNode_node]
    exact hf.unsettled bv rfl
  | aliased => exact nodeDoneLocked_pushed hb.graph hok.1.1 hmem
  | startAlias bv run hdone =>
    exact stage bv rfl hmem rfl rfl rfl rfl ⟨run, hok.2.1, hf.known, hdone⟩
  | putAliasOutput bv out f =>
    exact nodeDoneLocked_pushed (s := s.putRef (.output f) out) hb.graph hok.1 hmem
  | notifyValue =>
    rcases List.mem_cons.mp hmem with rfl | hmem
    · exact Or.inr (.plain rfl rfl trivial)
    rcases List.mem_cons.mp hmem with rfl | hold
    · exact Or.inr (.plain rfl rfl ⟨hf.known.1, fun x hx => hf.known.2 x (List.mem_filter.mp hx).1⟩)
    · exact Or.inl hold
  | notifyNode n todo seen d =>
    refine one (maybeEnqueueLocked_stack W c _ d) hmem (.plain rfl rfl ⟨?_, ?_⟩)
    · rw [(maybeEnqueueLocked_inner _ _ _ _ (.refl _)).graph]
      exact hf.known.1
    · intro x hx
      rw [(maybeEnqueueLocked_inner _ _ _ _ (.refl _)).graph]
      exact hf.known.2 x (List.mem_filter.mp hx).1
  | submitted rid t scratch =>
    rw [deleteScratch_eta] at hmem
    exact Or.inl hmem
  | _ => exact Or.inl hmem

end

/-! ### One pipeline for a buildvalue -/

/-- How the pipelines lie on the stack. -/
structure Pipelines (s : State κ) : Prop where
  alone : (s.stack.filterMap Frame.works).Nodup
  frames : ∀ fr ∈ s.stack, FrameKnown s fr
  /-- The loop over the dependents of a stage lies at the bottom. -/
  inner : ∀ n todo seen, .notify n todo seen ∈ s.stack.dropLast → s.graph.Alive n →
    s.kind n = .buildValue

section

variable {W : World κ} {c : Choice} {s s' : State κ} {n q : Nat} {fr : Frame κ}

section

omit [DecidableEq κ]

theorem works_cons (fr : Frame κ) (rest : List (Frame κ)) :
    (fr :: rest).filterMap Frame.works = fr.works.toList ++ rest.filterMap Frame.works := by
  cases h : fr.works with
  | none | some => simp [h]

theorem Base.works_alive (hb : Base s) (hfr : fr ∈ s.stack) (hw : fr.works = some n) :
    s.graph.Alive n := by
  have hok := hb.frames fr hfr
  cases fr with
  | unfold m =>
    obtain rfl : m = n := Option.some.inj hw
    exact hok
  | advance m =>
    obtain rfl : m = n := Option.some.inj hw
    exact hok.1
  | unfolding | notify | submitted => cases hw
  | _ => exact (hok.stage hw).1

theorem Pipelines.top {rest : List (Frame κ)} (h : Pipelines s) (hst : s.stack = fr :: rest) :
    FrameKnown { s with stack := rest } fr := by
  have hmem := State.top_mem hst
  exact ⟨(h.frames fr hmem).known, (h.frames fr hmem).unsettled, (h.frames fr hmem).opened⟩

/-- No frame below the top has the same node in hand. -/
theorem Pipelines.not_below {fr' : Frame κ} {rest : List (Frame κ)} (h : Pipelines s)
    (hst : s.stack = fr :: rest) (hw : fr.works = some n) (hfr' : fr' ∈ rest) :
    fr'.works ≠ some n := by
  intro hw'
  have hd := h.alone
  rw [hst, works_cons, hw] at hd
  exact (List.nodup_cons.mp hd).1 (List.mem_filterMap.mpr ⟨fr', hfr', hw'⟩)

/-- Who has a buildvalue's dependents to go through is a buildvalue only in the middle. -/
theorem Pipelines.bottom {m : Nat} {todo seen : List Nat} {rest : List (Frame κ)}
    (h : Pipelines s) (hb : Base s) (hst : s.stack = .notify m todo seen :: rest) {d : Nat}
    (hd : d ∈ todo ∨ d ∈ s.graph.dependents m) (hkind : s.kind d = .buildValue) : rest = [] := by
  by_contra hne
  have hmem : Frame.notify m todo seen ∈ s.stack.dropLast := by
    rw [hst]
    cases rest with
    | nil => exact absurd rfl hne
    | cons => simp
  have htop := State.top_mem hst
  have hedge : s.graph.Alive d ∧ m ∈ s.graph.deps d := by
    rcases hd with hd | hd
    · exact ⟨hb.frames _ htop d hd, (h.frames _ htop).known.2 d hd⟩
    · exact (hb.graph.dependentsIff d m).mp hd
  have hm := hb.graph.depsIn d m hedge.1 hedge.2
  exact hb.edges d m hedge.1 hedge.2 hkind (h.inner m todo seen hmem hm)

end

/-- The nodes in hand after a frame: those before, and at most the node it has made. -/
theorem Pipelines.step_alone {rest : List (Frame κ)} (h : Pipelines s) (hb : Base s)
    (hst : s.stack = fr :: rest) (he : ExecStep W c { s with stack := rest } fr s') :
    (s'.stack.filterMap Frame.works).Nodup := by
  obtain ⟨fs, p, hst', hmade, hleft⟩ := he.leaves hb.graph
  have hold := h.alone
  rw [hst, works_cons] at hold
  have keep : (p.filterMap Frame.works).Sublist fr.works.toList →
      ((p ++ rest).filterMap Frame.works).Nodup ∧
        ∀ x ∈ (p ++ rest).filterMap Frame.works, x < s.graph.next := by
    intro hsub
    rw [List.filterMap_append]
    have hsub' := hsub.append_right (rest.filterMap Frame.works)
    refine ⟨hold.sublist hsub', fun x hx => ?_⟩
    have hx' : x ∈ s.stack.filterMap Frame.works := by
      rw [hst, works_cons]
      exact hsub'.subset hx
    obtain ⟨fr', hfr', hw⟩ := List.mem_filterMap.mp hx'
    exact hb.graph.alive_lt (hb.works_alive hfr' hw)
  have hp : ((p ++ rest).filterMap Frame.works).Nodup ∧
      ∀ x ∈ (p ++ rest).filterMap Frame.works, x < s.graph.next := by
    cases hleft with
    | nothing => exact keep (by simp)
    | value => exact keep (by simp [Frame.works])
    | stage fr fr' bv hbv hbv' =>
      exact keep (by simp [Frame.works_of_stageOf hbv, Frame.works_of_stageOf hbv'])
    | done => exact keep (List.nil_sublist _)
    | advances n todo todo' seen seen' d hd hkind =>
      -- the loop at the bottom takes up the next buildvalue
      obtain rfl := h.bottom hb hst hd hkind
      have halive := (hb.top hst).1.notified hb.graph hd
      have hworks : (([.advance d, .notify n todo' seen'] : List (Frame κ)) ++ []).filterMap
          Frame.works = [d] := rfl
      rw [hworks]
      refine ⟨by simp, fun x hx => ?_⟩
      rw [List.mem_singleton.mp hx]
      exact hb.graph.alive_lt halive
    | _ => exact keep (by simp [Frame.works, Frame.stageOf])
  rw [hst']
  rcases hmade with rfl | rfl
  · exact hp.1
  · refine List.nodup_cons.mpr ⟨fun hmem => ?_, hp.1⟩
    exact Nat.lt_irrefl _ (hp.2 _ hmem)

omit [DecidableEq κ] in
/-- KP is resolved once, by a frame of the pipeline. -/
theorem RecordStep.kp {nd' : Node κ} (h : RecordStep W c s fr q nd') (hk : FrameKnown s fr) :
    nd'.kp = (s.node q).kp ∨ (s.node q).kp = none ∧ fr.stageOf = some q := by
  rcases h.resolved.2 with heq | ⟨kp, -, hfr, hkp⟩
  · exact Or.inl heq
  · refine Or.inr ⟨hkp.elim And.left fun htop => ?_, hfr⟩
    subst htop
    exact hk.known.1

variable [Inhabited κ] {a : Label κ}

/-- Outside the critical section no buildvalue is moved. -/
theorem Move.value_stays (hm : Move W s a s') (hf : Fenced s) (ha : a ≠ .crash)
    (hex : ∀ c, a ≠ .exec c) (hq : s.graph.Alive q) (hk : s.kind q = .buildValue) :
    Stays s s' q := by
  cases hm with
  | still a s' hh hqu h | timerStale c i n gen ht hstale s' hh ht' hj h
  | staged c i cm hcm s' hcs hacc hv hqu h | stale c i cm hcm hstale s' hcs hacc hv hqu h =>
    exact h q hq
  | frame c => exact absurd rfl (hex c)
  | timer c i n ht hn hph hc s' hh h ho =>
    refine ho q hq fun heq => ?_
    subst heq
    exact ((hf.timers _ (List.mem_of_getElem? ht)).2 hn).1 hk
  | received c res n hid hn hacc hok s' hcs hacc' hv hqu hph hgen ho
  | judged c res n hid hn hacc hok s' hcs hacc' hv h ho =>
    refine ho q hq fun heq => ?_
    subst heq
    exact hf.placeable_of_accepts hn hacc hk
  | running name gen n hn hph s' hh hqu hph' hgen ho =>
    refine ho q hq fun heq => ?_
    subst heq
    have hcalm := (hf.values q hn hk).1
    rw [hph] at hcalm
    cases hcalm
  | done c i cm hcm hst hn hgen hph s' hcs hacc hv hqu hph' hsame ho
  | rejudged c i cm hcm e hst hn hgen hph s' hcs hacc hv h ho =>
    refine ho q hq fun heq => ?_
    subst heq
    exact hf.placeable_of_publishing hn hph hk
  | crash => exact absurd rfl ha

/-- **A step runs the frame on top, or it is aside and moves no buildvalue.** -/
theorem step_aside (hb : Base s) (hf : Fenced s) (ha : a ≠ .crash) (hs : step W s a = some s') :
    (∃ c fr rest, a = .exec c ∧ s.graph.pending = [] ∧ s.stack = fr :: rest ∧
      ExecStep W c { s with stack := rest } fr s') ∨
    Aside s s' ∧ ∀ q, s.graph.Alive q → s.kind q = .buildValue → s'.phase q = s.phase q := by
  rcases a.exec_or with ⟨c, rfl⟩ | hex
  swap
  · rcases step_cases hb ha hs with ⟨c, -, -, hac, -⟩ | haside
    · exact absurd hac (hex c)
    · refine Or.inr ⟨haside, fun q hq hk => ?_⟩
      exact ((step_move hb hf hs).value_stays hf ha hex hq hk).phase
  · have hr := step_rule hb.graph hs
    cases hr with
    | visit =>
      refine Or.inr ⟨⟨by simp, fun q _ => Kept.refl _, Or.inl rfl⟩, fun q _ _ => ?_⟩
      simp [State.phase]
    | frame c fr rest hp hst s' he => exact Or.inl ⟨c, fr, rest, rfl, hp, hst, he⟩
    | nothing =>
      exact Or.inr ⟨⟨rfl, fun q _ => Kept.refl _, Or.inl rfl⟩, fun q _ _ => rfl⟩
    | fleet a fleet hfree ha' => simp at ha'

/-- The frames of a critical section that a label opens rely on what is so. -/
theorem step_begins (hb : Base s) (hnil : s.stack = []) (hs : step W s a = some s')
    (hfr : fr ∈ s'.stack) : FrameKnown s' fr := by
  have same : ∀ {s₁ : State κ}, s₁.stack = s.stack → fr ∈ s₁.stack → FrameKnown s₁ fr := by
    intro s₁ hst hfr
    rw [hst, hnil] at hfr
    cases hfr
  have hr := step_rule hb.graph hs
  cases hr with
  | submit c i rid sub =>
    rcases joinNode_pushed (by exact hb.graph.requireTarget_id ⟨.buildValue, sub.k⟩ rid) hfr with
      hold | hnew
    · rcases List.mem_append.mp hold with hret | hold
      · rw [List.mem_singleton.mp hret]
        exact .plain rfl rfl trivial
      · rw [hnil] at hold
        cases hold
    · exact hnew
  | finish c i cm err hcm hst hfree hn =>
    have hrule := applyCommit_rule W c (s.judging i cm) cm err
    revert hfr hrule
    generalize applyCommit W c _ cm err = s₁
    intro hfr hrule
    rw [deleteScratch_eta] at hfr ⊢
    cases hrule with
    | done =>
      rcases nodeDoneLocked_pushed (by exact hb.graph) (by exact hn) hfr with hold | hnew
      · rw [hnil] at hold
        cases hold
      · exact ⟨hnew.known, hnew.unsettled, hnew.opened⟩
    | verdict e s₁ hv => exact same hv.stack hfr
  | frame c top rest hp hst =>
    rw [hnil] at hst
    cases hst
  | crash => cases hfr
  | accepted c res n =>
    exact same (acceptResult_rule W c s n res).stack hfr
  | dropped | finishStale => exact same (by rw [deleteScratch_eta]) hfr
  | timer c i n => exact same (enqueueLocked_stack W c _ n) hfr
  | _ => exact same rfl hfr

section

variable (hb : Base s) (hb' : Base s') (hext : s.graph.Extends s'.graph)
include hb hb' hext
omit [Inhabited κ]

omit [DecidableEq κ] in
theorem dep_id {x bv : Nat}
    (hx : x ∈ s.graph.deps bv) (hbv' : s'.graph.Alive bv) : s'.graph.id x = s.graph.id x := by
  have hx' := hb'.graph.depsIn bv x hbv' (hext.deps bv x hx)
  exact hext.id_eq hx' (hb.graph.depsLt bv x hx).2

omit [DecidableEq κ] in
theorem dep_kind {x bv : Nat}
    (hx : x ∈ s.graph.deps bv) (hbv' : s'.graph.Alive bv) : s'.kind x = s.kind x :=
  State.kind_of_id (dep_id hb hb' hext hx hbv')

/-- A dep that is done stays one. -/
theorem dep_done {bv : Nat} {kind : Kind} (hmv : ∀ q, s.graph.Alive q → NodeMove W s s' q)
    (hbv : s.graph.Alive bv) (hbv' : s'.graph.Alive bv)
    (h : ∃ d ∈ s.graph.deps bv, s.kind d = kind ∧ s.phase d = .done) :
    ∃ d ∈ s'.graph.deps bv, s'.kind d = kind ∧ s'.phase d = .done := by
  obtain ⟨d, hd, hkd, hdone⟩ := h
  refine ⟨d, hext.deps bv d hd, ?_, (hmv d (hb.graph.depsIn bv d hbv hd)).done hdone⟩
  rw [dep_kind hb hb' hext hd hbv']
  exact hkd

end

section

omit [Inhabited κ]

/-- A node other than a buildvalue gets done at the end of its commit. -/
theorem NodeMove.open_not_done (h : NodeMove W s s' q) (hk : s.kind q ≠ .buildValue)
    (ho : ∀ cm ∈ s.commits, cm.ptr ≠ q) (hd : s.phase q ≠ .done) : s'.phase q ≠ .done := by
  cases h with
  | stays h => exact h.phase ▸ hd
  | pipeline hk' => exact absurd hk' hk
  | unfoldFails fr hfr ho hu hgen h => simp [h]
  | attempts hk hph timers h => exact h.outcome.not_done
  | reported hk hph h =>
    rcases h with ⟨-, h | h⟩ | h
    · simp [h]
    · simp [h]
    · exact h.not_done
  | committed hk i cm hcm hptr =>
    exact absurd hptr (ho cm (List.mem_of_getElem? hcm))

/-- A frame that stays on the stack relies on nothing that a step takes away, if the
buildvalue it has in hand is left alone. -/
theorem FrameKnown.step (hk : FrameKnown s fr) (hok : FrameOK s fr) (hok' : FrameOK s' fr)
    (hb : Base s) (hb' : Base s') (hext : s.graph.Extends s'.graph)
    (hmv : ∀ q, s.graph.Alive q → NodeMove W s s' q)
    (hopen : ∀ n, fr.opens = some n → ∀ cm ∈ s.commits, cm.ptr ≠ n)
    (hstill : ∀ q, fr.works = some q → s.kind q = .buildValue →
      s'.phase q = s.phase q ∧ (s'.node q).kp = (s.node q).kp) : FrameKnown s' fr := by
  refine ⟨?_, ?_, ?_⟩
  · have hknown := hk.known
    cases fr with
    | afterFrom => exact (dep_kind hb hb' hext hok.2.2 hok'.1).trans hknown
    | afterResolve | afterPin => exact (dep_kind hb hb' hext hok.2 hok'.1.1).trans hknown
    | afterRun => exact (dep_kind hb hb' hext hok.2.1 hok'.1.1).trans hknown
    | putPinned bv | putKPTree bv | putPinCover bv =>
      exact ⟨(hstill bv rfl hok.2.1).2.trans hknown.1,
        dep_done hb hb' hext hmv hok.1 hok'.1 hknown.2⟩
    | putAliasDeps | putAliasOutput => exact dep_done hb hb' hext hmv hok.1 hok'.1 hknown
    | notify n =>
      exact ⟨Nat.lt_of_lt_of_le hknown.1 hext.next,
        fun d hd => hext.deps d n (hknown.2 d hd)⟩
    | _ => trivial
  · intro bv hbv
    rw [(hstill bv (Frame.works_of_stageOf hbv) (hok.stage hbv).2).1]
    exact hk.unsettled bv hbv
  · intro n hn
    have hnd := hk.opened n hn
    cases fr with
    | unfold m =>
      obtain rfl : m = n := Option.some.inj hn
      by_cases hkind : s.kind m = .buildValue
      · rw [(hstill m rfl hkind).1]
        exact hnd
      · exact (hmv m hok).open_not_done hkind (hopen m rfl) hnd
    | unfolding m =>
      obtain rfl : m = n := Option.some.inj hn
      exact (hmv m hok.1).open_not_done hok.2 (hopen m rfl) hnd
    | _ => cases hn

/-- A frame below the top: the frame on top leaves the buildvalue it has in hand alone. -/
theorem Pipelines.below_still {c : Choice} {top : Frame κ} {rest : List (Frame κ)}
    (h : Pipelines s) (hb : Base s) (hst : s.stack = top :: rest)
    (he : ExecStep W c { s with stack := rest } top s') (hfr : fr ∈ rest)
    (hq : fr.works = some q) (hk : s.kind q = .buildValue) :
    s'.phase q = s.phase q ∧ (s'.node q).kp = (s.node q).kp := by
  have halive := hb.works_alive (State.below_mem hst hfr) hq
  have hother : top.works ≠ some q := fun hw => h.not_below hst hw hfr hq
  have hstage : top.stageOf ≠ some q := fun hs => hother (Frame.works_of_stageOf hs)
  refine ⟨?_, ?_⟩
  · cases he.move (hb.pop hst) (hb.top hst).1 with
    | still hq h => exact (h q halive).phase
    | fails n hqu hfr' hu hph hgen ho =>
      refine (ho q halive fun heq => ?_).phase
      subst heq
      rcases hfr' with hopen | hs
      · cases top with
        | unfold => exact hother hopen
        | unfolding m =>
          obtain rfl : m = q := Option.some.inj hopen
          exact (hb.top hst).1.2 hk
        | _ => cases hopen
      · exact hstage hs
    | completes n hqu hcomp hph hgen ho =>
      refine (ho q halive fun heq => ?_).phase
      subst heq
      exact hstage (stageOf_of_completing hcomp)
    | attempts n hfr' hn hr hc h ho =>
      refine (ho q halive fun heq => ?_).phase
      subst heq
      exact (phase_of_ready hr).2 hk
  · exact ((he.record (hb.pop hst) halive).kp (h.top hst)).resolve_right fun hk => hstage hk.2

end

omit [DecidableEq κ] [Inhabited κ] in
theorem Pipelines.inner_stays {todo seen : List Nat} (h : Pipelines s)
    (hext : s.graph.Extends s'.graph) (hm : .notify n todo seen ∈ s.stack.dropLast)
    (hn : s'.graph.Alive n) : s'.kind n = .buildValue := by
  rcases hext.alive n hn with ⟨hold, hid⟩ | hnew
  · rw [State.kind_of_id hid]
    exact h.inner n todo seen hm hold
  · have := (h.frames _ (List.dropLast_subset _ hm)).known.1
    omega

omit [Inhabited κ] in
theorem Pipelines.step_inner {c : Choice} {rest : List (Frame κ)} {todo seen : List Nat}
    (h : Pipelines s) (hb : Base s) (hst : s.stack = fr :: rest)
    (he : ExecStep W c { s with stack := rest } fr s') (hext : s.graph.Extends s'.graph)
    (hm : .notify n todo seen ∈ s'.stack.dropLast) (hn : s'.graph.Alive n) :
    s'.kind n = .buildValue := by
  obtain ⟨fs, p, hst', hmade, hleft⟩ := he.leaves hb.graph
  rw [hst'] at hm
  have hfs : Frame.notify n todo seen ∉ fs := by
    rcases hmade with rfl | rfl
    · simp
    · simp
  by_cases hrest : rest = []
  · -- nothing is left above a loop that is the last frame
    exfalso
    subst hrest
    rw [List.append_nil] at hm
    have hp : Frame.notify n todo seen ∉ p.dropLast := by
      cases hleft with
      | advances => simp
      | _ => simp
    by_cases hnil : p = []
    · rw [hnil, List.append_nil] at hm
      exact hfs (List.dropLast_subset _ hm)
    · rw [List.dropLast_append_of_ne_nil hnil] at hm
      exact (List.mem_append.mp hm).elim hfs hp
  · rw [List.dropLast_append_of_ne_nil (by simp [hrest]),
      List.dropLast_append_of_ne_nil hrest] at hm
    have hbelow : ∀ x, x = fr ∨ x ∈ rest.dropLast → x ∈ s.stack.dropLast := by
      intro x hx
      rw [hst, List.dropLast_cons_of_ne_nil hrest]
      exact List.mem_cons.mpr hx
    rcases List.mem_append.mp hm with hm | hm
    · exact absurd hm hfs
    rcases List.mem_append.mp hm with hm | hm
    · cases hleft with
      | done fr bv hbv =>
        obtain ⟨rfl, -⟩ : n = bv ∧ _ := by simpa using hm
        have hbv' := (hb.top hst).1.stage hbv
        rcases hext.alive n hn with ⟨-, hid⟩ | hnew
        · rw [State.kind_of_id hid]
          exact hbv'.2
        · have := hb.graph.alive_lt hbv'.1
          omega
      | advances m todo₀ todo' seen₀ seen' d hd hkind =>
        exact absurd (h.bottom hb hst hd hkind) hrest
      | notifies m =>
        obtain ⟨rfl, -⟩ : n = m ∧ _ := by simpa using hm
        exact h.inner_stays hext (hbelow _ (Or.inl rfl)) hn
      | stage fr fr' bv hbv hbv' =>
        rw [← List.mem_singleton.mp hm] at hbv'
        cases hbv'
      | _ => simp at hm
    · exact h.inner_stays hext (hbelow _ (Or.inr hm)) hn

theorem Pipelines.step (h : Pipelines s) (hb : Base s) (hf : Fenced s)
    (hs : step W s a = some s') : Pipelines s' := by
  rcases crash_or hs with ⟨rfl, rfl⟩ | ha
  · exact ⟨List.nodup_nil, nofun, nofun⟩
  have hb' := hb.step hs
  obtain ⟨hext, -⟩ := step_table hb ha hs
  have hmv := fun q (hq : s.graph.Alive q) => (step_move hb hf hs).node hf ha hq
  have stays : ∀ fr ∈ s.stack, fr ∈ s'.stack → (∀ q, fr.works = some q → s.kind q = .buildValue →
      s'.phase q = s.phase q ∧ (s'.node q).kp = (s.node q).kp) → FrameKnown s' fr := by
    intro fr hfr hfr' hstill
    exact (h.frames fr hfr).step (hb.frames fr hfr) (hb'.frames fr hfr') hb hb' hext hmv
      (fun n hn => hf.opens fr hfr n hn) hstill
  rcases step_aside hb hf ha hs with ⟨c, fr, rest, -, hp, hst, he⟩ | ⟨haside, hvalues⟩
  · refine ⟨h.step_alone hb hst he, fun fr' hfr' => ?_, fun n todo seen hm hn => ?_⟩
    · rcases he.pushed (hb.pop hst) (hb.top hst).1 (h.top hst) hfr' with hold | hnew
      · exact stays fr' (State.below_mem hst hold) hfr' fun q hq hk =>
          h.below_still hb hst he hold hq hk
      · exact hnew
    · exact h.step_inner hb hst he hext hm hn
  · rcases haside.stack with hsame | ⟨hnil, fs, b, hst', hmade, hbot⟩
    · refine ⟨by rw [hsame]; exact h.alone, fun fr hfr => ?_, fun n todo seen hm hn => ?_⟩
      · have hold := hsame ▸ hfr
        refine stays fr hold hfr fun q hq hk => ?_
        have halive := hb.works_alive hold hq
        exact ⟨hvalues q halive hk, (haside.record q halive).kp⟩
      · rw [hsame] at hm
        exact h.inner_stays hext hm hn
    · refine ⟨?_, fun fr hfr => step_begins hb hnil hs hfr, fun n todo seen hm hn => ?_⟩
      · rw [hst']
        rcases hmade with rfl | rfl
        · rcases hbot with ⟨rid, t, scratch, rfl⟩ | ⟨n, rfl⟩
          · exact List.nodup_nil
          · exact List.nodup_nil
        · rcases hbot with ⟨rid, t, scratch, rfl⟩ | ⟨n, rfl⟩
          · exact List.pairwise_singleton _ _
          · exact List.pairwise_singleton _ _
      · rw [hst', List.dropLast_concat] at hm
        rcases hmade with rfl | rfl
        · cases hm
        · simp at hm

omit [DecidableEq κ] in
theorem Pipelines.init (st : Store κ) : Pipelines (State.init st) := by
  exact ⟨List.nodup_nil, nofun, nofun⟩

theorem Reached.pipelines {P : State κ → Label κ → Prop} {st : Store κ} (h : Reached W P st s) :
    (Base s ∧ Fenced s) ∧ Pipelines s := by
  refine h.inv_fenced (Pipelines.init st) ?_
  intro s a s' hb hf _ hs hi
  exact hi.step hb hf hs

omit [DecidableEq κ] [Inhabited κ] in
/-- A buildvalue that gets done has an open pipeline of its own. -/
theorem Pipelines.completer_unsettled (h : Pipelines s) (hc : Completer s n a) :
    (s.phase n).settled = false := by
  cases hc with
  | pipeline c fr rest hst hfr =>
    exact (h.top hst).unsettled n (stageOf_of_completing hfr)
  | commit c i cm hcm hst hptr hph => simp [hph, Phase.settled]

/-- **A failed node stays failed** for as long as it is in the table. -/
theorem Pipelines.failed_stays (h : Pipelines s) (hb : Base s) (hf : Fenced s) (ha : a ≠ .crash)
    (hs : JobsIroh.step W s a = some s') (hq : s.graph.Alive q) (hph : s.phase q = .failed) :
    s'.phase q = .failed := by
  have hm := step_move hb hf hs
  cases hm.node hf ha hq with
  | stays h => rw [h.phase, hph]
  | pipeline hk hgen hnew =>
    rcases hnew with ⟨hu, -⟩ | hdone
    · rw [hph] at hu
      cases hu
    · have hu := h.completer_unsettled (hm.getsDone ha hq (by simp [hph]) hdone).completer
      rw [hph] at hu
      cases hu
  | unfoldFails fr hfr ho hu hgen hnew => exact hnew
  | attempts hk hwait =>
    rw [hph] at hwait
    cases hwait
  | reported hk hfl =>
    rw [hph] at hfl
    cases hfl
  | committed hk i cm hcm hptr hgen hcs hpub =>
    rw [hph] at hpub
    cases hpub

end

/-! ### The stages of a buildvalue -/

/-- The place of a kind in the pipeline. -/
def Kind.stage : Kind → Nat
  | .buildFrom => 1
  | .pluginResolve => 2
  | .pin => 3
  | .buildRun => 4
  | _ => 0

theorem Kind.stage_inj {k k' : Kind} (hk : 0 < k.stage) (h : k.stage = k'.stage) : k = k' := by
  cases k <;> cases k' <;> simp_all [Kind.stage]

/-- The identity of a stage of the buildvalue `bv`. -/
def IsStage (s : State κ) (bv : Nat) (id : NodeID κ) : Prop :=
  match id.kind with
  | .buildFrom => id.key = s.key bv
  | .pluginResolve | .pin => (s.node bv).f = some id.key
  | .buildRun => (s.node bv).kp = some id.key
  | _ => False

omit [DecidableEq κ] in
theorem IsStage.stage_pos {s : State κ} {bv : Nat} {id : NodeID κ} (h : IsStage s bv id) :
    0 < id.kind.stage := by
  unfold IsStage at h
  cases hk : id.kind <;> simp_all [Kind.stage]

omit [DecidableEq κ] in
theorem IsStage.unique {s : State κ} {bv : Nat} {id id' : NodeID κ} (h : IsStage s bv id)
    (h' : IsStage s bv id') (hk : id.kind = id'.kind) : id = id' := by
  obtain ⟨kind, k⟩ := id
  obtain ⟨kind', k'⟩ := id'
  obtain rfl : kind = kind' := hk
  unfold IsStage at h h'
  cases kind <;> simp_all

/-- The deps of a buildvalue are its stages, and what comes before a stage is done. -/
structure Piped (s : State κ) : Prop where
  stages : ∀ bv d, s.graph.Alive bv → s.kind bv = .buildValue → d ∈ s.graph.deps bv →
    IsStage s bv (s.graph.id d)
  order : ∀ bv d, s.graph.Alive bv → s.kind bv = .buildValue → d ∈ s.graph.deps bv →
    ∀ kind : Kind, 0 < kind.stage → kind.stage < (s.kind d).stage →
      ∃ e ∈ s.graph.deps bv, s.kind e = kind ∧ s.phase e = .done

section

variable {W : World κ} {c : Choice} {s s' : State κ} {bv d : Nat} {fr : Frame κ}

theorem requireStage_edge {n : Nat} {kind : Kind} {k : κ} {defn : Bytes} {ret : Nat → Frame κ}
    (hg : s.graph.Inv s.target)
    (hd : d ∈ (requireStage c s n kind k defn ret).graph.deps bv) (hnew : d ∉ s.graph.deps bv) :
    (requireStage c s n kind k defn ret).graph.id d = ⟨kind, k⟩ := by
  unfold requireStage at hd ⊢
  obtain ⟨nd, fs, lg, heq, -⟩ := require_eq hg kind k defn (s.node n).platform n
    (s.node n).label (fun x => [ret x])
  rw [heq] at hd ⊢
  rw [(((hg.mem_require_deps ⟨kind, k⟩ n bv d).mp hd).resolve_left hnew).2]
  exact hg.require_id ⟨kind, k⟩ n

/-- A frame that adds a dep to a buildvalue is of its pipeline. -/
inductive Grown (c : Choice) (s : State κ) (bv : Nat) : Frame κ → State κ → Prop
  | first : Grown c s bv (.advance bv)
      (requireStage c s bv .buildFrom (s.key bv) (s.node bv).defn (.afterFrom bv))
  | stage (fr : Frame κ) (nd : Node κ) (kind : Kind) (k : κ) (ret : Nat → Frame κ)
      (h : NextStage s fr bv nd kind k ret) :
    Grown c s bv fr (requireStage c (s.setNode bv nd) bv kind k [] ret)
  | run (kp f : κ) (hf : (s.node bv).f = some f) : Grown c s bv (.putPinCover bv kp)
      (requireStage c ((s.putRef (.pinCover f) kp).setNode bv { s.node bv with kp := some kp }) bv
        .buildRun kp [] (.afterRun bv))

theorem ExecStep.grown (h : ExecStep W c s fr s') (hb : Base s) (hp : s.graph.pending = [])
    (hok : FrameOK s fr) (hkind : s.kind bv = .buildValue) (hd : d ∈ s'.graph.deps bv)
    (hnew : d ∉ s.graph.deps bv) : Grown c s bv fr s' := by
  have hrule := (h.graphRule hb hp hok).edges hb.graph
  have same : ∀ {P : Prop}, s'.graph.deps = s.graph.deps → P := by
    intro P heq
    rw [heq] at hd
    exact absurd hd hnew
  rcases hrule with heq | ⟨p, id, he, heq⟩
  · exact same heq
  rw [heq] at hd
  obtain ⟨rfl, -⟩ := ((hb.graph.mem_require_deps id p bv d).mp hd).resolve_left hnew
  have gone : ∀ {P : Prop}, s'.graph = s.graph → P := fun hg => same (by rw [hg])
  cases he with
  | fetcher _ nd d' hr =>
    have hi := hr.kind
    rw [hkind] at hi
    cases hi
  | input => exact absurd hkind hok.2
  | first hu =>
    cases h with
    | advanceSettled => exact gone rfl
    | advance => exact .first
    | stageWaits fr x hx => cases hx
    | stageUnresolved fr bv' hbv | stageFail fr bv' hbv => cases hbv
    | nextStage fr bv' nd kind k ret hn => exact absurd hn.stageOf.1 (by simp [Frame.stageOf])
  | stage _ _ nd kind k ret hn =>
    cases h with
    | stageWaits | stageUnresolved | deriveKP => exact gone rfl
    | stageFail => exact gone (failNodeLocked_inner _ _ _ (.refl _)).graph
    | nextStage fr bv' nd kind k ret hn' =>
      obtain rfl : bv' = bv := Option.mem_unique hn'.stageOf.1 hn.stageOf.1
      exact .stage fr nd kind k ret hn'
    | _ => cases hn
  | run kp f hf =>
    cases h with
    | stageWaits fr x hx => cases hx
    | stageUnresolved => exact gone rfl
    | stageFail => exact gone (failNodeLocked_inner _ _ _ (.refl _)).graph
    | nextStage fr bv' nd kind k ret hn => cases hn
    | putPinCover _ kp f hf => exact .run _ f hf

omit [DecidableEq κ] in
/-- The next stage is the one of the record, and the stage before it is done. -/
theorem NextStage.follows {nd : Node κ} {kind : Kind} {k : κ} {ret : Nat → Frame κ}
    (h : NextStage s fr bv nd kind k ret) (hok : FrameOK s fr) (hk : FrameKnown s fr) :
    ((kind = .pluginResolve ∨ kind = .pin) ∧ nd.f = some k ∨ kind = .buildRun ∧ nd.kp = some k) ∧
      ∃ e ∈ s.graph.deps bv, s.phase e = .done ∧ (s.kind e).stage + 1 = kind.stage := by
  have after : ∀ {x : Nat} {kind' : Kind}, s.kind x = kind' → kind'.stage + 1 = kind.stage →
      (s.kind x).stage + 1 = kind.stage := by
    intro x kind' hx hnext
    rw [hx, hnext]
  have hknown := hk.known
  cases h with
  | knownF _ bf hdone _ hf =>
    exact ⟨Or.inl ⟨Or.inl rfl, hf⟩, bf, hok.2.2, hdone, after hknown rfl⟩
  | readF _ bf hdone _ =>
    exact ⟨Or.inl ⟨Or.inl rfl, rfl⟩, bf, hok.2.2, hdone, after hknown rfl⟩
  | resolved _ pr hdone _ hf =>
    exact ⟨Or.inl ⟨Or.inr rfl, hf⟩, pr, hok.2, hdone, after hknown rfl⟩
  | knownKP _ pin hdone _ hkp =>
    exact ⟨Or.inr ⟨rfl, hkp⟩, pin, hok.2, hdone, after hknown rfl⟩
  | readKP _ pin hdone f _ =>
    exact ⟨Or.inr ⟨rfl, rfl⟩, pin, hok.2, hdone, after hknown rfl⟩

/-- The dep a pipeline adds is the next stage: the one before it is done. -/
theorem ExecStep.stage_edge (h : ExecStep W c s fr s') (hb : Base s) (hp : s.graph.pending = [])
    (hok : FrameOK s fr) (hk : FrameKnown s fr) (hbv : s.graph.Alive bv)
    (hkind : s.kind bv = .buildValue) (hd : d ∈ s'.graph.deps bv) (hnew : d ∉ s.graph.deps bv) :
    IsStage s' bv (s'.graph.id d) ∧ ((s'.kind d).stage = 1 ∨
      ∃ e ∈ s.graph.deps bv, s.phase e = .done ∧ (s.kind e).stage + 1 = (s'.kind d).stage) := by
  cases h.grown hb hp hok hkind hd hnew with
  | first =>
    have hid := requireStage_edge hb.graph hd hnew
    have hreq : Required s (requireStage c s bv .buildFrom (s.key bv) (s.node bv).defn
      (.afterFrom bv)) .buildFrom (s.key bv) bv _ := hb.required
    unfold IsStage State.kind
    rw [hid]
    exact ⟨(State.key_of_id (hreq.grows.id bv hbv)).symm, Or.inl rfl⟩
  | stage fr nd kind k ret hn =>
    have hid := requireStage_edge (s := s.setNode bv nd) hb.graph hd hnew
    have hkept := requireStage_kept (c := c) (s := s.setNode bv nd) hb.graph bv kind k [] ret hbv
    rw [State.setNode_node] at hkept
    obtain ⟨hrec, hbefore⟩ := hn.follows hok hk
    unfold IsStage State.kind
    rw [hid]
    refine ⟨?_, Or.inr hbefore⟩
    rcases hrec with ⟨rfl | rfl, hf⟩ | ⟨rfl, hkp⟩
    · exact hkept.f.trans hf
    · exact hkept.f.trans hf
    · exact hkept.kp.trans hkp
  | run kp f =>
    have hid := requireStage_edge (s := s.bound bv f kp) hb.graph hd hnew
    have hkept := requireStage_kept (c := c) (s := s.bound bv f kp) hb.graph bv .buildRun kp []
      (.afterRun bv) hbv
    rw [State.setNode_node] at hkept
    obtain ⟨pin, hpin, hkpin, hdone⟩ := hk.known.2
    unfold IsStage State.kind
    rw [hid]
    refine ⟨hkept.kp, Or.inr ⟨pin, hpin, hdone, ?_⟩⟩
    change (s.kind pin).stage + 1 = _
    rw [hkpin]
    rfl

variable [Inhabited κ] {a : Label κ} {n : Nat}

/-- A node that has just been made has no deps. -/
theorem no_deps_of_new (hb : Base s) (ha : a ≠ .crash) (hs : step W s a = some s')
    (hn : s.graph.next ≤ n) : d ∉ s'.graph.deps n := by
  intro hd
  rcases step_edge hb ha hs hd with hold | ⟨fr, rest, id, hst, hne⟩
  · have := (hb.graph.depsLt n d hold).1
    omega
  · have := hb.graph.alive_lt (hne.alive (hb.top hst).1)
    omega

/-- KP of a node that stays in the table. -/
theorem Pipelines.step_kp (h : Pipelines s) (hb : Base s) (ha : a ≠ .crash)
    (hs : JobsIroh.step W s a = some s') (hn : s.graph.Alive n) :
    (s'.node n).kp = (s.node n).kp ∨ (s.node n).kp = none := by
  rcases step_cases hb ha hs with ⟨c, fr, rest, -, hp, hst, he⟩ | haside
  · exact ((he.record (hb.pop hst) hn).kp (h.top hst)).imp id (·.1)
  · exact Or.inl (haside.record n hn).kp

theorem IsStage.step {id : NodeID κ} (h : IsStage s bv id) (hpl : Pipelines s) (hb : Base s)
    (ha : a ≠ .crash) (hs : JobsIroh.step W s a = some s') (hbv : s.graph.Alive bv)
    (hid : s'.graph.id bv = s.graph.id bv) : IsStage s' bv id := by
  unfold IsStage at h ⊢
  have keep : ∀ {o o' : Option κ} {k}, o' = o ∨ o = none → o = some k → o' = some k := by
    intro o o' k hor ho
    exact (hor.resolve_right (by simp [ho])).trans ho
  have hf := (step_f hb ha hs hbv).imp_right And.left
  split at h
  · exact h.trans (State.key_of_id hid).symm
  · exact keep hf h
  · exact keep hf h
  · exact keep (hpl.step_kp hb ha hs hbv) h
  · exact h.elim

theorem Piped.step (h : Piped s) (hpl : Pipelines s) (hb : Base s) (hf : Fenced s)
    (hs : JobsIroh.step W s a = some s') : Piped s' := by
  rcases crash_or hs with ⟨rfl, rfl⟩ | ha
  · refine ⟨fun bv d hbv => ?_, fun bv d hbv => ?_⟩
    · cases hbv
    · cases hbv
  have hb' := hb.step hs
  obtain ⟨hext, -⟩ := step_table hb ha hs
  have old : ∀ {bv d}, s'.graph.Alive bv → d ∈ s'.graph.deps bv →
      s.graph.Alive bv ∧ s'.graph.id bv = s.graph.id bv := by
    intro bv d hbv hd
    exact (hext.alive bv hbv).resolve_right fun hnew => no_deps_of_new hb ha hs hnew hd
  have hmv := fun q (hq : s.graph.Alive q) => (step_move hb hf hs).node hf ha hq
  have added : ∀ {bv d}, s.graph.Alive bv → s.kind bv = .buildValue → d ∈ s'.graph.deps bv →
      d ∉ s.graph.deps bv → IsStage s' bv (s'.graph.id d) ∧ ((s'.kind d).stage = 1 ∨
        ∃ e ∈ s.graph.deps bv, s.phase e = .done ∧ (s.kind e).stage + 1 = (s'.kind d).stage) := by
    intro bv d hbv hkind hd hnew
    rcases step_cases hb ha hs with ⟨c, fr, rest, -, hp, hst, he⟩ | haside
    · exact he.stage_edge (hb.pop hst) hp (hb.top hst).1 (hpl.top hst) hbv hkind hd hnew
    · rw [haside.deps] at hd
      exact absurd hd hnew
  refine ⟨fun bv d hbv' hkind' hd => ?_, fun bv d hbv' hkind' hd kind hpos hlt => ?_⟩
  · obtain ⟨hbv, hid⟩ := old hbv' hd
    rw [State.kind_of_id hid] at hkind'
    by_cases hold : d ∈ s.graph.deps bv
    · rw [dep_id hb hb' hext hold hbv']
      exact (h.stages bv d hbv hkind' hold).step hpl hb ha hs hbv hid
    · exact (added hbv hkind' hd hold).1
  · obtain ⟨hbv, hid⟩ := old hbv' hd
    rw [State.kind_of_id hid] at hkind'
    refine dep_done hb hb' hext hmv hbv hbv' ?_
    by_cases hold : d ∈ s.graph.deps bv
    · rw [dep_kind hb hb' hext hold hbv'] at hlt
      exact h.order bv d hbv hkind' hold kind hpos hlt
    · rcases (added hbv hkind' hd hold).2 with hone | ⟨e, he, hde, hnext⟩
      · omega
      · by_cases heq : kind.stage = (s.kind e).stage
        · exact ⟨e, he, (Kind.stage_inj hpos heq).symm, hde⟩
        · exact h.order bv e hbv hkind' he kind hpos (by omega)

omit [DecidableEq κ] [Inhabited κ] in
/-- When the run stage is done, all stages are. -/
theorem Piped.all_done {run : Nat} (h : Piped s) (hb : Base s) (hbv : s.graph.Alive bv)
    (hkind : s.kind bv = .buildValue) (hrun : run ∈ s.graph.deps bv)
    (hkrun : s.kind run = .buildRun) (hdone : s.phase run = .done) (hd : d ∈ s.graph.deps bv) :
    s.phase d = .done := by
  have hstage := h.stages bv d hbv hkind hd
  -- two deps of one kind have one identity, and so are one node
  have one : ∀ {e}, e ∈ s.graph.deps bv → s.kind e = s.kind d → e = d := by
    intro e he hke
    have hid := (h.stages bv e hbv hkind he).unique hstage hke
    have hae : s.graph.Alive e := hb.graph.depsIn bv e hbv he
    have had : s.graph.Alive d := hb.graph.depsIn bv d hbv hd
    unfold InterestGraph.Graph.Alive at hae had
    rw [hid, had] at hae
    exact (Option.some.inj hae).symm
  by_cases hlast : s.kind d = .buildRun
  · rw [← one hrun (hkrun.trans hlast.symm)]
    exact hdone
  · have hlt : (s.kind d).stage < (s.kind run).stage := by
      cases hk : s.kind d <;> simp_all [Kind.stage]
    obtain ⟨e, he, hke, hde⟩ := h.order bv run hbv hkind hrun (s.kind d) hstage.stage_pos hlt
    rw [← one he hke]
    exact hde

/-! ### What is done rests on what is done -/

/-- The deps of a node that is done are done. -/
def Deep (s : State κ) : Prop :=
  ∀ n, s.graph.Alive n → s.phase n = .done → ∀ d ∈ s.graph.deps n, s.phase d = .done

omit [DecidableEq κ] [Inhabited κ] in
theorem Deep.reach (h : Deep s) (hb : Base s) (hn : s.graph.Alive n) (hd : s.phase n = .done)
    {m : Nat} (hr : Search.Reach s.graph.deps n m) : s.graph.Alive m ∧ s.phase m = .done := by
  induction hr with
  | refl => exact ⟨hn, hd⟩
  | tail _ hm ih => exact ⟨hb.graph.depsIn _ _ ih.1 hm, h _ ih.1 ih.2 _ hm⟩

/-- Nothing is added to the deps of a node that is done. -/
theorem Pipelines.done_closed (h : Pipelines s) (hb : Base s) (ha : a ≠ .crash)
    (hs : JobsIroh.step W s a = some s') (hdone : s.phase n = .done)
    (hd : d ∈ s'.graph.deps n) : d ∈ s.graph.deps n := by
  rcases step_edge hb ha hs hd with hold | ⟨fr, rest, id, hst, hne⟩
  · exact hold
  exfalso
  have hk := h.top hst
  have unsettled : ((s.phase n).settled = false) → False := by
    simp [hdone, Phase.settled]
  cases hne with
  | fetcher _ | input _ => exact hk.opened _ rfl hdone
  | first _ hu => exact unsettled hu
  | stage _ _ nd kind k ret hn => exact unsettled (hk.unsettled _ hn.stageOf.1)
  | run _ => exact unsettled (hk.unsettled _ rfl)

omit [DecidableEq κ] [Inhabited κ] in
/-- A node gets done when its deps are. -/
theorem Completer.deps_done (hc : Completer s n a) (hpl : Pipelines s) (hpi : Piped s)
    (hpa : Paced W s) (hb : Base s) (hf : Fenced s) (hn : s.graph.Alive n)
    (hd : d ∈ s.graph.deps n) : s.phase d = .done := by
  cases hc with
  | pipeline c fr rest hst hfr =>
    have hok := (hb.top hst).1
    have hk := hpl.top hst
    have hstage := hok.stage (stageOf_of_completing hfr)
    have all : ∀ run ∈ s.graph.deps n, s.kind run = .buildRun → s.phase run = .done →
        s.phase d = .done := fun run hrun hkrun hdone =>
      hpi.all_done hb hn hstage.2 hrun hkrun hdone hd
    unfold completing at hfr
    split at hfr
    · split at hfr
      · split at hfr
        · rename_i bv run _ f hf' hcond
          obtain rfl : bv = n := Option.some.inj hfr
          exact all run hok.2.1 hk.known hcond.1
        · cases hfr
      · cases hfr
    · rename_i bv out
      obtain rfl : bv = n := Option.some.inj hfr
      obtain ⟨run, hrun, hkrun, hdone⟩ := hk.known
      exact all run hrun hkrun hdone
    · cases hfr
  | commit c i cm hcm hst hptr hph =>
    have hkind := hf.placeable_of_publishing hn hph
    exact (hpa.held n hn hkind (Or.inr (Or.inl hph))).2 d hd

theorem Deep.step (h : Deep s) (hpl : Pipelines s) (hpi : Piped s) (hpa : Paced W s) (hb : Base s)
    (hf : Fenced s) (hs : JobsIroh.step W s a = some s') : Deep s' := by
  intro n hn' hdone' d hd'
  rcases crash_or hs with ⟨rfl, rfl⟩ | ha
  · cases hn'
  obtain ⟨hext, -⟩ := step_table hb ha hs
  have hm := step_move hb hf hs
  rcases hext.alive n hn' with ⟨hn, -⟩ | hnew
  · have stays : ∀ d ∈ s.graph.deps n, s.phase d = .done → s'.phase d = .done := fun d hd hdone =>
      (hm.node hf ha (hb.graph.depsIn n d hn hd)).done hdone
    by_cases hdone : s.phase n = .done
    · have hd := hpl.done_closed hb ha hs hdone hd'
      exact stays d hd (h n hn hdone d hd)
    · have hgets := hm.getsDone ha hn hdone hdone'
      have hd : d ∈ s.graph.deps n := hgets.graph ▸ hd'
      exact stays d hd (hgets.completer.deps_done hpl hpi hpa hb hf hn hd)
  · exact absurd hd' (no_deps_of_new hb ha hs hnew)

/-- **What is done rests on what is done**, in every run that completes no dep under the loop
of the node that waits for it. -/
theorem Reached.deep {st : Store κ} (h : Reached W Unhurried st s) :
    (Base s ∧ Fenced s) ∧ (Loops W s ∧ Paced W s) ∧ (Pipelines s ∧ Piped s) ∧ Deep s := by
  refine h.inv_fenced
    (I := fun s => (Loops W s ∧ Paced W s) ∧ (Pipelines s ∧ Piped s) ∧ Deep s) ?_ ?_
  · have hstart : Reached W Unhurried st (State.init st) := Run.Steps.refl
    obtain ⟨-, hl, hp, -⟩ := hstart.paced
    exact ⟨⟨hl, hp⟩, ⟨Pipelines.init st, nofun, nofun⟩, nofun⟩
  · intro s a s' hb hf hc hs hi
    obtain ⟨⟨hl, hpa⟩, ⟨hpl, hpi⟩, hd⟩ := hi
    exact ⟨⟨hl.step hb hf hs, hpa.step hl hb hf hc hs⟩,
      ⟨hpl.step hb hf hs, hpi.step hpl hb hf hs⟩, hd.step hpl hpi hpa hb hf hs⟩

end

end JobsIroh
