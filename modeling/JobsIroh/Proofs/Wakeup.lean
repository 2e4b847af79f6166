/-
No wake-up is lost.

A node that waits with all its dependencies done must be looked at by somebody.  Inside
a critical section that somebody is a frame: the node's own unfold, a stage of its own
pipeline, or the loop over the dependents of a node that has just got done.  Between
critical sections there are no frames, and only a re-enqueue timer for the node's
current generation is left.
-/
import JobsIroh.Proofs.Records

namespace JobsIroh

variable {κ : Type} [DecidableEq κ]

/-- The frame looks at `n` before it is through. -/
def Frame.wakes : Frame κ → Nat → Prop
  | .unfold m, n | .unfolding m _, n | .advance m, n => m = n
  | .afterFrom bv _, n | .afterResolve bv _, n | .afterPin bv _, n | .afterRun bv _, n => bv = n
  | .putPinned bv _ _, n | .putKPTree bv _, n | .putPinCover bv _, n => bv = n
  | .putAliasDeps bv _ _, n | .putAliasOutput bv _, n => bv = n
  | .notify _ todo _, n => n ∈ todo
  | .submitted _ _ _, _ => False

/-- Somebody will look at `n`, or the scheduler is going down. -/
inductive Woken (s : State κ) (n : Nat) : Prop
  | timer (h : (n, (s.node n).gen) ∈ s.timers)
  | frame (fr : Frame κ) (hfr : fr ∈ s.stack) (h : fr.wakes n)
  | down (h : s.closed = true ∨ s.ctxErr = true)

/-- A node that waits for nothing is looked at. -/
def Awake (s : State κ) : Prop :=
  ∀ n, s.graph.Alive n → s.phase n = .waiting → s.depsDone n = true → Woken s n

section

variable {W : World κ} {c : Choice} {s s' : State κ} {n : Nat} {fr : Frame κ}

/-! ### Enqueueing -/

theorem Outcome.woken {timers : List (Nat × Nat)} (h : Outcome W s s' n timers)
    (hw : s'.phase n = .waiting) (hctx : s.ctxErr = true → s'.ctxErr = true) : Woken s' n := by
  cases h with
  | refused hph | queued j st hp hph =>
    rw [hph] at hw
    cases hw
  | rearmed j st hp hph ht =>
    refine Woken.timer ?_
    rw [ht]
    exact List.mem_cons_self
  | goingDown j st hp hph hd => exact Woken.down (Or.inr (hctx hd))

theorem Judged.woken (h : Judged W s s' n) (hw : s'.phase n = .waiting)
    (hon : Onward s s') : Woken s' n := by
  cases h with
  | fails hph =>
    rw [hph] at hw
    cases hw
  | rearmed hph hgen ht =>
    refine Woken.timer ?_
    rw [ht, hgen.gen]
    exact List.mem_cons_self
  | closed hc => exact Woken.down (Or.inl (hon.closed hc))
  | attempted hc h => exact h.outcome.woken hw hon.ctxErr

/-- A node that is looked at by `maybeEnqueueLocked` is enqueued if nothing is missing. -/
theorem maybeEnqueueLocked_woken (W : World κ) (c : Choice) (hn : s.graph.Alive n)
    (hint : s.graph.interest n ≠ []) (hk : s.kind n ≠ .buildValue)
    (hw : (maybeEnqueueLocked W c s n).phase n = .waiting)
    (hd : (maybeEnqueueLocked W c s n).depsDone n = true) :
    Woken (maybeEnqueueLocked W c s n) n := by
  by_cases hr : ready s n = true
  · have heq : maybeEnqueueLocked W c s n = enqueueLocked W c s n := by
      unfold maybeEnqueueLocked
      rw [if_pos hr]
    rw [heq] at hw ⊢
    by_cases hc : s.closed = true
    · unfold enqueueLocked
      rw [if_pos hc]
      exact Woken.down (Or.inl hc)
    · have hout := enqueueLocked_inner W c s n (.refl s)
      have hm := enqueueLocked_moves W c (by simpa using hc) hn (phase_of_ready hr).1
      exact hm.1.outcome.woken hw (fun h => hout.ctxErr.trans h)
  · have heq : maybeEnqueueLocked W c s n = s := by
      unfold maybeEnqueueLocked
      rw [if_neg hr]
    rw [heq] at hw hd
    refine absurd ?_ hr
    simp [ready, hw, hd, hint, Kind.placeable, hk]

/-! ### Frames -/

theorem require_mem_stack (hg : s.graph.Inv s.target) (kind : Kind) (k : κ) (defn : Bytes)
    (platform : String) (p : Nat) (label : String) (ret : Nat → List (Frame κ))
    (h : fr ∈ ret (s.graph.occupant ⟨kind, k⟩) ++ s.stack) :
    fr ∈ (require c s kind k defn platform p label ret).stack := by
  obtain ⟨nd, fs, lg, heq, -⟩ := require_eq hg kind k defn platform p label ret
  rw [heq]
  exact List.mem_append_right fs h

section

omit [DecidableEq κ]

theorem FrameOK.dep {bv x : Nat} (h : FrameOK s fr) (hx : fr.stageNode = some x)
    (hbv : fr.stageOf = some bv) : x ∈ s.graph.deps bv := by
  cases fr <;> simp only [Frame.stageNode, Frame.stageOf, Option.some.injEq, reduceCtorEq] at hx hbv
  all_goals
    subst hx hbv
  · exact h.2.2
  · exact h.2
  · exact h.2
  · exact h.2.1

theorem Frame.wakes_of_stageOf {bv : Nat} (h : fr.stageOf = some bv) :
    fr.wakes n ↔ bv = n := by
  cases fr <;> simp_all [Frame.stageOf, Frame.wakes]

theorem nodeDoneLocked_phase (s : State κ) (n : Nat) : (nodeDoneLocked s n).phase n = .done := by
  unfold nodeDoneLocked
  by_cases hd : s.phase n = .done
  · rw [if_pos hd, hd]
  · rw [if_neg hd]
    simp [State.phase, State.push]

end

/-- **A frame that looks at a node leaves it settled, in the queue, or looked at.** -/
theorem ExecStep.woken (h : ExecStep W c s fr s') (hb : Base s) (hp : s.graph.pending = [])
    (hfr : FrameOK s fr) (hwk : fr.wakes n) (hw : s'.phase n = .waiting)
    (hd : s'.depsDone n = true) : Woken s' n := by
  have unsettled : ∀ {p : Phase}, s'.phase n = p → p.settled = true → Woken s' n := by
    intro p hph hset
    rw [← hph, hw] at hset
    cases hset
  have live : ∀ {m}, s.graph.Alive m → s.graph.interest m ≠ [] := fun hm =>
    (hb.graph.alive_iff_of_settled hb.watched hp _).mp hm
  cases h with
  | unfoldFail m nd hnd e =>
    obtain rfl : m = n := hwk
    refine unsettled rfl ?_
    rw [State.phase, State.setNode_node]
    exact failedNode_settled nd e
  | unfoldRead m nd rest =>
    obtain rfl : m = n := hwk
    exact Woken.frame (.unfolding m rest) List.mem_cons_self rfl
  | unfoldFetcher m nd =>
    obtain rfl : m = n := hwk
    refine Woken.frame (.unfolding m []) ?_ rfl
    exact require_mem_stack (s := s.setNode m nd) hb.graph _ _ _ _ _ _ _ List.mem_cons_self
  | unfoldValue m =>
    obtain rfl : m = n := hwk
    exact Woken.frame (.advance m) List.mem_cons_self rfl
  | unfolded m =>
    obtain rfl : m = n := hwk
    exact maybeEnqueueLocked_woken W c hfr.1 (live hfr.1) hfr.2 hw hd
  | input m ni rest s' hi =>
    obtain rfl : m = n := hwk
    have hloop : Frame.unfolding m rest ∈ (loopState s m ni rest).stack := List.mem_cons_self
    refine Woken.frame (.unfolding m rest) ?_ rfl
    cases hi with
    | badKey | cycle | unknown =>
      rw [failNodeLocked_stack]
      exact hloop
    | tree => exact hloop
    | link =>
      exact require_mem_stack (s := loopState s m ni rest) hb.graph _ _ _ _ _ _ _ hloop
  | advanceSettled bv hs =>
    obtain rfl : bv = n := hwk
    exact unsettled rfl hs
  | advance bv =>
    obtain rfl : bv = n := hwk
    refine Woken.frame (.afterFrom bv (s.graph.occupant ⟨.buildFrom, s.key bv⟩)) ?_ rfl
    exact require_mem_stack hb.graph _ _ _ _ _ _ _ List.mem_cons_self
  | stageWaits fr x hx hph =>
    obtain ⟨bv, hbv⟩ : ∃ bv, fr.stageOf = some bv := by
      cases fr <;> simp_all [Frame.stageNode, Frame.stageOf]
    obtain rfl := (Frame.wakes_of_stageOf hbv).mp hwk
    exact absurd ((depsDone_iff s bv).mp hd x (hfr.dep hx hbv)) hph
  | stageUnresolved fr bv hbv hu hfr' =>
    -- F and KP are resolved before the frames that need them are pushed
    rcases hfr' with ⟨hf, hne⟩ | ⟨run, rfl⟩
    · cases fr <;> simp only [Frame.stageOf, Option.some.injEq, reduceCtorEq] at hbv <;>
        subst hbv
      · exact absurd rfl (hne _)
      · exact absurd hf hfr.1.2.2
      · exact absurd hf hfr.1.2.2
      · exact absurd hf hfr.1.2.2
      · exact absurd hf hfr.2.2
      · exact absurd hf hfr.2.2
      · exact absurd hf hfr.2.2
      · exact absurd hf hfr.2.2
      · exact absurd hf hfr.2.2
    · rcases hu with hf | hk
      · exact absurd hf hfr.1.2.2
      · exact absurd hk hfr.2.2
  | stageFail fr bv hbv e =>
    obtain rfl := (Frame.wakes_of_stageOf hbv).mp hwk
    refine unsettled rfl ?_
    rw [failNodeLocked_eq, State.phase, State.setNode_node]
    exact failedNode_settled _ e
  | nextStage fr bv nd kind k ret hn =>
    obtain ⟨hbv, hret⟩ := hn.stageOf
    obtain rfl := (Frame.wakes_of_stageOf hbv).mp hwk
    refine Woken.frame (ret (s.graph.occupant ⟨kind, k⟩)) ?_
      ((Frame.wakes_of_stageOf (hret _)).mpr rfl)
    exact require_mem_stack (s := s.setNode bv nd) hb.graph _ _ _ _ _ _ _ List.mem_cons_self
  | deriveKP bv pin hdone f kp pk =>
    exact Woken.frame (.putPinned bv kp pk) List.mem_cons_self hwk
  | putPinned bv kp => exact Woken.frame (.putKPTree bv kp) List.mem_cons_self hwk
  | putKPTree bv kp => exact Woken.frame (.putPinCover bv kp) List.mem_cons_self hwk
  | putPinCover bv kp f =>
    refine Woken.frame (.afterRun bv (s.graph.occupant ⟨.buildRun, kp⟩)) ?_ hwk
    exact require_mem_stack (s := s.bound bv f kp) hb.graph _ _ _ _ _ _ _ List.mem_cons_self
  | aliased bv =>
    obtain rfl : bv = n := hwk
    exact unsettled (nodeDoneLocked_phase s bv) rfl
  | startAlias bv run hdone f kp deps out =>
    exact Woken.frame (.putAliasDeps bv deps out) List.mem_cons_self hwk
  | putAliasDeps bv deps out =>
    exact Woken.frame (.putAliasOutput bv out) List.mem_cons_self hwk
  | putAliasOutput bv =>
    obtain rfl : bv = n := hwk
    exact unsettled (nodeDoneLocked_phase _ bv) rfl
  | notifyValue m todo seen d =>
    by_cases hnd : n = d
    · subst hnd
      exact Woken.frame (.advance n) List.mem_cons_self rfl
    · refine Woken.frame (.notify m (todo.filter (fun x => x ≠ d)) (d :: seen)) ?_ ?_
      · exact List.mem_cons_of_mem _ List.mem_cons_self
      · exact List.mem_filter.mpr ⟨hwk, by simpa using hnd⟩
  | notifyNode m todo seen d hdm hkind =>
    by_cases hnd : n = d
    · subst hnd
      have hna : s.graph.Alive n := hfr n hwk
      exact maybeEnqueueLocked_woken W c hna (live hna) hkind hw hd
    · refine Woken.frame (.notify m (todo.filter (fun x => x ≠ d)) (d :: seen)) ?_ ?_
      · rw [maybeEnqueueLocked_stack]
        exact List.mem_cons_self
      · exact List.mem_filter.mpr ⟨hwk, by simpa using hnd⟩
  | _ => cases hwk

variable [Inhabited κ] {a : Label κ}

/-! ### Steps -/

section

omit [Inhabited κ]

theorem Outcome.timers_subset {m : Nat} {timers : List (Nat × Nat)}
    (h : Outcome W s s' m timers) : timers ⊆ s'.timers := by
  cases h with
  | refused hph ht hj | queued j st hp hph ht hj | goingDown j st hp hph hd ht hj =>
    rw [ht]; exact fun _ hx => hx
  | rearmed j st hp hph ht => rw [ht]; exact List.subset_cons_self _ _

theorem Judged.timers_subset {m : Nat} (h : Judged W s s' m) : s.timers ⊆ s'.timers := by
  cases h with
  | fails hph hgen hq | closed hc hph hgen hq => rw [hq.timers]; exact fun _ hx => hx
  | rearmed hph hgen ht => rw [ht]; exact List.subset_cons_self _ _
  | attempted hc h => exact h.outcome.timers_subset

/-- A node that waits after a step is looked at, or the step left it alone. -/
theorem NodeMove.woken_or_stays (h : NodeMove W s s' n) (hon : Onward s s')
    (hw : s'.phase n = .waiting) : Woken s' n ∨ Stays s s' n := by
  have other : ∀ {p : Phase}, s'.phase n = p → p ≠ .waiting → Woken s' n ∨ Stays s s' n :=
    fun hph hne => absurd (hph.symm.trans hw) hne
  cases h with
  | stays h => exact Or.inr h
  | pipeline hk hgen h =>
    rcases h with ⟨-, hph⟩ | hph
    · exact other hph nofun
    · exact other hph nofun
  | unfoldFails fr hfr ho hu hgen hph => exact other hph nofun
  | attempts hk hph timers h => exact Or.inl (h.outcome.woken hw hon.ctxErr)
  | reported hk hph h =>
    rcases h with ⟨-, hph | hph⟩ | h
    · exact other hph nofun
    · exact other hph nofun
    · exact Or.inl (h.woken hw hon)
  | committed hk i cm hcm hptr hgen hcs hph h =>
    rcases h with ⟨-, hph⟩ | h
    · exact other hph nofun
    · exact Or.inl (h.woken hw hon)

end

/-- The timer of a node that goes on waiting is kept, unless the scheduler is closed. -/
theorem Move.timer_kept (hm : Move W s a s') (hb : Base s) (ha : a ≠ .crash)
    (hfree : ∀ c i, a = .timer c i → s.free = true) (hn : s.graph.Alive n)
    (hw : s.phase n = .waiting) (hgen : (s'.node n).gen = (s.node n).gen)
    (ht : (n, (s.node n).gen) ∈ s.timers) : (n, (s.node n).gen) ∈ s'.timers ∨ s.closed = true := by
  cases hm with
  | still a s' hh hqu | staged c i cm hcm s' hcs hacc hv hqu
  | stale c i cm hcm hstale s' hcs hacc hv hqu
  | received c res m hid hma hacc hok s' hcs hrec hv hqu
  | running name gen m hma hph s' hh hqu | done c i cm hcm hst hma hgen hph s' hcs hacc hv hqu =>
    exact Or.inl (hqu.timers ▸ ht)
  | frame c fr rest hst s' hh hfr h =>
    cases h with
    | still hqu | fails m hqu | completes m hqu => exact Or.inl (hqu.timers ▸ ht)
    | attempts m hfr' hma hr hc h => exact Or.inl (h.outcome.timers_subset ht)
  | timer c i m htm hma hph hc s' hh h =>
    refine Or.inl (h.outcome.timers_subset (Run.mem_eraseIdx_of_ne htm ht fun he => ?_))
    obtain rfl : n = m := congrArg Prod.fst he
    have := h.gen
    omega
  | timerStale c i m gen htm hstale s' hh ht' =>
    rw [ht']
    by_cases hnm : (n, (s.node n).gen) = (m, gen)
    · -- the timer of the current attempt is only dropped when the scheduler is closed
      obtain ⟨rfl, rfl⟩ := Prod.mk.inj hnm
      refine Or.inr (by_contra fun hcl => ?_)
      exact hstale ⟨hn, by simpa using hcl, rfl, hw, hb.interest_ne_nil (hfree c i rfl) hn⟩
    · exact Or.inl (Run.mem_eraseIdx_of_ne htm ht hnm)
  | judged c res m hid hma hacc hok s' hcs hrec hv h
  | rejudged c i cm hcm e hst hma hgen hph s' hcs hacc hv h => exact Or.inl (h.timers_subset ht)
  | crash => exact absurd rfl ha

omit [Inhabited κ] in
/-- A new node that waits is about to be unfolded. -/
theorem Fresh.woken {c : Choice} (h : Fresh c s s' n) (hw : s'.phase n = .waiting) :
    Woken s' n := by
  have hmem := h.unfold_mem (by rw [hw]; rfl)
  exact Woken.frame (.unfold n) hmem rfl

/-- **Every step keeps every node awake.** -/
theorem Awake.step (h : Awake s) (hb : Base s) (hf : Fenced s) (hs : step W s a = some s') :
    Awake s' := by
  intro n hn' hw hd
  rcases crash_or hs with ⟨rfl, rfl⟩ | ha
  · cases hn'
  have hm := step_move hb hf hs
  have hon := step_onward hb.graph ha hs
  obtain ⟨hext, hfresh⟩ := step_table hb ha hs
  rcases hext.alive n hn' with ⟨hn, -⟩ | hnew
  swap
  · exact (hfresh n hn' hnew).woken hw
  have hfree : ∀ c i, a = .timer c i → s.free = true := by
    intro c i he
    subst he
    unfold JobsIroh.step at hs
    dsimp only at hs
    split at hs
    · cases hs
    · exact (whenFree_some hs).1
  rcases (hm.node hf ha hn).woken_or_stays hon hw with hwoken | hstays
  · exact hwoken
  by_cases hdone : ∀ d ∈ s.graph.deps n, s.phase d = .done
  · -- nothing has changed for `n`: who looked at it before still does
    have hw₀ : s.phase n = .waiting := hstays.phase ▸ hw
    cases h n hn hw₀ ((depsDone_iff s n).mpr hdone) with
    | timer ht =>
      rcases hm.timer_kept hb ha hfree hn hw₀ hstays.gen ht with hkept | hclosed
      · exact Woken.timer (hstays.gen ▸ hkept)
      · exact Woken.down (Or.inl (hon.closed hclosed))
    | down hdown => exact Woken.down (hdown.imp hon.closed hon.ctxErr)
    | frame fr hfr hwk =>
      rcases step_cases hb ha hs with ⟨c, top, rest, -, hp, hst, he⟩ | haside
      · rw [hst] at hfr
        rcases List.mem_cons.mp hfr with rfl | hfr
        · exact he.woken (hb.pop hst) hp (hb.top hst).1 hwk hw hd
        · obtain ⟨fs, p, hst', -⟩ := he.stack hb.graph
          refine Woken.frame fr ?_ hwk
          rw [hst']
          exact List.mem_append_right _ (List.mem_append_right _ hfr)
      · exact Woken.frame fr (haside.frames fr hfr) hwk
  · -- one of its deps has got done in this step, and `n` is in its loop
    push Not at hdone
    obtain ⟨d, hdep, hnd⟩ := hdone
    have hd' := (depsDone_iff s' n).mp hd d (hext.deps n d hdep)
    have hda := hb.graph.depsIn n d hn hdep
    have hnotify := (hm.getsDone ha hda hnd hd').notify
    refine Woken.frame _ hnotify ?_
    exact (hb.graph.dependentsIff n d).mpr ⟨hn, hdep⟩

theorem Reached.awake {P : State κ → Label κ → Prop} {st : Store κ} (h : Reached W P st s) :
    (Base s ∧ Fenced s) ∧ Awake s := by
  refine h.inv_fenced ?_ ?_
  · intro n hn
    cases hn
  · intro s a s' hb hf _ hs hi
    exact hi.step hb hf hs

omit [DecidableEq κ] [Inhabited κ] in
/-- Between critical sections a node that waits has something to wait for. -/
theorem Awake.waits (h : Awake s) (hfree : s.free = true) (hclosed : s.closed = false)
    (hctx : s.ctxErr = false) (hn : s.graph.Alive n) (hw : s.phase n = .waiting) :
    (∃ d ∈ s.graph.deps n, s.phase d ≠ .done) ∨ (n, (s.node n).gen) ∈ s.timers := by
  by_cases hd : s.depsDone n = true
  · cases h n hn hw hd with
    | timer ht => exact Or.inr ht
    | frame fr hfr =>
      rw [(s.free_iff.mp hfree).1] at hfr
      cases hfr
    | down hdown =>
      rw [hclosed, hctx] at hdown
      simp at hdown
  · rw [depsDone_iff] at hd
    push Not at hd
    exact Or.inl hd

/-- **No wake-up is lost.** Between critical sections, unless the scheduler is going down, a
placeable node that waits has a dependency that is not done or a timer for its current
generation, and a buildvalue that is not settled has a dependency that is not done. -/
theorem no_lost_wakeup {P : State κ → Label κ → Prop} {st : Store κ} (h : Reached W P st s)
    (hfree : s.free = true) (hclosed : s.closed = false) (hctx : s.ctxErr = false) :
    (∀ n, s.graph.Alive n → (s.kind n).placeable = true → s.phase n = .waiting →
      (∃ d ∈ s.graph.deps n, s.phase d ≠ .done) ∨ (n, (s.node n).gen) ∈ s.timers) ∧
    ∀ n, s.graph.Alive n → s.kind n = .buildValue → s.phase n ≠ .done → s.phase n ≠ .failed →
      ∃ d ∈ s.graph.deps n, s.phase d ≠ .done := by
  obtain ⟨⟨hb, hf⟩, haw⟩ := Reached.awake h
  have timer := fun n hn hw => haw.waits (n := n) hfree hclosed hctx hn hw
  refine ⟨fun n hn _ hw => timer n hn hw, fun n hn hk hnd hnf => ?_⟩
  obtain ⟨hin, hpub⟩ := hf.values n hn hk
  have hw : s.phase n = .waiting := by
    cases hph : s.phase n <;> simp_all [Phase.inFlight]
  -- timers are only armed for placeable nodes
  refine (timer n hn hw).resolve_right fun ht => ?_
  exact ((hf.timers _ ht).2 hn).1 hk

end

/-- A publish that fails: the import waits for its timer, what depends on it waits for it. -/
theorem no_lost_wakeup_publish_failed : ∃ s : State UInt8,
    runSched fetchWorld (State.init (smallStore []))
      ([.hello "runner" "linux" 0, .prepare {} { defn := [1] }, .submit {} 0 "r1"] ++
        List.replicate 9 (.exec {})) = some s ∧
    s.phase 2 = .waiting ∧ (2, (s.node 2).gen) ∈ s.timers ∧
    ∃ d ∈ s.graph.deps 0, s.phase d ≠ .done := by
  have hrun : ∃ s ∈ runSched fetchWorld (State.init (smallStore []))
      ([.hello "runner" "linux" 0, .prepare {} { defn := [1] }, .submit {} 0 "r1"] ++
        List.replicate 9 (.exec {})), s.free = true ∧ s.closed = false ∧ s.ctxErr = false ∧
          s.graph.Alive 0 ∧ s.kind 0 = .buildValue ∧ s.phase 0 = .waiting ∧ s.graph.Alive 2 ∧
          (s.kind 2).placeable = true ∧ s.phase 2 = .waiting ∧ s.graph.deps 2 = [] := by
    decide +kernel
  obtain ⟨s, hs, hfree, hcl, hctx, h0, hk0, hw0, h2, hk2, hw2, hd2⟩ := hrun
  obtain ⟨hplace, hvalue⟩ := no_lost_wakeup (Run.Steps.of_run _ hs) hfree hcl hctx
  refine ⟨s, hs, hw2, ?_, hvalue 0 h0 hk0 (by simp [hw0]) (by simp [hw0])⟩
  refine (hplace 2 h2 hk2 hw2).resolve_left ?_
  simp [hd2]

end JobsIroh
