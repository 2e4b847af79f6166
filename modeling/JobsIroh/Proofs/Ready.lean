/-
When a job is handed out, its node is unfolded and its deps are done.

`maybeEnqueueLocked` looks at the deps a node has, not at those it will get.  A loop
that is still linking inputs can be overtaken: the input it has just linked gets done
inside the call that makes it, and its dependents are gone through before the loop goes
on.  The results hold in the runs in which that does not happen.
-/
import JobsIroh.Proofs.Loops

namespace JobsIroh

variable {κ : Type} [DecidableEq κ]

/-! ### The condition -/

/-- The node still has inputs to link. -/
def inLoop (s : State κ) (p : Nat) : Bool :=
  s.stack.any fun fr =>
    match fr with
    | .unfolding n (_ :: _) => n = p
    | _ => false

/-- The node would be ready if `x` were done. -/
def waitsOnlyFor (s : State κ) (p x : Nat) : Bool :=
  s.phase p = .waiting && (s.graph.deps p).all (fun d => d = x || s.phase d = .done)

/-- The step does not complete the last missing dep of a node that is still in its loop. -/
def loopsOver (s : State κ) : Label κ → Bool
  | .exec _ =>
    match s.stack with
    | [] => true
    | fr :: rest =>
      match completing { s with stack := rest } fr with
      | some x => (s.graph.dependents x).all (fun p => !(waitsOnlyFor s p x && inLoop s p))
      | none => true
  | _ => true

/-! ### The invariant -/

/-- The unfold of `n` is over: its inputs are read, all are linked, and none is left. -/
structure Unfolded (W : World κ) (s : State κ) (n : Nat) : Prop where
  linked : ∃ l, (s.node n).inputs = some l ∧ ∀ i ∈ l, Linked W s n i
  loop : ∀ left, .unfolding n left ∈ s.stack → left = []

/-- The node is handed out, or a timer will do so without another look at its deps. -/
def Held (s : State κ) (n : Nat) : Prop :=
  (s.phase n).inFlight = true ∨ s.phase n = .publishing ∨
    s.phase n = .waiting ∧ (n, (s.node n).gen) ∈ s.timers

/-- The node may be handed out in the next step: it is held, or the frame on top finds it
ready. -/
def Due (s : State κ) (n : Nat) : Prop :=
  Held s n ∨ ∃ fr rest, s.stack = fr :: rest ∧ (fr = .unfolding n [] ∨ fr.opens = none) ∧
    ready s n = true

/-- The job `j` is handed out between two states. -/
structure HandsOut (W : World κ) (s s' : State κ) (j : Job κ) : Prop where
  alive : s.graph.Alive j.ptr
  placeable : s.kind j.ptr ≠ .buildValue
  due : Due s j.ptr
  graph : s'.graph = s.graph
  unsettled : (s'.phase j.ptr).settled = false
  published : ∃ st, Published W s s' j.ptr j st

/-- What is handed out is unfolded, and what could be handed out is unfolded or is looked at
by its own loop next. -/
structure Paced (W : World κ) (s : State κ) : Prop where
  held : ∀ n, s.graph.Alive n → s.kind n ≠ .buildValue → Held s n →
    Unfolded W s n ∧ ∀ d ∈ s.graph.deps n, s.phase d = .done
  ready : ∀ n, s.graph.Alive n → s.kind n ≠ .buildValue → s.phase n = .waiting →
    (∀ d ∈ s.graph.deps n, s.phase d = .done) →
    Unfolded W s n ∨ ∃ fr rest, s.stack = fr :: rest ∧ fr.opens = some n

/-- Everything the node waits for is done. -/
abbrev DepsDone (s : State κ) (n : Nat) : Prop := ∀ d ∈ s.graph.deps n, s.phase d = .done

/-- The frame on top opens the node. -/
abbrev OnTop (s : State κ) (n : Nat) : Prop := ∃ fr rest, s.stack = fr :: rest ∧ fr.opens = some n

section

variable {W : World κ} {s s' : State κ} {n x : Nat}

section

omit [DecidableEq κ]

theorem inLoop_of_mem {left : List NamedInput} (h : .unfolding n left ∈ s.stack)
    (hleft : left ≠ []) : inLoop s n = true := by
  rw [inLoop, List.any_eq_true]
  refine ⟨_, h, ?_⟩
  cases left with
  | nil => exact absurd rfl hleft
  | cons => simp

theorem loopsOver_spec {c : Choice} {fr : Frame κ} {rest : List (Frame κ)}
    (h : loopsOver s (.exec c) = true) (hst : s.stack = fr :: rest)
    (hx : completing { s with stack := rest } fr = some x) (hn : n ∈ s.graph.dependents x)
    (hw : s.phase n = .waiting) (hd : ∀ d ∈ s.graph.deps n, d ≠ x → s.phase d = .done) :
    ∀ left, .unfolding n left ∈ s.stack → left = [] := by
  intro left hfr
  by_contra hleft
  have honly : waitsOnlyFor s n x = true := by
    simp only [waitsOnlyFor, Bool.and_eq_true, decide_eq_true_eq, List.all_eq_true,
      Bool.or_eq_true]
    refine ⟨hw, fun d hdep => ?_⟩
    by_cases hdx : d = x
    · exact Or.inl hdx
    · exact Or.inr (hd d hdep hdx)
  unfold loopsOver at h
  rw [hst] at h
  dsimp only at h
  rw [hx] at h
  have hall := List.all_eq_true.mp h n hn
  rw [honly, inLoop_of_mem hfr hleft] at hall
  cases hall

/-- The frame on top may be the end of the loop of an unfolded node, but no other turn of it. -/
theorem Unfolded.top {fr : Frame κ} {rest : List (Frame κ)} (hu : Unfolded W s n)
    (hl : Loops W s) (hst : s.stack = fr :: rest) (ho : fr.opens = some n) :
    fr = .unfolding n [] := by
  have hmem := State.top_mem hst
  cases fr with
  | unfold m =>
    obtain rfl : m = n := Option.some.inj ho
    obtain ⟨l, hin, -⟩ := hu.linked
    rw [hl.unread m hmem] at hin
    cases hin
  | unfolding m left =>
    obtain rfl : m = n := Option.some.inj ho
    rw [hu.loop left hmem]
  | _ => cases ho

/-- Once every input is linked and the loop has nothing left, the unfold is over. -/
theorem Reading.unfolded (h : Reading W s n)
    (hloop : ∀ left, .unfolding n left ∈ s.stack → left = []) : Unfolded W s n := by
  obtain ⟨l, hin, hl⟩ := h
  refine ⟨⟨l, hin, fun i hi => ?_⟩, hloop⟩
  rcases hl i hi with hlinked | ⟨left, hfr, ni, hni, -⟩
  · exact hlinked
  · rw [hloop left hfr] at hni
    cases hni

end

variable [Inhabited κ] {a : Label κ}

/-! ### What is unfolded stays unfolded -/

section

variable (hu : Unfolded W s n) (hl : Loops W s) (hb : Base s)
include hu hl hb

/-- An unfolded node gets no further dep. -/
theorem Unfolded.step_deps
    (ha : a ≠ .crash) (hs : step W s a = some s') (hk : s.kind n ≠ .buildValue) :
    ∀ d ∈ s'.graph.deps n, d ∈ s.graph.deps n := by
  intro d hd
  rcases step_edge hb ha hs hd with hold | ⟨fr, rest, id, hst, hedge⟩
  · exact hold
  rcases hedge.owner (hb.top hst).1 with ho | hvalue
  · -- the end of the loop adds nothing
    obtain rfl := hu.top hl hst ho
    cases hedge with
    | stage _ _ nd kind k ret h => cases h
  · exact absurd hvalue hk

theorem Unfolded.step (ha : a ≠ .crash)
    (hs : step W s a = some s') (hn : s.graph.Alive n) (hn' : s'.graph.Alive n) :
    Unfolded W s' n := by
  obtain ⟨hext, -⟩ := step_table hb ha hs
  have hlink : ∀ i, Linked W s n i → Linked W s' n i := fun i h =>
    h.step hb.graph (hb.step hs).graph hext hn'
  obtain ⟨l, hin, hl'⟩ := hu.linked
  have keep : (s'.node n).inputs = (s.node n).inputs →
      (∀ left, .unfolding n left ∈ s'.stack → .unfolding n left ∈ s.stack) → Unfolded W s' n := by
    intro hsame hback
    exact ⟨⟨l, hsame.trans hin, fun i hi => hlink i (hl' i hi)⟩,
      fun left hfr => hu.loop left (hback left hfr)⟩
  rcases step_cases hb ha hs with ⟨c, fr, rest, -, hp, hst, he⟩ | haside
  · by_cases ho : fr.opens = some n
    · obtain rfl := hu.top hl hst ho
      rw [he.unfolded_eq] at keep ⊢
      refine keep (maybeEnqueueLocked_kept W c _ n n).inputs fun left hfr => State.below_mem hst ?_
      rwa [maybeEnqueueLocked_stack] at hfr
    · refine keep ((he.record (hb.pop hst) hn).inputs ho) fun left hfr => ?_
      rcases he.opens hb.graph hfr rfl with hold | htop | hnew
      · exact State.below_mem hst hold
      · exact absurd htop ho
      · exact absurd hnew (Nat.ne_of_lt (hb.graph.alive_lt hn))
  · refine keep (haside.record n hn).inputs fun left hfr => ?_
    rcases haside.stack with hsame | ⟨-, fs, b, hst, hmade, hbot⟩
    · rwa [hsame] at hfr
    · rw [hst] at hfr
      rcases hmade with rfl | rfl <;> rcases hbot with ⟨rid, t, scratch, rfl⟩ | ⟨m, rfl⟩ <;>
        simp at hfr

/-- A node whose deps are done and that gets no other. -/
theorem Unfolded.step_done (hf : Fenced s)
    (ha : a ≠ .crash) (hs : JobsIroh.step W s a = some s') (hn : s.graph.Alive n)
    (hk : s.kind n ≠ .buildValue) (hd : DepsDone s n) : DepsDone s' n := by
  intro d hd'
  have hold := hu.step_deps hl hb ha hs hk d hd'
  exact ((step_move hb hf hs).node hf ha (hb.graph.depsIn n d hn hold)).done (hd d hold)

end

/-! ### Who is handed out -/

variable {j : Job κ}

omit [Inhabited κ] in
theorem Outcome.jobs {timers : List (Nat × Nat)} (h : Outcome W s s' n timers) :
    s'.jobs = s.jobs ∨ ∃ j, s'.jobs = j :: s.jobs ∧ j.ptr = n ∧ (s'.phase n).settled = false ∧
      ∃ st, Published W s s' n j st := by
  cases h with
  | refused hph ht hj => exact Or.inl hj
  | queued j st hp hph ht hj | rearmed j st hp hph ht hj | goingDown j st hp hph hdown ht hj =>
    exact Or.inr ⟨j, hj, hp.job.ptr, by rw [hph]; rfl, st, hp⟩

/-- A step hands out at most one job, from an attempt at a node of the table that was due. -/
theorem Move.jobs (hm : Move W s a s') (hf : Fenced s) :
    s'.jobs = s.jobs ∨ ∃ j, s'.jobs = j :: s.jobs ∧ HandsOut W s s' j := by
  have attempted : ∀ {m : Nat} {timers : List (Nat × Nat)}, Attempted W s s' m timers →
      s.graph.Alive m → s.kind m ≠ .buildValue → Due s m →
      s'.jobs = s.jobs ∨ ∃ j, s'.jobs = j :: s.jobs ∧ HandsOut W s s' j := by
    intro m timers h hma hk hdue
    rcases h.outcome.jobs with hsame | ⟨j, hj, rfl, hu, hpub⟩
    · exact Or.inl hsame
    · exact Or.inr ⟨j, hj, hma, hk, hdue, h.graph, hu, hpub⟩
  have judged : ∀ {m : Nat}, Judged W s s' m → s.graph.Alive m → s.kind m ≠ .buildValue →
      Held s m → s'.jobs = s.jobs ∨ ∃ j, s'.jobs = j :: s.jobs ∧ HandsOut W s s' j := by
    intro m h hma hk hheld
    cases h with
    | fails hph hgen hq | closed hc hph hgen hq => exact Or.inl hq.jobs
    | rearmed hph hgen ht hj => exact Or.inl hj
    | attempted hc h => exact attempted h hma hk (Or.inl hheld)
  cases hm with
  | still a s' hh hqu | received c res m hid hma hacc hok s' hcs hacc' hv hqu
  | running name gen m hma hph s' hh hqu | staged c i cm hcm s' hcs hacc hv hqu
  | stale c i cm hcm hstale s' hcs hacc hv hqu => exact Or.inl hqu.jobs
  | frame c fr rest hst s' hh hfr h =>
    cases h with
    | still hqu | fails m hqu | completes m hqu => exact Or.inl hqu.jobs
    | attempts m hfr' hma hr hc h =>
      exact attempted (h.congr rfl rfl rfl rfl rfl rfl) hma (phase_of_ready hr).2
        (Or.inr ⟨fr, rest, hst, hfr', hr⟩)
  | timer c i m ht hma hph hc s' hh h =>
    exact attempted h hma ((hf.timers _ (List.mem_of_getElem? ht)).2 hma).1
      (Or.inl (Or.inr (Or.inr ⟨hph, List.mem_of_getElem? ht⟩)))
  | timerStale c i m gen ht hstale s' hh ht' hj => exact Or.inl hj
  | judged c res m hid hma hacc hok s' hcs hacc' hv h =>
    exact judged h hma (hf.placeable_of_accepts hma hacc)
      (Or.inl ((accepts_iff s m res).mp hacc).2.2)
  | done c i cm hcm hst hma hgen hph s' hcs hacc hv hqu => exact Or.inl hqu.jobs
  | rejudged c i cm hcm e hst hma hgen hph s' hcs hacc hv h =>
    exact judged h hma (hf.placeable_of_publishing hma hph) (Or.inr (Or.inl hph))
  | crash => exact Or.inl rfl

theorem Move.handsOut (hm : Move W s a s') (hf : Fenced s)
    (hj : s'.jobs = j :: s.jobs) : HandsOut W s s' j := by
  rcases hm.jobs hf with heq | ⟨j', heq, ho⟩
  · exact absurd (hj.symm.trans heq) (List.cons_ne_self _ _)
  · obtain ⟨rfl, -⟩ := List.cons.inj (hj.symm.trans heq)
    exact ho

/-- A node that is held after a step was so before it, or its job has been handed out. -/
theorem Move.held_step (hm : Move W s a s') (hf : Fenced s) (ha : a ≠ .crash)
    (hn : s.graph.Alive n) (hh : Held s' n) :
    Held s n ∨ ∃ j, s'.jobs = j :: s.jobs ∧ j.ptr = n := by
  have gone : s'.phase n = .failed ∨ s'.phase n = .done → False := by
    intro hph
    unfold Held at hh
    rcases hph with hph | hph <;> rw [hph] at hh <;> simp [Phase.inFlight] at hh
  cases hm.node hf ha hn with
  | stays h =>
    unfold Held at hh ⊢
    rw [h.phase, h.gen] at hh
    refine Or.inl (hh.imp_right (Or.imp_right fun hw => ⟨hw.1, ?_⟩))
    refine (hm.timers hf _ hw.2).resolve_right fun harmed => ?_
    exact Nat.lt_irrefl _ (harmed.2.2.2.2 hw.1)
  | pipeline hk hgen h => exact (gone (h.imp_left And.right)).elim
  | unfoldFails fr hfr ho hu hgen h => exact (gone (Or.inl h)).elim
  | attempts hk hph timers h =>
    cases h.outcome with
    | refused hph => exact (gone (Or.inl hph)).elim
    | queued j st hp hph ht hj | rearmed j st hp hph ht hj | goingDown j st hp hph hdown ht hj =>
      exact Or.inr ⟨j, hj, hp.job.ptr⟩
  | reported hk hph => exact Or.inl (Or.inl hph)
  | committed hk i cm hcm hptr hgen hcs hph => exact Or.inl (Or.inr (Or.inl hph))

/-- A node that is held after a step was due before it. -/
theorem Move.held (hm : Move W s a s') (hf : Fenced s) (ha : a ≠ .crash) (hn : s.graph.Alive n)
    (hh : Held s' n) : Due s n := by
  rcases hm.held_step hf ha hn hh with hold | ⟨j, hj, rfl⟩
  · exact Or.inl hold
  · exact (hm.handsOut hf hj).due

omit [Inhabited κ] in
/-- An enqueue that hands out a job computes it on the store it leaves behind. -/
theorem enqueueLocked_job {c : Choice}
    (hj : (enqueueLocked W c s n).jobs = j :: s.jobs) :
    JobFor W (enqueueLocked W c s n).store n (s.graph.id n) ((enqueueLocked W c s n).node n) j := by
  rcases enqueueLocked_eq W c s n with ⟨-, heq⟩ | ⟨st, nd, timers, jobs, heq, -, hat⟩
  · rw [heq] at hj
    exact absurd hj.symm (List.cons_ne_self _ _)
  · rw [heq] at hj ⊢
    dsimp only at hj ⊢
    rw [Function.update_self]
    have same : ∀ {job : Job κ} (nd' : Node κ), job :: s.jobs = j :: s.jobs →
        JobFor W st n (s.graph.id n) nd' job → JobFor W st n (s.graph.id n) nd' j := by
      intro job nd' hcons hjob
      obtain rfl : job = j := (List.cons.inj hcons).1
      exact hjob
    cases hat with
    | refused => exact absurd hj.symm (List.cons_ne_self _ _)
    | queued seq job hjob =>
      exact same _ hj ⟨hjob.ptr, hjob.id, hjob.gen, hjob.pull, hjob.healed, hjob.platform⟩
    | rearmed job hjob =>
      exact same _ hj ⟨hjob.ptr, hjob.id, hjob.gen, hjob.pull, hjob.healed, hjob.platform⟩
    | goingDown job hjob => exact same _ hj hjob

omit [Inhabited κ] in
theorem Verdict.job {c : Choice} (h : Verdict W c s n s')
    (hj : s'.jobs = j :: s.jobs) : JobFor W s'.store n (s.graph.id n) (s'.node n) j := by
  cases h with
  | requeue hcap e => exact enqueueLocked_job (s := s.setNode n (requeued (s.node n) e)) hj
  | _ => exact absurd hj.symm (List.cons_ne_self _ _)

variable {fr : Frame κ}

omit [Inhabited κ] in
/-- Two frames may hand out a job: the end of an unfold and the loop over dependents. -/
theorem ExecStep.jobs {c : Choice} (h : ExecStep W c s fr s')
    (hg : s.graph.Inv s.target) : s'.jobs = s.jobs ∨
      ∃ m s₁, (fr = .unfolding m [] ∨ ∃ n todo seen, fr = .notify n todo seen) ∧
        s₁.jobs = s.jobs ∧ s₁.graph = s.graph ∧ s' = maybeEnqueueLocked W c s₁ m := by
  have done : ∀ (s₁ : State κ) (bv : Nat), (nodeDoneLocked s₁ bv).jobs = s₁.jobs := by
    intro s₁ bv
    unfold nodeDoneLocked
    split <;> rfl
  have fails : ∀ (s₁ : State κ) (n : Nat) (e : String), (failNodeLocked s₁ n e).jobs = s₁.jobs := by
    intro s₁ n e
    rw [failNodeLocked_eq]
    rfl
  cases h with
  | unfoldFetcher n nd =>
    exact Or.inl (require_quiet (s := s.setNode n nd) hg _ _ _ _ _ _ _).jobs
  | unfolded n => exact Or.inr ⟨n, s, Or.inl rfl, rfl, rfl, rfl⟩
  | input n ni rest s' hi =>
    cases hi with
    | tree => exact Or.inl rfl
    | link =>
      exact Or.inl (require_quiet (s := loopState s n ni rest) hg _ _ _ _ _ _ _).jobs
    | _ => exact Or.inl (fails _ n _)
  | advance => exact Or.inl (require_quiet hg _ _ _ _ _ _ _).jobs
  | stageFail fr bv hbv e => exact Or.inl (fails s bv e)
  | nextStage fr bv nd =>
    exact Or.inl (require_quiet (s := s.setNode bv nd) hg _ _ _ _ _ _ _).jobs
  | putPinCover bv kp f =>
    exact Or.inl (require_quiet (s := s.bound bv f kp) hg _ _ _ _ _ _ _).jobs
  | aliased bv => exact Or.inl (done s bv)
  | putAliasOutput bv out f => exact Or.inl (done (s.putRef (.output f) out) bv)
  | notifyNode n todo seen d =>
    exact Or.inr ⟨d, s.push _, Or.inr ⟨n, todo, seen, rfl⟩, rfl, rfl, rfl⟩
  | submitted => exact Or.inl (by rw [deleteScratch_eta])
  | _ => exact Or.inl rfl

omit [Inhabited κ] in
/-- A frame that hands out a job computes it on the store it leaves behind. -/
theorem ExecStep.job {c : Choice} (h : ExecStep W c s fr s')
    (hg : s.graph.Inv s.target) (hj : s'.jobs = j :: s.jobs) :
    ∃ m, JobFor W s'.store m (s.graph.id m) (s'.node m) j := by
  rcases h.jobs hg with hq | ⟨m, s₁, -, hj₁, hg₁, rfl⟩
  · exact absurd (hj.symm.trans hq) (List.cons_ne_self _ _)
  · rw [← hj₁] at hj
    rw [← hg₁]
    refine ⟨m, ?_⟩
    unfold maybeEnqueueLocked at hj ⊢
    split at hj
    · rename_i hr
      rw [if_pos hr]
      exact enqueueLocked_job hj
    · exact absurd hj.symm (List.cons_ne_self _ _)

/-- The pull refs of a job were computed on the store as the step leaves it; only push refs
may have gone since. -/
def Computed (W : World κ) (s s' : State κ) (j : Job κ) : Prop :=
  ∃ st, JobFor W st j.ptr (s.graph.id j.ptr) (s'.node j.ptr) j ∧
    ∀ r, ¬ ScratchRef r → s'.store.refs r = st.refs r

theorem step_job (hb : Base s) (hs : JobsIroh.step W s a = some s')
    (hj : s'.jobs = j :: s.jobs) : Computed W s s' j := by
  have quiet : s'.jobs = s.jobs → False := fun h => List.cons_ne_self _ _ (hj.symm.trans h)
  have now : ∀ {m : Nat}, JobFor W s'.store m (s.graph.id m) (s'.node m) j → Computed W s s' j := by
    intro m hjob
    obtain rfl : j.ptr = m := hjob.ptr
    exact ⟨s'.store, hjob, fun _ _ => rfl⟩
  -- a verdict deletes the push ref of its result after the job is out
  have cleaned : ∀ {c : Choice} {m : Nat} {s₀ s₁ : State κ} (ref : String),
      Verdict W c s₀ m s₁ → s₀.jobs = s.jobs → s₀.graph = s.graph →
      s' = deleteScratch W runnerScratchPrefix ref s₁ → Computed W s s' j := by
    intro c m s₀ s₁ ref hv hj₀ hg₀ heq
    obtain ⟨t, hdel, -⟩ := deleteScratch_eq W runnerScratchPrefix ref s₁
    have hst : StoreStep (fun _ _ => False) ScratchRef s₁.store s'.store := by
      rw [heq]
      exact deleteScratch_store W (Or.inl rfl) ref s₁ rfl
    have hjob := hv.job (by rw [hj₀, ← hj, heq, hdel])
    rw [hg₀] at hjob
    obtain rfl : j.ptr = m := hjob.ptr
    refine ⟨s₁.store, by rw [heq, hdel]; exact hjob, fun r hr => ?_⟩
    rcases hst.refs r with he | ⟨v, -, hv⟩ | ⟨-, hd⟩
    · exact he
    · exact hv.elim
    · exact absurd hd hr
  have hr := step_rule hb.graph hs
  cases hr with
  | frame c fr rest hp hst s' he =>
    obtain ⟨m, hjob⟩ := he.job hb.graph hj
    exact now hjob
  | submit c i rid sub =>
    obtain ⟨nd, fs, lg, heq, -⟩ := joinSubmit_eq
      (s := { s with submits := s.submits.eraseIdx i }) hb.graph sub rid
    exact (quiet (by rw [heq])).elim
  | dropped | finishStale => exact (quiet (by rw [deleteScratch_eta])).elim
  | accepted c res n =>
    have hrule := acceptResult_rule W c s n res
    generalize acceptResult W c s n res = s₁ at hrule hj quiet now cleaned ⊢
    cases hrule with
    | commits => exact (quiet rfl).elim
    | verdict hok s₁ hv => exact cleaned _ hv rfl rfl rfl
  | finish c i cm err =>
    have hrule := applyCommit_rule W c (s.judging i cm) cm err
    generalize applyCommit W c (s.judging i cm) cm err = s₁ at hrule hj quiet cleaned ⊢
    cases hrule with
    | done =>
      refine (quiet ?_).elim
      rw [deleteScratch_eta]
      unfold nodeDoneLocked
      split <;> rfl
    | verdict e s₁ hv => exact cleaned _ hv rfl rfl rfl
  | timer c i =>
    exact now (enqueueLocked_job (s := { s with timers := s.timers.eraseIdx i }) hj)
  | _ => exact (quiet rfl).elim

theorem finish_free {c : Choice} {i : Nat} (hs : step W s (.finish c i) = some s') :
    s.stack = [] := by
  unfold step at hs
  dsimp only at hs
  split at hs
  · cases hs
  · split at hs
    · exact (s.free_iff.mp (whenFree_some hs).1).1
    · cases hs

/-! ### The invariant holds -/

/-- A waiting node whose last missing dep gets done in a step is unfolded by then. -/
theorem Loops.unfolded_of_last_dep {x : Nat} (hl : Loops W s) (hb : Base s)
    (hp : loopsOver s a = true) (hn : s.graph.Alive n) (hk : s.kind n ≠ .buildValue)
    (hw : s.phase n = .waiting) (hx : x ∈ s.graph.deps n) (hg : GetsDone s a s' x)
    (hs : JobsIroh.step W s a = some s')
    (hothers : ∀ d ∈ s.graph.deps n, d ≠ x → s.phase d = .done) :
    Unfolded W s n := by
  have hread := hl.reading n hn hk (by rw [hw]; rfl)
  cases hg.completer with
  | pipeline c fr rest hst hfr =>
    have hdep : n ∈ s.graph.dependents x := (hb.graph.dependentsIff n x).mpr ⟨hn, hx⟩
    refine (hread.resolve_left fun hmem => ?_).unfolded
      (loopsOver_spec hp hst hfr hdep hw hothers)
    -- an unfold would be on top, where the frame that completes `x` is
    rw [hst] at hmem
    rcases List.mem_cons.mp hmem with heq | hbelow
    · rw [← heq] at hfr
      cases hfr
    · exact hl.head n (by rw [hst]; exact hbelow)
  | commit =>
    have hnil := finish_free hs
    rw [hnil] at hread
    refine (hread.resolve_left (by simp)).unfolded fun left hfr => ?_
    rw [hnil] at hfr
    cases hfr

omit [Inhabited κ] in
/-- A node that waits after a step waited before, or was held. -/
theorem NodeMove.waiting (h : NodeMove W s s' n) (hk : s.kind n ≠ .buildValue)
    (hw : s'.phase n = .waiting) : s.phase n = .waiting ∨ Held s n := by
  cases h with
  | stays h => exact Or.inl (h.phase ▸ hw)
  | pipeline hk' => exact absurd hk' hk
  | unfoldFails fr hfr ho hu hgen h => simp [h] at hw
  | attempts hk' hph => exact Or.inl hph
  | reported hk' hph => exact Or.inr (Or.inl hph)
  | committed hk' i cm hcm hptr hgen hcs hph => exact Or.inr (Or.inr (Or.inl hph))

omit [DecidableEq κ] [Inhabited κ] in
/-- A turn of the loop of a node whose deps are all done stays on top. -/
theorem Turn.on_top {left : List NamedInput} (h : Turn s n left) (hd : DepsDone s n) :
    OnTop s n := by
  rcases h.top with ⟨rest, hst⟩ | ⟨d, hdep, hw⟩
  · exact ⟨_, rest, hst, rfl⟩
  · rw [hd d hdep] at hw
    cases hw

omit [DecidableEq κ] [Inhabited κ] in
/-- At the end of its loop a node is unfolded. -/
theorem Loops.unfolded_at_end {rest : List (Frame κ)} (hl : Loops W s)
    (hst : s.stack = .unfolding n [] :: rest) (hn : s.graph.Alive n)
    (hk : s.kind n ≠ .buildValue) (hw : s.phase n = .waiting) : Unfolded W s n := by
  -- the only frame that opens the node has nothing left
  have only : ∀ fr ∈ s.stack, fr.opens = some n → fr = .unfolding n [] := by
    intro fr hfr ho
    rw [hst] at hfr
    rcases List.mem_cons.mp hfr with heq | hbelow
    · exact heq
    · exact absurd ho (hl.not_below hst rfl hbelow)
  have hread := hl.reading n hn hk (by rw [hw]; rfl)
  refine (hread.resolve_left fun hmem => ?_).unfolded fun left hfr => ?_
  · cases only _ hmem rfl
  · exact (Frame.unfolding.inj (only _ hfr rfl)).2

omit [Inhabited κ] in
/-- The loop on top of the stack, after one more turn. -/
theorem Loops.step_top {c : Choice} {rest : List (Frame κ)} (hl : Loops W s)
    (hb : Base s) (hst : s.stack = fr :: rest) (ho : fr.opens = some n)
    (he : ExecStep W c { s with stack := rest } fr s') (hn : s.graph.Alive n)
    (hk : s.kind n ≠ .buildValue) (hw : s.phase n = .waiting) (hw' : s'.phase n = .waiting)
    (hd' : DepsDone s' n) : Unfolded W s n ∨ OnTop s' n := by
  cases fr with
  | unfold m =>
    obtain rfl : m = n := Option.some.inj ho
    rcases he.unfold_turn hb.graph hn hk with hset | ⟨l, left, -, hturn, -⟩
    · rw [hw'] at hset
      cases hset
    · exact Or.inr (hturn.on_top hd')
  | unfolding m left =>
    obtain rfl : m = n := Option.some.inj ho
    cases left with
    | nil => exact Or.inl (hl.unfolded_at_end hst hn hk hw)
    | cons => exact Or.inr ((he.loop_turn hb.graph).1.on_top hd')
  | _ => cases ho

omit [DecidableEq κ] [Inhabited κ] in
theorem ready_iff (s : State κ) (n : Nat) : ready s n = true ↔
    (s.kind n).placeable = true ∧ s.phase n = .waiting ∧ s.graph.interest n ≠ [] ∧
      DepsDone s n := by
  simp [ready, ← depsDone_iff, and_assoc]

omit [DecidableEq κ] [Inhabited κ] in
/-- What a step hands out is unfolded before it, with all its deps done. -/
theorem Paced.unfolded_of_due (hp : Paced W s) (hl : Loops W s) (hn : s.graph.Alive n)
    (hk : s.kind n ≠ .buildValue) (hdue : Due s n) :
    Unfolded W s n ∧ DepsDone s n := by
  rcases hdue with hheld | ⟨fr, rest, hst, hfr, hr⟩
  · exact hp.held n hn hk hheld
  obtain ⟨-, hw, -, hd⟩ := (ready_iff s n).mp hr
  refine ⟨?_, hd⟩
  rcases hp.ready n hn hk hw hd with hu | ⟨fr', rest', hst', ho⟩
  · exact hu
  · obtain ⟨rfl, -⟩ := List.cons.inj (hst.symm.trans hst')
    rcases hfr with rfl | hnone
    · exact hl.unfolded_at_end hst hn hk hw
    · rw [hnone] at ho
      cases ho

theorem Paced.step_ready (hp : Paced W s) (hl : Loops W s) (hb : Base s) (hf : Fenced s)
    (ha : a ≠ .crash) (hc : loopsOver s a = true) (hs : step W s a = some s')
    (hn : s.graph.Alive n) (hn' : s'.graph.Alive n) (hk : s.kind n ≠ .buildValue)
    (hw' : s'.phase n = .waiting) (hd' : DepsDone s' n) :
    Unfolded W s' n ∨ OnTop s' n := by
  have hm := step_move hb hf hs
  obtain ⟨hext, -⟩ := step_table hb ha hs
  have keep : Unfolded W s n → Unfolded W s' n ∨ OnTop s' n := fun hu =>
    Or.inl (hu.step hl hb ha hs hn hn')
  rcases (hm.node hf ha hn).waiting hk hw' with hw | hheld
  swap
  · exact keep (hp.held n hn hk hheld).1
  by_cases hd : DepsDone s n
  · rcases hp.ready n hn hk hw hd with hu | ⟨fr, rest, hst, ho⟩
    · exact keep hu
    · rcases step_cases hb ha hs with ⟨c, fr', rest', -, -, hst', he⟩ | haside
      · obtain ⟨rfl, rfl⟩ := List.cons.inj (hst.symm.trans hst')
        rcases hl.step_top hb hst ho he hn hk hw hw' hd' with hu | htop
        · exact keep hu
        · exact Or.inr htop
      · rcases haside.stack with hsame | ⟨hnil, -⟩
        · exact Or.inr ⟨fr, rest, hsame.trans hst, ho⟩
        · rw [hst] at hnil
          cases hnil
  · -- the last missing dep has got done in this step
    unfold DepsDone at hd
    push Not at hd
    obtain ⟨x, hx, hnd⟩ := hd
    have hxa := hb.graph.depsIn n x hn hx
    have hg := hm.getsDone ha hxa hnd (hd' x (hext.deps n x hx))
    refine keep (hl.unfolded_of_last_dep hb hc hn hk hw hx hg hs fun d hdep hne => ?_)
    rw [← (hg.others d (hb.graph.depsIn n d hn hdep) hne).phase]
    exact hd' d (hext.deps n d hdep)

/-- A new node is not in flight and has no timer. -/
theorem Fresh.not_held {c : Choice} (h : Fresh c s s' n) (hm : Move W s a s') (hb : Base s)
    (hf : Fenced s) (hnew : s.graph.next ≤ n) : ¬ Held s' n := by
  intro hh
  have hold : ¬ s.graph.Alive n := fun h => by
    have := hb.graph.alive_lt h
    omega
  rcases hh with hh | hh | ⟨-, ht⟩
  · rw [h.calm.1] at hh
    cases hh
  · exact h.calm.2 hh
  · rcases hm.timers hf _ ht with hmem | ⟨halive, -⟩
    · have := (hf.timers _ hmem).1
      omega
    · exact hold halive

theorem Paced.step (hp : Paced W s) (hl : Loops W s) (hb : Base s) (hf : Fenced s)
    (hc : loopsOver s a = true) (hs : JobsIroh.step W s a = some s') : Paced W s' := by
  rcases crash_or hs with ⟨rfl, rfl⟩ | ha
  · exact ⟨nofun, nofun⟩
  have hm := step_move hb hf hs
  obtain ⟨hext, hfresh⟩ := step_table hb ha hs
  refine ⟨fun n hn' hk' hh => ?_, fun n hn' hk' hw' hd' => ?_⟩
  · rcases hext.alive n hn' with ⟨hn, hid⟩ | hnew
    · rw [State.kind_of_id hid] at hk'
      obtain ⟨hu, hd⟩ := hp.unfolded_of_due hl hn hk' (hm.held hf ha hn hh)
      exact ⟨hu.step hl hb ha hs hn hn', hu.step_done hl hb hf ha hs hn hk' hd⟩
    · exact absurd hh ((hfresh n hn' hnew).not_held hm hb hf hnew)
  · rcases hext.alive n hn' with ⟨hn, hid⟩ | hnew
    · rw [State.kind_of_id hid] at hk'
      exact hp.step_ready hl hb hf ha hc hs hn hn' hk' hw' hd'
    · have hmem := (hfresh n hn' hnew).unfold_mem (by rw [hw']; rfl)
      have hhead := (hl.step hb hf hs).head n
      rcases hst : s'.stack with _ | ⟨fr, rest⟩
      · rw [hst] at hmem
        cases hmem
      · rw [hst] at hmem hhead
        rcases List.mem_cons.mp hmem with heq | hbelow
        · exact Or.inr ⟨fr, rest, rfl, by rw [← heq]; rfl⟩
        · exact absurd hbelow hhead

end

/-! ### Where the inputs come from -/

/-- The inputs a node names: those in its definition, or those in the blob that its unfold
read from a store `seen` earlier. -/
inductive Named (W : World κ) (seen : Store κ → Prop) (id : NodeID κ) (defn : Bytes) :
    List Input → Prop
  | fetched (hkind : id.kind = .importK) (hne : defn ≠ []) (d : ImportDef)
      (hd : W.decodeImport defn = .ok d) (hf : d.fetcherDef = []) : Named W seen id defn []
  | fetcher (hkind : id.kind = .importK) (hne : defn ≠ []) (d : ImportDef)
      (hd : W.decodeImport defn = .ok d) (hf : d.fetcherDef ≠ []) :
    Named W seen id defn [⟨.build, d.fetcherDef⟩]
  | source (hkind : id.kind = .buildFrom) (hne : defn ≠ []) (d : Definition)
      (hd : W.decodeDefinition defn = .ok d) : Named W seen id defn [d.source]
  | selfContained (hkind : id.kind = .pluginResolve) : Named W seen id defn []
  | plugins (hkind : id.kind = .pin) (st : Store κ) (hst : seen st) (b : Bytes)
      (hb : st.readRefFile W (.pluginResolved id.key) = .ok b) (pr : PluginResolved)
      (hd : W.decodePluginResolved b = .ok pr) :
    Named W seen id defn ((sortedNamedInputs pr.plugins pr.deps).map (·.input))
  | pinned (hkind : id.kind = .buildRun) (st : Store κ) (hst : seen st) (b : Bytes)
      (hb : st.readRefFile W (.pinned id.key) = .ok b) (p : Pinned)
      (hd : W.decodePinned b = .ok p) : Named W seen id defn (p.inputs.map (·.input))

/-- What an unfolded node has read is what it names. -/
def ReadsNamed (W : World κ) (seen : Store κ → Prop) (s : State κ) : Prop :=
  ∀ n l, s.graph.Alive n → s.kind n ≠ .buildValue → (s.phase n).settled = false →
    (s.node n).inputs = some l → Named W seen (s.graph.id n) (s.node n).defn l

section

variable {W : World κ} {c : Choice} {s s' : State κ} {n : Nat} {seen seen' : Store κ → Prop}

section

omit [DecidableEq κ]

theorem Named.mono {id : NodeID κ} {defn defn' : Bytes} {l : List Input}
    (h : Named W seen id defn l) (hseen : ∀ st, seen st → seen' st)
    (hdefn : defn ≠ [] → defn' = defn) : Named W seen' id defn' l := by
  cases h with
  | fetched hkind hne d hd hf =>
    rw [hdefn hne]
    exact Named.fetched hkind hne d hd hf
  | fetcher hkind hne d hd hf =>
    rw [hdefn hne]
    exact Named.fetcher hkind hne d hd hf
  | source hkind hne d hd =>
    rw [hdefn hne]
    exact Named.source hkind hne d hd
  | selfContained hkind => exact Named.selfContained hkind
  | plugins hkind st hst b hb pr hd => exact Named.plugins hkind st (hseen st hst) b hb pr hd
  | pinned hkind st hst b hb p hd => exact Named.pinned hkind st (hseen st hst) b hb p hd

theorem UnfoldRead.names {nd : Node κ} {rest : List NamedInput} (h : UnfoldRead W c s n nd rest)
    (seen : Store κ → Prop) (hseen : seen s.store) :
    Named W seen (s.graph.id n) nd.defn (rest.map (·.input)) := by
  cases h with
  | named hkind hne d hd hf => exact Named.fetched hkind hne d hd hf
  | source hkind hne d hd => exact Named.source hkind hne d hd
  | selfContained hkind => exact Named.selfContained hkind
  | plugins hkind pr hr =>
    obtain ⟨b, hb, hd⟩ := readBlobLocked_ok hr
    exact Named.plugins hkind s.store hseen b hb pr hd
  | pinned hkind p hr =>
    obtain ⟨b, hb, hd⟩ := readBlobLocked_ok hr
    exact Named.pinned hkind s.store hseen b hb p hd

theorem FetcherRead.names {nd : Node κ} {d : ImportDef} (h : FetcherRead W s n nd d)
    (seen : Store κ → Prop) :
    Named W seen (s.graph.id n) nd.defn [⟨.build, d.fetcherDef⟩] := by
  rw [h.same.defn]
  exact Named.fetcher h.kind h.known d h.decoded h.fetcher

end

variable [Inhabited κ] {a : Label κ}

theorem ReadsNamed.step (h : ReadsNamed W seen s) (hb : Base s) (hf : Fenced s)
    (hs : JobsIroh.step W s a = some s') (hseen : ∀ st, seen st → seen' st)
    (hnow : seen' s.store) : ReadsNamed W seen' s' := by
  rcases crash_or hs with ⟨rfl, rfl⟩ | ha
  · intro n l hn
    cases hn
  obtain ⟨hext, hfresh⟩ := step_table hb ha hs
  intro n l hn' hk' hu' hin
  rcases hext.alive n hn' with ⟨hn, hid⟩ | hnew
  swap
  · rw [(hfresh n hn' hnew).blank.2.1] at hin
    cases hin
  rw [State.kind_of_id hid] at hk'
  have hu := ((step_move hb hf hs).node hf ha hn).unsettled hu'
  have kept : ∀ {nd : Node κ}, Kept nd (s'.node n) → nd.inputs = (s.node n).inputs →
      nd.defn = (s.node n).defn → Named W seen' (s.graph.id n) (s'.node n).defn l := by
    intro nd hkept hi hdefn
    refine (h n l hn hk' hu ?_).mono hseen fun hne => ?_
    · rw [← hi, ← hkept.inputs]
      exact hin
    · rw [← hdefn] at hne ⊢
      exact hkept.defn hne
  rw [hid]
  rcases step_cases hb ha hs with ⟨c, fr, rest, -, hp, hst, he⟩ | haside
  swap
  · exact kept (haside.record n hn) rfl rfl
  cases he.record (hb.pop hst) hn with
  | kept hkept | resolvedF bf f hfr hf' hr hkept | resolvedKP kp hfr hkp hkept =>
    exact kept hkept rfl rfl
  | read nd left hfr hr hkept =>
    rw [hkept.inputs, hr.inputs] at hin
    obtain rfl := Option.some.inj hin
    exact (hr.names seen' hnow).mono (fun _ h => h) hkept.defn
  | fetcher nd d hfr hr hkept =>
    rw [hkept.inputs, hr.inputs] at hin
    obtain rfl := Option.some.inj hin
    exact (hr.names seen').mono (fun _ h => h) hkept.defn
  | unreadable hfr hset =>
    rw [← State.phase, hu'] at hset
    cases hset
  | loop ni left hfr hkept =>
    exact kept hkept (keepInput_inputs _ _ _) (keepInput_sameRun _ _ _).defn

/-! ### Published jobs -/

/-- No step completes a dep under the loop of the node that waits for it. -/
def Unhurried (s : State κ) (a : Label κ) : Prop := loopsOver s a = true

/-- The store was `t` at some moment of the run. -/
def Passed (W : World κ) (P : State κ → Label κ → Prop) (st : Store κ) (s : State κ)
    (t : Store κ) : Prop :=
  ∃ s₀, Reached W P st s₀ ∧ Run.Steps (step W) P s₀ s ∧ s₀.store = t

theorem Reached.paced {st : Store κ} (h : Reached W Unhurried st s) :
    (Base s ∧ Fenced s) ∧ Loops W s ∧ Paced W s ∧ ReadsNamed W (Passed W Unhurried st s) s := by
  have hall := Run.Steps.inv (I := fun s => Reached W Unhurried st s ∧ (Base s ∧ Fenced s) ∧
    Loops W s ∧ Paced W s ∧ ReadsNamed W (Passed W Unhurried st s) s) h ?_ ?_
  · exact hall.2
  · exact ⟨Run.Steps.refl, ⟨Base.init st, Fenced.init st⟩, Loops.init W st, ⟨nofun, nofun⟩, nofun⟩
  · intro s a s' hi hc hs
    obtain ⟨hreach, ⟨hb, hf⟩, hl, hp, hread⟩ := hi
    refine ⟨hreach.tail hc hs, ⟨hb.step hs, hf.step hb hs⟩, hl.step hb hf hs,
      hp.step hl hb hf hc hs, hread.step hb hf hs ?_ ?_⟩
    · intro t ht
      obtain ⟨s₀, h₀, hs₀, heq⟩ := ht
      exact ⟨s₀, h₀, hs₀.tail hc hs, heq⟩
    · exact ⟨s, hreach, Run.Steps.refl.tail hc hs, rfl⟩

/-- What a published job promises: the unfold of its node is over, with one dep for each
input the node names, and all deps are done. -/
structure JobReady (W : World κ) (seen : Store κ → Prop) (s : State κ) (j : Job κ) : Prop where
  node : s.graph.Alive j.ptr ∧ s.graph.id j.ptr = j.id ∧ (s.kind j.ptr).placeable = true
  complete : ∃ l, Named W seen (s.graph.id j.ptr) (s.node j.ptr).defn l ∧
    ∀ i ∈ l, Linked W s j.ptr i
  one : ∀ d ∈ s.graph.deps j.ptr, ∀ d' ∈ s.graph.deps j.ptr, s.graph.id d = s.graph.id d' → d = d'
  done : ∀ d ∈ s.graph.deps j.ptr, s.phase d = .done
  /-- The loop that links the inputs has nothing left to do. -/
  loop : ∀ left, .unfolding j.ptr left ∈ s.stack → left = []

/-- **Published jobs are ready**, in every run in which no dep is completed under the loop of
the node that waits for it. -/
theorem published_jobs_ready {st : Store κ} {j : Job κ} (h : Reached W Unhurried st s)
    (hc : Unhurried s a) (hs : step W s a = some s') (hj : s'.jobs = j :: s.jobs) :
    JobReady W (Passed W Unhurried st s') s' j := by
  obtain ⟨⟨hb, hf⟩, hl, hp, -⟩ := Reached.paced h
  obtain ⟨⟨hb', -⟩, -, -, hread'⟩ := Reached.paced (h.tail hc hs)
  have hm := step_move hb hf hs
  have ha : a ≠ .crash := by
    rintro rfl
    cases hs
    exact List.cons_ne_self _ _ hj.symm
  have ho := hm.handsOut hf hj
  obtain ⟨hu, hd⟩ := hp.unfolded_of_due hl ho.alive ho.placeable ho.due
  have hn' : s'.graph.Alive j.ptr := by
    rw [ho.graph]
    exact ho.alive
  have hk' : s'.kind j.ptr ≠ .buildValue := by
    unfold State.kind
    rw [ho.graph]
    exact ho.placeable
  have hu' := hu.step hl hb ha hs ho.alive hn'
  obtain ⟨l, hin, hlinked⟩ := hu'.linked
  obtain ⟨t, hpub⟩ := ho.published
  refine ⟨⟨hn', ?_, by simp [Kind.placeable, hk']⟩, ⟨l, ?_, hlinked⟩, ?_, ?_, hu'.loop⟩
  · rw [ho.graph]
    exact hpub.job.id.symm
  · exact hread' j.ptr l hn' hk' ho.unsettled hin
  · intro d hdep d' hdep' hid
    by_contra hne
    exact (hb'.graph.depsIn _ d hn' hdep).id_ne (hb'.graph.depsIn _ d' hn' hdep') hne hid
  · exact hu.step_done hl hb hf ha hs ho.alive ho.placeable hd

end

/-- A build whose source import is there is published with that import as its one dep. -/
theorem published_jobs_ready_source_fetched : ∃ s s' : State UInt8, ∃ a j,
    step fetchWorld s a = some s' ∧ s'.jobs = [j] ∧ s'.graph.deps j.ptr = [2] ∧
    JobReady fetchWorld (Passed fetchWorld Unhurried (smallStore [(.importOutput 7, 1)]) s') s'
      j := by
  have hrun : ∃ s ∈ Run.runIf (step fetchWorld) loopsOver
      (State.init (smallStore [(.importOutput 7, 1)])) (submitRun 0 4), s.jobs.isEmpty = true ∧
        loopsOver s (.exec { publish := some 1 }) = true ∧
        ∃ s' ∈ step fetchWorld s (.exec { publish := some 1 }),
          s'.jobs.length = 1 ∧ ∀ j ∈ s'.jobs, s'.graph.deps j.ptr = [2] := by
    decide +kernel
  obtain ⟨s, hs, hnil, hc, s', hs', hlen, hdeps⟩ := hrun
  obtain ⟨j, hj⟩ := List.length_eq_one_iff.mp hlen
  have hreach := Run.Steps.of_checked hs
  refine ⟨s, s', _, j, hs', hj, hdeps j (by rw [hj]; exact List.mem_cons_self), ?_⟩
  exact published_jobs_ready hreach hc hs' (by rw [hj, List.isEmpty_iff.mp hnil])

/-- The build `0` is resolved and its plugins are the build `1`, of which only the aliases
are missing, and the import `2`. -/
def overtakenWorld : World UInt8 :=
  smallWorld
    { definition := fun b => .ok (smallDef b ⟨.tree, [9]⟩)
      importDef := fun _ => .ok { fetcher := "git" }
      resolved := fun b => .ok
        { plugins := if b = 20 then [("a", ⟨.build, [1]⟩), ("b", ⟨.importK, [2]⟩)] else [] } }

def overtakenStore : Store UInt8 :=
  smallStore [(.buildFrom 0, 10), (.pluginResolved 10, 20), (.buildFrom 1, 11),
    (.pluginResolved 11, 21), (.pinned 11, 31), (.pinCover 11, 41), (.output 41, 51),
    (.outputDeps 41, 61)]

/-- The pin of the build `0` is published from within its own loop: the import `2` is not
linked yet, because the build `1` got done inside the call that made it. -/
theorem published_inside_loop : ∃ s s' : State UInt8, ∃ a j,
    Reached overtakenWorld Run.Always overtakenStore s ∧ step overtakenWorld s a = some s' ∧
    s'.jobs = j :: s.jobs ∧ j.id = ⟨.pin, 10⟩ ∧
    (∃ ni left, .unfolding j.ptr (ni :: left) ∈ s'.stack ∧
      ¬ Linked overtakenWorld s' j.ptr ni.input) ∧
    ∀ seen, ¬ JobReady overtakenWorld seen s' j := by
  have hrun : ∃ s ∈ runSched overtakenWorld (State.init overtakenStore) (submitRun 0 14),
      s.jobs.isEmpty = true ∧ ∃ s' ∈ step overtakenWorld s (.exec { publish := some 1 }),
        s'.jobs.length = 1 ∧ (∀ j ∈ s'.jobs, j.id = ⟨.pin, 10⟩ ∧ j.ptr = 3) ∧
        .unfolding 3 [⟨"b", ⟨.importK, [2]⟩⟩] ∈ s'.stack ∧
        ∀ d ∈ s'.graph.deps 3, s'.graph.id d ≠ ⟨.importK, 2⟩ := by
    decide +kernel
  obtain ⟨s, hs, hnil, s', hs', hlen, hj', hfr, hdeps⟩ := hrun
  obtain ⟨j, hj⟩ := List.length_eq_one_iff.mp hlen
  obtain ⟨hid, hptr⟩ := hj' j (by rw [hj]; exact List.mem_cons_self)
  rw [← hptr] at hfr hdeps
  refine ⟨s, s', _, j, Run.Steps.of_run _ hs, hs', by rw [hj, List.isEmpty_iff.mp hnil], hid,
    ⟨_, [], hfr, fun hlinked => ?_⟩, fun seen h => ?_⟩
  · obtain ⟨k, hk, d, hd, hd'⟩ := hlinked .importK rfl
    obtain rfl : (2 : UInt8) = k := Except.ok.inj hk
    exact hdeps d hd hd'
  · cases h.loop _ hfr

end JobsIroh
