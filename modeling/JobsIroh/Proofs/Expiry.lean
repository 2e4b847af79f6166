/-
Answers under expiry.

A sweep deletes refs behind the scheduler's back.  What is done is remembered on the node
and never looked up again, so an answer stays true only as long as no sweep takes what the
nodes of the table rest on: the outputs of those that are done, the F of a buildvalue that
has resolved it, and what a commit has already written.
-/
import JobsIroh.Proofs.Snapshots

namespace JobsIroh

variable {κ : Type} [DecidableEq κ]

/-- A sweep takes nothing that the table rests on, and no result leaves out the output of its
node. -/
structure Spares (W : World κ) (s : State κ) (a : Label κ) : Prop where
  names : namesOutput W s a = true
  /-- The output of a node that is done; for a buildvalue, K's F and the output of F. -/
  done : ∀ r n, a = .expire r → s.graph.Alive n → s.phase n = .done →
    r ≠ outputRef (s.kind n) (s.key n) ∧ ∀ f, (s.node n).f = some f → r ≠ .output f
  /-- What a buildvalue has read its F from. -/
  resolved : ∀ r n, a = .expire r → s.graph.Alive n → (s.node n).f ≠ none → r ≠ .buildFrom (s.key n)
  /-- The output of a commit that will not write it any more. -/
  commits : ∀ r cm, a = .expire r → cm ∈ s.commits → s.graph.Alive cm.ptr →
    (s.node cm.ptr).gen = cm.gen → Assured W s.store cm → Assured W (s.store.deleteRef r) cm

/-- The target of a live request is the buildvalue of its key. -/
def Targeted (s : State κ) : Prop :=
  ∀ rid r, s.requests rid = some r → r.live = true → s.graph.id r.target = ⟨.buildValue, r.k⟩

section

variable [Inhabited κ] {W : World κ} {s s' : State κ} {a : Label κ} {n : Nat} {rid : ReqID}
  {r : Request κ}

/-! ### Sweeps -/

omit [Inhabited κ] in
theorem has_deleteRef {st : Store κ} {r r' : RefName κ} (h : st.has r') (hne : r ≠ r') :
    (st.deleteRef r).has r' := by
  unfold Store.has Store.deleteRef at *
  simpa [Function.update_of_ne (Ne.symm hne)] using h

omit [Inhabited κ] in
/-- A sweep that spares the table. -/
theorem Durable.expire {r : RefName κ} (h : Durable W s) (hp : Spares W s (.expire r)) :
    Durable W { s with store := s.store.deleteRef r } := by
  refine ⟨fun n hn hd => ?_, fun n f hn hf => ?_, fun cm hcm hn hgen => ?_⟩
  · obtain ⟨hout, hval⟩ := hp.done r n rfl hn hd
    obtain ⟨hhas, hvalue⟩ := h.done n hn hd
    refine ⟨has_deleteRef hhas hout, fun hk => ?_⟩
    obtain ⟨f, hf, ho⟩ := hvalue hk
    exact ⟨f, hf, has_deleteRef ho (hval f hf)⟩
  · refine has_deleteRef (h.resolved n f hn hf) (hp.resolved r n rfl hn ?_)
    change (s.node n).f = some f at hf
    simp [hf]
  · exact hp.commits r cm rfl hcm hn hgen (h.commits cm hcm hn hgen)

theorem Durable.step_spared (h : Durable W s) (hb : Base s) (hf : Fenced s) (hp : Spares W s a)
    (hs : JobsIroh.step W s a = some s') : Durable W s' := by
  by_cases hexp : ∃ r, a = .expire r
  · obtain ⟨r, rfl⟩ := hexp
    rw [← Option.some.inj hs]
    exact h.expire hp
  · exact h.step hb hf ⟨fun r hr => hexp ⟨r, hr⟩, hp.names⟩ hs

/-! ### What an F is bound to -/

/-- A commit binds no other F to a build than the one a buildvalue of the table has resolved. -/
def Settled (s : State κ) (a : Label κ) : Prop :=
  ∀ c i cm k v rest, a = .commit c i → s.commits[i]? = some cm →
    cm.stage = .write ((.buildFrom k, v) :: rest) →
      ∀ n f, s.graph.Alive n → s.key n = k → (s.node n).f = some f → v = f

/-- The F of a buildvalue is the one its build is bound to. -/
def FromBound (s : State κ) : Prop :=
  ∀ n f, s.graph.Alive n → (s.node n).f = some f → s.store.refs (.buildFrom (s.key n)) = some f

theorem FromBound.step (h : FromBound s) (hb : Base s) (hp : Spares W s a) (hset : Settled s a)
    (hs : JobsIroh.step W s a = some s') : FromBound s' := by
  rcases crash_or hs with ⟨rfl, rfl⟩ | ha
  · exact nofun
  intro n f hn' hf'
  obtain ⟨hext, hfresh⟩ := step_table hb ha hs
  rcases hext.alive n hn' with ⟨hn, hid⟩ | hnew
  swap
  · exact (hfresh n hn' hnew).resolved hf'
  rw [State.key_of_id hid]
  have hold : s.store.refs (.buildFrom (s.key n)) = some f := by
    rcases step_f hb ha hs hn with heq | ⟨-, f', heq, hr⟩
    · exact h n f hn (heq ▸ hf')
    · obtain rfl : f' = f := Option.mem_unique heq hf'
      exact hr
  rcases (step_store hb.graph hs).refs (.buildFrom (s.key n)) with hsame | ⟨v, hv, hw⟩ | ⟨-, hdel⟩
  · rw [hsame, hold]
  · -- only a commit writes the ref, and it leaves the node alone
    cases hw with
    | commit c i cm hcm _ _ hcw =>
      cases hcw with
      | entry _ _ rest hst =>
        unfold JobsIroh.step at hs
        simp only [hcm, Option.some.injEq] at hs
        subst hs
        rw [hv, hset c i cm _ v rest rfl hcm hst n f hn rfl hf']
    | frame _ _ _ _ _ _ hfw =>
      cases hfw with
      | heal _ _ _ hc => simp [Carrier] at hc
    | heal _ _ _ _ hc => simp [Carrier] at hc
  · rcases hdel with hscratch | rfl
    · exact absurd hscratch (outputRef_not_scratch .buildFrom _)
    · obtain rfl := Option.some.inj hs
      refine absurd rfl (hp.resolved _ n rfl hn fun hnone => ?_)
      rw [hnone] at hf'
      cases hf'

/-! ### Targets -/

theorem Targeted.step (h : Targeted s) (hb : Base s) (hs : JobsIroh.step W s a = some s') :
    Targeted s' := by
  intro rid r' hr' hlive'
  rcases crash_or hs with ⟨rfl, rfl⟩ | ha
  · cases hr'
  have hb' := hb.step hs
  have old : ∀ {r}, s.requests rid = some r → r.live = true → r'.k = r.k → r'.target = r.target →
      s'.graph.id r'.target = ⟨.buildValue, r'.k⟩ := by
    intro r hr hlive hk ht
    obtain ⟨hc, hf⟩ := r.live_iff.mp hlive
    obtain ⟨hc', hf'⟩ := r'.live_iff.mp hlive'
    rcases (step_table hb ha hs).1.alive _ (hb'.target_alive hr' hc' hf') with ⟨-, hid⟩ | hnew
    · rw [hid, ht, hk]
      exact h rid r hr hlive
    · have := hb.graph.alive_lt (hb.target_alive hr hc hf)
      omega
  cases hr : s.requests rid with
  | some =>
    have hstep := step_request hb hs hr
    rw [hr'] at hstep
    generalize ho : some r' = o at hstep
    cases hstep with
    | kept | watched =>
      obtain rfl := Option.some.inj ho
      exact old hr hlive' rfl rfl
    | starved now reason msg hmsg =>
      obtain rfl := Option.some.inj ho
      exact absurd (Request.live_iff _ |>.mp hlive').2 hmsg
    | cancelled =>
      obtain rfl := Option.some.inj ho
      exact absurd (Request.live_iff _ |>.mp hlive').1 (by simp)
    | _ => cases ho
  | none =>
    by_cases hsub : ∃ c i, a = .submit c i rid
    · obtain ⟨c, i, rfl⟩ := hsub
      exact submit_request hb hs hr hr'
    · push Not at hsub
      rw [step_no_request hb hs hr hsub] at hr'
      cases hr'

/-! ### Answers -/

/-- The sweeps spare the table, and no step completes a dep under the loop of the node that
waits for it. -/
def Trusted (W : World κ) (s : State κ) (a : Label κ) : Prop := Spares W s a ∧ Unhurried s a

theorem Reached.trusted {st : Store κ} (h : Reached W (Trusted W) st s) :
    Durable W s ∧ Targeted s := by
  refine (h.inv_fenced (I := fun s => Durable W s ∧ Targeted s) ⟨Durable.init st, ?_⟩ ?_).2
  · intro rid r hr
    cases hr
  · intro s a s' hb hf hc hs hi
    exact ⟨hi.1.step_spared hb hf hc.1 hs, hi.2.step hb hs⟩

/-- **Answers stay true under expiry**, in every run whose sweeps spare what the table rests on.
A request that is reported done has its F and the output of F in the store, F being what
`build-from:K` is bound to unless a commit binds it anew; and a job is published when the
outputs of all deps of its node are in the store. -/
theorem answers_stay_true {st : Store κ} (h : Reached W (Trusted W) st s) :
    (∀ rid r, s.requests rid = some r → assembleLocked s r = .done →
      s.store.has (.buildFrom r.k) ∧
        ∃ f, (s.node r.target).f = some f ∧ s.store.has (.output f) ∧
          (Reached W (fun s a => Trusted W s a ∧ Settled s a) st s →
            s.store.refs (.buildFrom r.k) = some f)) ∧
    ∀ a s' j, Trusted W s a → step W s a = some s' → s'.jobs = j :: s.jobs →
      ∀ d ∈ s'.graph.deps j.ptr, HasOutput s' d := by
  have hcalm : Reached W Unhurried st s := h.mono fun _ _ hc => hc.2
  obtain ⟨⟨hb, hf⟩, ⟨hl, hpa⟩, -⟩ := Reached.deep hcalm
  obtain ⟨hdur, htar⟩ := Reached.trusted h
  refine ⟨fun rid r hr hrep => ?_, fun a s' j hc hs hj d hd => ?_⟩
  · have hlive : r.cancelled = false ∧ r.failReason = "" := by
      unfold assembleLocked at hrep
      split at hrep
      · cases hrep
      · split at hrep
        · cases hrep
        · simp_all
    have hid := htar rid r hr (r.live_iff.mpr hlive)
    have hkind : s.kind r.target = .buildValue := congrArg NodeID.kind hid
    have hkey : s.key r.target = r.k := congrArg NodeID.key hid
    have hdone := (assembleLocked_done_iff hlive.1 hlive.2).mp hrep
    obtain ⟨hfrom, hval⟩ := hdur.done _ (hb.target_alive hr hlive.1 hlive.2) hdone
    rw [hkind, hkey] at hfrom
    obtain ⟨f, hf, hout⟩ := hval hkind
    refine ⟨hfrom, f, hf, hout, fun hsettled => ?_⟩
    have hbound : FromBound s := by
      refine (hsettled.inv_fenced (I := FromBound) ?_ fun s a s' hb _ hc hs hi =>
        hi.step hb hc.1.1 hc.2 hs).2
      exact nofun
    rw [← hkey]
    exact hbound _ f (hb.target_alive hr hlive.1 hlive.2) hf
  · have hm := step_move hb hf hs
    have ho := hm.handsOut hf hj
    have ha : a ≠ .crash := by
      intro ha
      subst ha
      rw [← Option.some.inj hs] at hj
      exact List.cons_ne_self _ _ hj.symm
    rw [ho.graph] at hd
    have hdone := (hpa.unfolded_of_due hl ho.alive ho.placeable ho.due).2 d hd
    have halive := hb.graph.depsIn _ d ho.alive hd
    have hdur' := (Reached.trusted (h.tail hc hs)).1
    refine hdur'.done d ?_ ((hm.node hf ha halive).done hdone)
    rw [ho.graph]
    exact halive

end

/-- `Trusted` as a check, for sweeps between commits. -/
def trusted (W : World κ) (s : State κ) (a : Label κ) : Bool :=
  loopsOver s a && namesOutput W s a &&
    match a with
    | .expire r => s.commits.isEmpty && (List.range s.graph.next).all (fun n =>
      (s.phase n ≠ .done || r ≠ outputRef (s.kind n) (s.key n)) &&
      ((s.node n).f.all fun f => r ≠ .buildFrom (s.key n) && r ≠ .output f))
    | _ => true

theorem Trusted.of_check {W : World κ} {s : State κ} {a : Label κ} (hb : Base s)
    (h : trusted W s a = true) : Trusted W s a := by
  simp only [trusted, Bool.and_eq_true] at h
  obtain ⟨⟨hloop, hnames⟩, hexp⟩ := h
  -- what the check says of a node of the table
  have spared : ∀ r n, a = .expire r → s.graph.Alive n →
      (s.phase n ≠ .done ∨ r ≠ outputRef (s.kind n) (s.key n)) ∧
        ∀ f, (s.node n).f = some f → r ≠ .buildFrom (s.key n) ∧ r ≠ .output f := by
    intro r n ha hn
    rw [ha] at hexp
    simp only [Bool.and_eq_true, List.all_eq_true] at hexp
    have hall := hexp.2 n (List.mem_range.mpr (hb.graph.alive_lt hn))
    simp only [Bool.or_eq_true, decide_eq_true_eq] at hall
    refine ⟨hall.1, fun f hf => ?_⟩
    have := hall.2
    rw [hf] at this
    simpa using this
  refine ⟨⟨hnames, fun r n ha hn hd => ⟨?_, fun f hf => ?_⟩, fun r n ha hn hf => ?_,
    fun r cm ha hcm => ?_⟩, hloop⟩
  · exact (spared r n ha hn).1.resolve_left fun hne => hne hd
  · exact ((spared r n ha hn).2 f hf).2
  · obtain ⟨f, hf⟩ := Option.ne_none_iff_exists'.mp hf
    exact ((spared r n ha hn).2 f hf).1
  · rw [ha] at hexp
    simp only [Bool.and_eq_true, List.isEmpty_iff] at hexp
    rw [hexp.1] at hcm
    cases hcm

/-- The build `0` is there, with its output; the import `3` belongs to nobody. -/
def sweptStore : Store UInt8 :=
  smallStore [(.buildFrom 0, 10), (.output 10, 1), (.importOutput 3, 4)]

/-- The import that belongs to nobody is swept, and the answer stays true. -/
theorem answers_stay_true_unrelated_swept : ∃ s : State UInt8, ∃ r,
    s.store.refs (.importOutput 3) = none ∧ s.requests "r1" = some r ∧
    assembleLocked s r = .done ∧ s.store.has (.buildFrom r.k) := by
  have hrun : ∃ s ∈ Run.runIf (step fetchWorld) (trusted fetchWorld) (State.init sweptStore)
      (submitRun 0 1 ++ [.expire (.importOutput 3)]), s.store.refs (.importOutput 3) = none ∧
        ∃ r ∈ s.requests "r1", assembleLocked s r = .done := by
    decide +kernel
  obtain ⟨s, hs, hswept, r, hr, hrep⟩ := hrun
  have hreach := Run.Steps.of_runIf (I := Base) (fun _ _ _ hb hs => hb.step hs)
      (fun _ _ hb h => Trusted.of_check hb h) _ (Base.init _) hs
  exact ⟨s, r, hswept, hr, hrep, ((answers_stay_true hreach).1 "r1" r hr hrep).1⟩

/-- The output of the build `0` is swept while a request holds it. The next submit of the
build is reported done, without an output. -/
theorem done_after_sweep : ∃ s s' : State UInt8,
    Reached fetchWorld Run.Always sweptStore s ∧ s.store.refs (.output 10) = none ∧
    runSched fetchWorld s [.prepare {} { defn := [0] }, .submit {} 0 "r2", .exec {}] = some s' ∧
    s'.free = true ∧ Reports s' "r2" .done ∧ s'.store.refs (.buildFrom 0) = some 10 ∧
    s'.store.refs (.output 10) = none := by
  have hrun : ∃ s ∈ runSched fetchWorld (State.init sweptStore)
      (submitRun 0 1 ++ [.expire (.output 10)]), s.store.refs (.output 10) = none ∧
        ∃ s' ∈ runSched fetchWorld s [.prepare {} { defn := [0] }, .submit {} 0 "r2", .exec {}],
          s'.free = true ∧ (∃ r ∈ s'.requests "r2", assembleLocked s' r = .done) ∧
            s'.store.refs (.buildFrom 0) = some 10 ∧ s'.store.refs (.output 10) = none := by
    decide +kernel
  obtain ⟨s, hs, hswept, s', hs', hend⟩ := hrun
  exact ⟨s, s', Run.Steps.of_run _ hs, hswept, hs', hend⟩

end JobsIroh
