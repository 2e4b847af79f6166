/-
Results take effect at most once.

Runners report again and late: a result may come twice, after the node was cancelled
and submitted anew, or while the commit of the same attempt is still running.  A
generation is never used for two attempts of one identity as long as a new incarnation
starts no lower than the last one got, so it is enough that each generation is accepted
once.  That follows from the phase: an accepted attempt leaves the queue, and a node
comes back to the queue only under its next generation.
-/
import JobsIroh.Proofs.Fence

namespace JobsIroh

variable {κ : Type} [DecidableEq κ]

/-! ### Seeds -/

/-- A node made by the step starts at least where the last incarnation of its identity was. -/
def SeedsRise [Inhabited κ] (W : World κ) (s : State κ) (a : Label κ) : Prop :=
  ∀ s' i, step W s a = some s' → s.graph.nodes i = none → s'.graph.nodes i ≠ none →
    s.lastGen i ≤ a.choice.seed

/-- The attempt of an identity that a commit is for. -/
def Commit.report (cm : Commit κ) : NodeID κ × Nat := (cm.id, cm.gen)

/-- Attempts with a verdict, or with a commit that will bring it. -/
def State.reports (s : State κ) : List (NodeID κ × Nat) :=
  s.verdicts ++ s.commits.map Commit.report

/-- Each generation of an identity is accepted once and judged once. -/
structure Counted (s : State κ) : Prop where
  current : ∀ n, s.graph.Alive n → s.lastGen (s.graph.id n) = (s.node n).gen
  bounded : ∀ x ∈ s.accepted, x.2 ≤ s.lastGen x.1
  /-- A job that is out has not been reported on. -/
  unreported : ∀ n, s.graph.Alive n → (s.phase n).inFlight = true →
    (s.graph.id n, (s.node n).gen) ∉ s.accepted
  once : s.accepted.Nodup
  judgedOnce : s.reports.Nodup
  judged : ∀ x ∈ s.reports, x ∈ s.accepted

/-- The phase or a retry counter of the node has changed. -/
def Changed (s s' : State κ) (n : Nat) : Prop :=
  s'.phase n ≠ s.phase n ∨ (s'.node n).consecRetry ≠ (s.node n).consecRetry ∨
    (s'.node n).consecControl ≠ (s.node n).consecControl

omit [DecidableEq κ] in
theorem Stays.not_changed {s s' : State κ} {n : Nat} (h : Stays s s' n) : ¬ Changed s s' n := by
  intro hc
  rcases hc with hc | hc | hc
  · exact hc h.phase
  · exact hc h.consecRetry
  · exact hc h.consecControl

section

variable [Inhabited κ] {W : World κ} {s s' : State κ} {a : Label κ}

/-! ### The record of a step -/

omit [DecidableEq κ] [Inhabited κ] in
/-- A verdict moves its attempt from the commits to the verdicts. -/
theorem reports_perm_of_eraseIdx {i : Nat} {cm : Commit κ} (hcm : s.commits[i]? = some cm)
    (hcs : s'.commits = s.commits.eraseIdx i) (hv : s'.verdicts = cm.report :: s.verdicts) :
    s'.reports.Perm s.reports := by
  obtain ⟨hlt, rfl⟩ := List.getElem?_eq_some_iff.mp hcm
  have hp := (List.getElem_cons_eraseIdx_perm hlt).map Commit.report
  unfold State.reports
  rw [hcs, hv, List.cons_append]
  exact List.perm_middle.symm.trans (hp.append_left s.verdicts)

/-- What a step does to the record: nothing is added, or one attempt whose job was out. -/
theorem Move.record (hm : Move W s a s') :
    s'.accepted = s.accepted ∧ s'.reports.Subperm s.reports ∨
      ∃ c res n, a = .result c res ∧ s.graph.Alive n ∧ accepts s n res = true ∧
        s'.accepted = (s.graph.id n, res.gen) :: s.accepted ∧
        s'.reports.Perm ((s.graph.id n, res.gen) :: s.reports) := by
  have same : History s s' → s'.accepted = s.accepted ∧ s'.reports.Subperm s.reports := by
    intro hh
    refine ⟨hh.accepted, ?_⟩
    unfold State.reports
    rw [hh.commits, hh.verdicts]
  cases hm with
  | still a s' hh | frame c fr rest hst s' hh | timer c i n htm hn hph hc s' hh
  | timerStale c i n gen htm hstale s' hh | running name gen n hn hph s' hh =>
    exact Or.inl (same hh)
  | received c res n hid hn ha hok s' hcs hacc hv =>
    refine Or.inr ⟨c, res, n, rfl, hn, ha, hacc, ?_⟩
    unfold State.reports
    rw [hcs, hv, List.map_append, ← List.append_assoc]
    exact List.perm_append_singleton _ _
  | judged c res n hid hn ha hok s' hcs hacc hv =>
    refine Or.inr ⟨c, res, n, rfl, hn, ha, hacc, ?_⟩
    unfold State.reports
    rw [hcs, hv, List.cons_append]
  | staged c i cm hcm s' hcs hacc hv =>
    refine Or.inl ⟨hacc, ?_⟩
    unfold State.reports
    rw [hcs, Run.map_set_eq hcm (by rfl), hv]
  | stale c i cm hcm hstale s' hcs hacc hv =>
    refine Or.inl ⟨hacc, ?_⟩
    unfold State.reports
    rw [hcs, hv]
    exact (((List.eraseIdx_sublist s.commits i).map _).append_left _).subperm
  | done c i cm hcm hst hn hgen hph s' hcs hacc hv
  | rejudged c i cm hcm e hst hn hgen hph s' hcs hacc hv =>
    exact Or.inl ⟨hacc, (reports_perm_of_eraseIdx hcm hcs hv).subperm⟩
  | crash =>
    refine Or.inl ⟨rfl, ?_⟩
    have hr : (JobsIroh.crash s).reports = s.verdicts := List.append_nil _
    rw [hr]
    exact (List.sublist_append_left s.verdicts _).subperm

/-! ### Generations -/

variable {c : Choice} {q : Nat}

section

omit [Inhabited κ]

/-- The highest generation of an identity is that of its node. -/
theorem NodeMove.current (h : NodeMove W s s' q)
    (hc : s.lastGen (s.graph.id q) = (s.node q).gen) :
    s'.lastGen (s.graph.id q) = (s'.node q).gen := by
  rcases h.generation with hgen | ⟨timers, h⟩
  · rw [hgen.lastGen, hgen.gen, hc]
  · rw [h.lastGen, h.gen, hc]
    omega

/-- A verdict takes the node out of the queue, or to its next generation. -/
theorem Judged.requeued (h : Judged W s s' q) (hin : (s'.phase q).inFlight = true) :
    (s'.node q).gen = (s.node q).gen + 1 := by
  cases h with
  | fails hph | rearmed hph | closed hcl hph =>
    rw [hph] at hin
    cases hin
  | attempted hcl h => exact h.gen

/-- A node whose job is out had it out before at the same generation, or is at the next. -/
theorem NodeMove.inFlight (h : NodeMove W s s' q)
    (hin : (s'.phase q).inFlight = true) :
    (s.phase q).inFlight = true ∧ (s'.node q).gen = (s.node q).gen ∨
      (s'.node q).gen = (s.node q).gen + 1 := by
  have out : ∀ {p : Phase}, s'.phase q = p → p.inFlight = false → False := by
    intro p hp hf
    rw [hp, hf] at hin
    cases hin
  cases h with
  | stays h =>
    rw [h.phase] at hin
    exact Or.inl ⟨hin, h.gen⟩
  | pipeline hk hgen h =>
    rcases h with ⟨-, h⟩ | h
    · exact (out h rfl).elim
    · exact (out h rfl).elim
  | unfoldFails fr hfr ho hu hgen h => exact (out h rfl).elim
  | attempts hk hph timers h => exact Or.inr h.gen
  | reported hk hph h =>
    rcases h with ⟨hgen, -⟩ | h
    · exact Or.inl ⟨hph, hgen.gen⟩
    · exact Or.inr (h.requeued hin)
  | committed hk i cm hcm hptr hgen hcs hph h =>
    rcases h with ⟨-, h⟩ | h
    · exact (out h rfl).elim
    · exact Or.inr (h.requeued hin)

end

variable {n : Nat}

/-- An accepted result takes its node out of the queue. -/
theorem Move.accepted {res : Result} (hm : Move W s (.result c res) s')
    (hn : s.graph.Alive n)
    (hacc : s'.accepted = (s.graph.id n, res.gen) :: s.accepted)
    (hin : (s'.phase n).inFlight = true) : (s'.node n).gen = (s.node n).gen + 1 := by
  have other : ∀ {m}, s.graph.Alive m → s'.accepted = (s.graph.id m, res.gen) :: s.accepted →
      n = m := by
    intro m hm' hacc'
    rw [hacc, List.cons.injEq] at hacc'
    by_contra hne
    exact hn.id_ne hm' hne (congrArg Prod.fst hacc'.1)
  cases hm with
  | still a s' hh =>
    rw [hh.accepted] at hacc
    simp at hacc
  | received c res m hid hm' ha hok s' hcs hacc' hv hqu hph =>
    obtain rfl := other hm' hacc'
    rw [hph] at hin
    cases hin
  | judged c res m hid hm' ha hok s' hcs hacc' hv h =>
    obtain rfl := other hm' hacc'
    exact h.requeued hin

omit [DecidableEq κ] in
theorem Counted.init (st : Store κ) : Counted (State.init st) := by
  exact ⟨nofun, nofun, nofun, List.nodup_nil, List.nodup_nil, nofun⟩

/-- **Every step keeps the count**, if the seeds rise. -/
theorem Counted.step (hc : Counted s) (hb : Base s) (hf : Fenced s) (hp : SeedsRise W s a)
    (hs : step W s a = some s') : Counted s' := by
  have hm := step_move hb hf hs
  have hlast : ∀ i, s.lastGen i ≤ s'.lastGen i := by
    rcases crash_or hs with ⟨rfl, rfl⟩ | hcr
    · exact fun _ => Nat.le_refl _
    · exact (step_onward hb.graph hcr hs).lastGen
  have hrec : s'.accepted.Nodup ∧ s'.reports.Nodup ∧ (∀ x ∈ s'.reports, x ∈ s'.accepted) ∧
      ∀ x ∈ s'.accepted, x.2 ≤ s'.lastGen x.1 := by
    rcases hm.record with ⟨hacc, l, hl, hsub⟩ | ⟨c, res, n, -, hn, ha, hacc, hrep⟩
    · rw [hacc]
      refine ⟨hc.once, hl.nodup_iff.mp (hc.judgedOnce.sublist hsub), fun x hx => ?_,
        fun x hx => ?_⟩
      · exact hc.judged x (hsub.subset (hl.mem_iff.mpr hx))
      · exact (hc.bounded x hx).trans (hlast x.1)
    · obtain ⟨hgen, -, hin⟩ := (accepts_iff s n res).mp ha
      have hnew : (s.graph.id n, res.gen) ∉ s.accepted := by
        rw [hgen]
        exact hc.unreported n hn hin
      rw [hacc]
      refine ⟨List.nodup_cons.mpr ⟨hnew, hc.once⟩, ?_, fun x hx => ?_, fun x hx => ?_⟩
      · refine hrep.nodup_iff.mpr (List.nodup_cons.mpr ⟨fun hx => ?_, hc.judgedOnce⟩)
        exact hnew (hc.judged _ hx)
      · rcases List.mem_cons.mp (hrep.mem_iff.mp hx) with rfl | hx
        · exact List.mem_cons_self
        · exact List.mem_cons_of_mem _ (hc.judged x hx)
      · rcases List.mem_cons.mp hx with rfl | hx
        · refine Nat.le_trans ?_ (hlast _)
          rw [hc.current n hn, hgen]
        · exact (hc.bounded x hx).trans (hlast x.1)
  obtain ⟨honce, hjonce, hjudged, hbounded⟩ := hrec
  rcases crash_or hs with ⟨rfl, rfl⟩ | hcr
  · -- nothing is left in the table
    refine ⟨fun n hn => ?_, hbounded, fun n hn => ?_, honce, hjonce, hjudged⟩
    · cases hn
    · cases hn
  obtain ⟨hext, hfresh⟩ := step_table hb hcr hs
  refine ⟨?_, hbounded, ?_, honce, hjonce, hjudged⟩
  · intro n hn
    rcases hext.alive n hn with ⟨hn₀, hid⟩ | hnew
    · rw [hid]
      exact (hm.node hf hcr hn₀).current (hc.current n hn₀)
    · have hfr := hfresh n hn hnew
      obtain ⟨-, -, hgen, hl⟩ := hfr.blank
      rw [hl, raise, Function.update_self]
      have hseed : s.lastGen (s'.graph.id n) ≤ a.choice.seed := by
        refine hp s' _ hs hfr.absent ?_
        rw [show s'.graph.nodes (s'.graph.id n) = some n from hn]
        simp
      omega
  · intro n hn hin hmem
    rcases hext.alive n hn with ⟨hn₀, hid⟩ | hnew
    · rw [hid] at hmem
      have hcur := hc.current n hn₀
      have hnew : (s.graph.id n, (s'.node n).gen) ∉ s.accepted := by
        intro hx
        rcases (hm.node hf hcr hn₀).inFlight hin with ⟨hin₀, hgen⟩ | hgen
        · rw [hgen] at hx
          exact hc.unreported n hn₀ hin₀ hx
        · have hle := hc.bounded _ hx
          dsimp only at hle
          omega
      rcases hm.record with ⟨hacc, -⟩ | ⟨c, res, m, rfl, hm₀, ha, hacc, -⟩
      · exact hnew (hacc ▸ hmem)
      · rw [hacc] at hmem
        refine (List.mem_cons.mp hmem).elim (fun he => ?_) hnew
        by_cases hnm : n = m
        · subst hnm
          have hgen := hm.accepted hn₀ hacc hin
          have := congrArg Prod.snd he
          have := ((accepts_iff s n res).mp ha).1
          omega
        · exact hn₀.id_ne hm₀ hnm (congrArg Prod.fst he)
    · rw [(hfresh n hn hnew).calm.1] at hin
      cases hin

/-! ### At most once -/

/-- The step hands a runner's result to the scheduler. -/
def Label.delivers : Label κ → Bool
  | .result _ _ => true
  | _ => false

/-- The step applies the verdict of a result: at once, or at the end of its commit. -/
def Label.concludes : Label κ → Bool
  | .result _ res => res.cls ≠ .ok
  | .finish _ _ => true
  | _ => false

/-- The step changes the phase or a retry counter of `n`. -/
structure Affects (W : World κ) (s : State κ) (a : Label κ) (s' : State κ) (n : Nat) : Prop where
  step : step W s a = some s'
  alive : s.graph.Alive n
  changed : Changed s s' n

/-- The one node that a step may change is the one it changes. -/
theorem Affects.eq {m : Nat} (he : Affects W s a s' n) (ho : Others s s' m) : n = m := by
  by_contra hne
  exact (ho n he.alive hne).not_changed he.changed

/-- A run that keeps the count. -/
theorem Reached.counted {st : Store κ} (h : Reached W (SeedsRise W) st s) :
    (Base s ∧ Fenced s) ∧ Counted s :=
  h.inv_fenced (Counted.init st) fun _ _ _ hb hf hp hs hi => hi.step hb hf hp hs

/-- The record only grows. -/
theorem Move.grows (hm : Move W s a s') :
    s.accepted ⊆ s'.accepted ∧ s.verdicts ⊆ s'.verdicts := by
  refine ⟨?_, ?_⟩
  · rcases hm.record with ⟨hacc, -⟩ | ⟨c, res, n, -, -, -, hacc, -⟩
    · exact hacc ▸ List.Subset.refl _
    · rw [hacc]
      exact List.subset_cons_self _ _
  cases hm with
  | still a s' hh | frame c fr rest hst s' hh | timer c i n htm hn hph hc s' hh
  | timerStale c i n gen htm hstale s' hh | running name gen n hn hph s' hh =>
    exact hh.verdicts ▸ List.Subset.refl _
  | received c res n hid hn ha hok s' hcs hacc hv | staged c i cm hcm s' hcs hacc hv
  | stale c i cm hcm hstale s' hcs hacc hv => exact hv ▸ List.Subset.refl _
  | judged c res n hid hn ha hok s' hcs hacc hv | done c i cm hcm hst hn hgen hph s' hcs hacc hv
  | rejudged c i cm hcm e hst hn hgen hph s' hcs hacc hv =>
    rw [hv]
    exact List.subset_cons_self _ _
  | crash => exact List.Subset.refl _

section

variable (hi : (Base s ∧ Fenced s) ∧ Counted s)
include hi

/-- What is on record stays on record for the rest of the run. -/
theorem record_mono {s₂ : State κ}
    (h : Run.Steps (step W) (SeedsRise W) s s₂) :
    ((Base s₂ ∧ Fenced s₂) ∧ Counted s₂) ∧ s.accepted ⊆ s₂.accepted ∧
      s.verdicts ⊆ s₂.verdicts := by
  induction h with
  | refl => exact ⟨hi, fun _ h => h, fun _ h => h⟩
  | tail h hp hs ih =>
    obtain ⟨⟨⟨hb, hf⟩, hc⟩, hacc, hv⟩ := ih
    obtain ⟨hacc', hv'⟩ := (step_move hb hf hs).grows
    exact ⟨⟨⟨hb.step hs, hf.step hb hs⟩, hc.step hb hf hp hs⟩,
      fun _ h => hacc' (hacc h), fun _ h => hv' (hv h)⟩

/-- A delivery that changes a node is a new report on its current attempt. -/
theorem delivery_effect
    (he : Affects W s a s' n) (ha : a.delivers = true) :
    (∃ c res, a = .result c res ∧ parseNodeName W res.node = some (s.graph.id n) ∧
      res.gen = (s.node n).gen) ∧ (s.phase n).inFlight = true ∧
      (s.graph.id n, (s.node n).gen) ∉ s.accepted ∧
      (s.graph.id n, (s.node n).gen) ∈ s'.accepted := by
  have hm := step_move hi.1.1 hi.1.2 he.step
  obtain ⟨c, res, m, ho, heq, hid, hacc, hrec⟩ : ∃ c res m, Others s s' m ∧ a = .result c res ∧
      parseNodeName W res.node = some (s.graph.id m) ∧ accepts s m res = true ∧
      s'.accepted = (s.graph.id m, res.gen) :: s.accepted := by
    cases hm with
    | still a s' hh hqu h => exact absurd he.changed (h n he.alive).not_changed
    | received c res m hid hm' hacc hok s' hcs hrec hv hqu hph hgen ho =>
      exact ⟨c, res, m, ho, rfl, hid, hacc, hrec⟩
    | judged c res m hid hm' hacc hok s' hcs hrec hv h ho =>
      exact ⟨c, res, m, ho, rfl, hid, hacc, hrec⟩
    | _ => cases ha
  obtain rfl := he.eq ho
  obtain ⟨hgen, -, hin⟩ := (accepts_iff s n res).mp hacc
  refine ⟨⟨c, res, heq, hid, hgen⟩, hin, hi.2.unreported n he.alive hin, ?_⟩
  rw [hrec, hgen]
  exact List.mem_cons_self

/-- The end of a commit that changes a node is the verdict its attempt was waiting for. -/
theorem finish_effect {i : Nat}
    (he : Affects W s (.finish c i) s' n) :
    (∃ cm, s.commits[i]? = some cm ∧ cm.ptr = n ∧ cm.gen = (s.node n).gen) ∧
      s.phase n = .publishing ∧ (s.graph.id n, (s.node n).gen) ∉ s.verdicts ∧
      (s.graph.id n, (s.node n).gen) ∈ s'.verdicts := by
  have hm := step_move hi.1.1 hi.1.2 he.step
  obtain ⟨cm, hcm, ho, hgen, hph, hv⟩ : ∃ cm, s.commits[i]? = some cm ∧ Others s s' cm.ptr ∧
      (s.node cm.ptr).gen = cm.gen ∧ s.phase cm.ptr = .publishing ∧
      s'.verdicts = (cm.id, cm.gen) :: s.verdicts := by
    cases hm with
    | still a s' hh hqu h => exact absurd he.changed (h n he.alive).not_changed
    | stale c i cm hcm hstale s' hcs hacc hv hqu h =>
      exact absurd he.changed (h n he.alive).not_changed
    | done c i cm hcm hst hn hgen hph s' hcs hacc hv hqu hph' hsame ho
    | rejudged c i cm hcm e hst hn hgen hph s' hcs hacc hv h ho =>
      exact ⟨cm, hcm, ho, hgen, hph, hv⟩
  have hn := he.eq ho
  have hmem := List.mem_of_getElem? hcm
  have hid := (hi.1.2.commits cm hmem (hn ▸ he.alive)).1
  subst hn
  rw [hgen, ← hid]
  refine ⟨⟨cm, hcm, rfl, rfl⟩, hph, fun hx => ?_, ?_⟩
  · have hd := (List.nodup_append.mp hi.2.judgedOnce).2.2
    exact hd _ hx cm.report (List.mem_map_of_mem hmem) rfl
  · rw [hv]
    exact List.mem_cons_self

/-- A step that applies a verdict puts it on record, for the first time. -/
theorem verdict_effect
    (he : Affects W s a s' n) (ha : a.concludes = true) :
    (s.graph.id n, (s.node n).gen) ∉ s.verdicts ∧
      (s.graph.id n, (s.node n).gen) ∈ s'.verdicts := by
  have hm := step_move hi.1.1 hi.1.2 he.step
  cases hm with
  | judged c res m hid hm' hacc hok s' hcs hrec hv h ho =>
    obtain rfl := he.eq ho
    obtain ⟨-, -, hnew, -⟩ := delivery_effect hi he rfl
    refine ⟨fun hx => hnew (hi.2.judged _ (List.mem_append_left _ hx)), ?_⟩
    rw [hv, ((accepts_iff s n res).mp hacc).1]
    exact List.mem_cons_self
  | still a s' hh hqu h => exact absurd he.changed (h n he.alive).not_changed
  | stale c i cm hcm hstale s' hcs hacc hv hqu h =>
    exact absurd he.changed (h n he.alive).not_changed
  | done | rejudged => exact (finish_effect hi he).2.2
  | received c res m hid hm' hacc hok =>
    simp [Label.concludes, hok] at ha
  | _ => cases ha

end

/-- **A result takes effect at most once.** A delivered result changes a node only if it names
the node's current generation and the node's job is out; the end of a commit changes a node
only if that node is still publishing the same attempt. In the whole rest of the run no other
delivery changes a node for that attempt, and no other verdict is applied for it. -/
theorem results_take_effect_once {st : Store κ} {n : Nat} (h : Reached W (SeedsRise W) st s)
    (hp : SeedsRise W s a) (he : Affects W s a s' n) :
    (a.delivers = true → (∃ c res, a = .result c res ∧
      parseNodeName W res.node = some (s.graph.id n) ∧ res.gen = (s.node n).gen) ∧
      (s.phase n).inFlight = true) ∧
    (∀ c i, a = .finish c i → (∃ cm, s.commits[i]? = some cm ∧ cm.ptr = n ∧
      cm.gen = (s.node n).gen) ∧ s.phase n = .publishing) ∧
    ∀ s₂ b s₂' m, Run.Steps (step W) (SeedsRise W) s' s₂ → Affects W s₂ b s₂' m →
      a.delivers = true ∧ b.delivers = true ∨ a.concludes = true ∧ b.concludes = true →
      (s₂.graph.id m, (s₂.node m).gen) ≠ (s.graph.id n, (s.node n).gen) := by
  have hi := Reached.counted h
  have hi' := Reached.counted (Run.Steps.tail h hp he.step)
  refine ⟨fun ha => ?_, fun c i ha => ?_, fun s₂ b s₂' m h₂ he₂ hab heq => ?_⟩
  · obtain ⟨hres, hin, -, -⟩ := delivery_effect hi he ha
    exact ⟨hres, hin⟩
  · subst ha
    obtain ⟨hcm, hph, -, -⟩ := finish_effect hi he
    exact ⟨hcm, hph⟩
  · obtain ⟨hi₂, hacc, hv⟩ := record_mono hi' h₂
    rcases hab with ⟨ha, hb⟩ | ⟨ha, hb⟩
    · obtain ⟨-, -, -, hmem⟩ := delivery_effect hi he ha
      obtain ⟨-, -, hnew, -⟩ := delivery_effect hi₂ he₂ hb
      rw [heq] at hnew
      exact hnew (hacc hmem)
    · have hmem := (verdict_effect hi he ha).2
      have hnew := (verdict_effect hi₂ he₂ hb).1
      rw [heq] at hnew
      exact hnew (hv hmem)

/-- The seed of a step that makes at most one node, checked at that node's identity. -/
def seedsRise (W : World κ) (s : State κ) (a : Label κ) : Bool :=
  match a, step W s a with
  | .crash, _ => false
  | _, none => true
  | a, some s' => s'.graph.next ≤ s.graph.next || (s'.graph.next ≤ s.graph.next + 1 &&
      s.lastGen (s'.graph.id s.graph.next) ≤ a.choice.seed)

theorem SeedsRise.of_check (hb : Base s) (h : seedsRise W s a = true) : SeedsRise W s a := by
  intro s' i hs hi hi'
  have ha : a ≠ .crash := by
    intro ha
    subst ha
    simp [seedsRise] at h
  have hcheck : s'.graph.next ≤ s.graph.next ∨ s'.graph.next ≤ s.graph.next + 1 ∧
      s.lastGen (s'.graph.id s.graph.next) ≤ a.choice.seed := by
    unfold seedsRise at h
    rw [hs] at h
    split at h
    · cases h
    · rename_i heq
      cases heq
    · rename_i heq
      obtain rfl := Option.some.inj heq
      simpa using h
  obtain ⟨q, hq⟩ := Option.ne_none_iff_exists'.mp hi'
  have hocc := (hb.step hs).graph.occ i q hq
  have halive : s'.graph.Alive q := by
    rw [InterestGraph.Graph.Alive, hocc.1]
    exact hq
  have hnew : s.graph.next ≤ q := by
    rcases (step_table hb ha hs).1.alive q halive with ⟨hold, hid⟩ | hnew
    · rw [InterestGraph.Graph.Alive, ← hid, hocc.1, hi] at hold
      cases hold
    · exact hnew
  rcases hcheck with hle | ⟨hle, hseed⟩
  · omega
  · obtain rfl : q = s.graph.next := by omega
    rw [hocc.1] at hseed
    exact hseed

end

/-- The first report on a fetch: the import goes from queued to publishing. -/
theorem results_take_effect_once_fetched : ∃ s s' : State UInt8,
    Affects fetchWorld s (.result {} (fetched [])) s' 2 ∧ s.phase 2 = .queued ∧
    ∀ s₂ b s₂' m, Run.Steps (step fetchWorld) (SeedsRise fetchWorld) s' s₂ →
      Affects fetchWorld s₂ b s₂' m → b.delivers = true →
      (s₂.graph.id m, (s₂.node m).gen) ≠ (s.graph.id 2, (s.node 2).gen) := by
  have hrun : ∃ s ∈ Run.runIf (step fetchWorld) (seedsRise fetchWorld) (State.init (smallStore []))
      (submitRun 1 9), seedsRise fetchWorld s (.result {} (fetched [])) = true ∧
        s.phase 2 = .queued ∧ s.graph.Alive 2 ∧
        ∃ s' ∈ step fetchWorld s (.result {} (fetched [])), s'.phase 2 = .publishing := by
    decide +kernel
  obtain ⟨s, hs, hseed, hph, halive, s', hs', hph'⟩ := hrun
  have hreach := Run.Steps.of_runIf (I := Base) (fun _ _ _ hb hs => hb.step hs)
      (fun _ _ hb hc => SeedsRise.of_check hb hc) _ (Base.init _) hs
  have hbase := Reached.base hreach
  have he : Affects fetchWorld s (.result {} (fetched [])) s' 2 := by
    refine ⟨hs', halive, Or.inl ?_⟩
    rw [hph, hph']
    simp
  refine ⟨s, s', he, hph, fun s₂ b s₂' m h₂ he₂ hb => ?_⟩
  exact (results_take_effect_once hreach (SeedsRise.of_check hbase hseed) he).2.2 s₂ b s₂' m h₂ he₂
    (Or.inl ⟨rfl, hb⟩)

end JobsIroh
