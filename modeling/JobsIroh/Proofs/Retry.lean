/-
Retry by resubmit.

A failure lives on the node, and the node lives for as long as a request holds it.  When
the failed nodes have been let go, a resubmit finds new nodes under their identities and
tries them again.  A request that has failed holds its nodes like any other, so a resubmit
next to it joins the failed nodes and fails with them.
-/
import JobsIroh.Proofs.Snapshots
import JobsIroh.Proofs.Wakeup

namespace JobsIroh

open Search (Reach)

variable {κ : Type} [DecidableEq κ]

/-- No live request has a failed node of this identity in its closure. -/
def LetGo (s : State κ) (id : NodeID κ) : Prop :=
  ∀ rid r n, s.requests rid = some r → r.live = true → Reach s.graph.deps r.target n →
    s.graph.id n = id → s.phase n ≠ .failed

/-- Whatever has been handed out has a job. -/
def Handed (s : State κ) : Prop :=
  ∀ n, s.graph.Alive n → Held s n → ∃ j ∈ s.jobs, j.ptr = n

/-- The node is in the table, and has failed. -/
def Broken (s : State κ) (m : Nat) : Prop := s.graph.Alive m ∧ s.phase m = .failed

/-- The step fails the node `m` while it is not handed out: its output could not be looked up,
it could not be unfolded, its refs could not be computed, or, for a buildvalue, a step of its
pipeline did not succeed. -/
def FailsUntried [Inhabited κ] (W : World κ) (m : Nat) (s : State κ) (a : Label κ) : Prop :=
  ¬ Broken s m ∧ ¬ (s.graph.Alive m ∧ Held s m) ∧ ∃ s', step W s a = some s' ∧ Broken s' m

/-- The node `m` is tried anew: no failure from before `s` is left on it, and between critical
sections it is done, has a job, or waits for a dep; if it has failed, it has a job. -/
structure Retried (s s' : State κ) (m : Nat) : Prop where
  since : s.graph.next ≤ m ∨ s.graph.Alive m ∧ s.phase m ≠ .failed
  failed : s'.phase m = .failed → ∃ j ∈ s'.jobs, j.ptr = m
  attempt : s'.free = true → s'.closed = false → s'.ctxErr = false →
    s'.phase m = .done ∨ (∃ j ∈ s'.jobs, j.ptr = m) ∨ ∃ d ∈ s'.graph.deps m, s'.phase d ≠ .done

/-- The node `m` is as it was: failed, and not tried again. -/
structure Stuck (s s' : State κ) (m : Nat) : Prop where
  before : s.graph.Alive m ∧ s.phase m = .failed
  failed : s'.phase m = .failed
  jobs : ∀ j ∈ s'.jobs, j.ptr = m → j ∈ s.jobs

section

variable [Inhabited κ] {W : World κ} {s s' : State κ} {a : Label κ} {n : Nat} {rid : ReqID}
  {r : Request κ}

/-! ### Jobs -/

/-- Jobs stay on record. -/
theorem Move.job_kept {j : Job κ} (hm : Move W s a s') (hf : Fenced s) (hj : j ∈ s.jobs) :
    j ∈ s'.jobs := by
  rcases hm.jobs hf with heq | ⟨j', heq, -⟩
  · exact heq ▸ hj
  · exact heq ▸ List.mem_cons_of_mem _ hj

theorem Handed.step (h : Handed s) (hb : Base s) (hf : Fenced s)
    (hs : JobsIroh.step W s a = some s') : Handed s' := by
  intro n hn' hheld
  rcases crash_or hs with ⟨rfl, rfl⟩ | ha
  · cases hn'
  obtain ⟨hext, hfresh⟩ := step_table hb ha hs
  have hm := step_move hb hf hs
  rcases hext.alive n hn' with ⟨hn, -⟩ | hnew
  · rcases hm.held_step hf ha hn hheld with hold | ⟨j, hj, hptr⟩
    · obtain ⟨j, hj, hptr⟩ := h n hn hold
      exact ⟨j, hm.job_kept hf hj, hptr⟩
    · exact ⟨j, by rw [hj]; exact List.mem_cons_self, hptr⟩
  · exact absurd hheld ((hfresh n hn' hnew).not_held hm hb hf hnew)

theorem Reached.handed {P : State κ → Label κ → Prop} {st : Store κ} (h : Reached W P st s) :
    Handed s := by
  refine (h.inv_fenced ?_ ?_).2
  · intro n hn
    cases hn
  · intro s a s' hb hf _ hs hi
    exact hi.step hb hf hs

/-- A node that fails only after it was handed out has a job. -/
theorem Reached.job_of_failed {st : Store κ} {s₀ : State κ} (h : Reached W Run.Always st s₀)
    (h₀ : ¬ Broken s₀ n)
    (hrun : Run.Steps (step W) (fun s a => ¬ FailsUntried W n s a) s₀ s) (hn : Broken s n) :
    ∃ j ∈ s.jobs, j.ptr = n := by
  refine (hrun.inv (I := fun s => Reached W Run.Always st s ∧
    (Broken s n → ∃ j ∈ s.jobs, j.ptr = n)) ⟨h, fun hb => absurd hb h₀⟩ ?_).2 hn
  intro s a s' ⟨hreach, hjob⟩ hquiet hs
  refine ⟨hreach.tail trivial hs, fun hbroken => ?_⟩
  obtain ⟨⟨hb, hf⟩, -⟩ := Reached.pipelines hreach
  obtain ⟨j, hj, hptr⟩ : ∃ j ∈ s.jobs, j.ptr = n := by
    by_cases hold : Broken s n
    · exact hjob hold
    · by_contra hnone
      exact hquiet ⟨hold, fun hheld => hnone (hreach.handed n hheld.1 hheld.2), s', hs, hbroken⟩
  exact ⟨j, (step_move hb hf hs).job_kept hf hj, hptr⟩

/-! ### Runs without a restart -/

/-- Pointers do not come back along a run. -/
theorem steps_extends (hb : Base s)
    (h : Run.Steps (step W) (fun _ a => keepsRequest rid a = true) s s') :
    s.graph.Extends s'.graph := by
  have hall := h.inv (I := fun s₁ => Base s₁ ∧ s.graph.Extends s₁.graph) ⟨hb, .refl _⟩ ?_
  · exact hall.2
  · intro s₁ a s₂ hi hc hs
    exact ⟨hi.1.step hs, hi.2.trans (step_table hi.1 (keepsRequest_up hc) hs).1⟩

section

omit [DecidableEq κ] [Inhabited κ]

/-- A node of the table that nobody else would let go has not failed. -/
theorem LetGo.not_failed (h : LetGo s (s.graph.id n)) (hb : Base s) (hfree : s.free = true)
    (hn : s.graph.Alive n) : s.phase n ≠ .failed := by
  obtain ⟨r, hint⟩ := List.exists_mem_of_ne_nil _ (hb.interest_ne_nil hfree hn)
  obtain ⟨t, ht, hreach⟩ := hb.graph.sound n r hint
  obtain ⟨q, hq, hlive, rfl⟩ := target_eq_some_iff.mp ht
  exact h r q n hq hlive hreach rfl

theorem LetGo.of_table {id : NodeID κ} (hb : Base s)
    (h : ∀ n, s.graph.nodes id = some n → s.phase n ≠ .failed) : LetGo s id := by
  intro rid r n hr hlive hreach hid
  obtain ⟨hc, hf⟩ := r.live_iff.mp hlive
  have hn : s.graph.Alive n := hb.reach_alive (hb.target_alive hr hc hf) hreach
  exact h n (hid ▸ hn)

/-- A live request has the failed node `n` in its closure. -/
structure Holding (s : State κ) (rid : ReqID) (n : Nat) : Prop where
  request : ∃ r, s.requests rid = some r ∧ r.live = true ∧ Reach s.graph.deps r.target n
  failed : s.phase n = .failed

theorem Holding.alive (h : Holding s rid n) (hb : Base s) : s.graph.Alive n := by
  obtain ⟨r, hr, hlive, hreach⟩ := h.request
  obtain ⟨hc, hf⟩ := r.live_iff.mp hlive
  exact hb.reach_alive (hb.target_alive hr hc hf) hreach

end

theorem Holding.step (h : Holding s rid n) (hpl : Pipelines s) (hb : Base s) (hf : Fenced s)
    (hc : keepsRequest rid a = true) (hs : JobsIroh.step W s a = some s') : Holding s' rid n := by
  have ha := keepsRequest_up hc
  have hn := h.alive hb
  obtain ⟨r, hr, hlive, hreach⟩ := h.request
  obtain ⟨hcan, hfail⟩ := r.live_iff.mp hlive
  have hover := Stricken.over ⟨n, hreach, h.failed⟩ hb hr hcan hfail
  obtain ⟨hext, -⟩ := step_table hb ha hs
  have hreach' : Reach s'.graph.deps r.target n :=
    Relation.ReflTransGen.mono (fun p d hd => hext.deps p d hd) _ _ hreach
  refine ⟨?_, hpl.failed_stays hb hf ha hs hn h.failed⟩
  have hstep := step_request hb hs hr
  generalize s'.requests rid = o at hstep
  cases hstep with
  | kept => exact ⟨r, rfl, hlive, hreach'⟩
  | watched => exact ⟨_, rfl, hlive, hreach'⟩
  | starved now reason msg hmsg ht | rejected c ht => simp [hover] at ht
  | cancelled | deleted => simp [keepsRequest] at hc
  | crashed => exact absurd rfl ha

/-- A failed node is not handed out. -/
theorem Holding.no_job (h : Holding s rid n) (hb : Base s) (hf : Fenced s)
    (hs : JobsIroh.step W s a = some s') {j : Job κ} (hj : j ∈ s'.jobs) (hptr : j.ptr = n) :
    j ∈ s.jobs := by
  rcases (step_move hb hf hs).jobs hf with heq | ⟨j', heq, ho⟩
  · exact heq ▸ hj
  · rw [heq] at hj
    refine (List.mem_cons.mp hj).resolve_left fun hjj => ?_
    subst hjj
    have hph := h.failed
    rw [← hptr] at hph
    rcases ho.due with (hh | hh | ⟨hh, -⟩) | ⟨fr, rest, -, -, hready⟩
    · rw [hph] at hh
      cases hh
    · rw [hph] at hh
      cases hh
    · rw [hph] at hh
      cases hh
    · have hw := ((ready_iff s j.ptr).mp hready).2.1
      rw [hph] at hw
      cases hw

/-! ### Resubmitting -/

theorem submit_free {c : Choice} {i : Nat} (hb : Base s)
    (hs : step W s (.submit c i rid) = some s') : s.free = true := by
  cases step_rule hb.graph hs with
  | submitClosed c i rid hfree | submit c i rid sub hsub hrid hfree | nothing a hfree
  | fleet a fleet hfree => exact hfree

end

/-- The source import of the build `0` has failed. -/
def sourceFails : List (Label UInt8) := submitRun 0 9 ++ [.result {} fetchFails]

instance (s : State κ) (m : Nat) : Decidable (Broken s m) :=
  inferInstanceAs (Decidable (s.graph.nodes _ = some m ∧ s.phase m = .failed))

/-- The request `r2` is kept, and node 5 has not failed after the step. -/
def retries (s : State UInt8) (a : Label UInt8) : Bool :=
  keepsRequest "r2" a && (step fetchWorld s a).all fun s' => decide (¬ Broken s' 5)

theorem retries_untried {s : State UInt8} {a : Label UInt8} (h : retries s a = true) :
    ¬ FailsUntried fetchWorld 5 s a := by
  rintro ⟨-, -, s', hs, hbroken⟩
  simp [retries, hs, hbroken] at h

/-- The build `0` is submitted again. -/
def resubmitRun (n : Nat) : List (Label UInt8) :=
  .submit {} 0 "r2" :: List.replicate n (.exec { publish := some 1 })

/-- No request but `rid` is submitted. -/
def submitsOnly (rid : ReqID) : Label κ → Bool
  | .submit _ _ rid' => rid' = rid
  | _ => true

theorem no_other_request [Inhabited κ] {W : World κ} {st : Store κ} {s : State κ} {rid : ReqID}
    (h : Reached W (fun _ a => submitsOnly rid a = true) st s) :
    ∀ rid', rid' ≠ rid → s.requests rid' = none := by
  have hall := h.inv (I := fun s => Base s ∧ ∀ rid', rid' ≠ rid → s.requests rid' = none) ?_ ?_
  · exact hall.2
  · exact ⟨Base.init st, fun _ _ => rfl⟩
  · intro s a s' hi hc hs
    refine ⟨hi.1.step hs, fun rid' hne => step_no_request hi.1 hs (hi.2 rid' hne) ?_⟩
    intro c i ha
    rw [ha] at hc
    exact hne (by simpa [submitsOnly] using hc)

end JobsIroh
