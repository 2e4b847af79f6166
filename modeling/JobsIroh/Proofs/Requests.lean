/-
What a step does to a request.

Only the call that ends a submit, a cancel, a delete and the watchdog write the table of
requests.  The end of a submit and the watchdog look at the phase of the request first, so
neither of them lets go of a request that is over.
-/
import JobsIroh.Proofs.Records

namespace JobsIroh

variable {κ : Type} [DecidableEq κ]

section

variable {W : World κ} {c : Choice} {s s' : State κ} {n : Nat} {fr : Frame κ}

theorem InputStep.requests {i : Input} (h : InputStep W c s n i s') :
    s'.requests = s.requests := by
  cases h with
  | tree => rfl
  | link => exact (joinNode_same _ _ _ _ _ _ _ _).2
  | _ => exact (failNodeLocked_inner s n _ (.refl s)).requests

/-- Only the frame that ends a submit writes the table of requests. -/
theorem ExecStep.requests (h : ExecStep W c s fr s') (hfr : fr.isSubmitted = false) :
    s'.requests = s.requests := by
  cases h with
  | unfoldFetcher | advance | nextStage | putPinCover => exact (joinNode_same _ _ _ _ _ _ _ _).2
  | unfolded n => exact (maybeEnqueueLocked_inner W c s n (.refl s)).requests
  | input n ni rest s' hi => exact hi.requests
  | stageFail fr bv hbv e => exact (failNodeLocked_inner s bv e (.refl s)).requests
  | aliased bv | putAliasOutput bv => exact (nodeDoneLocked_inner _ bv (.refl _)).requests
  | notifyNode n todo seen d => exact (maybeEnqueueLocked_inner W c _ d (.refl _)).requests
  | rejected | submitted => cases hfr
  | _ => rfl

end

/-- What becomes of the request `r`, known as `rid`. -/
inductive RequestStep (s : State κ) (rid : ReqID) (r : Request κ) :
    Label κ → Option (Request κ) → Prop
  | kept (a : Label κ) : RequestStep s rid r a (some r)
  | watched (now : Nat) (reason : String) (since : Option Nat) :
    RequestStep s rid r (.watchdog rid now reason) (some { r with noRunnersSince := since })
  | starved (now : Nat) (reason msg : String) (hmsg : msg ≠ "")
      (ht : terminal (assembleLocked s r) = false) :
    RequestStep s rid r (.watchdog rid now reason) (some { r with failReason := msg })
  | cancelled : RequestStep s rid r (.cancel rid) (some { r with cancelled := true })
  | deleted : RequestStep s rid r (.delete rid) none
  | rejected (c : Choice) (ht : terminal (assembleLocked s r) = false) :
    RequestStep s rid r (.exec c) none
  | crashed : RequestStep s rid r .crash none

section

variable [Inhabited κ] {W : World κ} {s s' : State κ} {a : Label κ} {rid : ReqID} {r : Request κ}

omit [DecidableEq κ] [Inhabited κ] in
/-- An entry of the table is written, this one or another. -/
theorem RequestStep.update {rid' : ReqID} {r' : Request κ} {o : Option (Request κ)}
    (hr : s.requests rid = some r) (hr' : s.requests rid' = some r')
    (h : rid' = rid → r' = r → RequestStep s rid r a o) :
    RequestStep s rid r a (Function.update s.requests rid' o rid) := by
  by_cases hid : rid' = rid
  · subst hid
    rw [Function.update_self]
    exact h rfl (Option.mem_unique hr' hr)
  · rw [Function.update_of_ne (Ne.symm hid), hr]
    exact .kept _

omit [Inhabited κ] in
theorem afterSubmit_request {c : Choice} {rid' : ReqID} {t : Nat} {scratch : String}
    {rest : List (Frame κ)} (hr : s.requests rid = some r) :
    RequestStep s rid r (.exec c)
      ((afterSubmit W c { s with stack := rest } rid' t scratch).requests rid) := by
  unfold afterSubmit
  split
  · rw [show State.requests { s with stack := rest } rid = some r from hr]
    exact .kept _
  · rename_i r' hr'
    split
    · rename_i hcond
      refine .update hr hr' ?_
      rintro rfl rfl
      exact .rejected c hcond.1
    · rw [(deleteScratch_inner _ _ _ _ (.refl _)).requests,
        show State.requests { s with stack := rest } rid = some r from hr]
      exact .kept _

omit [Inhabited κ] in
theorem joinSubmit_requests {c : Choice} {rid' : ReqID} (hb : Base s) (i : Nat)
    (sub : Submission κ) (hne : rid ≠ rid') :
    (joinSubmit c { s with submits := s.submits.eraseIdx i } sub rid').requests rid =
      s.requests rid := by
  obtain ⟨nd, fs, lg, heq, -⟩ := joinSubmit_eq
    (s := { s with submits := s.submits.eraseIdx i }) hb.graph sub rid'
  rw [heq]
  exact Function.update_of_ne hne _ _

/-- **What a step does to a request.** -/
theorem step_request (hb : Base s) (hs : step W s a = some s') (hr : s.requests rid = some r) :
    RequestStep s rid r a (s'.requests rid) := by
  have same : ∀ {s₁ : State κ}, s₁.requests = s.requests →
      RequestStep s rid r a (s₁.requests rid) := by
    intro s₁ heq
    rw [heq, hr]
    exact .kept a
  have hrule := step_rule hb.graph hs
  have hhandled := hrule.handled
  cases hrule with
  | frame c fr rest hp hst s' he =>
    by_cases hfr : fr.isSubmitted = false
    · exact same (he.requests hfr)
    · -- the end of a submit, as the code has it
      cases fr with
      | submitted =>
        change execStep W c s = some s' at hs
        unfold execStep at hs
        rw [if_neg (by simp [hp]), hst] at hs
        rw [← Option.some.inj hs]
        exact afterSubmit_request hr
      | _ => exact absurd rfl hfr
  | submit c i rid' sub hsub hrid =>
    have hne : rid ≠ rid' := by
      intro h
      rw [h, hrid] at hr
      cases hr
    have heq := joinSubmit_requests (c := c) hb i sub hne
    rw [heq, hr]
    exact .kept _
  | cancelled rid' r' hr' =>
    refine .update hr hr' ?_
    rintro rfl rfl
    exact .cancelled
  | deleted rid' r' hr' =>
    refine .update hr hr' ?_
    rintro rfl rfl
    exact .deleted
  | watched rid' now reason r' hr' hfree since =>
    refine .update hr hr' ?_
    rintro rfl rfl
    exact .watched now reason since
  | starved rid' now reason r' hr' hfree msg hmsg ht =>
    refine .update hr hr' ?_
    rintro rfl rfl
    exact .starved now reason msg hmsg ht
  | dropped | accepted | finishStale | finish | timer => exact same (hhandled rfl).requests
  | crash => exact .crashed
  | _ => exact same rfl

/-- Requests come from submits. -/
theorem step_no_request (hb : Base s) (hs : step W s a = some s') (hr : s.requests rid = none)
    (hsub : ∀ c i, a ≠ .submit c i rid) : s'.requests rid = none := by
  have same : ∀ {s₁ : State κ}, s₁.requests = s.requests → s₁.requests rid = none := by
    intro s₁ heq
    rw [heq, hr]
  -- what is written is the entry of another request
  have other : ∀ {rid' : ReqID} {r' : Request κ} {o : Option (Request κ)},
      s.requests rid' = some r' → Function.update s.requests rid' o rid = none := by
    intro rid' r' o hr'
    have hne : rid ≠ rid' := by
      intro h
      rw [← h, hr] at hr'
      cases hr'
    rw [Function.update_of_ne hne, hr]
  have hrule := step_rule hb.graph hs
  have hhandled := hrule.handled
  cases hrule with
  | frame c fr rest hp hst s' he =>
    by_cases hfr : fr.isSubmitted = false
    · exact same (he.requests hfr)
    · cases he with
      | rejected rid' t scratch r' hr' => exact other hr'
      | submitGone | stageWaits | stageUnresolved => exact same rfl
      | submitted => exact same (deleteScratch_inner W _ _ _ (.refl _)).requests
      | stageFail fr bv hbv e => exact same (failNodeLocked_inner _ bv e (.refl _)).requests
      | nextStage fr bv nd kind k ret hn => cases hn <;> exact absurd rfl hfr
      | _ => exact absurd rfl hfr
  | submit c i rid' sub =>
    have hne : rid ≠ rid' := fun h => hsub c i (by rw [h])
    rw [joinSubmit_requests hb i sub hne, hr]
  | cancelled rid' r' hr' | deleted rid' r' hr' | watched rid' now reason r' hr'
  | starved rid' now reason r' hr' => exact other hr'
  | dropped | accepted | finishStale | finish | timer => exact same (hhandled rfl).requests
  | crash => rfl
  | _ => exact same rfl

/-- A submit enters its request with the buildvalue of its key as the target. -/
theorem submit_request {c : Choice} {i : Nat} (hb : Base s)
    (hs : step W s (.submit c i rid) = some s') (hr : s.requests rid = none)
    (hr' : s'.requests rid = some r) : s'.graph.id r.target = ⟨.buildValue, r.k⟩ := by
  have same : s'.requests = s.requests → s'.graph.id r.target = ⟨.buildValue, r.k⟩ := by
    intro heq
    rw [heq, hr] at hr'
    cases hr'
  cases step_rule hb.graph hs with
  | submit c i rid sub =>
    obtain ⟨nd, fs, lg, heq, -⟩ := joinSubmit_eq
      (s := { s with submits := s.submits.eraseIdx i }) hb.graph sub rid
    rw [heq] at hr' ⊢
    obtain rfl := Option.some.inj ((Function.update_self rid _ s.requests).symm.trans hr')
    exact hb.graph.requireTarget_id ⟨.buildValue, sub.k⟩ rid
  | _ => exact same rfl

end

end JobsIroh
