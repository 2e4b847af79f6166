/-
`collectStore` as it runs (`runner/buildrun.go`): one goroutine for each input, at most eight
of them resolving, all of them stopped by the first failure or by the caller.

`Tools.collectStore` resolves the inputs one after the other.  A goroutine that finds the
context done while it waits for a slot returns without a word, so the two agree as long as
that happens after a failure, never because the caller cancelled.
-/
import JobsIroh.Proofs.RuntimeClosure

namespace JobsIroh.Runner

/-- A goroutine, and what it left in its slot. -/
inductive Worker (κ : Type) where
  | waiting
  | resolving
  /-- It saw the context done before it got a slot. -/
  | left
  | failed
  | filled (r : κ × List κ)

structure Collect (κ : Type) where
  workers : List (NamedInput × Worker κ)
  failed : Option Failure := none
  /-- The derived context is done. -/
  cancelled : Bool := false

inductive Move where
  /-- The caller's context is cancelled. -/
  | cancel
  | acquire (i : Nat)
  | leave (i : Nat)
  /-- The lookups of a goroutine, with the error of the store or of the context, if any. -/
  | resolve (i : Nat) (fault : Option Failure)

def collectConcurrency : Nat := 8

section

variable {κ : Type} [Inhabited κ] (T : Tools κ) (h : Host κ)

def resolveInput (pi : NamedInput) : Except Failure (κ × List κ) :=
  match T.resolveInputOutputKey h pi with
  | .error o => .error o
  | .ok bok =>
    match T.resolveInputDeps h pi with
    | .error o => .error o
    | .ok deps => .ok (bok, deps)

def Worker.isResolving : Worker κ → Bool
  | .resolving => true
  | _ => false

def Worker.isOver : Worker κ → Bool
  | .waiting | .resolving => false
  | _ => true

def Collect.step (s : Collect κ) : Move → Option (Collect κ)
  | .cancel => some { s with cancelled := true }
  | .acquire i =>
    match s.workers[i]? with
    | some (pi, .waiting) =>
      if s.workers.countP (·.2.isResolving) < collectConcurrency then
        some { s with workers := s.workers.set i (pi, .resolving) }
      else none
    | _ => none
  | .leave i =>
    match s.workers[i]?, s.cancelled with
    | some (pi, .waiting), true => some { s with workers := s.workers.set i (pi, .left) }
    | _, _ => none
  | .resolve i fault =>
    match s.workers[i]? with
    | some (pi, .resolving) =>
      match (fault.map Except.error).getD (resolveInput T h pi) with
      | .error o => some { workers := s.workers.set i (pi, .failed), failed := s.failed.or (some o),
                           cancelled := true }
      | .ok r => some { s with workers := s.workers.set i (pi, .filled r) }
    | _ => none

def Collect.init (inputs : List NamedInput) : Collect κ :=
  { workers := inputs.map (·, .waiting) }

/-- What is in a slot; an empty one has the zero key. -/
def Worker.slot : Worker κ → κ × List κ
  | .filled r => r
  | _ => (default, [])

/-- The keys and the `JOBS_DEPS` map, once every goroutine is over. -/
def Collect.outcome (inputs : List NamedInput) (s : Collect κ) :
    Option (Except Failure (List κ × List (String × String))) :=
  if s.workers.all (·.2.isOver) then
    match s.failed with
    | some o => some (.error o)
    | none =>
      let results := s.workers.map (·.2.slot)
      some (.ok (Tools.boks results, T.jobsDeps inputs results))
  else none

/-- A goroutine gives up only once a failure is recorded. -/
def Calm (s : Collect κ) (a : Move) : Prop :=
  ∀ i, a = .leave i → s.failed ≠ none

/-- No goroutine waits for a slot. -/
def Collect.Served (s : Collect κ) : Prop := ∀ p ∈ s.workers, p.2 ≠ .waiting

/-- The caller cancels only when no goroutine waits for a slot. -/
def Patient (s : Collect κ) (a : Move) : Prop := a = .cancel → s.Served

end

/-! ### Every slot is filled or a failure is reported -/

section

variable {κ : Type} {T : Tools κ} {h : Host κ} {inputs : List NamedInput} {s s' : Collect κ}

structure Collecting (T : Tools κ) (h : Host κ) (inputs : List NamedInput) (s : Collect κ) :
    Prop where
  inputs : s.workers.map (·.1) = inputs
  filled : ∀ pi r, (pi, .filled r) ∈ s.workers → resolveInput T h pi = .ok r
  /-- Who ended without a result was stopped by a failure. -/
  ended : ∀ p ∈ s.workers, p.2 = .left ∨ p.2 = .failed → s.failed ≠ none

theorem Collecting.init : Collecting T h inputs (.init inputs) where
  inputs := by simp [Collect.init, Function.comp_def]
  filled := by simp [Collect.init]
  ended := by simp [Collect.init]

/-- One goroutine moves on. -/
theorem Collecting.move (hs : Collecting T h inputs s) {i : Nat} {pi : NamedInput}
    {w w' : Worker κ} (hi : s.workers[i]? = some (pi, w)) {failed : Option Failure}
    {cancelled : Bool} (hfail : s.failed ≠ none → failed ≠ none)
    (hfilled : ∀ r, w' = .filled r → resolveInput T h pi = .ok r)
    (hended : w' = .left ∨ w' = .failed → failed ≠ none) :
    Collecting T h inputs ⟨s.workers.set i (pi, w'), failed, cancelled⟩ where
  inputs := by
    rw [← hs.inputs]
    exact Run.map_set_eq hi rfl
  filled pi' r hmem := by
    rcases List.mem_or_eq_of_mem_set hmem with hmem | heq
    · exact hs.filled pi' r hmem
    · obtain ⟨rfl, hr⟩ := Prod.mk.inj heq
      exact hfilled r hr.symm
  ended p hmem hp := by
    rcases List.mem_or_eq_of_mem_set hmem with hmem | rfl
    · exact hfail (hs.ended p hmem hp)
    · exact hended hp

theorem Collecting.step (hs : Collecting T h inputs s) {a : Move} (ha : Calm s a)
    (hstep : s.step T h a = some s') : Collecting T h inputs s' := by
  unfold Collect.step at hstep
  split at hstep
  · obtain rfl := Option.some.inj hstep
    exact ⟨hs.inputs, hs.filled, hs.ended⟩
  · split at hstep
    · rename_i hi
      obtain ⟨-, heq⟩ := Option.ite_none_right_eq_some.mp hstep
      obtain rfl := Option.some.inj heq
      exact hs.move hi id (by simp) (by simp)
    · simp at hstep
  · split at hstep
    · rename_i i _ _ _ hi _
      obtain rfl := Option.some.inj hstep
      exact hs.move hi id (by simp) fun _ => ha i rfl
    · simp at hstep
  · rename_i i fault
    split at hstep
    · rename_i pi hi
      split at hstep
      · obtain rfl := Option.some.inj hstep
        exact hs.move hi (by cases s.failed <;> simp) (by simp) (by cases s.failed <;> simp)
      · rename_i r hr
        obtain rfl := Option.some.inj hstep
        refine hs.move hi id (fun r' hr' => ?_) (by simp)
        cases fault
        · obtain rfl := Worker.filled.inj hr'
          exact hr
        · simp at hr
    · simp at hstep

theorem Collect.Served.set (hs : s.Served) {i : Nat} {pi : NamedInput} {w : Worker κ}
    (hw : w ≠ .waiting) {failed : Option Failure} {cancelled : Bool} :
    Collect.Served ⟨s.workers.set i (pi, w), failed, cancelled⟩ := by
  intro p hp
  rcases List.mem_or_eq_of_mem_set hp with hp | rfl
  · exact hs p hp
  · exact hw

/-- What makes the context done is a failure, or a caller nobody waits for. -/
theorem stopped_step {a : Move} (hs : s.cancelled = true → s.failed ≠ none ∨ s.Served)
    (ha : Patient s a) (hstep : s.step T h a = some s') :
    s'.cancelled = true → s'.failed ≠ none ∨ s'.Served := by
  unfold Collect.step at hstep
  repeat' split at hstep
  all_goals cases hstep
  -- left are: the caller cancels, a slot is taken, one gives up, one fails, one is done
  · exact fun _ => Or.inr (ha rfl)
  · exact fun hc => (hs hc).imp_right fun h => h.set (by simp)
  · exact fun hc => (hs hc).imp_right fun h => h.set (by simp)
  · exact fun _ => Or.inl (by cases s.failed <;> simp)
  · exact fun hc => (hs hc).imp_right fun h => h.set (by simp)

/-- **A patient caller loses no input**: the goroutines give up after a failure only. -/
theorem calm_of_patient (hrun : Run.Steps (Collect.step T h) Patient (.init inputs) s) :
    Run.Steps (Collect.step T h) Calm (.init inputs) s := by
  induction hrun with
  | refl => exact .refl
  | @tail s _ _ hr _ hstep ih =>
    have hs : s.cancelled = true → s.failed ≠ none ∨ s.Served :=
      hr.inv nofun fun _ _ _ hs ha hstep => stopped_step hs ha hstep
    refine ih.tail ?_ hstep
    rintro i rfl
    simp only [Collect.step] at hstep
    split at hstep
    · rename_i hi hc
      exact (hs hc).resolve_right fun hserved => hserved _ (List.mem_of_getElem? hi) rfl
    · cases hstep

/-- Slots that are all filled hold what the inputs come to one after the other. -/
theorem collectStore_slots [Inhabited κ] : ∀ ws : List (NamedInput × Worker κ),
    (∀ p ∈ ws, resolveInput T h p.1 = .ok p.2.slot) →
      T.collectStore h (ws.map (·.1)) = .ok (ws.map (·.2.slot))
  | [], _ => rfl
  | (pi, w) :: ws, hall => by
    have ih := collectStore_slots ws fun p hp => hall p (List.mem_cons_of_mem _ hp)
    have hpi := hall _ List.mem_cons_self
    unfold resolveInput at hpi
    simp only [List.map_cons, Tools.collectStore, ih]
    split at hpi
    · simp at hpi
    · split at hpi
      · simp at hpi
      · simp_all

/-- **Store collection is all or nothing.**  Whatever the schedule, the failures and the moment
the caller cancels: when no failure is reported, the keys and the map are those of resolving
the inputs in order, provided that goroutines give up only after a failure. -/
theorem collect_all_or_nothing [Inhabited κ] {out : List κ × List (String × String)}
    (hrun : Run.Steps (Collect.step T h) Calm (.init inputs) s)
    (hout : s.outcome T inputs = some (.ok out)) :
    ∃ resolved, T.collectStore h inputs = .ok resolved ∧
      out = (Tools.boks resolved, T.jobsDeps inputs resolved) := by
  have hs : Collecting T h inputs s :=
    hrun.inv .init fun _ _ _ hI ha hstep => hI.step ha hstep
  unfold Collect.outcome at hout
  split at hout
  · rename_i hover
    split at hout
    · simp at hout
    · rename_i hfailed
      obtain rfl := Except.ok.inj (Option.some.inj hout)
      refine ⟨_, ?_, rfl⟩
      rw [← hs.inputs]
      refine collectStore_slots _ fun p hp => ?_
      obtain ⟨pi, w⟩ := p
      have hw := List.all_eq_true.mp hover _ hp
      cases w with
      | filled r => exact hs.filled pi r hp
      | left => exact absurd hfailed (hs.ended _ hp (.inl rfl))
      | failed => exact absurd hfailed (hs.ended _ hp (.inr rfl))
      | waiting => simp [Worker.isOver] at hw
      | resolving => simp [Worker.isOver] at hw
  · simp at hout

end

/-- The library of the tool, fetched. -/
def libHost : Host Nat := chainHost.putRefs [(.importOutput 3, 100)]

theorem collect_lib : ∃ s resolved,
    Run.Steps (Collect.step chainTools libHost) Calm (.init toolPinned.inputs) s ∧
    chainTools.collectStore libHost toolPinned.inputs = .ok resolved ∧
      s.outcome chainTools toolPinned.inputs
        = some (.ok (Tools.boks resolved, chainTools.jobsDeps toolPinned.inputs resolved)) := by
  have hrun : Run.Steps (Collect.step chainTools libHost) Calm (.init toolPinned.inputs)
      ⟨[(⟨"lib", ⟨.importK, [0, 0, 0]⟩⟩, .filled (100, []))], none, false⟩ :=
    calm_of_patient ((Run.Steps.refl.tail (a := .acquire 0) nofun rfl).tail
      (a := .resolve 0 none) nofun rfl)
  obtain ⟨resolved, hres, hout⟩ := collect_all_or_nothing hrun rfl
  refine ⟨_, resolved, hrun, hres, ?_⟩
  rw [← hout]
  rfl

/-- The caller cancels before the only goroutine gets its slot: the zero key is returned, with
no failing outcome. -/
theorem collect_cancelled : ∃ s out,
    Run.run (Collect.step chainTools libHost) (.init toolPinned.inputs) [.cancel, .leave 0]
      = some s ∧
    s.outcome chainTools toolPinned.inputs = some (.ok out) ∧ out.1 = [0] ∧
      chainTools.collectStore libHost toolPinned.inputs = .ok [(100, [])] :=
  ⟨_, _, rfl, rfl, rfl, rfl⟩

end JobsIroh.Runner
