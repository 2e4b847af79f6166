/-
What a step of the expiry machine can do.

`StepRule` lists the outcomes of a step with the conditions they arise under, and
`SweepStep` those of a step of the running sweep.  Every invariant of the machine is a
case analysis on these two.
-/
import JobsIroh.Gcsweep

namespace JobsIroh

/-- The names a sweep that stands here may still delete. -/
def SweepAt.ahead : SweepAt → List String
  | .deleting left _ => left
  | .checked name left _ => name :: left
  | .deleted _ left _ => left
  | _ => []

namespace Gc

variable (retention : Int)

/-! ### A step of a sweep -/

/-- The outcomes of one step of a sweep, with what it has found. -/
inductive SweepStep (s : Gc) (sw : Sweep) : Gc → Prop
  | refused (h : sw.pos = .started) : SweepStep s sw { s with sweep := none }
  | list (h : sw.pos = .started) : SweepStep s sw (s.sweepTo sw (.listed s.refs))
  | reconcile (names : List String) (h : sw.pos = .listed names) :
    SweepStep s sw
      { s.sweepTo sw .reconciled with tracker := s.tracker.reconcile names sw.now }
  | expire (h : sw.pos = .reconciled) :
    SweepStep s sw (s.sweepTo sw (.deleting (s.tracker.expired retention sw.now) []))
  | finish (failed : List String) (h : sw.pos = .deleting [] failed) :
    SweepStep s sw { s with sweep := none }
  | skip (name : String) (left failed : List String) (h : sw.pos = .deleting (name :: left) failed)
      (hskip : outputFailed failed name = true ∨
        ∀ e, s.tracker.get name = some e → e.pinned = true) :
    SweepStep s sw (s.sweepTo sw (.deleting left failed))
  | check (name : String) (left failed : List String)
      (h : sw.pos = .deleting (name :: left) failed) (hfailed : outputFailed failed name = false)
      (e : Entry) (he : s.tracker.get name = some e) (hp : e.pinned = false) :
    SweepStep s sw (s.sweepTo sw (.checked name left failed))
  | fail (name : String) (left failed failed' : List String)
      (h : sw.pos = .checked name left failed)
      (hfailed : failed' = if (Text.cutPrefix outputPrefix name).isSome then name :: failed
        else failed) :
    SweepStep s sw (s.sweepTo sw (.deleting left failed'))
  | delete (name : String) (left failed : List String) (h : sw.pos = .checked name left failed)
      (hmem : name ∈ s.refs) :
    SweepStep s sw
      { s.sweepTo sw (.deleted name left failed) with refs := s.refs.filter (· ≠ name) }
  | forget (name : String) (left failed : List String) (h : sw.pos = .deleted name left failed) :
    SweepStep s sw
      { s.sweepTo sw (.deleting left failed) with tracker := s.tracker.forget name }

variable {retention} in
theorem sweepNext_rule (s : Gc) (sw : Sweep) (err : Bool) :
    SweepStep retention s sw (s.sweepNext retention sw err) := by
  unfold sweepNext
  split
  · rename_i h
    split
    · exact SweepStep.refused h
    · exact SweepStep.list h
  · rename_i names h
    exact SweepStep.reconcile names h
  · rename_i h
    exact SweepStep.expire h
  · rename_i failed h
    exact SweepStep.finish failed h
  · rename_i name left failed h
    split
    · rename_i hf
      exact SweepStep.skip name left failed h (Or.inl hf)
    · rename_i hf
      split
      · rename_i hnone
        exact SweepStep.skip name left failed h (Or.inr (by simp [hnone]))
      · rename_i e he
        split
        · rename_i hp
          refine SweepStep.skip name left failed h (Or.inr fun e' he' => ?_)
          rw [he] at he'
          rw [← Option.some.inj he']
          exact hp
        · rename_i hp
          exact SweepStep.check name left failed h (by simpa using hf) e he (by simpa using hp)
  · rename_i name left failed h
    split
    · split
      · rename_i hout
        exact SweepStep.fail name left failed _ h (if_pos hout).symm
      · rename_i hout
        exact SweepStep.fail name left failed _ h (if_neg hout).symm
    · rename_i hmem
      refine SweepStep.delete name left failed h ?_
      simp only [Bool.or_eq_true, decide_eq_true_eq, not_or, not_not] at hmem
      exact hmem.2
  · rename_i name left failed h
    exact SweepStep.forget name left failed h

/-! ### A step -/

/-- The outcomes of one step. -/
inductive StepRule (s : Gc) : Label → Gc → Prop
  /-- Time passes, a snapshot is written or a writer gives up. -/
  | aside (a : Label) (ha : ∀ n, a ≠ .unpin n) (s' : Gc) (htracker : s'.tracker = s.tracker)
      (hrefs : s'.refs = s.refs) (hsweep : s'.sweep = s.sweep) (hpins : s'.pins = s.pins)
      (hacked : s'.acked = s.acked)
      (htouched : s'.touched = s.touched) (hclock : s.clock ≤ s'.clock)
      (hwriters : ∀ x ∈ s'.writers, x ∈ s.writers) : StepRule s a s'
  | put (name : String) : StepRule s (.put name) (s.putRef name)
  | beginWrite (x : String) :
    StepRule s (.beginWrite x) { s.putRef (depsPrefix ++ x) with writers := s.writers ++ [x] }
  | endWrite (i : Nat) (x : String) (hi : s.writers[i]? = some x) :
    StepRule s (.endWrite i)
      { s.putRef (outputPrefix ++ x) with writers := s.writers.eraseIdx i }
  | touch (name : String) (now : Int) (hnow : now ≤ s.clock) :
    StepRule s (.touch name now)
      { s with tracker := s.tracker.touch name now, touched := s.record name now }
  | pinRequest (names : List String) :
    StepRule s (.pinRequest names) { s with pins := s.pins ++ [{ todo := names }] }
  | pinMark (i : Nat) (r : PinRequest) (hi : s.pins[i]? = some r) (now : Int)
      (hnow : now ≤ s.clock) (name : String) (hfound : r.found = some name) :
    StepRule s (.pinNext i now)
      { s with
        tracker := s.tracker.pin name now
        touched := s.record name now
        pins := s.pins.set i { r with found := none, marked := name :: r.marked } }
  | pinFound (i : Nat) (r : PinRequest) (hi : s.pins[i]? = some r) (now : Int) (name : String)
      (todo : List String) (hmem : name ∈ s.refs) :
    StepRule s (.pinNext i now)
      { s with pins := s.pins.set i { r with todo := todo, found := some name } }
  | pinMissing (i : Nat) (r : PinRequest) (hi : s.pins[i]? = some r) (now : Int) (name : String)
      (todo : List String) (hmem : name ∉ s.refs) :
    StepRule s (.pinNext i now)
      { s with pins := s.pins.set i { r with todo := todo, skipped := name :: r.skipped } }
  | pinAck (i : Nat) (r : PinRequest) (hi : s.pins[i]? = some r) (now : Int) :
    StepRule s (.pinNext i now)
      { s with
        pins := s.pins.eraseIdx i
        acked := (r.marked ++ r.skipped).filter (· ∈ s.refs) ++ s.acked }
  | unpin (name : String) :
    StepRule s (.unpin name)
      { s with
        tracker := s.tracker.unpin name
        acked := s.acked.filter fun n => n ≠ name && familySibling name ≠ some n }
  | load (corrupt : Bool) :
    StepRule s (.load corrupt)
      { s with
        tracker := if corrupt then [] else s.snapshot.getD []
        flushes := [], sweep := none, pins := [], writers := [] }
  | sweepStart (hnone : s.sweep = none) :
    StepRule s .sweepStart { s with sweep := some ⟨s.clock, .started⟩ }
  | sweep (sw : Sweep) (hsw : s.sweep = some sw) (err : Bool) (s' : Gc)
      (h : SweepStep retention s sw s') : StepRule s (.sweepNext err) s'

variable {s s' : Gc} {a : Label}

theorem pinNext_rule {i : Nat} {r : PinRequest} {now : Int} (hi : s.pins[i]? = some r)
    (hnow : now ≤ s.clock) : StepRule retention s (.pinNext i now) (s.pinNext i r now) := by
  unfold pinNext
  split
  · rename_i name hfound
    exact StepRule.pinMark i r hi now hnow name hfound
  · rename_i name todo hfound _
    split
    · rename_i hmem
      exact StepRule.pinFound i r hi now name todo hmem
    · rename_i hmem
      exact StepRule.pinMissing i r hi now name todo hmem
  · exact StepRule.pinAck i r hi now

/-- **Every step is one of the outcomes listed.** -/
theorem step_rule (hs : s.step retention a = some s') : StepRule retention s a s' := by
  cases a with
  | tick d =>
    obtain rfl := Option.some.inj hs
    exact StepRule.aside _ (by simp) _ rfl rfl rfl rfl rfl rfl
      (Int.le_add_of_nonneg_right (Int.natCast_nonneg d)) fun _ hx => hx
  | put name =>
    obtain rfl := Option.some.inj hs
    exact StepRule.put name
  | beginWrite x =>
    obtain rfl := Option.some.inj hs
    exact StepRule.beginWrite x
  | endWrite i =>
    simp only [step] at hs
    split at hs
    · rename_i x hi
      obtain rfl := Option.some.inj hs
      exact StepRule.endWrite i x hi
    · cases hs
  | abandon =>
    obtain rfl := Option.some.inj hs
    exact StepRule.aside _ (by simp) _ rfl rfl rfl rfl rfl rfl le_rfl
      fun _ hx => List.mem_of_mem_eraseIdx hx
  | touch name now =>
    simp only [step] at hs
    split at hs
    · rename_i hnow
      obtain rfl := Option.some.inj hs
      exact StepRule.touch name now hnow
    · cases hs
  | pinRequest names =>
    obtain rfl := Option.some.inj hs
    exact StepRule.pinRequest names
  | pinNext =>
    simp only [step] at hs
    split at hs
    · rename_i r hi
      split at hs
      · rename_i hnow
        obtain rfl := Option.some.inj hs
        exact pinNext_rule retention hi hnow
      · cases hs
    · cases hs
  | unpin name =>
    obtain rfl := Option.some.inj hs
    exact StepRule.unpin name
  | flush =>
    obtain rfl := Option.some.inj hs
    exact StepRule.aside _ (by simp) _ rfl rfl rfl rfl rfl rfl le_rfl fun _ hx => hx
  | flushed =>
    simp only [step] at hs
    split at hs
    · obtain rfl := Option.some.inj hs
      exact StepRule.aside _ (by simp) _ rfl rfl rfl rfl rfl rfl le_rfl fun _ hx => hx
    · cases hs
  | load corrupt =>
    obtain rfl := Option.some.inj hs
    exact StepRule.load corrupt
  | sweepStart =>
    simp only [step] at hs
    split at hs
    · rename_i hnone
      obtain rfl := Option.some.inj hs
      exact StepRule.sweepStart hnone
    · cases hs
  | sweepNext err =>
    simp only [step] at hs
    split at hs
    · rename_i sw hsw
      obtain rfl := Option.some.inj hs
      exact StepRule.sweep sw hsw err _ (sweepNext_rule s sw err)
    · cases hs

/-! ### Pins -/

def Pinned (s : Gc) (name : String) : Prop :=
  ∃ e, s.tracker.get name = some e ∧ e.pinned = true

theorem pinned_touch {name : String} {now : Int} (ht : s'.tracker = s.tracker.touch name now)
    (n : String) : Pinned s' n ↔ Pinned s n := by
  unfold Pinned
  rw [ht, Tracker.get_touch]
  by_cases hr : s.tracker.reaches name n
  · rw [if_pos hr]
    cases h : s.tracker.get n <;> simp [Tracker.touchEntry]
  · rw [if_neg hr]

theorem pinned_pin {name : String} {now : Int} (ht : s'.tracker = s.tracker.pin name now)
    (n : String) : Pinned s' n ↔ s.tracker.reaches name n ∨ Pinned s n := by
  unfold Pinned
  rw [ht, Tracker.get_pin]
  by_cases hr : s.tracker.reaches name n
  · simp [hr]
  · simp [hr]

/-! ### The running sweep -/

/-- The names the running sweep may still delete. -/
def ahead (s : Gc) : List String :=
  match s.sweep with
  | some sw => sw.pos.ahead
  | none => []

/-- Start a sweep and take `n` steps of it. -/
def sweepRun (n : Nat) : List Label := .sweepStart :: List.replicate n (.sweepNext false)

end Gc

end JobsIroh
