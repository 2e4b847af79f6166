/-
An acknowledged pin is kept, as long as it does not fall into a gap of a sweep.

A sweep looks at the pin of a name once, deletes the ref and then forgets the entry, and
it drops the entries of names its listing lacks.  A pin that lands between two of these
steps is lost.  So is one that is acknowledged for a name that was missing when it was
looked up.  When a pin is marked on a ref that is there and that no running sweep has in
its hands, it stays: every step of a sweep passes over the name.
-/
import JobsIroh.Proofs.GcSteps

namespace JobsIroh

/-- A sweep that stands here will not touch the pin of this name. -/
def SweepAt.spares (name : String) : SweepAt → Bool
  | .listed names => name ∈ names
  | .checked n _ _ => n ≠ name
  | .deleted n _ _ => n ≠ name
  | _ => true

namespace Gc

variable {retention : Int} {s s' : Gc} {sw : Sweep} {a : Label} {name : String}

/-! ### The conditions -/

/-- No pin request at work has found this name missing. -/
def expected (s : Gc) (name : String) : Bool := s.pins.all fun r => name ∉ r.skipped

/-- No pin request at work has marked this name or its sibling. -/
def unmarked (s : Gc) (name : String) : Bool :=
  s.pins.all fun r => r.marked.all fun n => n ≠ name && familySibling name ≠ some n

/-- What keeps a pin, as a condition on the state a step is taken in. -/
def pinSafe (s : Gc) : Label → Bool
  | .put name => s.expected name
  | .beginWrite x => s.expected (depsPrefix ++ x)
  | .endWrite i =>
    match s.writers[i]? with
    | some x => s.expected (outputPrefix ++ x)
    | none => true
  | .pinNext i _ =>
    match (s.pins[i]?).bind (·.found) with
    | some name =>
      name ∈ s.refs &&
        match s.sweep with
        | some sw => sw.pos.spares name
        | none => true
    | none => true
  | .unpin name => s.unmarked name
  | _ => true

/-- The server is not started again. -/
def sameLife : Label → Bool
  | .load _ => false
  | _ => true

def PinSafe (s : Gc) (a : Label) : Prop := sameLife a = true ∧ pinSafe s a = true

/-! ### A safe pin stays safe -/

structure Safe (s : Gc) (name : String) : Prop where
  ref : name ∈ s.refs
  pinned : Pinned s name
  spared : ∀ sw, s.sweep = some sw → sw.pos.spares name = true

theorem Safe.sweepNext (h : Safe s name) (hsw : s.sweep = some sw)
    (hs : SweepStep retention s sw s') : Safe s' name := by
  have hspared := h.spared sw hsw
  obtain ⟨e, he, hpin⟩ := h.pinned
  cases hs with
  | refused hpos | finish failed hpos => exact ⟨h.ref, h.pinned, fun sw hsw => by cases hsw⟩
  | list =>
    refine ⟨h.ref, h.pinned, fun sw hsw => ?_⟩
    obtain rfl := Option.some.inj hsw
    exact decide_eq_true h.ref
  | reconcile names hpos =>
    rw [hpos] at hspared
    refine ⟨h.ref, ⟨e, ?_, hpin⟩, fun sw hsw => ?_⟩
    · show (s.tracker.reconcile names _).get name = some e
      rw [Tracker.get_reconcile, if_pos (of_decide_eq_true hspared), he]
      rfl
    · obtain rfl := Option.some.inj hsw
      rfl
  | expire | skip | fail =>
    refine ⟨h.ref, h.pinned, fun sw hsw => ?_⟩
    obtain rfl := Option.some.inj hsw
    rfl
  | check n left failed hpos hfailed e' he' hp =>
    refine ⟨h.ref, h.pinned, fun sw hsw => ?_⟩
    obtain rfl := Option.some.inj hsw
    refine decide_eq_true fun heq => ?_
    rw [heq, he] at he'
    rw [← Option.some.inj he', hpin] at hp
    cases hp
  | delete n left failed hpos =>
    rw [hpos] at hspared
    refine ⟨List.mem_filter.mpr ⟨h.ref, ?_⟩, h.pinned, fun sw hsw => ?_⟩
    · exact decide_eq_true (Ne.symm (of_decide_eq_true hspared))
    · obtain rfl := Option.some.inj hsw
      exact hspared
  | forget n left failed hpos =>
    rw [hpos] at hspared
    refine ⟨h.ref, ⟨e, ?_, hpin⟩, fun sw hsw => ?_⟩
    · show (s.tracker.forget n).get name = some e
      rw [Tracker.get_forget, if_neg (Ne.symm (of_decide_eq_true hspared)), he]
    · obtain rfl := Option.some.inj hsw
      rfl

/-- A step beside the sweep that keeps the ref and the pin. -/
theorem Safe.beside (h : Safe s name) (hsweep : s'.sweep = s.sweep)
    (href : ∀ n ∈ s.refs, n ∈ s'.refs) (hpin : Pinned s name → Pinned s' name) : Safe s' name :=
  ⟨href name h.ref, hpin h.pinned, fun sw hsw => h.spared sw (hsweep ▸ hsw)⟩

/-- A safe pin stays safe unless the name or its sibling is unpinned. -/
theorem Safe.step (h : Safe s name) (hlife : sameLife a = true)
    (hun : ∀ n, a = .unpin n → name ≠ n ∧ familySibling n ≠ some name)
    (hs : StepRule retention s a s') : Safe s' name := by
  have hkeep : ∀ n ∈ s.refs, n ∈ s.refs := fun _ hn => hn
  cases hs with
  | aside _ ha _ htracker hrefs hsweep =>
    refine h.beside hsweep (fun n hn => hrefs ▸ hn) fun hp => ?_
    rw [Pinned, htracker]
    exact hp
  | put n | beginWrite x | endWrite i x hi =>
    exact h.beside rfl (fun _ hn => List.mem_insert_of_mem hn) id
  | touch => exact h.beside rfl hkeep (pinned_touch rfl _).mpr
  | pinMark =>
    exact h.beside rfl hkeep fun hp => (pinned_pin rfl _).mpr (Or.inr hp)
  | unpin n =>
    obtain ⟨hne, hsib⟩ := hun n rfl
    refine h.beside rfl hkeep fun ⟨e, he, hp⟩ => ⟨e, ?_, hp⟩
    show (s.tracker.unpin n).get name = some e
    rw [Tracker.get_unpin, if_neg (not_or.mpr ⟨hne, hsib⟩), he]
  | load => cases hlife
  | sweepStart =>
    refine ⟨h.ref, h.pinned, fun sw hsw => ?_⟩
    obtain rfl := Option.some.inj hsw
    rfl
  | sweep sw hsw err _ hstep => exact h.sweepNext hsw hstep
  | _ => exact h.beside rfl hkeep id

/-! ### Requests -/

/-- Every pin that was promised is safe, and what a request found missing is still missing. -/
structure Promised (s : Gc) : Prop where
  acked : ∀ n ∈ s.acked, Safe s n
  marked : ∀ r ∈ s.pins, ∀ n ∈ r.marked, Safe s n
  skipped : ∀ r ∈ s.pins, ∀ n ∈ r.skipped, n ∉ s.refs

/-- A sweep writes no ref. -/
theorem SweepStep.refs (h : SweepStep retention s sw s') : ∀ n ∈ s'.refs, n ∈ s.refs := by
  intro n hn
  cases h with
  | delete => exact List.mem_of_mem_filter hn
  | _ => exact hn

/-- A name that has come into the store was expected by nobody. -/
theorem StepRule.expected (h : StepRule retention s a s') (hsafe : pinSafe s a = true) {n : String}
    (hn : n ∈ s'.refs) (hold : n ∉ s.refs) : s.expected n = true := by
  cases h with
  | aside _ ha _ htracker hrefs =>
    exact absurd (hrefs ▸ hn) hold
  | put | beginWrite =>
    obtain rfl := (List.mem_insert_iff.mp hn).resolve_right hold
    exact hsafe
  | endWrite i x hi =>
    obtain rfl := (List.mem_insert_iff.mp hn).resolve_right hold
    simpa only [pinSafe, hi] using hsafe
  | sweep sw hsw err _ hstep => exact absurd (hstep.refs n hn) hold
  | _ => exact absurd hn hold

/-- A request's names after a step: those it had, or the one it has just dealt with. -/
inductive Dealt (s s' : Gc) (a : Label) (r : PinRequest) : Prop
  | old (r₀ : PinRequest) (h₀ : r₀ ∈ s.pins) (hmarked : r.marked = r₀.marked)
      (hskipped : r.skipped = r₀.skipped)
  | new (hmarked : r.marked = []) (hskipped : r.skipped = [])
  | mark (i : Nat) (now : Int) (ha : a = .pinNext i now) (r₀ : PinRequest)
      (h₀ : s.pins[i]? = some r₀) (name : String) (hfound : r₀.found = some name)
      (hpin : Pinned s' name) (hrefs : s'.refs = s.refs) (hsweep : s'.sweep = s.sweep)
      (hmarked : r.marked = name :: r₀.marked) (hskipped : r.skipped = r₀.skipped)
  | missing (r₀ : PinRequest) (h₀ : r₀ ∈ s.pins) (name : String) (hmem : name ∉ s'.refs)
      (hmarked : r.marked = r₀.marked) (hskipped : r.skipped = name :: r₀.skipped)

theorem StepRule.dealt (h : StepRule retention s a s') {r : PinRequest} (hr : r ∈ s'.pins) :
    Dealt s s' a r := by
  have hold : ∀ r ∈ s.pins, Dealt s s' a r := fun r hr => Dealt.old r hr rfl rfl
  cases h with
  | aside _ ha _ htracker hrefs hsweep hpins =>
    rw [hpins] at hr
    exact hold r hr
  | pinRequest =>
    rcases List.mem_append.mp hr with hr | hr
    · exact hold r hr
    · rw [List.mem_singleton.mp hr]
      exact Dealt.new rfl rfl
  | pinMark i r₀ hi now hnow name hfound =>
    rcases List.mem_or_eq_of_mem_set hr with hr | rfl
    · exact hold r hr
    · exact Dealt.mark i now rfl r₀ hi name hfound ((pinned_pin rfl _).mpr (Or.inl (Or.inl rfl)))
        rfl rfl rfl rfl
  | pinFound i r₀ hi =>
    rcases List.mem_or_eq_of_mem_set hr with hr | rfl
    · exact hold r hr
    · exact Dealt.old r₀ (List.mem_of_getElem? hi) rfl rfl
  | pinMissing i r₀ hi now name todo hmem =>
    rcases List.mem_or_eq_of_mem_set hr with hr | rfl
    · exact hold r hr
    · exact Dealt.missing r₀ (List.mem_of_getElem? hi) name hmem rfl rfl
  | pinAck => exact hold r (List.mem_of_mem_eraseIdx hr)
  | load => cases hr
  | sweep sw hsw err _ hstep =>
    refine hold r ?_
    cases hstep <;> exact hr
  | _ => exact hold r hr

/-- An acknowledged name was acknowledged before, or is one of a request's names. -/
theorem StepRule.acked (h : StepRule retention s a s') {n : String} (hn : n ∈ s'.acked) :
    n ∈ s.acked ∧ (∀ m, a = .unpin m → n ≠ m ∧ familySibling m ≠ some n) ∨
    (∃ i now, a = .pinNext i now) ∧ ∃ r ∈ s.pins, (n ∈ r.marked ∨ n ∈ r.skipped) ∧ n ∈ s.refs := by
  have hold : ∀ a : Label, (∀ m, a ≠ .unpin m) → n ∈ s.acked →
      n ∈ s.acked ∧ ∀ m, a = .unpin m → n ≠ m ∧ familySibling m ≠ some n :=
    fun a hne hn => ⟨hn, fun m ha => absurd ha (hne m)⟩
  cases h with
  | aside _ ha _ htracker hrefs hsweep hpins hacked =>
    exact Or.inl (hold _ ha (hacked ▸ hn))
  | unpin name =>
    obtain ⟨hn, hne⟩ := List.mem_filter.mp hn
    simp only [Bool.and_eq_true, decide_eq_true_eq] at hne
    refine Or.inl ⟨hn, fun m ha => ?_⟩
    obtain rfl : name = m := Label.unpin.inj ha
    exact hne
  | pinAck i r hi now =>
    rcases List.mem_append.mp hn with hn | hn
    · obtain ⟨hn, hmem⟩ := List.mem_filter.mp hn
      exact Or.inr ⟨⟨i, now, rfl⟩, r, List.mem_of_getElem? hi, List.mem_append.mp hn,
        of_decide_eq_true hmem⟩
    · exact Or.inl (hold _ (by simp) hn)
  | sweep sw hsw err _ hstep =>
    refine Or.inl (hold _ (by simp) ?_)
    cases hstep <;> exact hn
  | _ => exact Or.inl (hold _ (by simp) hn)

theorem Promised.step (h : Promised s) (hsafe : PinSafe s a)
    (hs : StepRule retention s a s') : Promised s' := by
  obtain ⟨hlife, hpin⟩ := hsafe
  -- a marked name is not unpinned while its request is at work
  have hmarked : ∀ r ∈ s.pins, ∀ n ∈ r.marked, Safe s' n := by
    intro r hr n hn
    refine (h.marked r hr n hn).step hlife (fun m ha => ?_) hs
    subst ha
    have hun := List.all_eq_true.mp (List.all_eq_true.mp hpin r hr) n hn
    simpa using hun
  have hskipped : ∀ r ∈ s.pins, ∀ n ∈ r.skipped, n ∉ s'.refs := by
    intro r hr n hn hmem
    have hexp := hs.expected hpin hmem (h.skipped r hr n hn)
    exact of_decide_eq_true (List.all_eq_true.mp hexp r hr) hn
  refine ⟨fun n hn => ?_, fun r hr n hn => ?_, fun r hr n hn => ?_⟩
  · rcases hs.acked hn with ⟨hold, hun⟩ | ⟨-, r, hr, hm | hm, hmem⟩
    · exact (h.acked n hold).step hlife hun hs
    · exact hmarked r hr n hm
    · exact absurd hmem (h.skipped r hr n hm)
  · cases hs.dealt hr with
    | old r₀ h₀ hm | missing r₀ h₀ name hmem hm => exact hmarked r₀ h₀ n (hm ▸ hn)
    | new hm =>
      rw [hm] at hn
      cases hn
    | mark i now ha r₀ h₀ name hfound hp hrefs hsweep hm =>
      rw [hm] at hn
      rcases List.mem_cons.mp hn with rfl | hn
      · subst ha
        simp only [pinSafe, h₀, Option.bind_some, hfound, Bool.and_eq_true, decide_eq_true_eq]
          at hpin
        refine ⟨hrefs ▸ hpin.1, hp, fun sw hsw => ?_⟩
        rw [hsweep] at hsw
        simpa only [hsw] using hpin.2
      · exact hmarked r₀ (List.mem_of_getElem? h₀) n hn
  · cases hs.dealt hr with
    | old r₀ h₀ hm hk => exact hskipped r₀ h₀ n (hk ▸ hn)
    | new hm hk =>
      rw [hk] at hn
      cases hn
    | mark i now ha r₀ h₀ name hfound hp hrefs hsweep hm hk =>
      exact hskipped r₀ (List.mem_of_getElem? h₀) n (hk ▸ hn)
    | missing r₀ h₀ name hmem hm hk =>
      rw [hk] at hn
      rcases List.mem_cons.mp hn with rfl | hn
      · exact hmem
      · exact hskipped r₀ h₀ n hn

/-- **Pins are kept**, in every run in which no pin falls into a gap of a sweep: a name whose pin
was acknowledged while the ref existed is in the store and is marked, until it or its sibling
is unpinned. -/
theorem pins_are_kept {refs : List String} {snapshot : Option Tracker}
    (h : Reached retention PinSafe refs snapshot s) :
    ∀ n ∈ s.acked, n ∈ s.refs ∧ ∃ e, s.tracker.get n = some e ∧ e.pinned = true := by
  have hkept : Promised s := by
    refine Run.Steps.inv h ⟨fun n hn => ?_, fun r hr => ?_, fun r hr => ?_⟩ ?_
    · cases hn
    · cases hr
    · cases hr
    · intro s a s' hi hp hs
      exact hi.step hp (step_rule retention hs)
  intro n hn
  exact ⟨(hkept.acked n hn).ref, (hkept.acked n hn).pinned⟩

/-- Look one name up, mark it and acknowledge. -/
def pinRun (name : String) (now : Int) : List Label :=
  .pinRequest [name] :: List.replicate 3 (.pinNext 0 now)

/-- A pin that lands when the expiry list already holds the name. -/
theorem pins_are_kept_expired_name : ∃ s : Gc, Reached 10 PinSafe ["a", "b"] none s ∧
    s.sweep = none ∧ s.refs = ["a"] ∧ "a" ∈ s.acked ∧
    ∃ e, s.tracker.get "a" = some e ∧ e.pinned = true := by
  have hrun : ∃ s ∈ Run.runIf (step 10) (fun s a => sameLife a && pinSafe s a)
      (init ["a", "b"] none) (sweepRun 4 ++ [.tick 11] ++ sweepRun 3 ++ pinRun "a" 11 ++
        List.replicate 5 (.sweepNext false)),
      s.sweep = none ∧ s.refs = ["a"] ∧ "a" ∈ s.acked := by
    decide +kernel
  obtain ⟨s, hs, hsweep, hrefs, hacked⟩ := hrun
  have hreach := (Run.Steps.of_checked hs).mono fun _ _ h => (Bool.and_eq_true _ _).mp h
  exact ⟨s, hreach, hsweep, hrefs, hacked, (pins_are_kept hreach "a" hacked).2⟩

/-- The sweep has checked the name, the pin is marked and acknowledged, and the sweep deletes
the ref. -/
theorem pin_lost_after_check : ∃ s : Gc,
    Reached 10 (fun _ a => sameLife a = true) ["a"] none s ∧ "a" ∈ s.acked ∧ "a" ∉ s.refs ∧
    s.tracker.get "a" = none := by
  have hrun : ∃ s ∈ Run.runIf (step 10) (fun _ a => sameLife a) (init ["a"] none)
      (sweepRun 4 ++ [.tick 11] ++ sweepRun 4 ++ pinRun "a" 11 ++
        List.replicate 2 (.sweepNext false)),
      "a" ∈ s.acked ∧ "a" ∉ s.refs ∧ s.tracker.get "a" = none := by
    decide +kernel
  obtain ⟨s, hs, hprop⟩ := hrun
  exact ⟨s, Run.Steps.of_checked hs, hprop⟩

end Gc

end JobsIroh
