/-
A sweep deletes only what has not been touched for the retention window.

The tracker's clock of a name is never behind its last touch, as long as the touches
come in the order in which they read the clock and the server is not started from a
snapshot that lacks some.  But a sweep compares the clocks once, when it makes its
expiry list; the look it takes at a name before the deletion is for the pin only.  So
a touch must not come between the two.
-/
import JobsIroh.Proofs.GcSteps

namespace JobsIroh

namespace Gc

variable {retention : Int} {s s' : Gc} {sw : Sweep} {a : Label}

/-! ### The conditions -/

/-- A touch of this name reaches no name the running sweep may still delete, and has not read
the clock before an earlier touch. -/
def touchInTime (s : Gc) (name : String) (now : Int) : Bool :=
  (name :: (familySibling name).toList).all fun n =>
    !decide (s.tracker.reaches name n) ||
      (n ∉ s.ahead &&
        match s.touched n with
        | some t => decide (t ≤ now)
        | none => true)

/-- What keeps the clocks, as a condition on the state a step is taken in. -/
def touchSafe (s : Gc) : Label → Bool
  | .touch name now => s.touchInTime name now
  | .pinNext i now =>
    match (s.pins[i]?).bind (·.found) with
    | some name => s.touchInTime name now
    | none => true
  | .load corrupt =>
    corrupt || (s.snapshot.getD []).all fun p =>
      match s.touched p.1 with
      | some t => decide (t ≤ p.2.lastAccess)
      | none => true
  | _ => true

def TouchSafe (s : Gc) (a : Label) : Prop := touchSafe s a = true

/-! ### The clocks -/

/-- The sweep has not reconciled the tracker yet. -/
def seeding : SweepAt → Prop
  | .started => True
  | .listed _ => True
  | _ => False

/-- What holds of a sweep where it stands: the names ahead are cold. -/
structure Cold (retention : Int) (s : Gc) (sw : Sweep) : Prop where
  seeds : seeding sw.pos → ∀ n, s.tracker.get n = none → ∀ t, s.touched n = some t → t ≤ sw.now
  ahead : ∀ n ∈ sw.pos.ahead, ∀ e, s.tracker.get n = some e → e.lastAccess < sw.now - retention
  hand : ∀ n left failed, sw.pos = .checked n left failed → (s.tracker.get n).isSome = true

structure Clocked (retention : Int) (s : Gc) : Prop where
  past : ∀ n t, s.touched n = some t → t ≤ s.clock
  tracked : ∀ n e, s.tracker.get n = some e → ∀ t, s.touched n = some t → t ≤ e.lastAccess
  sweep : ∀ sw, s.sweep = some sw → Cold retention s sw

/-- A step that only moves time, the refs, or what is neither clock nor sweep. -/
theorem Clocked.beside (h : Clocked retention s) (htracker : s'.tracker = s.tracker)
    (htouched : s'.touched = s.touched) (hsweep : s'.sweep = s.sweep)
    (hclock : s.clock ≤ s'.clock) : Clocked retention s' := by
  refine ⟨fun n t ht => ?_, ?_, fun sw hsw => ?_⟩
  · rw [htouched] at ht
    exact (h.past n t ht).trans hclock
  · rw [htracker, htouched]
    exact h.tracked
  · rw [hsweep] at hsw
    have hcold := h.sweep sw hsw
    refine ⟨?_, ?_, ?_⟩
    · rw [htracker, htouched]
      exact hcold.seeds
    · rw [htracker]
      exact hcold.ahead
    · rw [htracker]
      exact hcold.hand

/-- The names a touch reaches, under the condition. -/
theorem reached_inTime {name : String} {now : Int} (h : s.touchInTime name now = true) {n : String}
    (hr : s.tracker.reaches name n) :
    n ∉ s.ahead ∧ ∀ t, s.touched n = some t → t ≤ now := by
  have hmem : n ∈ name :: (familySibling name).toList := by
    rcases hr with rfl | ⟨hs, -⟩
    · exact List.mem_cons_self
    · exact List.mem_cons_of_mem _ (by simp [hs])
  have hn := List.all_eq_true.mp h n hmem
  simp only [hr, decide_true, Bool.not_true, Bool.false_or, Bool.and_eq_true,
    decide_eq_true_eq] at hn
  refine ⟨hn.1, fun t ht => ?_⟩
  have := hn.2
  rw [ht] at this
  exact of_decide_eq_true this

section

variable (h : Clocked retention s)
include h

/-- A touch or a pin: the entries it reaches get the time it has read. -/
theorem Clocked.touch {name : String} {now : Int} (hnow : now ≤ s.clock)
    (hin : s.touchInTime name now = true) (htouched : s'.touched = s.record name now)
    (hsweep : s'.sweep = s.sweep) (hclock : s'.clock = s.clock)
    (hreach : ∀ n, s.tracker.reaches name n → ∃ e, s'.tracker.get n = some e ∧ e.lastAccess = now)
    (hother : ∀ n, ¬ s.tracker.reaches name n → s'.tracker.get n = s.tracker.get n) :
    Clocked retention s' := by
  have hrec : ∀ n, s.tracker.reaches name n → s'.touched n = some now := by
    intro n hr
    rw [htouched, record, if_pos hr]
    cases ht : s.touched n with
    | none => simp
    | some t => simp [(reached_inTime hin hr).2 t ht]
  have hkeep : ∀ n, ¬ s.tracker.reaches name n → s'.touched n = s.touched n := by
    intro n hr
    rw [htouched, record, if_neg hr]
  refine ⟨fun n t ht => ?_, fun n e he t ht => ?_, fun sw hsw => ?_⟩
  · rw [hclock]
    by_cases hr : s.tracker.reaches name n
    · rw [hrec n hr] at ht
      rw [← Option.some.inj ht]
      exact hnow
    · rw [hkeep n hr] at ht
      exact h.past n t ht
  · by_cases hr : s.tracker.reaches name n
    · obtain ⟨e', he', hlast⟩ := hreach n hr
      rw [he] at he'
      rw [hrec n hr] at ht
      rw [Option.some.inj he', hlast, Option.some.inj ht]
    · rw [hkeep n hr] at ht
      rw [hother n hr] at he
      exact h.tracked n e he t ht
  · rw [hsweep] at hsw
    have hcold := h.sweep sw hsw
    have hahead : s.ahead = sw.pos.ahead := by
      rw [ahead, hsw]
    refine ⟨fun hseed n hn t ht => ?_, fun n hn e he => ?_, fun n left failed hpos => ?_⟩
    · by_cases hr : s.tracker.reaches name n
      · obtain ⟨e', he', -⟩ := hreach n hr
        rw [hn] at he'
        cases he'
      · rw [hkeep n hr] at ht
        rw [hother n hr] at hn
        exact hcold.seeds hseed n hn t ht
    · have hr : ¬ s.tracker.reaches name n :=
        fun hr => (reached_inTime hin hr).1 (hahead ▸ hn)
      rw [hother n hr] at he
      exact hcold.ahead n hn e he
    · by_cases hr : s.tracker.reaches name n
      · obtain ⟨e', he', -⟩ := hreach n hr
        rw [he']
        rfl
      · rw [hother n hr]
        exact hcold.hand n left failed hpos

/-- An unpin leaves every clock as it is. -/
theorem Clocked.unpin (name : String) (acked : List String) :
    Clocked retention { s with tracker := s.tracker.unpin name, acked := acked } := by
  have hget : ∀ n, ((s.tracker.unpin name).get n).map (·.lastAccess) =
      (s.tracker.get n).map (·.lastAccess) := by
    intro n
    rw [Tracker.get_unpin]
    split
    · rw [Option.map_map]
      rfl
    · rfl
  have hsame : ∀ n e, (s.tracker.unpin name).get n = some e →
      ∃ e₀, s.tracker.get n = some e₀ ∧ e₀.lastAccess = e.lastAccess := by
    intro n e he
    have := hget n
    rw [he] at this
    exact Option.map_eq_some_iff.mp this.symm
  refine ⟨h.past, fun n e he t ht => ?_, fun sw hsw => ?_⟩
  · obtain ⟨e₀, he₀, hlast⟩ := hsame n e he
    rw [← hlast]
    exact h.tracked n e₀ he₀ t ht
  · have hcold := h.sweep sw hsw
    refine ⟨fun hseed n hn t ht => ?_, fun n hn e he => ?_, fun n left failed hpos => ?_⟩
    · refine hcold.seeds hseed n ?_ t ht
      have := hget n
      rw [show (s.tracker.unpin name).get n = none from hn] at this
      exact Option.map_eq_none_iff.mp this.symm
    · obtain ⟨e₀, he₀, hlast⟩ := hsame n e he
      rw [← hlast]
      exact hcold.ahead n hn e₀ he₀
    · have := congrArg Option.isSome (hget n)
      rw [Option.isSome_map, Option.isSome_map] at this
      exact this.trans (hcold.hand n left failed hpos)

/-! ### Steps of the sweep -/

/-- The sweep moves on and the clocks stay. -/
theorem Clocked.sweepTo {pos : SweepAt} (hseed : ¬ seeding pos)
    (hahead : ∀ n ∈ pos.ahead, ∀ e, s.tracker.get n = some e →
      e.lastAccess < sw.now - retention)
    (hhand : ∀ n left failed, pos = .checked n left failed → (s.tracker.get n).isSome = true) :
    Clocked retention (s.sweepTo sw pos) := by
  refine ⟨h.past, h.tracked, fun sw' hsw' => ?_⟩
  obtain rfl := Option.some.inj hsw'
  exact ⟨fun hs => absurd hs hseed, hahead, hhand⟩

theorem Clocked.reconcile (hsw : s.sweep = some sw) {names : List String}
    (hpos : sw.pos = .listed names) :
    Clocked retention
      { s.sweepTo sw .reconciled with tracker := s.tracker.reconcile names sw.now } := by
  have hcold := h.sweep sw hsw
  refine ⟨h.past, fun n e he t ht => ?_, fun sw' hsw' => ?_⟩
  · rw [Tracker.get_reconcile] at he
    split at he
    · cases hn : s.tracker.get n with
      | some e₀ =>
        rw [hn] at he
        obtain rfl : e₀ = e := Option.some.inj he
        exact h.tracked n e₀ hn t ht
      | none =>
        -- seeded with the time the sweep began, which is after every touch
        rw [hn] at he
        rw [← Option.some.inj he]
        refine hcold.seeds ?_ n hn t ht
        rw [hpos]
        trivial
    · cases he
  · obtain rfl := Option.some.inj hsw'
    refine ⟨fun hs => hs.elim, fun n hn => ?_, fun n left failed hp => ?_⟩
    · cases hn
    · cases hp

theorem Clocked.forget (hsw : s.sweep = some sw) {name : String}
    {left failed : List String} (hpos : sw.pos = .deleted name left failed) :
    Clocked retention
      { s.sweepTo sw (.deleting left failed) with tracker := s.tracker.forget name } := by
  have hcold := h.sweep sw hsw
  have hget : ∀ n e, (s.tracker.forget name).get n = some e → s.tracker.get n = some e := by
    intro n e he
    rw [Tracker.get_forget] at he
    split at he
    · cases he
    · exact he
  refine ⟨h.past, fun n e he => h.tracked n e (hget n e he), fun sw' hsw' => ?_⟩
  obtain rfl := Option.some.inj hsw'
  refine ⟨fun hs => hs.elim, fun n hn e he => ?_, fun n left failed hp => ?_⟩
  · refine hcold.ahead n ?_ e (hget n e he)
    rw [hpos]
    exact hn
  · cases hp

theorem Clocked.sweepNext (hsw : s.sweep = some sw)
    (hs : SweepStep retention s sw s') : Clocked retention s' := by
  have hcold := h.sweep sw hsw
  cases hs with
  | refused | finish =>
    refine ⟨h.past, h.tracked, fun sw' hsw' => ?_⟩
    cases hsw'
  | list hpos =>
    refine ⟨h.past, h.tracked, fun sw' hsw' => ?_⟩
    obtain rfl := Option.some.inj hsw'
    refine ⟨fun _ => hcold.seeds ?_, fun n hn => ?_, fun n left failed hp => ?_⟩
    · rw [hpos]
      trivial
    · cases hn
    · cases hp
  | reconcile names hpos => exact h.reconcile hsw hpos
  | expire =>
    refine h.sweepTo id (fun n hn e he => ?_) (fun n left failed hp => by cases hp)
    obtain ⟨e', he', -, -, hlast⟩ := Tracker.isExpired_iff.mp (Tracker.mem_expired.mp hn)
    rw [he] at he'
    rw [Option.some.inj he']
    exact hlast
  | skip name left failed hpos | fail name left failed failed' hpos =>
    refine h.sweepTo id (fun n hn => hcold.ahead n ?_) (fun n left failed hp => by cases hp)
    rw [hpos]
    exact List.mem_cons_of_mem _ hn
  | check name left failed hpos hfailed e he =>
    refine h.sweepTo id (fun n hn => hcold.ahead n ?_) (fun n left' failed' hp' => ?_)
    · rw [hpos]
      exact hn
    · obtain ⟨rfl, -, -⟩ := SweepAt.checked.inj hp'
      rw [he]
      rfl
  | delete name left failed hpos =>
    have hto : Clocked retention (s.sweepTo sw (.deleted name left failed)) := by
      refine h.sweepTo id (fun n hn => hcold.ahead n ?_) (fun n left failed hp => by cases hp)
      rw [hpos]
      exact List.mem_cons_of_mem _ hn
    exact hto.beside rfl rfl rfl le_rfl
  | forget name left failed hpos => exact h.forget hsw hpos

theorem Clocked.load {corrupt : Bool}
    (hsafe : touchSafe s (.load corrupt) = true) :
    Clocked retention
      { s with
        tracker := if corrupt then [] else s.snapshot.getD []
        flushes := [], sweep := none, pins := [], writers := [] } := by
  refine ⟨h.past, fun n e he t ht => ?_, fun sw hsw => ?_⟩
  · cases corrupt with
    | true => cases he
    | false =>
      have hmem := List.all_eq_true.mp hsafe (n, e) (Assoc.mem_of_lookup he)
      rw [show s.touched n = some t from ht] at hmem
      exact of_decide_eq_true hmem
  · cases hsw

theorem Clocked.step (hsafe : TouchSafe s a)
    (hs : StepRule retention s a s') : Clocked retention s' := by
  cases hs with
  | aside _ ha _ htracker hrefs hsweep hpins hacked htouched hclock =>
    exact h.beside htracker htouched hsweep hclock
  | touch name now hnow =>
    refine h.touch hnow hsafe rfl rfl rfl (fun n hr => ?_) (fun n hr => ?_)
    · refine ⟨_, (Tracker.get_touch _ _ _ _).trans (if_pos hr), ?_⟩
      cases s.tracker.get n <;> rfl
    · exact (Tracker.get_touch _ _ _ _).trans (if_neg hr)
  | pinMark i r hi now hnow name hfound =>
    simp only [TouchSafe, touchSafe, hi, Option.bind_some, hfound] at hsafe
    refine h.touch hnow hsafe rfl rfl rfl (fun n hr => ?_) (fun n hr => ?_)
    · refine ⟨_, (Tracker.get_pin _ _ _ _).trans (if_pos hr), ?_⟩
      cases s.tracker.get n <;> rfl
    · exact (Tracker.get_pin _ _ _ _).trans (if_neg hr)
  | unpin name => exact h.unpin name _
  | load => exact h.load hsafe
  | sweepStart =>
    refine ⟨h.past, h.tracked, fun sw hsw => ?_⟩
    obtain rfl := Option.some.inj hsw
    refine ⟨fun _ n _ t ht => h.past n t ht, fun n hn => ?_, fun n left failed hp => ?_⟩
    · cases hn
    · cases hp
  | sweep sw hsw err _ hstep => exact h.sweepNext hsw hstep
  | _ => exact h.beside rfl rfl rfl le_rfl

end

/-! ### The result -/

/-- Only a sweep deletes a ref, and only the one in its hand. -/
theorem StepRule.deletes (h : StepRule retention s a s') {name : String} (hold : name ∈ s.refs)
    (hgone : name ∉ s'.refs) :
    ∃ sw left failed, s.sweep = some sw ∧ sw.pos = .checked name left failed := by
  cases h with
  | aside _ ha _ htracker hrefs =>
    exact absurd (hrefs ▸ hold) hgone
  | put | beginWrite | endWrite => exact absurd (List.mem_insert_of_mem hold) hgone
  | sweep sw hsw err _ hstep =>
    cases hstep with
    | delete n left failed hpos =>
      have hn : name = n := by
        by_contra hne
        exact hgone (List.mem_filter.mpr ⟨hold, decide_eq_true hne⟩)
      exact ⟨sw, left, failed, hsw, hn ▸ hpos⟩
    | _ => exact absurd hold hgone
  | _ => exact absurd hold hgone

theorem Reached.clocked {refs : List String} {snapshot : Option Tracker}
    (h : Reached retention TouchSafe refs snapshot s) : Clocked retention s := by
  refine Run.Steps.inv h ⟨fun n t ht => ?_, fun n e _ t ht => ?_,
    fun sw hsw => ?_⟩ ?_
  · cases ht
  · cases ht
  · cases hsw
  · intro s a s' hi hp hs
    exact hi.step hp (step_rule retention hs)

/-- **No live ref is swept**, in every run in which no touch comes between the expiry list and
the deletion: a ref goes only if its last touch is older than the retention window, counted
from the start of the sweep. -/
theorem no_live_ref_is_swept {refs : List String} {snapshot : Option Tracker}
    (h : Reached retention TouchSafe refs snapshot s) (hs : s.step retention a = some s')
    {name : String} (hold : name ∈ s.refs) (hgone : name ∉ s'.refs) :
    ∃ sw, s.sweep = some sw ∧ ∀ t, s.touched name = some t → t < sw.now - retention := by
  have hclocked := Reached.clocked h
  obtain ⟨sw, left, failed, hsw, hpos⟩ := (step_rule retention hs).deletes hold hgone
  have hcold := hclocked.sweep sw hsw
  obtain ⟨e, he⟩ := Option.isSome_iff_exists.mp (hcold.hand name left failed hpos)
  refine ⟨sw, hsw, fun t ht => ?_⟩
  have hlast := hcold.ahead name (by rw [hpos]; exact List.mem_cons_self) e he
  exact lt_of_le_of_lt (hclocked.tracked name e he t ht) hlast

/-- A ref that was read at time 3 goes in a sweep at time 14. -/
theorem no_live_ref_is_swept_read_once : ∃ s s' : Gc,
    step 10 s (.sweepNext false) = some s' ∧ "a" ∈ s.refs ∧ "a" ∉ s'.refs ∧
    s.touched "a" = some 3 ∧
    ∃ sw, s.sweep = some sw ∧ ∀ t, s.touched "a" = some t → t < sw.now - 10 := by
  have hrun : ∃ s ∈ Run.runIf (step 10) touchSafe (init ["a"] none)
      ([.tick 3, .touch "a" 3, .flush, .flushed 0, .load false, .tick 11] ++ sweepRun 4),
      "a" ∈ s.refs ∧ s.touched "a" = some 3 ∧
        ∃ s' ∈ step 10 s (.sweepNext false), "a" ∉ s'.refs := by
    decide +kernel
  obtain ⟨s, hs, hold, ht, s', hs', hgone⟩ := hrun
  have hreach := Run.Steps.of_checked hs
  exact ⟨s, s', hs', hold, hgone, ht, no_live_ref_is_swept hreach hs' hold hgone⟩

/-- The name is on the expiry list, it is read, and the sweep deletes it. -/
theorem swept_after_read : ∃ s s' : Gc, Reached 10 Run.Always ["a"] none s ∧
    step 10 s (.sweepNext false) = some s' ∧ "a" ∈ s.refs ∧ "a" ∉ s'.refs ∧
    ∃ sw t, s.sweep = some sw ∧ s.touched "a" = some t ∧ ¬ t < sw.now - 10 := by
  have hrun : ∃ s ∈ Run.run (step 10) (init ["a"] none)
      (sweepRun 4 ++ [.tick 11] ++ sweepRun 3 ++ [.touch "a" 11, .sweepNext false]),
      "a" ∈ s.refs ∧ s.touched "a" = some 11 ∧ (∃ sw ∈ s.sweep, sw.now = 11) ∧
        ∃ s' ∈ step 10 s (.sweepNext false), "a" ∉ s'.refs := by
    decide +kernel
  obtain ⟨s, hs, hold, ht, ⟨sw, hsw, hnow⟩, s', hs', hgone⟩ := hrun
  exact ⟨s, s', Run.Steps.of_run _ hs, hs', hold, hgone, sw, 11, hsw, ht, by omega⟩

/-- A sweep takes up no protected name. -/
theorem StepRule.spares (h : StepRule retention s a s') {n : String} (hp : isProtected n = true)
    (hs : n ∉ s.ahead) : n ∉ s'.ahead := by
  intro hn
  cases h with
  | aside _ _ _ _ _ hsweep => exact hs (by rwa [ahead, ← hsweep])
  | load | sweepStart => cases hn
  | sweep sw hsw _ _ h =>
    simp only [ahead, hsw] at hs
    cases h with
    | refused | list | reconcile | finish => cases hn
    | expire =>
      obtain ⟨e, -, -, hfree, -⟩ := Tracker.isExpired_iff.mp (Tracker.mem_expired.mp hn)
      simp [hp] at hfree
    | check _ _ _ h | forget _ _ _ h => exact hs (h ▸ hn)
    | skip _ _ _ h | fail _ _ _ _ h | delete _ _ _ h => exact hs (h ▸ List.mem_cons_of_mem _ hn)
  | _ => exact hs hn

/-- **Protected refs stay**, however sweeps, writes, touches, pins and restarts interleave, and
no sweep has one ahead of it. -/
theorem protected_refs_stay (refs : List String) (snapshot : Option Tracker) (as : List Label) :
    (Run.run (step retention) (init refs snapshot) as).all fun s =>
      refs.filter isProtected ⊆ s.refs ∧ ∀ n ∈ s.ahead, isProtected n = false := by
  simp only [Option.all_eq_true, decide_eq_true_eq]
  intro s hrun
  refine Run.Steps.inv (I := fun s => refs.filter isProtected ⊆ s.refs ∧
    ∀ n ∈ s.ahead, isProtected n = false) (Run.Steps.of_run _ hrun)
    ⟨fun n hn => (List.mem_filter.mp hn).1, nofun⟩ fun s a s' hi _ hs => ?_
  have hr := step_rule retention hs
  refine ⟨fun n hn => ?_, fun n hn => ?_⟩
  · by_contra hgone
    obtain ⟨sw, left, failed, hsw, hpos⟩ := hr.deletes (hi.1 hn) hgone
    have hfree := hi.2 n (by simp [ahead, hsw, hpos, SweepAt.ahead])
    simp [hfree] at hn
  · by_contra hp
    rw [Bool.not_eq_false] at hp
    exact hr.spares hp (fun hold => by simp [hi.2 n hold] at hp) hn

end Gc

end JobsIroh
