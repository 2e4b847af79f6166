/-
A build output is never in the store without its deps, while refs expire.

Writers put the deps first and sweeps delete the output first.  That is not enough.
The entry of the deps may have the older clock, an output may be written again
after the sweep has deleted it and before it has got to the deps, and a pin that made
the sweep pass over the output may be taken back before it gets to the deps.  The
conditions below say that none of these happens, in terms of what the running sweep
still has to go through.
-/
import JobsIroh.Proofs.GcSteps

namespace JobsIroh

/-! ### The conditions -/

namespace Gc

variable {retention : Int} {s s' : Gc} {sw : Sweep} {a : Label}

/-- An output in the store whose deps are tracked is tracked too, and its deps have been used
no longer ago and are pinned if it is. -/
def familiesAgree (s : Gc) : Bool :=
  s.refs.all fun name =>
    match Text.cutPrefix outputPrefix name with
    | none => true
    | some x =>
      match s.tracker.get (depsPrefix ++ x), s.tracker.get name with
      | none, _ => true
      | some d, some e => e.lastAccess ≤ d.lastAccess && (!e.pinned || d.pinned)
      | some _, none => false

/-- What keeps a family together, as a condition on the state a step is taken in. -/
def familySafe (s : Gc) : Label → Bool
  | .endWrite i =>
    match s.writers[i]? with
    | some x => outputPrefix ++ x ∈ s.refs || depsPrefix ++ x ∉ s.ahead
    | none => true
  | .unpin name =>
    name ∉ s.ahead &&
      match familySibling name with
      | some sib => sib ∉ s.ahead
      | none => true
  | .sweepNext _ =>
    match s.sweep with
    | some ⟨_, .reconciled⟩ => s.familiesAgree
    | some ⟨_, .checked name _ _⟩ =>
      match Text.cutPrefix depsPrefix name with
      | some x => x ∉ s.writers
      | none => true
    | _ => true
  | _ => true

/-- An output is written only by a writer that has put its deps. -/
def depsFirst : Label → Bool
  | .put name => (Text.cutPrefix outputPrefix name).isNone
  | _ => true

def FamilySafe (s : Gc) (a : Label) : Prop := depsFirst a = true ∧ familySafe s a = true

/-! ### The invariant -/

/-- What holds of the names a sweep has still to go through; `hand` is the name it is about to
delete. -/
structure Ordered (s : Gc) (hand left failed : List String) : Prop where
  nodup : (hand ++ left).Nodup
  sorted : left.Pairwise Tracker.sweepsBefore
  tracked : ∀ n ∈ left, (s.tracker.get n).isSome = true
  /-- A pin of an output the sweep will pass over has reached the deps. -/
  pins : ∀ x, depsPrefix ++ x ∈ left → outputPrefix ++ x ∈ left →
    Pinned s (outputPrefix ++ x) → Pinned s (depsPrefix ++ x)
  /-- If the sweep gets to the deps, it has dealt with the output. -/
  covered : ∀ x, depsPrefix ++ x ∈ left → outputPrefix ++ x ∈ s.refs →
    outputPrefix ++ x ∈ hand ∨ outputPrefix ++ x ∈ left ∨ outputPrefix ++ x ∈ failed ∨
      Pinned s (depsPrefix ++ x)

/-- What holds of a sweep where it stands. -/
def OrderedAt (s : Gc) : SweepAt → Prop
  | .deleting left failed => Ordered s [] left failed
  | .checked name left failed =>
    Ordered s [name] left failed ∧ ∀ x, name = depsPrefix ++ x → outputPrefix ++ x ∉ s.refs
  | .deleted name left failed => Ordered s [] left failed ∧ name ∉ left
  | _ => True

structure Family (s : Gc) : Prop where
  deps : ∀ x, outputPrefix ++ x ∈ s.refs → depsPrefix ++ x ∈ s.refs
  writers : ∀ x ∈ s.writers, depsPrefix ++ x ∈ s.refs
  sweep : ∀ sw, s.sweep = some sw → OrderedAt s sw.pos

/-! ### Steps beside the sweep -/

/-- A change that leaves the names ahead of a sweep as they were, as far as it matters. -/
structure Beside (s s' : Gc) (names : List String) : Prop where
  tracked : ∀ n ∈ names, (s.tracker.get n).isSome = true → (s'.tracker.get n).isSome = true
  depsPinned : ∀ x, depsPrefix ++ x ∈ names → Pinned s (depsPrefix ++ x) →
    Pinned s' (depsPrefix ++ x)
  outputPinned : ∀ x, depsPrefix ++ x ∈ names → outputPrefix ++ x ∈ names →
    (s.tracker.get (depsPrefix ++ x)).isSome = true →
    Pinned s' (outputPrefix ++ x) → Pinned s (outputPrefix ++ x) ∨ Pinned s' (depsPrefix ++ x)
  written : ∀ x, depsPrefix ++ x ∈ names → outputPrefix ++ x ∈ s'.refs → outputPrefix ++ x ∈ s.refs

theorem Beside.mono {names names' : List String} (h : Beside s s' names)
    (hsub : ∀ n ∈ names', n ∈ names) : Beside s s' names' :=
  ⟨fun n hn => h.tracked n (hsub n hn), fun x hx => h.depsPinned x (hsub _ hx),
    fun x hx ho => h.outputPinned x (hsub _ hx) (hsub _ ho), fun x hx => h.written x (hsub _ hx)⟩

theorem Ordered.beside {hand left failed : List String} (h : Ordered s hand left failed)
    (hb : Beside s s' left) : Ordered s' hand left failed := by
  refine ⟨h.nodup, h.sorted, fun n hn => hb.tracked n hn (h.tracked n hn), fun x hd ho hp => ?_,
    fun x hd ho => ?_⟩
  · rcases hb.outputPinned x hd ho (h.tracked _ hd) hp with hold | hnew
    · exact hb.depsPinned x hd (h.pins x hd ho hold)
    · exact hnew
  · rcases h.covered x hd (hb.written x hd ho) with hh | hl | hf | hp
    · exact Or.inl hh
    · exact Or.inr (Or.inl hl)
    · exact Or.inr (Or.inr (Or.inl hf))
    · exact Or.inr (Or.inr (Or.inr (hb.depsPinned x hd hp)))

theorem OrderedAt.beside {pos : SweepAt} (h : OrderedAt s pos) (hb : Beside s s' pos.ahead) :
    OrderedAt s' pos := by
  cases pos with
  | deleting => exact Ordered.beside h hb
  | checked =>
    refine ⟨h.1.beside (hb.mono fun n hn => List.mem_cons_of_mem _ hn), fun x hx ho => ?_⟩
    refine h.2 x hx (hb.written x ?_ ho)
    rw [← hx]
    exact List.mem_cons_self
  | deleted => exact ⟨h.1.beside hb, h.2⟩
  | _ => trivial

/-- A step that leaves the sweep where it is. -/
theorem Family.beside (h : Family s) (hsweep : s'.sweep = s.sweep) (hb : Beside s s' s.ahead)
    (hdeps : ∀ x, outputPrefix ++ x ∈ s'.refs → depsPrefix ++ x ∈ s'.refs)
    (hwriters : ∀ x ∈ s'.writers, depsPrefix ++ x ∈ s'.refs) : Family s' := by
  refine ⟨hdeps, hwriters, fun sw hsw => ?_⟩
  rw [hsweep] at hsw
  refine (h.sweep sw hsw).beside ?_
  rw [ahead, hsw] at hb
  exact hb

variable {names : List String}

/-- The entries are the same, and the only new outputs are those with no deps ahead. -/
theorem Beside.of_get (hget : ∀ n ∈ names, s'.tracker.get n = s.tracker.get n)
    (hw : ∀ x, depsPrefix ++ x ∈ names → outputPrefix ++ x ∈ s'.refs → outputPrefix ++ x ∈ s.refs) :
    Beside s s' names := by
  refine ⟨fun n hn h => ?_, fun x hn h => ?_, fun x _ hn _ h => Or.inl ?_, hw⟩
  · rw [hget n hn]
    exact h
  · rw [Pinned, hget _ hn]
    exact h
  · rw [Pinned, hget _ hn] at h
    exact h

theorem Beside.of_tracker (ht : s'.tracker = s.tracker)
    (hw : ∀ x, depsPrefix ++ x ∈ names → outputPrefix ++ x ∈ s'.refs → outputPrefix ++ x ∈ s.refs) :
    Beside s s' names :=
  of_get (fun n _ => by rw [ht]) hw

theorem Beside.touch {name : String} {now : Int}
    (ht : s'.tracker = s.tracker.touch name now) (hr : s'.refs = s.refs) : Beside s s' names := by
  refine ⟨fun n _ h => ?_, fun x _ h => (pinned_touch ht _).mpr h,
    fun x _ _ _ h => Or.inl ((pinned_touch ht _).mp h), fun x _ h => hr ▸ h⟩
  rw [ht, Tracker.get_touch]
  split
  · rfl
  · exact h

/-- A pin of one of a family reaches a tracked deps name. -/
theorem reaches_deps {t : Tracker} {name x : String}
    (htracked : (t.get (depsPrefix ++ x)).isSome = true)
    (h : t.reaches name (outputPrefix ++ x)) : t.reaches name (depsPrefix ++ x) := by
  rcases h with rfl | ⟨hs, -⟩
  · exact Or.inr ⟨familySibling_output x, htracked⟩
  · refine Or.inl ?_
    unfold familySibling at hs
    split at hs
    · rename_i y hy
      rw [Text.cutPrefix_eq_some_iff.mp hy]
      exact congrArg (depsPrefix ++ ·) (String.append_right_inj _ |>.mp (Option.some.inj hs)).symm
    · obtain ⟨y, -, hy⟩ := Option.map_eq_some_iff.mp hs
      exact absurd hy (deps_ne_output y x)

theorem Beside.pin {name : String} {now : Int}
    (ht : s'.tracker = s.tracker.pin name now) (hr : s'.refs = s.refs) : Beside s s' names := by
  refine ⟨fun n _ h => ?_, fun x _ h => (pinned_pin ht _).mpr (Or.inr h), fun x _ _ htr h => ?_,
    fun x _ h => hr ▸ h⟩
  · rw [ht, Tracker.get_pin]
    split
    · rfl
    · exact h
  · rcases (pinned_pin ht _).mp h with hreach | hold
    · exact Or.inr ((pinned_pin ht _).mpr (Or.inl (reaches_deps htr hreach)))
    · exact Or.inl hold

theorem Beside.unpin {name : String} (ht : s'.tracker = s.tracker.unpin name)
    (hr : s'.refs = s.refs) (hn : name ∉ names)
    (hs : ∀ sib, familySibling name = some sib → sib ∉ names) :
    Beside s s' names := by
  refine of_get (fun n hmem => ?_) fun x _ h => hr ▸ h
  rw [ht, Tracker.get_unpin, if_neg]
  rintro (rfl | hsib)
  · exact hn hmem
  · exact hs n hsib hmem

/-! ### Steps of the sweep -/

theorem outputFailed_deps (failed : List String) (x : String) :
    outputFailed failed (depsPrefix ++ x) = decide (outputPrefix ++ x ∈ failed) := by
  rw [outputFailed, depsOutputName, Text.cutPrefix_append]
  rfl

theorem outputFailed_output (failed : List String) (x : String) :
    outputFailed failed (outputPrefix ++ x) = false := by
  rw [outputFailed, depsOutputName, Text.cutPrefix_of_incomparable prefixes_incomparable]
  rfl

/-- An output in the store whose deps have expired has expired too. -/
theorem expired_of_agree (hagree : s.familiesAgree = true) {now : Int} {x : String}
    (hout : outputPrefix ++ x ∈ s.refs)
    (hdeps : depsPrefix ++ x ∈ s.tracker.expired retention now) :
    outputPrefix ++ x ∈ s.tracker.expired retention now := by
  obtain ⟨d, hd, hpin, -, hlast⟩ := Tracker.isExpired_iff.mp (Tracker.mem_expired.mp hdeps)
  have h := List.all_eq_true.mp hagree _ hout
  rw [Text.cutPrefix_append] at h
  dsimp only at h
  rw [hd] at h
  cases he : s.tracker.get (outputPrefix ++ x) with
  | none => simp [he] at h
  | some e =>
    simp only [he, hpin, Bool.or_false, Bool.and_eq_true, Bool.not_eq_true', decide_eq_true_eq] at h
    exact Tracker.mem_expired.mpr (Tracker.isExpired_iff.mpr
      ⟨e, he, h.2, isProtected_output x, by omega⟩)

theorem Ordered.of_expired (hagree : s.familiesAgree = true) (now : Int) :
    Ordered s [] (s.tracker.expired retention now) [] := by
  refine ⟨Tracker.expired_nodup _ _ _, Tracker.expired_sorted _ _ _, fun n hn => ?_,
    fun x _ hout hp => ?_, fun x hd hout => Or.inr (Or.inl (expired_of_agree hagree hout hd))⟩
  · obtain ⟨e, he, -⟩ := Tracker.isExpired_iff.mp (Tracker.mem_expired.mp hn)
    rw [he]
    rfl
  · obtain ⟨e, he, hpin, -⟩ := Tracker.isExpired_iff.mp (Tracker.mem_expired.mp hout)
    obtain ⟨e', he', hpin'⟩ := hp
    rw [he] at he'
    rw [← Option.some.inj he', hpin] at hpin'
    cases hpin'

variable {name : String} {left failed : List String}

/-- The sweep passes over a name. -/
theorem Ordered.skip (h : Ordered s [] (name :: left) failed)
    (hskip : outputFailed failed name = true ∨ ∀ e, s.tracker.get name = some e → e.pinned = true) :
    Ordered s [] left failed := by
  refine ⟨(List.nodup_cons.mp h.nodup).2, (List.pairwise_cons.mp h.sorted).2,
    fun n hn => h.tracked n (List.mem_cons_of_mem _ hn),
    fun x hd ho => h.pins x (List.mem_cons_of_mem _ hd) (List.mem_cons_of_mem _ ho),
    fun x hd ho => ?_⟩
  have hd' := List.mem_cons_of_mem name hd
  rcases h.covered x hd' ho with hh | hl | hf | hp
  · cases hh
  · rcases List.mem_cons.mp hl with rfl | hl'
    · -- the output was passed over: it is pinned, and so are its deps
      refine Or.inr (Or.inr (Or.inr (h.pins x hd' List.mem_cons_self ?_)))
      obtain ⟨e, he⟩ := Option.isSome_iff_exists.mp (h.tracked _ List.mem_cons_self)
      rcases hskip with hf | hpin
      · rw [outputFailed_output] at hf
        cases hf
      · exact ⟨e, he, hpin e he⟩
    · exact Or.inr (Or.inl hl')
  · exact Or.inr (Or.inr (Or.inl hf))
  · exact Or.inr (Or.inr (Or.inr hp))

/-- The sweep takes a name up. -/
theorem Ordered.check (h : Ordered s [] (name :: left) failed)
    (hfailed : outputFailed failed name = false) {e : Entry} (he : s.tracker.get name = some e)
    (hp : e.pinned = false) :
    Ordered s [name] left failed ∧ ∀ x, name = depsPrefix ++ x → outputPrefix ++ x ∉ s.refs := by
  refine ⟨⟨h.nodup, (List.pairwise_cons.mp h.sorted).2,
    fun n hn => h.tracked n (List.mem_cons_of_mem _ hn),
    fun x hd ho => h.pins x (List.mem_cons_of_mem _ hd) (List.mem_cons_of_mem _ ho),
    fun x hd ho => ?_⟩, fun x hx hout => ?_⟩
  · rcases h.covered x (List.mem_cons_of_mem _ hd) ho with hh | hl | hrest
    · cases hh
    · rcases List.mem_cons.mp hl with rfl | hl'
      · exact Or.inl (List.mem_singleton_self _)
      · exact Or.inr (Or.inl hl')
    · exact Or.inr (Or.inr hrest)
  · subst hx
    rcases h.covered x List.mem_cons_self hout with hh | hl | hf | ⟨e', he', hpin⟩
    · cases hh
    · -- outputs come first in the list
      rcases List.mem_cons.mp hl with heq | hl'
      · exact deps_ne_output x x heq.symm
      · exact Tracker.not_sweepsBefore x x ((List.pairwise_cons.mp h.sorted).1 _ hl')
    · rw [outputFailed_deps, decide_eq_false_iff_not] at hfailed
      exact hfailed hf
    · rw [he] at he'
      rw [← Option.some.inj he', hp] at hpin
      cases hpin

/-- A step of the sweep that leaves the refs alone. -/
theorem Family.moved (h : Family s) (hrefs : s'.refs = s.refs) (hwriters : s'.writers = s.writers)
    (hsw : s'.sweep = some sw) (hat : OrderedAt s' sw.pos) : Family s' := by
  refine ⟨?_, ?_, fun sw' hsw' => ?_⟩
  · rw [hrefs]
    exact h.deps
  · rw [hrefs, hwriters]
    exact h.writers
  · obtain rfl := Option.mem_unique hsw hsw'
    exact hat

theorem Family.sweepNext (h : Family s) (hsw : s.sweep = some sw)
    (hsafe : familySafe s (.sweepNext true) = true) (hs : SweepStep retention s sw s') :
    Family s' := by
  have hat := h.sweep sw hsw
  obtain ⟨now, pos⟩ := sw
  simp only [familySafe, hsw] at hsafe
  cases hs with
  | refused | finish =>
    refine ⟨h.deps, h.writers, fun sw hsw => ?_⟩
    cases hsw
  | list | reconcile => exact h.moved rfl rfl rfl trivial
  | expire hpos =>
    obtain rfl : pos = .reconciled := hpos
    refine h.moved rfl rfl rfl ?_
    exact Ordered.beside (Ordered.of_expired hsafe now) (Beside.of_tracker rfl fun _ _ ho => ho)
  | skip name left failed hpos hskip =>
    obtain rfl : pos = .deleting (name :: left) failed := hpos
    refine h.moved rfl rfl rfl ?_
    exact Ordered.beside (Ordered.skip hat hskip) (Beside.of_tracker rfl fun _ _ ho => ho)
  | check name left failed hpos hfailed e he hp =>
    obtain rfl : pos = .deleting (name :: left) failed := hpos
    have hchecked : OrderedAt s (.checked name left failed) := Ordered.check hat hfailed he hp
    exact h.moved rfl rfl rfl <| hchecked.beside (Beside.of_tracker rfl fun _ _ ho => ho)
  | fail name left failed failed' hpos hfailed =>
    obtain rfl : pos = .checked name left failed := hpos
    refine h.moved rfl rfl rfl ⟨(List.nodup_cons.mp hat.1.nodup).2, hat.1.sorted, hat.1.tracked,
      hat.1.pins, fun x hd ho => ?_⟩
    rcases hat.1.covered x hd ho with hh | hl | hf | hp
    · refine Or.inr (Or.inr (Or.inl ?_))
      rw [hfailed, ← List.mem_singleton.mp hh, Text.cutPrefix_append]
      exact List.mem_cons_self
    · exact Or.inr (Or.inl hl)
    · refine Or.inr (Or.inr (Or.inl ?_))
      rw [hfailed]
      split
      · exact List.mem_cons_of_mem _ hf
      · exact hf
    · exact Or.inr (Or.inr (Or.inr hp))
  | delete name left failed hpos =>
    obtain rfl : pos = .checked name left failed := hpos
    obtain ⟨hord, hlast⟩ := hat
    have hkept : ∀ n, n ∈ s.refs.filter (· ≠ name) ↔ n ∈ s.refs ∧ n ≠ name := by
      intro n
      simp [List.mem_filter]
    refine ⟨fun x ho => ?_, fun x hx => ?_, fun sw hsw => ?_⟩
    · have hout := ((hkept _).mp ho).1
      exact (hkept _).mpr ⟨h.deps x hout, fun heq => hlast x heq.symm hout⟩
    · refine (hkept _).mpr ⟨h.writers x hx, fun heq => ?_⟩
      rw [← heq] at hsafe
      simp only [Text.cutPrefix_append, decide_eq_true_eq] at hsafe
      exact hsafe hx
    · obtain rfl := Option.some.inj hsw
      refine ⟨⟨(List.nodup_cons.mp hord.nodup).2, hord.sorted, hord.tracked, hord.pins,
        fun x hd ho => ?_⟩, (List.nodup_cons.mp hord.nodup).1⟩
      obtain ⟨hout, hne⟩ := (hkept _).mp ho
      rcases hord.covered x hd hout with hh | hrest
      · exact absurd (List.mem_singleton.mp hh) hne
      · exact Or.inr hrest
  | forget name left failed hpos =>
    obtain rfl : pos = .deleted name left failed := hpos
    obtain ⟨hord, hnot⟩ := hat
    refine h.moved rfl rfl rfl (hord.beside (Beside.of_get (fun n hn => ?_) fun _ _ ho => ho))
    show (s.tracker.forget name).get n = s.tracker.get n
    rw [Tracker.get_forget, if_neg]
    rintro rfl
    exact hnot hn

/-! ### Every step -/

theorem output_of_insert {n : String} (hn : (Text.cutPrefix outputPrefix n).isNone = true)
    {x : String} {refs : List String} (h : outputPrefix ++ x ∈ refs.insert n) :
    outputPrefix ++ x ∈ refs := by
  rcases List.mem_insert_iff.mp h with rfl | h
  · rw [Text.cutPrefix_append] at hn
    cases hn
  · exact h

/-- A ref that is no output is written. -/
theorem Family.putRef (h : Family s) {n : String}
    (hn : (Text.cutPrefix outputPrefix n).isNone = true) : Family (s.putRef n) := by
  refine h.beside rfl (Beside.of_tracker rfl fun x _ ho => output_of_insert hn ho) (fun x ho => ?_)
    (fun x hx => List.mem_insert_of_mem (h.writers x hx))
  exact List.mem_insert_of_mem (h.deps x (output_of_insert hn ho))

theorem Family.endWrite (h : Family s) {i : Nat} {x : String} (hi : s.writers[i]? = some x)
    (hsafe : familySafe s (.endWrite i) = true) :
    Family { s.putRef (outputPrefix ++ x) with writers := s.writers.eraseIdx i } := by
  simp only [familySafe, hi, Bool.or_eq_true, decide_eq_true_eq] at hsafe
  have hdeps := h.writers x (List.mem_of_getElem? hi)
  have hsame : ∀ y, outputPrefix ++ y = outputPrefix ++ x → y = x :=
    fun y heq => (String.append_right_inj _).mp heq
  refine h.beside rfl (Beside.of_tracker rfl fun y hahead ho => ?_) (fun y ho => ?_)
    (fun y hy => ?_)
  · rcases List.mem_insert_iff.mp ho with heq | ho
    · obtain rfl := hsame y heq
      rcases hsafe with hin | hnot
      · exact hin
      · exact absurd hahead hnot
    · exact ho
  · rcases List.mem_insert_iff.mp ho with heq | ho
    · obtain rfl := hsame y heq
      exact List.mem_insert_of_mem hdeps
    · exact List.mem_insert_of_mem (h.deps y ho)
  · exact List.mem_insert_of_mem (h.writers y (List.mem_of_mem_eraseIdx hy))

theorem Family.unpin (h : Family s) {name : String} (hsafe : familySafe s (.unpin name) = true)
    (acked : List String) :
    Family { s with tracker := s.tracker.unpin name, acked := acked } := by
  simp only [familySafe, Bool.and_eq_true, decide_eq_true_eq] at hsafe
  refine h.beside rfl (Beside.unpin rfl rfl hsafe.1 fun sib hsib => ?_) h.deps h.writers
  have hsib' := hsafe.2
  rw [hsib] at hsib'
  simpa using hsib'

theorem Family.step (h : Family s) (hsafe : FamilySafe s a) (hs : s.step retention a = some s') :
    Family s' := by
  cases step_rule retention hs with
  | aside _ ha _ htracker hrefs hsweep hpins hacked htouched hclock hwriters =>
    refine h.beside hsweep (Beside.of_tracker htracker fun x _ ho => hrefs ▸ ho) ?_ fun x hx => ?_
    · rw [hrefs]
      exact h.deps
    · rw [hrefs]
      exact h.writers x (hwriters x hx)
  | put => exact h.putRef hsafe.1
  | beginWrite x =>
    have hput := h.putRef (n := depsPrefix ++ x)
      (by rw [Text.cutPrefix_of_incomparable prefixes_incomparable.symm, Option.isNone_none])
    refine hput.beside rfl (Beside.of_tracker rfl fun _ _ ho => ho) hput.deps fun y hy => ?_
    rcases List.mem_append.mp hy with hy | hy
    · exact hput.writers y hy
    · rw [List.mem_singleton.mp hy]
      exact List.mem_insert_self
  | endWrite i x hi => exact h.endWrite hi hsafe.2
  | touch => exact h.beside rfl (Beside.touch rfl rfl) h.deps h.writers
  | pinMark =>
    exact h.beside rfl (Beside.pin rfl rfl) h.deps h.writers
  | pinRequest names => exact h.beside rfl (Beside.of_tracker rfl fun _ _ ho => ho) h.deps h.writers
  | unpin => exact h.unpin hsafe.2 _
  | load =>
    refine ⟨h.deps, fun x hx => ?_, fun sw hsw => ?_⟩
    · cases hx
    · cases hsw
  | sweepStart => exact h.moved rfl rfl rfl trivial
  | sweep sw hsw err _ hstep => exact h.sweepNext hsw hsafe.2 hstep
  | _ => exact h.beside rfl (Beside.of_tracker rfl fun _ _ ho => ho) h.deps h.writers

/-- **A build output has its deps**, in every run that starts with that, in which deps are
written first and the running sweep is not overtaken. -/
theorem output_has_deps {refs : List String} {snapshot : Option Tracker}
    (h₀ : ∀ x, outputPrefix ++ x ∈ refs → depsPrefix ++ x ∈ refs)
    (h : Reached retention FamilySafe refs snapshot s) :
    ∀ x, outputPrefix ++ x ∈ s.refs → depsPrefix ++ x ∈ s.refs := by
  have hfam : Family s := by
    refine Run.Steps.inv h ⟨h₀, fun x hx => ?_, fun sw hsw => ?_⟩ ?_
    · cases hx
    · cases hsw
    · intro s a s' hi hp hs
      exact hi.step hp hs
  exact hfam.deps

/-- An output that a sweep has seen and a second sweep fails to delete. -/
theorem output_has_deps_delete_fails : ∃ s : Gc, s.refs.length = 2 ∧
    outputPrefix ++ "x" ∈ s.refs ∧ depsPrefix ++ "x" ∈ s.refs := by
  have hrun : ∃ s ∈ Run.runIf (step 10) (fun s a => depsFirst a && familySafe s a) (init [] none)
      ([.beginWrite "x", .endWrite 0] ++ sweepRun 4 ++ [.tick 11] ++ sweepRun 4 ++
        [.sweepNext true, .sweepNext false, .sweepNext false]),
      s.refs.length = 2 ∧ outputPrefix ++ "x" ∈ s.refs ∧ s.sweep = none := by
    decide +kernel
  obtain ⟨s, hs, hlen, hout, -⟩ := hrun
  have hreach := (Run.Steps.of_checked hs).mono fun _ _ h => (Bool.and_eq_true _ _).mp h
  exact ⟨s, hlen, hout, output_has_deps (by simp) hreach "x" hout⟩

/-- The sweep deletes the output, the build is published again, and the sweep deletes the
deps. -/
theorem output_without_deps : ∃ s : Gc, Reached 10 (fun _ a => depsFirst a = true) [] none s ∧
    outputPrefix ++ "x" ∈ s.refs ∧ depsPrefix ++ "x" ∉ s.refs := by
  have hrun : ∃ s ∈ Run.runIf (step 10) (fun _ a => depsFirst a) (init [] none)
      ([.beginWrite "x", .endWrite 0] ++ sweepRun 4 ++ [.tick 11] ++ sweepRun 6 ++
        [.beginWrite "x", .endWrite 0] ++ List.replicate 4 (.sweepNext false)),
      outputPrefix ++ "x" ∈ s.refs ∧ depsPrefix ++ "x" ∉ s.refs := by
    decide +kernel
  obtain ⟨s, hs, hprop⟩ := hrun
  exact ⟨s, Run.Steps.of_checked hs, hprop⟩

end Gc

end JobsIroh
