/-
What a snapshot says of a request, and for how long.

A request is reported failed when a node of its closure has failed and its target is not
done.  The search that marks the nodes below a failure is memoised; it is sound, so the
report is exact.  A failed node stays failed and closures only grow, so a failed request
can only be reported differently when its target gets done on top of a failure.  That takes
a job that was published before its inputs were linked.
-/
import JobsIroh.Lib.Assoc
import JobsIroh.Proofs.Pipelines
import JobsIroh.Proofs.Requests

namespace JobsIroh

open Search (Reach)

/-! ### The search for a failure upstream -/

/-- Something that `n` reaches has failed. -/
def Upstream (deps : Nat → List Nat) (failed : Nat → Bool) (n : Nat) : Prop :=
  ∃ m, Reach deps n m ∧ failed m = true

/-- The answers "yes" that are remembered are right. -/
def MemoSound (deps : Nat → List Nat) (failed : Nat → Bool) (memo : List (Nat × Bool)) : Prop :=
  ∀ n, (n, true) ∈ memo → Upstream deps failed n

section

variable {deps : Nat → List Nat} {failed : Nat → Bool} {n d : Nat} {memo : List (Nat × Bool)}

theorem Upstream.dep (h : Upstream deps failed d) (hd : d ∈ deps n) : Upstream deps failed n := by
  obtain ⟨m, hr, hm⟩ := h
  exact ⟨m, Relation.ReflTransGen.head hd hr, hm⟩

theorem MemoSound.cons {b : Bool} (h : MemoSound deps failed memo)
    (hb : b = true → Upstream deps failed n) : MemoSound deps failed ((n, b) :: memo) := by
  intro m hm
  rcases List.mem_cons.mp hm with heq | hm
  · obtain ⟨rfl, rfl⟩ := Prod.mk.inj heq
    exact hb rfl
  · exact h m hm

/-- One dep after the other, up to the first that says yes. -/
theorem foldl_sound {search : Nat → List (Nat × Bool) → Bool × List (Nat × Bool)}
    (hsearch : ∀ d memo, MemoSound deps failed memo → MemoSound deps failed (search d memo).2 ∧
      ((search d memo).1 = true → Upstream deps failed d)) :
    ∀ (l : List Nat) (acc : Bool × List (Nat × Bool)), (∀ d ∈ l, d ∈ deps n) →
      MemoSound deps failed acc.2 → (acc.1 = true → Upstream deps failed n) →
      let r := l.foldl (fun acc d =>
        if acc.1 then acc else if failed d then (true, acc.2) else search d acc.2) acc
      MemoSound deps failed r.2 ∧ (r.1 = true → Upstream deps failed n) := by
  intro l
  induction l with
  | nil => exact fun acc _ hs hu => ⟨hs, hu⟩
  | cons d l ih =>
    intro acc hl hs hu
    have hd := hl d List.mem_cons_self
    have hrest : ∀ d ∈ l, d ∈ deps n := fun x hx => hl x (List.mem_cons_of_mem _ hx)
    rw [List.foldl_cons]
    split
    · exact ih acc hrest hs hu
    · split
      · rename_i hfail
        exact ih _ hrest hs fun _ => ⟨d, Relation.ReflTransGen.single hd, hfail⟩
      · obtain ⟨hs', hu'⟩ := hsearch d acc.2 hs
        exact ih _ hrest hs' fun h => (hu' h).dep hd

theorem upstreamFailed_sound : ∀ (fuel n : Nat) (memo : List (Nat × Bool)),
    MemoSound deps failed memo → MemoSound deps failed (upstreamFailed deps failed fuel n memo).2 ∧
      ((upstreamFailed deps failed fuel n memo).1 = true → Upstream deps failed n) := by
  intro fuel
  induction fuel with
  | zero =>
    intro n memo hs
    exact ⟨hs, by simp [upstreamFailed]⟩
  | succ fuel ih =>
    intro n memo hs
    unfold upstreamFailed
    split
    · rename_i v hv
      refine ⟨hs, fun h => hs n ?_⟩
      rw [← show v = true from h]
      exact Assoc.mem_of_lookup hv
    · obtain ⟨hs', hu'⟩ := foldl_sound ih (deps n) (false, (n, false) :: memo)
        (fun d hd => hd) (hs.cons (by simp)) (by simp)
      exact ⟨hs'.cons hu', hu'⟩

end

/-! ### Reported failures -/

variable {κ : Type} [DecidableEq κ]

/-- The entry makes the request failed. -/
def failedEntry (e : Nat × SnapPhase) : Bool := e.2 = .upstream ∨ e.2 = .own .failed

section

variable {s : State κ} {t : Nat}
omit [DecidableEq κ]

/-- The entry of one node, with what the search has remembered so far. -/
def snapEntry (s : State κ) (acc : List (Nat × SnapPhase) × List (Nat × Bool)) (n : Nat) :
    List (Nat × SnapPhase) × List (Nat × Bool) :=
  if (s.phase n).settled then ((n, .own (s.phase n)) :: acc.1, acc.2)
  else
    let r := upstreamFailed s.graph.deps (fun d => s.phase d = .failed) (s.graph.next + 1) n acc.2
    ((n, if r.1 then .upstream else .own (s.phase n)) :: acc.1, r.2)

/-- A node of the closure has failed. -/
def Stricken (s : State κ) (t : Nat) : Prop := ∃ m, Reach s.graph.deps t m ∧ s.phase m = .failed

theorem snapEntry_spec (acc : List (Nat × SnapPhase) × List (Nat × Bool)) (n : Nat)
    (hs : MemoSound s.graph.deps (fun d => s.phase d = .failed) acc.2) :
    ∃ p memo, snapEntry s acc n = ((n, p) :: acc.1, memo) ∧
      MemoSound s.graph.deps (fun d => s.phase d = .failed) memo ∧
      (failedEntry (n, p) = true → Stricken s n) ∧ (s.phase n = .failed → p = .own .failed) := by
  unfold snapEntry
  split
  · refine ⟨_, _, rfl, hs, fun hf => ?_, fun hph => by rw [hph]⟩
    exact ⟨n, Relation.ReflTransGen.refl, by simpa [failedEntry] using hf⟩
  · rename_i hset
    obtain ⟨hs', hu⟩ := upstreamFailed_sound (s.graph.next + 1) n acc.2 hs
    refine ⟨_, _, rfl, hs', fun hf => ?_, fun hph => ?_⟩
    · split at hf
      · rename_i hyes
        obtain ⟨m, hr, hm⟩ := hu hyes
        exact ⟨m, hr, by simpa using hm⟩
      · exact ⟨n, Relation.ReflTransGen.refl, by simpa [failedEntry] using hf⟩
    · simp [hph, Phase.settled] at hset

/-- The entries of a closure: what is reported failed is on the way to a failure, and a
failed node is reported so. -/
theorem entries_spec : ∀ (l : List Nat) (acc : List (Nat × SnapPhase) × List (Nat × Bool)),
    MemoSound s.graph.deps (fun d => s.phase d = .failed) acc.2 →
    (∀ e ∈ (l.foldl (snapEntry s) acc).1, failedEntry e = true →
        e ∈ acc.1 ∨ e.1 ∈ l ∧ Stricken s e.1) ∧
      (∀ e ∈ acc.1, e ∈ (l.foldl (snapEntry s) acc).1) ∧
      ∀ n ∈ l, s.phase n = .failed → (n, .own .failed) ∈ (l.foldl (snapEntry s) acc).1 := by
  intro l
  induction l with
  | nil => exact fun acc _ => ⟨fun e he _ => Or.inl he, fun e he => he, by simp⟩
  | cons n l ih =>
    intro acc hs
    obtain ⟨p, memo, heq, hmemo, hbad, hown⟩ := snapEntry_spec acc n hs
    rw [List.foldl_cons, heq]
    obtain ⟨h₁, h₂, h₃⟩ := ih ((n, p) :: acc.1, memo) hmemo
    refine ⟨fun e he hf => ?_, fun e he => h₂ e (List.mem_cons_of_mem _ he), fun m hm hph => ?_⟩
    · rcases h₁ e he hf with hold | ⟨hl, hst⟩
      · rcases List.mem_cons.mp hold with rfl | hold
        · exact Or.inr ⟨List.mem_cons_self, hbad hf⟩
        · exact Or.inl hold
      · exact Or.inr ⟨List.mem_cons_of_mem _ hl, hst⟩
    · rcases List.mem_cons.mp hm with rfl | hm
      · rw [← hown hph]
        exact h₂ _ List.mem_cons_self
      · exact h₃ m hm hph

/-- **The report is exact**: an entry of the closure is failed iff a node of it is. -/
theorem closurePhases_failed (hg : s.graph.Inv s.target) (ht : s.graph.Alive t) :
    (closurePhases s t).any (fun e => e.2 = .upstream ∨ e.2 = .own .failed) = true ↔
      Stricken s t := by
  have hmem : ∀ m, m ∈ s.graph.subtree t ↔ Reach s.graph.deps t m := by
    intro m
    have hclosed : ∀ n ∈ List.range s.graph.next, ∀ d ∈ s.graph.deps n,
        d ∈ List.range s.graph.next := fun n _ d hd => List.mem_range.mpr (hg.depsLt n d hd).2
    exact Search.mem_reachable_iff hclosed (by simp) (List.mem_range.mpr (hg.alive_lt ht)) m
  obtain ⟨h₁, -, h₃⟩ := entries_spec (s := s) (s.graph.subtree t) ([], []) (fun n hn => by cases hn)
  rw [List.any_eq_true]
  constructor
  · intro h
    obtain ⟨e, he, hf⟩ := h
    obtain ⟨hin, m, hr, hm⟩ := (h₁ e he hf).resolve_left (by simp)
    exact ⟨m, ((hmem _).mp hin).trans hr, hm⟩
  · intro h
    obtain ⟨m, hr, hm⟩ := h
    exact ⟨_, h₃ m ((hmem m).mpr hr) hm, by simp⟩

theorem assembleLocked_live {r : Request κ} (hc : r.cancelled = false) (hf : r.failReason = "") :
    assembleLocked s r = if s.phase r.target = .done then .done
      else if (closurePhases s r.target).any (fun e => e.2 = .upstream ∨ e.2 = .own .failed)
        then .failed else .running := by
  unfold assembleLocked
  rw [if_neg (by simp [hc]), if_neg (by simp [hf])]

theorem assembleLocked_done_iff {r : Request κ} (hc : r.cancelled = false)
    (hf : r.failReason = "") : assembleLocked s r = .done ↔ s.phase r.target = .done := by
  rw [assembleLocked_live hc hf]
  split
  · simp_all
  · split <;> simp_all

/-- **When a live request is reported failed.** -/
theorem assembleLocked_failed_iff {r : Request κ} (hg : s.graph.Inv s.target)
    (ht : s.graph.Alive r.target) (hc : r.cancelled = false) (hf : r.failReason = "") :
    assembleLocked s r = .failed ↔ s.phase r.target ≠ .done ∧ Stricken s r.target := by
  rw [← closurePhases_failed hg ht, assembleLocked_live hc hf]
  by_cases hdone : s.phase r.target = .done
  · simp [hdone]
  · rw [if_neg hdone]
    split
    · rename_i hany
      exact iff_of_true rfl ⟨hdone, hany⟩
    · rename_i hany
      exact iff_of_false (by simp) fun h => hany h.2

end

/-! ### Requests that are over -/

/-- The request is reported with this phase. -/
def Reports (s : State κ) (rid : ReqID) (p : ReqPhase) : Prop :=
  ∃ r, s.requests rid = some r ∧ assembleLocked s r = p

/-- The request stays: it is neither cancelled nor deleted, and the server stays up. -/
def keepsRequest (rid : ReqID) : Label κ → Bool
  | .cancel rid' | .delete rid' => rid' ≠ rid
  | .crash => false
  | _ => true

/-- The request stays, and no step completes a dep under the loop of the node that waits
for it. -/
def Lasts (rid : ReqID) (s : State κ) (a : Label κ) : Prop :=
  Unhurried s a ∧ keepsRequest rid a = true

section

variable {W : World κ} {s s' : State κ} {a : Label κ} {rid : ReqID} {r : Request κ}

section

omit [DecidableEq κ]

theorem Base.target_alive (hb : Base s) (hr : s.requests rid = some r) (hc : r.cancelled = false)
    (hf : r.failReason = "") : s.graph.Alive r.target := by
  have ht : s.target rid = some r.target :=
    target_eq_some_iff.mpr ⟨r, hr, r.live_iff.mpr ⟨hc, hf⟩, rfl⟩
  rcases hb.graph.targetIn rid r.target ht with hint | ⟨ids, hm, -⟩
  · exact hb.graph.interestedIn _ (List.ne_nil_of_mem hint)
  · exact (hb.graph.pendingSound _ ids hm).1

theorem Base.reach_alive {t m : Nat} (hb : Base s) (ht : s.graph.Alive t)
    (hr : Search.Reach s.graph.deps t m) : s.graph.Alive m := by
  induction hr with
  | refl => exact ht
  | tail _ hd ih => exact hb.graph.depsIn _ _ ih hd

/-- A request with a failed node in its closure is over. -/
theorem Stricken.over (h : Stricken s r.target) (hb : Base s) (hr : s.requests rid = some r)
    (hc : r.cancelled = false) (hf : r.failReason = "") :
    terminal (assembleLocked s r) = true := by
  by_cases hdone : s.phase r.target = .done
  · rw [(assembleLocked_done_iff hc hf).mpr hdone]
    rfl
  · rw [(assembleLocked_failed_iff hb.graph (hb.target_alive hr hc hf) hc hf).mpr ⟨hdone, h⟩]
    rfl

end

variable [Inhabited κ]

/-- A stricken closure stays so: it only grows, and a failed node stays failed. -/
theorem Stricken.step {t : Nat} (h : Stricken s t) (hpl : Pipelines s) (hb : Base s)
    (hf : Fenced s) (ha : a ≠ .crash) (hs : step W s a = some s') (ht : s.graph.Alive t) :
    Stricken s' t := by
  obtain ⟨m, hr, hm⟩ := h
  obtain ⟨hext, -⟩ := step_table hb ha hs
  exact ⟨m, Relation.ReflTransGen.mono (fun p d hd => hext.deps p d hd) _ _ hr,
    hpl.failed_stays hb hf ha hs (hb.reach_alive ht hr) hm⟩

omit [DecidableEq κ] [Inhabited κ] in
theorem keepsRequest_up (h : keepsRequest rid a = true) : a ≠ .crash := by
  intro ha
  rw [ha] at h
  cases h

/-- **A request that is over stays as it is**, in one step. -/
theorem Reports.step {p : ReqPhase} (h : Reports s rid p) (hp : p = .done ∨ p = .failed)
    (hpl : Pipelines s) (hb : Base s) (hf : Fenced s) (hd' : Deep s')
    (hc : keepsRequest rid a = true) (hs : step W s a = some s') : Reports s' rid p := by
  obtain ⟨r, hr, hrep⟩ := h
  have ha := keepsRequest_up hc
  have hlive : r.cancelled = false := by
    rw [← Bool.not_eq_true]
    intro hcan
    unfold assembleLocked at hrep
    rw [if_pos hcan] at hrep
    subst hrep
    simp at hp
  -- the request is kept, with the same target and the same reason to fail
  have hkept : ∃ r', s'.requests rid = some r' ∧ r'.target = r.target ∧ r'.cancelled = false ∧
      r'.failReason = r.failReason := by
    have hover : terminal (assembleLocked s r) = true := by
      rw [hrep]
      rcases hp with rfl | rfl <;> rfl
    have hstep := step_request hb hs hr
    generalize s'.requests rid = o at hstep
    cases hstep with
    | kept => exact ⟨r, rfl, rfl, hlive, rfl⟩
    | watched => exact ⟨_, rfl, rfl, hlive, rfl⟩
    | starved now reason msg hmsg ht | rejected c ht => simp [hover] at ht
    | cancelled | deleted => simp [keepsRequest] at hc
    | crashed => exact absurd rfl ha
  obtain ⟨r', hr', htarget, hlive', hreason⟩ := hkept
  refine ⟨r', hr', ?_⟩
  by_cases hfail : r.failReason = ""
  · have hb' := hb.step hs
    rw [hfail] at hreason
    have ht := hb.target_alive hr hlive hfail
    have ht' := hb'.target_alive hr' hlive' hreason
    rcases hp with rfl | rfl
    · rw [assembleLocked_done_iff hlive hfail] at hrep
      rw [assembleLocked_done_iff hlive' hreason, htarget]
      exact ((step_move hb hf hs).node hf ha ht).done hrep
    · obtain ⟨-, hst⟩ := (assembleLocked_failed_iff hb.graph ht hlive hfail).mp hrep
      have hst' := hst.step hpl hb hf ha hs ht
      rw [← htarget] at hst'
      refine (assembleLocked_failed_iff hb'.graph ht' hlive' hreason).mpr ⟨fun hdone => ?_, hst'⟩
      obtain ⟨m, hm, hph⟩ := hst'
      have := (hd'.reach hb' ht' hdone hm).2
      simp [hph] at this
  · -- the watchdog has failed it, and nobody takes that back
    have hfail' : r'.failReason ≠ "" := hreason ▸ hfail
    have : ∀ {s₁ : State κ} {r₁ : Request κ}, r₁.cancelled = false → r₁.failReason ≠ "" →
        assembleLocked s₁ r₁ = .failed := by
      intro s₁ r₁ h₁ h₂
      unfold assembleLocked
      rw [if_neg (by simp [h₁]), if_pos h₂]
    rw [this hlive' hfail', ← hrep, this hlive hfail]

/-- **Terminal phases are stable**, in every run that completes no dep under the loop of the
node that waits for it: a request that has been reported done or failed is reported so for
as long as it is neither cancelled nor deleted. -/
theorem terminal_phases_stable {st : Store κ} {p : ReqPhase} (h : Reached W Unhurried st s)
    (hrep : Reports s rid p) (hp : p = .done ∨ p = .failed)
    (hrun : Run.Steps (step W) (Lasts rid) s s') : Reports s' rid p := by
  have hall := hrun.inv (I := fun s => Reached W Unhurried st s ∧ Reports s rid p) ⟨h, hrep⟩ ?_
  · exact hall.2
  · intro s a s' hi hc hs
    obtain ⟨hreach, hrep⟩ := hi
    obtain ⟨⟨hb, hf⟩, -, ⟨hpl, -⟩, -⟩ := hreach.deep
    have hreach' := hreach.tail hc.1 hs
    exact ⟨hreach', hrep.step hp hpl hb hf (Reached.deep hreach').2.2.2 hc.2 hs⟩

end

/-- A hard verdict on the first attempt at the import `7`. -/
def fetchFails : Result := { node := "import_07", gen := 1, cls := .hard }

/-- The source of a build fails, and the request stays failed when a runner says hello. -/
theorem terminal_phases_stable_source_failed : ∃ s s' : State UInt8,
    Reports s "r1" .failed ∧ s' ≠ s ∧ Reports s' "r1" .failed := by
  have hrun : ∃ s ∈ Run.runIf (step fetchWorld) loopsOver (State.init (smallStore []))
      (submitRun 0 9 ++ [.result {} fetchFails]),
        (∃ r ∈ s.requests "r1", assembleLocked s r = .failed) ∧
        ∃ s' ∈ step fetchWorld s (.hello "other" "linux" 1),
          s'.fleet.length ≠ s.fleet.length := by
    decide +kernel
  obtain ⟨s, hs, hrep, s', hs', hfleet⟩ := hrun
  have hreach := Run.Steps.of_checked hs
  refine ⟨s, s', hrep, fun heq => ?_, ?_⟩
  · rw [heq] at hfleet
    simp at hfleet
  · refine terminal_phases_stable hreach hrep (Or.inr rfl) (Run.Steps.refl.tail ?_ hs')
    exact ⟨rfl, rfl⟩

/-- As `overtakenWorld`; the build `0` covers what the build `1` has covered already. -/
def recoveredWorld : World UInt8 :=
  smallWorld
    { definition := fun b => .ok (smallDef b ⟨.tree, [9]⟩)
      importDef := fun _ => .ok { fetcher := "git" }
      resolved := fun b => .ok
        { plugins := if b = 20 then [("a", ⟨.build, [1]⟩), ("b", ⟨.importK, [2]⟩)] else [] }
      pinned := fun _ => .ok { inputs := [] }
      subdir := fun _ _ => some 70
      derive := fun _ => .ok 41 }

/-- The import `2` fails. -/
def pluginFails : List (Label UInt8) :=
  submitRun 0 22 ++ [.result {} { node := "import_02", gen := 1, cls := .hard }]

/-- The pin of the build `0` succeeds nevertheless, and the pipeline goes on to its end. -/
def pinSucceeds : List (Label UInt8) :=
  [.result {}
      { node := "pin_0a", gen := 1, cls := .ok, refs := [⟨"build-pinned:0a", [31], ""⟩] }] ++
    List.replicate 6 (.commit {} 0) ++ [.finish {} 0] ++ List.replicate 10 (.exec {})

/-- A request is reported failed and then done: the pin was published before its second input
was linked, that input failed, and the pin did not need it. -/
theorem reported_failed_then_done : ∃ s s' : State UInt8,
    Reached recoveredWorld Run.Always overtakenStore s ∧
    Run.Steps (step recoveredWorld) (fun _ a => keepsRequest "r1" a = true) s s' ∧
    s.free = true ∧ Reports s "r1" .failed ∧ s'.free = true ∧ Reports s' "r1" .done := by
  have hrun : ∃ s ∈ runSched recoveredWorld (State.init overtakenStore) pluginFails,
      s.free = true ∧ (∃ r ∈ s.requests "r1", assembleLocked s r = .failed) ∧
      ∃ s' ∈ Run.runIf (step recoveredWorld) (fun _ => keepsRequest "r1") s pinSucceeds,
        s'.free = true ∧ ∃ r ∈ s'.requests "r1", assembleLocked s' r = .done := by
    decide +kernel
  obtain ⟨s, hs, hfree, hfail, s', hs', hend⟩ := hrun
  exact ⟨s, s', Run.Steps.of_run _ hs, Run.Steps.of_checked hs', hfree, hfail, hend⟩

end JobsIroh
