/-
A node that is done has its output in the store.

A node becomes done in three ways: its output is found when it is made, its commit
finishes, or a buildvalue's own pipeline ends.  The commit of a result writes what the
batch holds and looks for nothing more, so the output of the node is there afterwards
if the batch names it, or if it was there before.  Only the commit of a pin reads its
own output again, to derive the KP.
-/
import JobsIroh.Proofs.Gate
import JobsIroh.Proofs.Loops

namespace JobsIroh

variable {κ : Type} [DecidableEq κ]

/-! ### The condition -/

/-- The result does not leave out the output of its node: an accepted `ok` result names it,
or it is in the store, or the node is a pin. -/
def namesOutput (W : World κ) (s : State κ) : Label κ → Bool
  | .result _ res =>
    match parseNodeName W res.node with
    | none => true
    | some id =>
      match s.graph.nodes id with
      | none => true
      | some n =>
        !accepts s n res || res.cls ≠ .ok || id.kind = .pin ||
          decide (s.store.has (outputRef id.kind id.key)) ||
          res.refs.any (fun p => RefName.parse W.toKeyPkg p.name = outputRef id.kind id.key)
  | _ => true

/-- Nobody deletes a ref, and no result leaves out an output. -/
structure Delivers (W : World κ) (s : State κ) (a : Label κ) : Prop where
  keeps : ∀ r, a ≠ .expire r
  names : namesOutput W s a = true

/-! ### The invariant -/

/-- The output of the node is in the store; for a buildvalue, K's F and the output of F. -/
def HasOutput (s : State κ) (n : Nat) : Prop :=
  s.store.has (outputRef (s.kind n) (s.key n)) ∧
    (s.kind n = .buildValue → ∃ f, (s.node n).f = some f ∧ s.store.has (.output f))

/-- The output of a commit's node is in the store, or the commit still has to write it. -/
def Assured (W : World κ) (st : Store κ) (cm : Commit κ) : Prop :=
  st.has (outputRef cm.id.kind cm.id.key) ∨
    match cm.stage with
    | .check => cm.id.kind = .pin ∨
        ∃ p ∈ cm.refs, RefName.parse W.toKeyPkg p.name = outputRef cm.id.kind cm.id.key
    | .write todo => cm.id.kind = .pin ∨ ∃ v, (outputRef cm.id.kind cm.id.key, v) ∈ todo
    | .derive => cm.id.kind = .pin
    | .finished (some _) => True
    | _ => False

structure Durable (W : World κ) (s : State κ) : Prop where
  done : ∀ n, s.graph.Alive n → s.phase n = .done → HasOutput s n
  resolved : ∀ n f, s.graph.Alive n → (s.node n).f = some f → s.store.has (.buildFrom (s.key n))
  /-- Of the commits whose verdict will count. -/
  commits : ∀ cm ∈ s.commits, s.graph.Alive cm.ptr → (s.node cm.ptr).gen = cm.gen →
    Assured W s.store cm

section

variable {W : World κ} {c : Choice} {st st' : Store κ} {cm : Commit κ}

/-! ### Commits -/

theorem Assured.mono (h : Assured W st cm)
    (hmono : st.has (outputRef cm.id.kind cm.id.key) → st'.has (outputRef cm.id.kind cm.id.key)) :
    Assured W st' cm :=
  h.imp_left hmono

/-- All writes done and the output is there, or it is a pin's turn to derive. -/
theorem Assured.afterWrites (h : st.has (outputRef cm.id.kind cm.id.key) ∨ cm.id.kind = .pin) :
    Assured W st { cm with stage := JobsIroh.afterWrites cm.id.kind } := by
  rcases h with h | h
  · exact Or.inl h
  · refine Or.inr ?_
    unfold JobsIroh.afterWrites
    rw [if_pos h]
    exact h

/-- The plan of a batch has an entry for each name of the batch. -/
theorem mem_plan_of_named {ks : List κ} {r : RefName κ} (hb : BatchAccepted W st cm ks)
    (h : ∃ p ∈ cm.refs, RefName.parse W.toKeyPkg p.name = r) : ∃ v, (r, v) ∈ cm.plan W ks := by
  obtain ⟨p, hp, rfl⟩ := h
  obtain ⟨i, hi, rfl⟩ := List.getElem_of_mem hp
  have hlen := hb.keys.length_eq
  have hmem : (cm.refs[i], ks[i]) ∈ cm.refs.zip ks := by
    rw [List.mem_iff_getElem]
    exact ⟨i, by simp; omega, by simp⟩
  refine ⟨ks[i], List.mem_append_left _ ?_⟩
  exact List.mem_map.mpr ⟨_, hmem, rfl⟩

/-- One step of a commit keeps what it still has to write. -/
theorem Assured.commitStep (h : Assured W st cm) {stage : Stage κ}
    (hr : CommitRule W st cm st' stage) : Assured W st' { cm with stage := stage } := by
  have hstore : StoreStep (CommitWrite cm) (fun _ => False) st st' := hr.store
  rcases h with hhas | h
  · exact Or.inl (hstore.has (fun hf => hf) hhas)
  cases hr with
  | failed => exact Or.inr trivial
  | checked hst plan hp =>
    rw [hst] at h
    obtain ⟨ks, hb, rfl⟩ := checkBatch_ok hp
    rcases h with hpin | hnamed
    · split
      · exact Assured.afterWrites (Or.inr hpin)
      · exact Or.inr (Or.inl hpin)
    · obtain ⟨v, hv⟩ := mem_plan_of_named hb hnamed
      rw [if_neg (List.ne_nil_of_mem hv)]
      exact Or.inr (Or.inr ⟨v, hv⟩)
  | written hst =>
    rw [hst] at h
    rcases h with hpin | ⟨v, hv⟩
    · exact Assured.afterWrites (Or.inr hpin)
    · cases hv
  | entry r v rest hst =>
    rw [hst] at h
    by_cases hr : r = outputRef cm.id.kind cm.id.key
    · refine Or.inl ?_
      show (st.putRef r v).refs _ ≠ none
      simp [Store.putRef, ← hr]
    · have hrest : cm.id.kind = .pin ∨ ∃ v, (outputRef cm.id.kind cm.id.key, v) ∈ rest := by
        refine h.imp_right fun h' => ?_
        obtain ⟨v', hv'⟩ := h'
        rcases List.mem_cons.mp hv' with heq | hv'
        · exact absurd (Prod.mk.inj heq).1.symm hr
        · exact ⟨v', hv'⟩
      split
      · rename_i hnil
        refine Assured.afterWrites (Or.inr (hrest.resolve_right fun h' => ?_))
        obtain ⟨v', hv'⟩ := h'
        rw [hnil] at hv'
        cases hv'
      · exact Or.inr hrest
  | derived hst kp pk hd =>
    rw [hst] at h
    refine Or.inl (hstore.has (fun hf => hf) ?_)
    show st.has (outputRef cm.id.kind cm.id.key)
    rw [h]
    intro hnone
    rw [deriveKPValue, show st.refs (.pinned cm.id.key) = none from hnone] at hd
    cases hd
  | pinned kp pk hst | kpTree kp hst | pinCover kp hst =>
    rw [hst] at h
    exact h.elim
  | ended err hst =>
    rw [hst] at h
    exact Or.inr h

end

section

variable [Inhabited κ] {W : World κ} {s s' : State κ} {a : Label κ} {n : Nat}

/-! ### Refs stay -/

omit [DecidableEq κ] [Inhabited κ] in
/-- Outputs and resolved refs are not in the push namespaces. -/
theorem outputRef_not_scratch (kind : Kind) (k : κ) : ¬ ScratchRef (outputRef kind k) := by
  intro h
  obtain ⟨rest, h | h⟩ := h <;> cases kind <;> cases h

/-- A ref that no sweep deletes and that is no push ref stays. -/
theorem step_has {r : RefName κ} (hb : Base s) (hs : step W s a = some s')
    (hk : ∀ r, a ≠ .expire r) (hr : ¬ ScratchRef r) (h : s.store.has r) : s'.store.has r := by
  refine (step_store hb.graph hs).has (fun hdel => ?_) h
  rcases hdel with hscratch | hexp
  · exact hr hscratch
  · exact hk r hexp

/-! ### New nodes -/

omit [DecidableEq κ] [Inhabited κ] in
/-- What the fast path has seen in the store. -/
theorem outputExistsLocked_spec {c : Choice} {st : Store κ} {id : NodeID κ} {f : Option κ}
    {r : Except String Bool} (h : outputExistsLocked c st id = (f, r)) :
    (∀ f', f = some f' → st.refs (.buildFrom id.key) = some f') ∧
      (r = .ok true → st.has (outputRef id.kind id.key) ∧
        (id.kind = .buildValue → ∃ f', f = some f' ∧ st.has (.output f'))) := by
  unfold outputExistsLocked at h
  split at h
  · obtain ⟨rfl, rfl⟩ := Prod.mk.inj h
    exact ⟨nofun, nofun⟩
  split at h
  · rename_i hkind
    split at h
    · obtain ⟨rfl, rfl⟩ := Prod.mk.inj h
      exact ⟨nofun, nofun⟩
    rename_i f₀ hf₀
    have hfrom : st.has (outputRef id.kind id.key) := by
      rw [hkind]
      show st.refs (.buildFrom id.key) ≠ none
      simp [hf₀]
    split at h
    · obtain ⟨rfl, rfl⟩ := Prod.mk.inj h
      exact ⟨fun f' hf => hf ▸ hf₀, nofun⟩
    · obtain ⟨rfl, rfl⟩ := Prod.mk.inj h
      refine ⟨fun f' hf => hf ▸ hf₀, fun hr => ⟨hfrom, fun _ => ⟨f₀, rfl, ?_⟩⟩⟩
      simpa using hr
  · rename_i kind hkind
    obtain ⟨rfl, rfl⟩ := Prod.mk.inj h
    refine ⟨nofun, fun hr => ⟨by simpa using hr, fun hk => ?_⟩⟩
    exact absurd hk hkind

omit [Inhabited κ] in
theorem Fresh.resolved {c : Choice} {f : κ} (h : Fresh c s s' n) (hf : (s'.node n).f = some f) :
    s'.store.refs (.buildFrom (s'.key n)) = some f := by
  obtain ⟨r, hout, -⟩ := h.made
  exact (outputExistsLocked_spec hout).1 f hf

omit [Inhabited κ] in
theorem Fresh.hasOutput {c : Choice} (h : Fresh c s s' n) (hd : s'.phase n = .done) :
    HasOutput s' n := by
  obtain ⟨r, hout, hr⟩ := h.made
  rw [hd] at hr
  exact (outputExistsLocked_spec hout).2 (by simpa using hr)

/-! ### Steps -/

omit [Inhabited κ] in
/-- A result that names its output starts a commit that will write it. -/
theorem assured_startCommit {c : Choice} {res : Result}
    (hn : namesOutput W s (.result c res) = true)
    (hid : parseNodeName W res.node = some (s.graph.id n)) (ha : s.graph.Alive n)
    (hacc : accepts s n res = true) (hok : res.cls = .ok) :
    Assured W s.store (startCommit s n res) := by
  unfold namesOutput at hn
  dsimp only at hn
  rw [hid] at hn
  dsimp only at hn
  have hnode : s.graph.nodes (s.graph.id n) = some n := ha
  rw [hnode] at hn
  simp only [hacc, hok, Bool.not_true, Bool.false_or, ne_eq, not_true_eq_false, decide_false,
    Bool.or_eq_true, decide_eq_true_eq, List.any_eq_true] at hn
  rcases hn with (hpin | hhas) | hnamed
  · exact Or.inr (Or.inl hpin)
  · exact Or.inl hhas
  · exact Or.inr (Or.inr hnamed)

/-- A commit whose verdict will count was so before. -/
theorem live_commit {cm : Commit κ} (hb : Base s) (hf : Fenced s) (ha : a ≠ .crash)
    (hs : step W s a = some s') (hcm : cm ∈ s.commits) (hn' : s'.graph.Alive cm.ptr)
    (hgen' : (s'.node cm.ptr).gen = cm.gen) :
    s.graph.Alive cm.ptr ∧ (s.node cm.ptr).gen = cm.gen := by
  have hn : s.graph.Alive cm.ptr := by
    rcases (step_table hb ha hs).1.alive cm.ptr hn' with ⟨hn, -⟩ | hnew
    · exact hn
    · have := hf.ptrs cm hcm
      omega
  have hle := ((step_move hb hf hs).node hf ha hn).gen_le
  have hge := (hf.commits cm hcm hn).2.1
  exact ⟨hn, by omega⟩

theorem Durable.step_commits (h : Durable W s) (hb : Base s) (hf : Fenced s) (ha : a ≠ .crash)
    (hp : Delivers W s a) (hs : step W s a = some s') :
    ∀ cm ∈ s'.commits, s'.graph.Alive cm.ptr → (s'.node cm.ptr).gen = cm.gen →
      Assured W s'.store cm := by
  intro cm hcm hn' hgen'
  have hmono : ∀ cm : Commit κ, s.store.has (outputRef cm.id.kind cm.id.key) →
      s'.store.has (outputRef cm.id.kind cm.id.key) := fun cm =>
    step_has hb hs hp.keeps (outputRef_not_scratch _ _)
  cases JobsIroh.step_commits hb.graph hs cm hcm with
  | old hold =>
    obtain ⟨hn, hgen⟩ := live_commit hb hf ha hs hold hn' hgen'
    exact (h.commits cm hold hn hgen).mono (hmono cm)
  | started c res n ha hid hn hacc hok heq =>
    rw [heq]
    refine Assured.mono ?_ (hmono _)
    exact assured_startCommit (ha ▸ hp.names) hid hn hacc hok
  | staged cm₀ hcm₀ stage hr heq =>
    rw [heq] at hn' hgen' ⊢
    obtain ⟨hn, hgen⟩ := live_commit hb hf ha hs hcm₀ hn' hgen'
    exact (h.commits cm₀ hcm₀ hn hgen).commitStep hr

omit [Inhabited κ] in
/-- The write of the output alias, when it has made the buildvalue done. -/
theorem ExecStep.alias_written {c : Choice} {out : κ}
    (h : ExecStep W c s (.putAliasOutput n out) s') (hnd : s.phase n ≠ .done)
    (hd : s'.phase n = .done) : ∃ f, (s.node n).f = some f ∧ s'.store.has (.output f) := by
  cases h with
  | putAliasOutput _ _ f hf =>
    refine ⟨f, hf, ?_⟩
    rw [nodeDoneLocked_store]
    show (s.store.putRef (.output f) out).refs (.output f) ≠ none
    simp [Store.putRef]
  | stageWaits _ x hx => cases hx
  | stageUnresolved => exact absurd hd hnd
  | stageFail _ bv hbv =>
    obtain rfl : n = bv := Option.some.inj hbv
    exfalso
    rw [failNodeLocked_eq, State.phase, State.setNode_node] at hd
    unfold failedNode at hd
    split at hd
    · exact hnd hd
    · cases hd
  | nextStage _ bv nd kind k ret hns => cases hns

/-- A buildvalue with its F resolved and the output of F in the store. -/
theorem Durable.value_has_output {f : κ} (h : Durable W s) (hb : Base s) (ha : a ≠ .crash)
    (hk : ∀ r, a ≠ .expire r) (hs : step W s a = some s') (hn : s.graph.Alive n)
    (hid : s'.graph.id n = s.graph.id n) (hkind : s.kind n = .buildValue)
    (hf : (s.node n).f = some f) (ho : s'.store.has (.output f)) : HasOutput s' n := by
  have hfrom := step_has hb hs hk (outputRef_not_scratch .buildFrom _) (h.resolved n f hn hf)
  unfold HasOutput
  rw [State.kind_of_id hid, State.key_of_id hid, hkind]
  refine ⟨hfrom, fun _ => ⟨f, ?_, ho⟩⟩
  rcases step_f hb ha hs hn with hsame | ⟨hnone, -⟩
  · rw [hsame, hf]
  · rw [hf] at hnone
    cases hnone

/-- A node that has just got done has its output. -/
theorem Durable.step_completes (h : Durable W s) (hb : Base s) (hf : Fenced s)
    (hk : ∀ r, a ≠ .expire r) (hs : step W s a = some s') (hn : s.graph.Alive n)
    (hid : s'.graph.id n = s.graph.id n) (hnd : s.phase n ≠ .done) (hd : s'.phase n = .done)
    (hg : Completer s n a) : HasOutput s' n := by
  cases hg with
  | pipeline c fr rest hst hfr =>
    -- the frame on top has run, since the node has moved
    have he : ExecStep W c { s with stack := rest } fr s' := by
      have hr := step_rule hb.graph hs
      cases hr with
      | frame c fr' rest' hp hst' s' he =>
        obtain ⟨rfl, rfl⟩ := List.cons.inj (hst.symm.trans hst')
        exact he
      | _ => exact absurd hd hnd
    have hvalue := ((hb.top hst).1.stage (stageOf_of_completing hfr)).2
    unfold completing at hfr
    split at hfr
    · rename_i bv run
      split at hfr
      · rename_i f hbf
        split at hfr
        · rename_i hrun
          obtain rfl : bv = n := Option.some.inj hfr
          have ho : s'.store.has (.output f) :=
            step_has hb hs hk (outputRef_not_scratch .buildRun f) hrun.2
          exact h.value_has_output hb (by simp) hk hs hn hid hvalue hbf ho
        · cases hfr
      · cases hfr
    · rename_i bv out
      obtain rfl : bv = n := Option.some.inj hfr
      obtain ⟨f, hbf, ho⟩ := he.alias_written hnd hd
      exact h.value_has_output hb (by simp) hk hs hn hid hvalue hbf ho
    · cases hfr
  | commit c i cm hcm hst hptr hph hgen =>
    subst hptr
    have hmem := List.mem_of_getElem? hcm
    have hhas : s.store.has (outputRef cm.id.kind cm.id.key) := by
      rcases h.commits cm hmem hn hgen with hhas | hstage
      · exact hhas
      · rw [hst] at hstage
        exact hstage.elim
    have hplace := hf.placeable_of_publishing hn hph
    have hcid := (hf.commits cm hmem hn).1
    unfold HasOutput
    rw [State.kind_of_id hid, State.key_of_id hid]
    refine ⟨step_has hb hs hk (outputRef_not_scratch _ _) ?_, fun hv => absurd hv hplace⟩
    rw [hcid] at hhas
    exact hhas

theorem HasOutput.step (h : HasOutput s n) (hb : Base s) (ha : a ≠ .crash)
    (hk : ∀ r, a ≠ .expire r) (hs : step W s a = some s') (hn : s.graph.Alive n)
    (hid : s'.graph.id n = s.graph.id n) : HasOutput s' n := by
  unfold HasOutput
  rw [State.kind_of_id hid, State.key_of_id hid]
  refine ⟨JobsIroh.step_has hb hs hk (outputRef_not_scratch _ _) h.1, fun hv => ?_⟩
  obtain ⟨f, hf, ho⟩ := h.2 hv
  refine ⟨f, ?_, JobsIroh.step_has hb hs hk (outputRef_not_scratch .buildRun f) ho⟩
  rcases step_f hb ha hs hn with hsame | ⟨hnone, -⟩
  · rw [hsame, hf]
  · rw [hf] at hnone
    cases hnone

theorem Durable.step (h : Durable W s) (hb : Base s) (hf : Fenced s) (hp : Delivers W s a)
    (hs : JobsIroh.step W s a = some s') : Durable W s' := by
  rcases crash_or hs with ⟨rfl, rfl⟩ | ha
  · exact ⟨nofun, nofun, nofun⟩
  obtain ⟨hext, hfresh⟩ := step_table hb ha hs
  refine ⟨fun n hn' hd => ?_, fun n f hn' hf' => ?_, h.step_commits hb hf ha hp hs⟩
  · rcases hext.alive n hn' with ⟨hn, hid⟩ | hnew
    · by_cases hdone : s.phase n = .done
      · exact (h.done n hn hdone).step hb ha hp.keeps hs hn hid
      · have hg := (step_move hb hf hs).getsDone ha hn hdone hd
        exact h.step_completes hb hf hp.keeps hs hn hid hdone hd hg.completer
    · exact (hfresh n hn' hnew).hasOutput hd
  · rcases hext.alive n hn' with ⟨hn, hid⟩ | hnew
    · rw [State.key_of_id hid]
      refine step_has hb hs hp.keeps (outputRef_not_scratch .buildFrom _) ?_
      rcases step_f hb ha hs hn with hsame | ⟨-, f', -, hr⟩
      · exact h.resolved n f hn (hsame ▸ hf')
      · show s.store.refs _ ≠ none
        simp [hr]
    · show s'.store.refs _ ≠ none
      simp [(hfresh n hn' hnew).resolved hf']

theorem Durable.init (st : Store κ) : Durable W (State.init st) := by
  refine ⟨fun n hn => ?_, fun n f hn => ?_, fun cm hcm => ?_⟩
  · cases hn
  · cases hn
  · cases hcm

theorem Reached.durable {st : Store κ} (h : Reached W (Delivers W) st s) :
    (Base s ∧ Fenced s) ∧ Durable W s := by
  refine h.inv_fenced (Durable.init st) ?_
  intro s a s' hb hf hp hs hi
  exact hi.step hb hf hp hs

/-- **Done is durable**, in every run in which no ref is deleted and no result leaves out the
output of its node. -/
theorem done_is_durable {st : Store κ} (h : Reached W (Delivers W) st s) :
    ∀ n, s.graph.Alive n → s.phase n = .done → HasOutput s n :=
  (Reached.durable h).2.done

end

/-- `Delivers` as a check. -/
def delivers (W : World κ) (s : State κ) (a : Label κ) : Bool :=
  namesOutput W s a && match a with | .expire _ => false | _ => true

theorem Delivers.of_check {W : World κ} {s : State κ} {a : Label κ}
    (h : delivers W s a = true) : Delivers W s a := by
  simp only [delivers, Bool.and_eq_true] at h
  refine ⟨fun r ha => ?_, h.1⟩
  rw [ha] at h
  cases h.2

/-- The import `7`, done by a result that names its output. -/
theorem done_is_durable_fetched : ∃ s : State UInt8, s.graph.Alive 2 ∧ s.phase 2 = .done ∧
    s.kind 2 = .importK ∧ HasOutput s 2 := by
  have hrun : ∃ s ∈ Run.runIf (step fetchWorld) (delivers fetchWorld) (State.init (smallStore []))
      (submitRun 1 9 ++ [.result {} (fetched [⟨"import-output:07", [1], ""⟩]), .commit {} 0,
        .commit {} 0, .finish {} 0]),
      s.graph.Alive 2 ∧ s.phase 2 = .done ∧ s.kind 2 = .importK := by
    decide +kernel
  obtain ⟨s, hs, halive, hdone, hkind⟩ := hrun
  have hreach := (Run.Steps.of_checked hs).mono fun _ _ h => Delivers.of_check h
  exact ⟨s, halive, hdone, hkind, done_is_durable hreach 2 halive hdone⟩

/-- An `ok` result with an empty batch makes the import `7` done, and its output is not in
the store. -/
theorem done_without_output : ∃ s : State UInt8,
    Reached fetchWorld (fun _ a => ∀ r, a ≠ .expire r) (smallStore []) s ∧
    s.graph.Alive 2 ∧ s.phase 2 = .done ∧ ¬ HasOutput s 2 := by
  have hrun : ∃ s ∈ Run.runIf (step fetchWorld)
      (fun _ a => match a with | .expire _ => false | _ => true) (State.init (smallStore []))
      (submitRun 1 9 ++ [.result {} (fetched []), .commit {} 0, .finish {} 0]),
      s.graph.Alive 2 ∧ s.phase 2 = .done ∧
        s.store.refs (outputRef (s.kind 2) (s.key 2)) = none := by
    decide +kernel
  obtain ⟨s, hs, halive, hdone, hnone⟩ := hrun
  refine ⟨s, ?_, halive, hdone, fun h => h.1 hnone⟩
  refine (Run.Steps.of_checked hs).mono ?_
  intro s a hc r ha
  rw [ha] at hc
  cases hc

end JobsIroh
