/-
Derived refs are healed, unless the binding stands alone.

`deriveKP` writes `build-pinned:KP`, then `kp-tree/KP`, then `pin-cover:F`, and a buildvalue
that finds `pin-cover:F` takes it as a sign that the others are there.  A crash keeps to
that order; a sweep of expired refs does not.  From any state in which a buildvalue is about
to resolve its KP, three of the four ways to go on restore what is missing: the derivation
is made again, or `build-pinned:KP` is there and the carrier is written when the job is
published, or the output of KP is there and nothing is run.  In the fourth the run stage is
unfolded from a ref that is not there.
-/
import JobsIroh.Proofs.Ready

namespace JobsIroh

variable {κ : Type} [DecidableEq κ]

/-! ### Derivations in a critical section -/

/-- A write of `deriveKP`. -/
def Frame.isPut : Frame κ → Bool
  | .putPinned _ _ _ | .putKPTree _ _ | .putPinCover _ _ => true
  | _ => false

/-- How a write of `deriveKP` comes on top of the stack. -/
inductive PutFrom (W : World κ) (s : State κ) : Frame κ → Frame κ → Prop
  | derived (bv pin : Nat) (f kp pk : κ) (hf : (s.node bv).f = some f)
      (hr : s.store.refs (.pinCover f) = none) (hd : deriveKPValue W s.store f = .ok (kp, pk)) :
    PutFrom W s (.afterPin bv pin) (.putPinned bv kp pk)
  | carrier (bv : Nat) (kp pk : κ) : PutFrom W s (.putPinned bv kp pk) (.putKPTree bv kp)
  | cover (bv : Nat) (kp : κ) : PutFrom W s (.putKPTree bv kp) (.putPinCover bv kp)

section

variable {W : World κ} {c : Choice} {s s' : State κ} {n : Nat}

theorem require_stack_put (hg : s.graph.Inv s.target) (s₁ : State κ) (hgr : s₁.graph = s.graph)
    {kind : Kind} {k : κ} {defn : Bytes} {platform label : String} {ret : Nat → List (Frame κ)}
    {fr' : Frame κ} (hret : ∀ m, ∀ x ∈ ret m, x.isPut = false)
    (hmem : fr' ∈ (require c s₁ kind k defn platform n label ret).stack)
    (hput : fr'.isPut = true) : fr' ∈ s₁.stack := by
  obtain ⟨fs, heq, hfs⟩ := require_stack hg hgr
  rw [heq, List.mem_append, List.mem_append] at hmem
  rcases hmem with hmem | hmem | hmem
  · rcases hfs with rfl | rfl
    · simp at hmem
    · obtain rfl := List.mem_singleton.mp hmem
      simp [Frame.isPut] at hput
  · rw [hret _ _ hmem] at hput
    simp at hput
  · exact hmem

/-- A derivation is always on top. -/
theorem ExecStep.put {fr fr' : Frame κ} (h : ExecStep W c s fr s') (hg : s.graph.Inv s.target)
    (hmem : fr' ∈ s'.stack) (hput : fr'.isPut = true) :
    fr' ∈ s.stack ∨ s'.stack = fr' :: s.stack ∧ PutFrom W s fr fr' := by
  have plain : ∀ p : List (Frame κ), s'.stack = p ++ s.stack → (∀ x ∈ p, x.isPut = false) →
      fr' ∈ s.stack ∨ s'.stack = fr' :: s.stack ∧ PutFrom W s fr fr' := by
    intro p hst hp
    rw [hst] at hmem
    rcases List.mem_append.mp hmem with hmem | hmem
    · rw [hp _ hmem] at hput
      simp at hput
    · exact Or.inl hmem
  have top : ∀ fr₁, s'.stack = fr₁ :: s.stack → PutFrom W s fr fr₁ →
      fr' ∈ s.stack ∨ s'.stack = fr' :: s.stack ∧ PutFrom W s fr fr' := by
    intro fr₁ hst hfrom
    rw [hst] at hmem
    rcases List.mem_cons.mp hmem with rfl | hmem
    · exact Or.inr ⟨hst, hfrom⟩
    · exact Or.inl hmem
  cases h with
  | unfoldRead | unfoldValue | putAliasDeps => exact plain [_] rfl (by simp [Frame.isPut])
  | unfoldFetcher n nd =>
    exact Or.inl (require_stack_put hg (s.setNode n nd) rfl (by simp [Frame.isPut]) hmem
      hput)
  | unfolded =>
    rw [maybeEnqueueLocked_stack] at hmem
    exact Or.inl hmem
  | input n ni rest s' hi =>
    cases hi with
    | tree => exact plain [_] rfl (by simp [Frame.isPut])
    | link =>
      have hold := require_stack_put hg (loopState s n ni rest) rfl (by simp) hmem hput
      rcases List.mem_cons.mp hold with rfl | hold
      · simp [Frame.isPut] at hput
      · exact Or.inl hold
    | _ => exact plain [_] (failNodeLocked_stack _ n _) (by simp [Frame.isPut])
  | advance =>
    exact Or.inl (require_stack_put hg s rfl (by simp [Frame.isPut]) hmem hput)
  | stageFail =>
    rw [failNodeLocked_stack] at hmem
    exact Or.inl hmem
  | nextStage fr bv nd kind k ret hn =>
    refine Or.inl (require_stack_put hg (s.setNode bv nd) rfl ?_ hmem hput)
    cases hn <;> simp [Frame.isPut]
  | deriveKP bv pin hdone f kp pk hf hk hr hd => exact top _ rfl (.derived bv pin f kp pk hf hr hd)
  | putPinned bv kp pk => exact top _ rfl (.carrier bv kp pk)
  | putKPTree bv kp => exact top _ rfl (.cover bv kp)
  | putPinCover bv kp f =>
    exact Or.inl (require_stack_put hg (s.bound bv f kp) rfl (by simp [Frame.isPut]) hmem hput)
  | aliased bv =>
    rcases nodeDoneLocked_stack s bv with heq | heq
    · exact plain [] heq (by simp)
    · exact plain [_] heq (by simp [Frame.isPut])
  | startAlias =>
    exact plain [_] rfl (by simp [Frame.isPut])
  | putAliasOutput bv out f =>
    rcases nodeDoneLocked_stack (s.putRef (.output f) out) bv with heq | heq
    · exact plain [] heq (by simp)
    · exact plain [_] heq (by simp [Frame.isPut])
  | notifyValue => exact plain [_, _] rfl (by simp [Frame.isPut])
  | notifyNode n todo seen d =>
    exact plain [_] (maybeEnqueueLocked_stack W c _ d) (by simp [Frame.isPut])
  | submitted rid t scratch =>
    rw [deleteScratch_eta] at hmem
    exact Or.inl hmem
  | _ => exact Or.inl hmem

end

omit [DecidableEq κ] in
/-- A label opens no derivation. -/
theorem Aside.put {s s' : State κ} {fr : Frame κ} (h : Aside s s') (hmem : fr ∈ s'.stack)
    (hput : fr.isPut = true) : s'.stack = s.stack := by
  rcases h.stack with heq | ⟨-, fs, b, heq, hfs, hb⟩
  · exact heq
  · exfalso
    rw [heq] at hmem
    rcases List.mem_append.mp hmem with hin | hin
    · rcases hfs with rfl | rfl
      · cases hin
      · rw [List.mem_singleton.mp hin] at hput
        cases hput
    · rw [List.mem_singleton.mp hin] at hput
      rcases hb with ⟨rid, t, scratch, rfl⟩ | ⟨n, rfl⟩
      · cases hput
      · cases hput

/-- No derivation lies below another frame. -/
def Alone (s : State κ) : Prop := ∀ fr ∈ s.stack.tail, fr.isPut = false

section

variable [Inhabited κ] {W : World κ} {s s' : State κ} {a : Label κ}

theorem Alone.step (h : Alone s) (hb : Base s) (hs : JobsIroh.step W s a = some s') : Alone s' := by
  intro fr' hmem
  rcases crash_or hs with ⟨rfl, rfl⟩ | ha
  · cases hmem
  by_contra hput
  rw [Bool.not_eq_false] at hput
  rcases step_cases hb ha hs with ⟨c, fr, rest, -, -, hst, he⟩ | haside
  · have hrest : fr' ∈ rest := by
      rcases he.put hb.graph (List.mem_of_mem_tail hmem) hput with hold | ⟨htop, -⟩
      · exact hold
      · rw [htop] at hmem
        exact hmem
    rw [Alone, hst] at h
    rw [h fr' hrest] at hput
    cases hput
  · rw [haside.put (List.mem_of_mem_tail hmem) hput] at hmem
    rw [h fr' hmem] at hput
    cases hput

theorem Reached.alone {P : State κ → Label κ → Prop} {st : Store κ} (h : Reached W P st s) :
    Alone s := by
  refine (Run.Steps.inv (I := fun s => Base s ∧ Alone s) h ⟨Base.init st, ?_⟩ ?_).2
  · intro fr hfr
    cases hfr
  · intro s a s' hi _ hs
    exact ⟨hi.1.step hs, hi.2.step hi.1 hs⟩

end

/-! ### What a derivation reads -/

section

variable {W : World κ} {st st' : Store κ} {f kp pk : κ}
omit [DecidableEq κ]

/-- The values a derivation starts from. -/
theorem deriveKPValue_ok : deriveKPValue W st f = .ok (kp, pk) ↔
    st.refs (.pinned f) = some pk ∧ ∃ b p env platKey platform, st.readFile W pk = .ok b ∧
      W.decodePinned b = .ok p ∧ st.treeSubdir W f "env" = .ok (some env) ∧
      st.treeSubdir W f "platform" = .ok (some platKey) ∧ W.file platKey = .ok platform ∧
      W.derive b p (W.text platform) env = .ok kp := by
  unfold deriveKPValue
  constructor
  · intro h
    split at h
    · cases h
    rename_i pinnedKey hr
    split at h
    · cases h
    rename_i b hb
    split at h
    · cases h
    rename_i p hp
    split at h
    · cases h
    · cases h
    rename_i env he
    split at h
    · cases h
    · cases h
    rename_i platKey hk
    split at h
    · cases h
    rename_i platform hplat
    split at h
    · cases h
    rename_i kp' hkp
    obtain ⟨rfl, rfl⟩ := Prod.mk.inj (Except.ok.inj h)
    exact ⟨hr, b, p, env, platKey, platform, hb, hp, he, hk, hplat, hkp⟩
  · rintro ⟨hr, b, p, env, platKey, platform, hb, hp, he, hk, hplat, hkp⟩
    simp only [hr, hb, hp, he, hk, hplat, hkp]

theorem readFile_complete {k : κ} {b : Bytes} (h : st.readFile W k = .ok b) :
    st.complete k = true ∧ W.file k = .ok b := by
  unfold Store.readFile at h
  split at h
  · rename_i hc
    exact ⟨hc, h⟩
  · cases h

/-- The same blob is derived from in the same way in a store with more objects. -/
theorem deriveKPValue_mono (h : deriveKPValue W st f = .ok (kp, pk))
    (hr : st'.refs (.pinned f) = some pk)
    (hc : ∀ k, st.complete k = true → st'.complete k = true) :
    deriveKPValue W st' f = .ok (kp, pk) := by
  obtain ⟨-, b, p, env, platKey, platform, hb, hp, he, hk, hplat, hkp⟩ := deriveKPValue_ok.mp h
  obtain ⟨hpk, hfile⟩ := readFile_complete hb
  have subdir : ∀ {name : String} {x : κ}, st.treeSubdir W f name = .ok (some x) →
      st'.treeSubdir W f name = .ok (some x) := by
    intro name x hx
    unfold Store.treeSubdir at hx ⊢
    split at hx
    · rename_i hcf
      rw [if_pos (hc f hcf)]
      exact hx
    · cases hx
  refine deriveKPValue_ok.mpr ⟨hr, b, p, env, platKey, platform, ?_, hp, subdir he, subdir hk,
    hplat, hkp⟩
  unfold Store.readFile
  rw [if_pos (hc pk hpk)]
  exact hfile

end

/-! ### Before and after -/

/-- What `deriveKP` writes for `f`. -/
structure Whole (st : Store κ) (f kp pk : κ) : Prop where
  pinned : st.refs (.pinned kp) = some pk
  kpTree : st.refs (.kpTree kp) = some kp
  pinCover : st.refs (.pinCover f) = some kp

/-- A derived ref that is there has the value `deriveKP` gives it. -/
structure Agree (st : Store κ) (f kp pk : κ) : Prop where
  pinned : ∀ v, st.refs (.pinned kp) = some v → v = pk
  kpTree : ∀ v, st.refs (.kpTree kp) = some v → v = kp
  pinCover : ∀ v, st.refs (.pinCover f) = some v → v = kp

/-- A buildvalue whose pin is done is about to resolve its KP; any of the derived refs may be
missing. -/
structure PastPin (W : World κ) (s : State κ) (bv pin : Nat) (rest : List (Frame κ))
    (f kp pk : κ) : Prop where
  stack : s.stack = .afterPin bv pin :: rest
  settled : s.graph.pending = []
  done : s.phase pin = .done
  source : (s.node bv).f = some f
  unresolved : (s.node bv).kp = none
  derived : deriveKPValue W s.store f = .ok (kp, pk)
  agree : Agree s.store f kp pk

/-- The binding does not stand alone, or nothing will be run for it. -/
def Sound (s : State κ) (f kp : κ) : Prop :=
  s.store.refs (.pinCover f) = none ∨ s.store.has (.pinned kp) ∨
    s.store.has (.output kp) ∧
      ∀ n, s.graph.nodes ⟨.buildRun, kp⟩ = some n → s.phase n = .done

/-- The value that a write of one of the names must have. -/
structure Right (f kp pk : κ) (r : RefName κ) (v : κ) : Prop where
  source : r = .pinned f → v = pk
  pinned : r = .pinned kp → v = pk
  kpTree : r = .kpTree kp → v = kp
  pinCover : r = .pinCover f → v = kp

/-- No ref is deleted, the process lives, the store answers, and no runner's commit binds one
of the names to anything else. -/
structure Undisturbed (f kp pk : κ) (s : State κ) (a : Label κ) : Prop where
  keeps : ∀ r, a ≠ .expire r
  lives : a ≠ .crash
  reads : ∀ i, a.choice.io i = none
  binds : ∀ c i cm r v, a = .commit c i → s.commits[i]? = some cm → CommitWrite cm r v →
    Right f kp pk r v
  /-- A derivation that was under way binds KP to a blob that is still there. -/
  covers : ∀ c i cm v, a = .commit c i → s.commits[i]? = some cm →
    CommitWrite cm (.pinCover f) v → s.store.has (.pinned kp)

/-- The frame reads or writes a derived ref of `f`, or reads one of `kp`. -/
def Consults (s : State κ) (f kp : κ) : Frame κ → Prop
  | .afterPin bv _ => (s.node bv).f = some f
  | .putPinned _ _ _ | .putKPTree _ _ | .putPinCover _ _ => True
  | .unfold n => s.graph.id n = ⟨.buildRun, kp⟩
  | _ => False

/-- From here on no node fails where the derived refs are consulted, and a job for the run
stage is published with all of them in place. -/
structure Heals [Inhabited κ] (W : World κ) (f kp pk : κ) (s : State κ) : Prop where
  succeeds : ∀ s' c fr rest s'', Run.Steps (step W) (Undisturbed f kp pk) s s' →
    Undisturbed f kp pk s' (.exec c) → s'.graph.pending = [] → s'.stack = fr :: rest →
    Consults s' f kp fr → step W s' (.exec c) = some s'' →
    ∀ m, s''.phase m = .failed → s'.phase m = .failed
  published : ∀ s' a s'' j, Run.Steps (step W) (Undisturbed f kp pk) s s' →
    Undisturbed f kp pk s' a → step W s' a = some s'' → s''.jobs = j :: s'.jobs →
    j.id = ⟨.buildRun, kp⟩ → Whole s''.store f kp pk

/-! ### Frames that do not fail -/

section

variable {W : World κ} {c : Choice} {s : State κ} {m : Nat}

omit [DecidableEq κ] in
theorem outputExistsLocked_ok (hio : ∀ i, c.io i = none) (st : Store κ) (id : NodeID κ)
    {f : Option κ} {e : String} : outputExistsLocked c st id ≠ (f, .error e) := by
  unfold outputExistsLocked
  rw [hio 0]
  dsimp only
  split
  · split
    · simp
    · rw [hio 1]
      simp
  · simp

theorem require_failed (hio : ∀ i, c.io i = none) (hg : s.graph.Inv s.target) {kind : Kind} {k : κ}
    {defn : Bytes} {platform label : String} {p : Nat} {ret : Nat → List (Frame κ)}
    (h : (require c s kind k defn platform p label ret).phase m = .failed) :
    s.phase m = .failed := by
  obtain ⟨nd, fs, lg, heq, hj⟩ := require_eq hg kind k defn platform p label ret
  rw [heq] at h
  by_cases hm : m = s.graph.occupant ⟨kind, k⟩
  · subst hm
    have hnd : nd.phase = .failed := by simpa [State.phase] using h
    cases hj with
    | existed nd₀ hold =>
      obtain ⟨x, hx, rfl⟩ := Option.map_eq_some_iff.mp hold
      rw [InterestGraph.Graph.occupant_of_some hx]
      exact hnd
    | failed hold f e hout => exact absurd hout (outputExistsLocked_ok hio _ _)
    | cached => simp at hnd
    | fresh => simp [freshNode, fillNode] at hnd
  · simpa [State.phase, hm] using h

variable {bv : Nat}

section

variable (hio : ∀ i, c.io i = none)
include hio

theorem requireRun_failed (hg : s.graph.Inv s.target) {kp : κ}
    (h : (requireRun c s bv kp).phase m = .failed) : s.phase m = .failed := by
  have hset := require_failed (s := s.setNode bv { s.node bv with kp := some kp }) hio hg h
  by_cases hm : m = bv
  · subst hm
    simpa [State.phase, State.setNode] using hset
  · simpa [State.phase, State.setNode, hm] using hset

/-- Resolving KP succeeds where there is a binding or one can be derived. -/
theorem afterPin_failed (hg : s.graph.Inv s.target) {pin : Nat} {f : κ}
    (hf : (s.node bv).f = some f)
    (hr : s.store.refs (.pinCover f) = none → ∃ v, deriveKPValue W s.store f = .ok v)
    (h : (afterPin W c s bv pin).phase m = .failed) : s.phase m = .failed := by
  unfold afterPin at h
  split at h
  · exact h
  rw [hf] at h
  split at h
  · exact require_failed hio hg h
  · exact h
  · rename_i f' _ heq
    obtain rfl := Option.some.inj heq
    rw [hio 2] at h
    dsimp only at h
    split at h
    · exact requireRun_failed hio hg h
    · rename_i hnone
      rw [hio 3] at h
      obtain ⟨v, hv⟩ := hr hnone
      rw [hv] at h
      exact h

theorem putOrFail_failed {what : String} {r : RefName κ} {k : κ}
    {next : State κ → State κ} (h : (putOrFail c s bv what r k next).phase m = .failed) :
    (next (s.putRef r k)).phase m = .failed := by
  unfold putOrFail at h
  rw [hio 2] at h
  exact h

theorem putPinCover_failed (hg : s.graph.Inv s.target) {kp : κ}
    (h : (putPinCover c s bv kp).phase m = .failed) : s.phase m = .failed := by
  unfold putPinCover at h
  split at h
  · exact h
  · exact requireRun_failed (s := s.putRef _ kp) hio hg (putOrFail_failed hio h)

omit [DecidableEq κ] in
/-- The run stage is unfolded where its pinned job can be read, or where it is done. -/
theorem unfoldBuildRun_failed {n : Nat}
    (hr : s.phase n = .done ∨ ∃ b p, s.store.readRefFile W (.pinned (s.key n)) = .ok b ∧
      W.decodePinned b = .ok p)
    (h : (unfoldBuildRun W c s n).phase m = .failed) : s.phase m = .failed := by
  unfold unfoldBuildRun at h
  split at h
  · rename_i e he
    rcases hr with hdone | ⟨b, p, hb, hp⟩
    · unfold failNodeLocked at h
      rw [if_pos (by rw [hdone]; rfl)] at h
      exact h
    · unfold readBlobLocked at he
      rw [hio 0, hio 1] at he
      rw [hb] at he
      dsimp only at he
      rw [hp] at he
      cases he
  · by_cases hm : m = n
    · subst hm
      simpa [State.phase, readInputs, State.setNode, State.push] using h
    · simpa [State.phase, readInputs, State.setNode, State.push, hm] using h

end

end

/-! ### Runs -/

/-- A derivation on the stack is for another F, and writes the same blob for the same KP. -/
def Foreign (node : Nat → Node κ) (f kp pk : κ) : Frame κ → Prop
  | .putPinned bv k p => (node bv).f ≠ some f ∧ (k = kp → p = pk)
  | .putKPTree bv _ | .putPinCover bv _ => (node bv).f ≠ some f
  | _ => True

/-- The binding and the pinned job are there to stay. -/
structure Bound (s : State κ) (f kp pk : κ) : Prop where
  pinned : s.store.refs (.pinned kp) = some pk
  pinCover : s.store.refs (.pinCover f) = some kp
  kpTree : ∀ v, s.store.refs (.kpTree kp) = some v → v = kp
  complete : s.store.complete pk = true
  foreign : ∀ fr ∈ s.stack, Foreign s.node f kp pk fr

/-- Nothing is run for KP, whose output is there. -/
structure Memo (s : State κ) (f kp : κ) : Prop where
  pinCover : s.store.has (.pinCover f)
  output : s.store.has (.output kp)
  done : ∀ n, s.graph.nodes ⟨.buildRun, kp⟩ = some n → s.phase n = .done

/-- A derivation is under way; its next write is on top. -/
structure Mending (s : State κ) (bv : Nat) (f kp pk : κ) : Prop where
  settled : s.graph.pending = []
  source : (s.node bv).f = some f
  complete : s.store.complete pk = true
  kpTree : ∀ v, s.store.refs (.kpTree kp) = some v → v = kp

/-- How far the buildvalue has come. -/
inductive Progress (W : World κ) (bv pin : Nat) (rest : List (Frame κ)) (f kp pk : κ)
    (s : State κ) : Prop
  | resolving (h : PastPin W s bv pin rest f kp pk) (hr : s.store.refs (.pinCover f) = none)
  | putPinned (hst : s.stack = .putPinned bv kp pk :: rest) (h : Mending s bv f kp pk)
  | putKPTree (hst : s.stack = .putKPTree bv kp :: rest) (h : Mending s bv f kp pk)
      (hp : s.store.refs (.pinned kp) = some pk)
  | putPinCover (hst : s.stack = .putPinCover bv kp :: rest) (h : Mending s bv f kp pk)
      (hp : s.store.refs (.pinned kp) = some pk)
  | bound (h : Bound s f kp pk)
  | memo (h : Memo s f kp)

section

variable [Inhabited κ] {W : World κ} {s s' : State κ} {a : Label κ} {f kp pk : κ}

variable {r : RefName κ}

section

variable (h : Undisturbed f kp pk s a) (hb : Base s) (hs : step W s a = some s')
  (hr : ¬ ScratchRef r)
include h hb hs hr

/-- The names that are no push refs. -/
theorem Undisturbed.refs :
    s'.store.refs r = s.store.refs r ∨ ∃ v, s'.store.refs r = some v ∧ Write s a r v := by
  rcases (step_store hb.graph hs).refs r with heq | hw | ⟨-, hd⟩
  · exact Or.inl heq
  · exact Or.inr hw
  · rcases hd with hd | hd
    · exact absurd hd hr
    · exact absurd hd (h.keeps r)

theorem Undisturbed.has (hhas : s.store.has r) : s'.store.has r := by
  unfold Store.has at *
  rcases h.refs hb hs hr with heq | ⟨v, heq, -⟩
  · rwa [heq]
  · simp [heq]

end

variable {v : κ}

omit [DecidableEq κ] [Inhabited κ] in
/-- Whoever else writes one of the names writes what it should be. -/
theorem Undisturbed.right (h : Undisturbed f kp pk s a) (hex : ∀ c, a ≠ .exec c)
    (hw : Write s a r v) : Right f kp pk r v := by
  have carried : Carrier r v → Right f kp pk r v := by
    intro hc
    rcases hc with rfl | rfl
    · exact ⟨nofun, nofun, nofun, nofun⟩
    · exact ⟨nofun, nofun, fun heq => by simpa using heq, nofun⟩
  cases hw with
  | source | build => exact ⟨nofun, nofun, nofun, nofun⟩
  | commit c i cm hcm r v hw => exact h.binds c i cm r v rfl hcm hw
  | frame c => exact absurd rfl (hex c)
  | heal a ha r v hc => exact carried hc

omit [DecidableEq κ] [Inhabited κ] in
theorem not_scratch (hraw : ∀ name, r ≠ .raw name) : ¬ ScratchRef r := by
  rintro ⟨rest, h | h⟩
  · exact hraw _ h
  · exact hraw _ h

section

variable (h : Undisturbed f kp pk s a) (hb : Base s) (hs : step W s a = some s')
  (hex : ∀ c, a ≠ .exec c) (hr : ¬ ScratchRef r) (hright : ∀ w, Right f kp pk r w → w = v)
include h hb hs hex hr hright

/-- The value of a name that only gets right values. -/
theorem Undisturbed.value (hv : ∀ w, s.store.refs r = some w → w = v) :
    ∀ w, s'.store.refs r = some w → w = v := by
  intro w hw
  rcases h.refs hb hs hr with heq | ⟨u, heq, hu⟩
  · exact hv w (heq ▸ hw)
  · obtain rfl : u = w := by simpa [hw] using heq.symm
    exact hright u (h.right hex hu)

/-- A name that is bound to the right value stays so. -/
theorem Undisturbed.keeps_value
    (hv : s.store.refs r = some v) : s'.store.refs r = some v := by
  obtain ⟨w, hw⟩ := Option.ne_none_iff_exists'.mp (h.has hb hs hr (by simp [Store.has, hv]))
  rw [hw, h.value hb hs hex hr hright (fun u hu => by simpa [hv] using hu.symm) w hw]

end

end

/-! ### One step -/

/-- The key of a blob and the KP of a build determine the blob. -/
structure Addressed (W : World κ) : Prop where
  derive : ∀ {b p t e b' p' t' e' kp}, W.derive b p t e = .ok kp → W.derive b' p' t' e' = .ok kp →
    b = b'
  file : ∀ {k k' b}, W.file k = .ok b → W.file k' = .ok b → k = k'

section

variable [Inhabited κ] {W : World κ} {s s' : State κ} {a : Label κ} {f kp pk : κ}

/-- The blob that KP was derived from. -/
def Blob (W : World κ) (kp pk : κ) : Prop :=
  ∃ b p t e, W.file pk = .ok b ∧ W.decodePinned b = .ok p ∧ W.derive b p t e = .ok kp

omit [DecidableEq κ] [Inhabited κ] in
theorem blob_of_derived {st : Store κ} (h : deriveKPValue W st f = .ok (kp, pk)) :
    Blob W kp pk := by
  obtain ⟨-, b, p, env, platKey, platform, hb, hp, -, -, -, hkp⟩ := deriveKPValue_ok.mp h
  exact ⟨b, p, _, env, (readFile_complete hb).2, hp, hkp⟩

omit [DecidableEq κ] [Inhabited κ] in
theorem Blob.unique (hw : Addressed W) {pk' : κ} (h : Blob W kp pk) (h' : Blob W kp pk') :
    pk' = pk := by
  obtain ⟨b, p, t, e, hb, -, hd⟩ := h
  obtain ⟨b', p', t', e', hb', -, hd'⟩ := h'
  obtain rfl := hw.derive hd hd'
  exact hw.file hb' hb

variable {fr : Frame κ} {bv pin : Nat} {rest : List (Frame κ)}

/-- The F of a stage frame's buildvalue is settled. -/
theorem step_stage_f (hb : Base s) (ha : a ≠ .crash) (hs : step W s a = some s')
    (hfr : fr ∈ s.stack) (hput : fr.isPut = true) (hbv : fr.stageOf = some bv) :
    (s'.node bv).f = (s.node bv).f := by
  have hok := hb.frames fr hfr
  have hstage : StageOK s bv := by
    cases fr <;> simp [Frame.isPut] at hput <;> simp only [Frame.stageOf, Option.some.injEq] at hbv
      <;> subst hbv <;> exact hok
  rcases step_cases hb ha hs with ⟨c, fr', rest, -, -, hst, he⟩ | haside
  · rcases (he.record (hb.pop hst) hstage.1).resolved.1 with heq | ⟨hnone, -⟩
    · exact heq
    · exact absurd hnone hstage.2.2
  · exact (haside.record bv hstage.1).f

omit [DecidableEq κ] [Inhabited κ] in
theorem foreign_of_not_put {node : Nat → Node κ} (h : fr.isPut = false) :
    Foreign node f kp pk fr := by
  cases fr with
  | putPinned | putKPTree | putPinCover => cases h
  | _ => trivial

omit [DecidableEq κ] [Inhabited κ] in
theorem Foreign.congr {node node' : Nat → Node κ}
    (hf : ∀ bv, fr.isPut = true → fr.stageOf = some bv → (node' bv).f = (node bv).f)
    (h : Foreign node f kp pk fr) : Foreign node' f kp pk fr := by
  cases fr with
  | putPinned bv => exact ⟨by rw [hf bv rfl rfl]; exact h.1, h.2⟩
  | putKPTree bv | putPinCover bv =>
    show (node' bv).f ≠ some f
    rw [hf bv rfl rfl]
    exact h
  | _ => trivial

theorem Bound.step (hw : Addressed W) (hblob : Blob W kp pk) (h : Bound s f kp pk) (hb : Base s)
    (hu : Undisturbed f kp pk s a) (hs : JobsIroh.step W s a = some s') : Bound s' f kp pk := by
  -- what a frame on the stack may write
  have written : ∀ {r : RefName κ} {v : κ}, Write s a r v →
      (r = .pinned kp → v = pk) ∧ (r = .pinCover f → v = kp) ∧ (r = .kpTree kp → v = kp) := by
    intro r v hwr
    rcases a.exec_or with ⟨c, rfl⟩ | hex
    swap
    · have hr := hu.right hex hwr
      exact ⟨hr.pinned, hr.pinCover, hr.kpTree⟩
    · cases hwr with
      | frame c fr rest hst r v hfw =>
        have hfor : Foreign s.node f kp pk fr := h.foreign fr (State.top_mem hst)
        cases hfw with
        | pinned bv k p => exact ⟨fun heq => hfor.2 (by simpa using heq), nofun, nofun⟩
        | kpTree bv k => exact ⟨nofun, nofun, fun heq => by simpa using heq⟩
        | pinCover bv k f' hf =>
          refine ⟨nofun, fun heq => ?_, nofun⟩
          obtain rfl : f' = f := by simpa using heq
          exact absurd hf hfor
        | aliasDeps | aliasOutput => exact ⟨nofun, nofun, nofun⟩
        | heal fr r v hc =>
          rcases hc with rfl | rfl
          · exact ⟨nofun, nofun, nofun⟩
          · exact ⟨nofun, nofun, fun heq => by simpa using heq⟩
      | heal a ha => rcases ha with ⟨_, _, ha⟩ | ⟨_, _, ha⟩ <;> cases ha
  have value : ∀ {r : RefName κ} {v : κ}, ¬ ScratchRef r → s.store.refs r = some v →
      (∀ w, Write s a r w → w = v) → s'.store.refs r = some v := by
    intro r v hr hv hall
    rcases hu.refs hb hs hr with heq | ⟨w, heq, hwr⟩
    · rw [heq, hv]
    · rw [heq, hall w hwr]
  refine ⟨?_, ?_, ?_, ?_, ?_⟩
  · exact value (not_scratch nofun) h.pinned fun w hwr => (written hwr).1 rfl
  · exact value (not_scratch nofun) h.pinCover fun w hwr => (written hwr).2.1 rfl
  · intro v hv
    rcases hu.refs (r := .kpTree kp) hb hs (not_scratch nofun) with heq | ⟨w, heq, hwr⟩
    · exact h.kpTree v (heq ▸ hv)
    · obtain rfl : w = v := by simpa [hv] using heq.symm
      exact (written hwr).2.2 rfl
  · exact (step_store hb.graph hs).complete pk h.complete
  · intro fr' hmem
    have old : fr' ∈ s.stack → Foreign s'.node f kp pk fr' := fun hin =>
      (h.foreign fr' hin).congr fun bv hput hbv => step_stage_f hb hu.lives hs hin hput hbv
    by_cases hput : fr'.isPut = true
    swap
    · exact foreign_of_not_put (by simpa using hput)
    rcases step_cases hb hu.lives hs with ⟨c, fr, rest, rfl, -, hst, he⟩ | haside
    · rcases he.put hb.graph hmem hput with hin | ⟨-, hfrom⟩
      · exact old (State.below_mem hst hin)
      · have hfor : Foreign s.node f kp pk fr := h.foreign fr (State.top_mem hst)
        have hin := State.top_mem hst
        cases hfrom with
        | derived bv pin f' kp' pk' hf hr hd =>
          have hbv : (s'.node bv).f = some f' := by
            rcases (he.record (hb.pop hst) (hb.frames _ hin).1.1).resolved.1 with heq | ⟨hnone, -⟩
            · rw [heq]
              exact hf
            · rw [show (s.node bv).f = none from hnone] at hf
              cases hf
          refine ⟨fun heq => ?_, fun heq => ?_⟩
          · obtain rfl : f' = f := by simpa [hbv] using heq
            exact absurd (h.pinCover.symm.trans hr) (by simp)
          · subst heq
            exact hblob.unique hw (blob_of_derived hd)
        | carrier bv =>
          show (s'.node bv).f ≠ some f
          rw [step_stage_f hb hu.lives hs hin rfl rfl]
          exact hfor.1
        | cover bv =>
          show (s'.node bv).f ≠ some f
          rw [step_stage_f hb hu.lives hs hin rfl rfl]
          exact hfor
    · exact old (haside.put hmem hput ▸ hmem)

theorem Memo.step (h : Memo s f kp) (hb : Base s) (hf : Fenced s) (hu : Undisturbed f kp pk s a)
    (hs : JobsIroh.step W s a = some s') : Memo s' f kp := by
  have hout := hu.has (r := .output kp) hb hs (not_scratch nofun) h.output
  refine ⟨hu.has hb hs (not_scratch nofun) h.pinCover, hout, fun n hn => ?_⟩
  obtain ⟨hext, hfresh⟩ := step_table hb hu.lives hs
  have hid : s'.graph.id n = ⟨.buildRun, kp⟩ := ((hb.step hs).graph.occ _ n hn).1
  have halive : s'.graph.Alive n := by
    show s'.graph.nodes (s'.graph.id n) = some n
    rw [hid]
    exact hn
  rcases hext.alive n halive with ⟨hold, hsame⟩ | hnew
  · have hphase := h.done n (by rw [← hid, hsame]; exact hold)
    exact ((step_move hb hf hs).node hf hu.lives hold).done hphase
  · -- a new node finds the output
    obtain ⟨r, hr, hp⟩ := (hfresh n halive hnew).made
    have hex : outputExistsLocked a.choice s'.store ⟨.buildRun, kp⟩ = (none, .ok true) := by
      unfold outputExistsLocked
      rw [hu.reads 0]
      simp [outputRef, hout]
    rw [hid, hex] at hr
    obtain rfl := (Prod.mk.inj hr).2
    simpa using hp

theorem Mending.other (h : Mending s bv f kp pk)
    (hb : Base s) (hu : Undisturbed f kp pk s a) (hst : s.stack = fr :: rest)
    (hex : ∀ c, a ≠ .exec c) (hs : JobsIroh.step W s a = some s') :
    s'.stack = fr :: rest ∧ Mending s' bv f kp pk := by
  obtain ⟨hstack, hnode, hgraph, -⟩ := step_open hb.graph (State.free_of_stack hst) hu.lives hex hs
  refine ⟨hstack.trans hst, ?_, ?_, ?_, ?_⟩
  · rw [hgraph]
    exact h.settled
  · rw [hnode]
    exact h.source
  · exact (step_store hb.graph hs).complete pk h.complete
  · exact hu.value hb hs hex (not_scratch nofun) (fun w hw => hw.kpTree rfl) h.kpTree

theorem execStep_top {c : Choice}
    (hpend : s.graph.pending = []) (hst : s.stack = fr :: rest)
    (hs : JobsIroh.step W s (.exec c) = some s') : s' = exec W c { s with stack := rest } fr := by
  change execStep W c s = some s' at hs
  unfold execStep at hs
  rw [if_neg (by simp [hpend]), hst] at hs
  exact (Option.some.inj hs).symm

theorem exec_of_top {c : Choice}
    (hpend : s.graph.pending = []) (hst : s.stack = fr :: rest) :
    JobsIroh.step W s (.exec c) = some (exec W c { s with stack := rest } fr) := by
  show execStep W c s = _
  unfold execStep
  rw [if_neg (by simp [hpend]), hst]

section

variable (h : PastPin W s bv pin rest f kp pk)
include h

omit [Inhabited κ] in
/-- The derivation that a missing binding sets off. -/
theorem PastPin.derives {c : Choice} (hr : s.store.refs (.pinCover f) = none)
    (hio : ∀ i, c.io i = none) : exec W c { s with stack := rest } (.afterPin bv pin)
      = { s with store := s.store.ingest kp, stack := .putPinned bv kp pk :: rest } := by
  show afterPin W c { s with stack := rest } bv pin = _
  unfold afterPin
  rw [if_neg (show ¬ State.phase { s with stack := rest } pin ≠ .done from not_not.mpr h.done)]
  rw [h.unresolved, h.source]
  dsimp only
  rw [hio 2, hr, hio 3]
  rw [h.derived]
  rfl

theorem PastPin.other
    (hb : Base s) (hu : Undisturbed f kp pk s a) (hex : ∀ c, a ≠ .exec c)
    (hs : JobsIroh.step W s a = some s') : PastPin W s' bv pin rest f kp pk := by
  obtain ⟨hstack, hnode, hgraph, -⟩ :=
    step_open hb.graph (State.free_of_stack h.stack) hu.lives hex hs
  have hpinned : s.store.refs (.pinned f) = some pk := (deriveKPValue_ok.mp h.derived).1
  refine ⟨hstack.trans h.stack, ?_, ?_, ?_, ?_, ?_, ?_⟩
  · rw [hgraph]
    exact h.settled
  · unfold State.phase
    rw [hnode]
    exact h.done
  · rw [hnode]
    exact h.source
  · rw [hnode]
    exact h.unresolved
  · exact deriveKPValue_mono h.derived
      (hu.keeps_value hb hs hex (not_scratch nofun) (fun w hw => hw.source rfl) hpinned)
      (step_store hb.graph hs).complete
  · exact ⟨hu.value hb hs hex (not_scratch nofun) (fun w hw => hw.pinned rfl) h.agree.pinned,
      hu.value hb hs hex (not_scratch nofun) (fun w hw => hw.kpTree rfl) h.agree.kpTree,
      hu.value hb hs hex (not_scratch nofun) (fun w hw => hw.pinCover rfl) h.agree.pinCover⟩

omit [DecidableEq κ] [Inhabited κ] in
/-- With the pinned job there, a binding that is found is good. -/
theorem PastPin.bound
    (hal : Alone s) (hr : s.store.has (.pinCover f)) (hp : s.store.has (.pinned kp)) :
    Bound s f kp pk := by
  obtain ⟨v, hv⟩ := Option.ne_none_iff_exists'.mp hr
  obtain ⟨w, hw⟩ := Option.ne_none_iff_exists'.mp hp
  refine ⟨?_, ?_, h.agree.kpTree, ?_, ?_⟩
  · rw [hw, h.agree.pinned w hw]
  · rw [hv, h.agree.pinCover v hv]
  · obtain ⟨-, b, p, env, platKey, platform, hb, -⟩ := deriveKPValue_ok.mp h.derived
    exact (readFile_complete hb).1
  · intro fr hfr
    rw [h.stack] at hfr
    rcases List.mem_cons.mp hfr with rfl | hfr
    · trivial
    · exact foreign_of_not_put (hal fr (by rw [h.stack]; exact hfr))

end

section

variable (hw : Addressed W) (hblob : Blob W kp pk) (h : Progress W bv pin rest f kp pk s)
  (hb : Base s) (hf : Fenced s) (hal : Alone s)
include hw hblob h hb hf hal

theorem Progress.step (hu : Undisturbed f kp pk s a) (hs : JobsIroh.step W s a = some s') :
    Progress W bv pin rest f kp pk s' := by
  rcases a.exec_or with ⟨c, rfl⟩ | hex
  · have hio : ∀ i, c.io i = none := hu.reads
    cases h with
    | resolving h hr =>
      have heq := execStep_top h.settled h.stack hs
      rw [h.derives hr hio] at heq
      subst heq
      refine .putPinned rfl ⟨h.settled, h.source, ?_, h.agree.kpTree⟩
      obtain ⟨-, b, p, env, platKey, platform, hread, -⟩ := deriveKPValue_ok.mp h.derived
      have hingest : StoreStep (fun _ _ => False) (fun _ => False) s.store
          (s.store.ingest kp) := StoreStep.ingest s.store kp
      exact hingest.complete pk (readFile_complete hread).1
    | putPinned hst h =>
      have heq := execStep_top h.settled hst hs
      simp only [exec, JobsIroh.putPinned, putOrFail, hio 2] at heq
      subst heq
      refine .putKPTree rfl ⟨h.settled, h.source, h.complete, fun v hv => ?_⟩ ?_
      · exact h.kpTree v (by simpa [State.putRef, State.push, Store.putRef] using hv)
      · simp [State.putRef, State.push, Store.putRef]
    | putKPTree hst h hp =>
      have heq := execStep_top h.settled hst hs
      simp only [exec, JobsIroh.putKPTree, putOrFail, hio 2] at heq
      subst heq
      refine .putPinCover rfl ⟨h.settled, h.source, h.complete, fun v hv => ?_⟩ ?_
      · simpa [State.putRef, State.push, Store.putRef] using hv.symm
      · simpa [State.putRef, State.push, Store.putRef] using hp
    | putPinCover hst h hp =>
      have heq := execStep_top h.settled hst hs
      have hstore : s'.store = s.store.putRef (.pinCover f) kp := by
        simp only [exec, JobsIroh.putPinCover, h.source, putOrFail, hio 2, requireRun,
          requireStage, require] at heq
        rw [heq, (joinNode_same _ _ _ _ _ _ _ _).1]
        rfl
      refine .bound ⟨?_, ?_, fun v hv => ?_, ?_, fun fr' hmem => ?_⟩
      · simpa [hstore, Store.putRef] using hp
      · simp [hstore, Store.putRef]
      · exact h.kpTree v (by simpa [hstore, Store.putRef] using hv)
      · rw [hstore]
        exact h.complete
      · -- the derivation was the only one
        by_cases hput : fr'.isPut = true
        swap
        · exact foreign_of_not_put (by simpa using hput)
        have he : ExecStep W c { s with stack := rest } (.putPinCover bv kp) s' :=
          heq ▸ exec_rule W c { s with stack := rest } (.putPinCover bv kp)
        rcases he.put hb.graph hmem hput with hin | ⟨-, hfrom⟩
        · have := hal fr' (by rw [hst]; exact hin)
          rw [this] at hput
          cases hput
        · cases hfrom
    | bound h => exact .bound (h.step hw hblob hb hu hs)
    | memo h => exact .memo (h.step hb hf hu hs)
  · have pinned : s.store.refs (.pinned kp) = some pk → s'.store.refs (.pinned kp) = some pk :=
      hu.keeps_value hb hs hex (not_scratch (by simp)) fun w hw => hw.pinned rfl
    cases h with
    | resolving h hr =>
      have h' := h.other hb hu hex hs
      by_cases hr' : s'.store.refs (.pinCover f) = none
      · exact .resolving h' hr'
      · -- a commit that was under way has bound KP
        rcases hu.refs (r := .pinCover f) hb hs (not_scratch (by simp)) with heq | ⟨v, -, hwr⟩
        · exact absurd (heq.trans hr) hr'
        have hhas : s.store.has (.pinned kp) := by
          cases hwr with
          | commit c i cm hcm r v hcw => exact hu.covers c i cm v rfl hcm hcw
          | frame c => exact absurd rfl (hex c)
          | heal a ha r v hc => rcases hc with hc | hc <;> cases hc
        exact .bound (h'.bound (hal.step hb hs) hr'
          (hu.has hb hs (not_scratch (by simp)) hhas))
    | putPinned hst h =>
      obtain ⟨hst', h'⟩ := h.other hb hu hst hex hs
      exact .putPinned hst' h'
    | putKPTree hst h hp =>
      obtain ⟨hst', h'⟩ := h.other hb hu hst hex hs
      exact .putKPTree hst' h' (pinned hp)
    | putPinCover hst h hp =>
      obtain ⟨hst', h'⟩ := h.other hb hu hst hex hs
      exact .putPinCover hst' h' (pinned hp)
    | bound h => exact .bound (h.step hw hblob hb hu hs)
    | memo h => exact .memo (h.step hb hf hu hs)

/-! ### The whole run -/

theorem Progress.reached (hs : Run.Steps (JobsIroh.step W) (Undisturbed f kp pk) s s') :
    (Base s' ∧ Fenced s' ∧ Alone s') ∧ Progress W bv pin rest f kp pk s' := by
  refine Run.Steps.inv (I := fun s => (Base s ∧ Fenced s ∧ Alone s) ∧
    Progress W bv pin rest f kp pk s) hs ⟨⟨hb, hf, hal⟩, h⟩ ?_
  intro s a s' hi hu hs
  obtain ⟨⟨hb, hf, hal⟩, h⟩ := hi
  exact ⟨⟨hb.step hs, hf.step hb hs, hal.step hb hs⟩, h.step hw hblob hb hf hal hu hs⟩

end

omit [DecidableEq κ] [Inhabited κ] in
/-- The frame on top is for the binding, or the binding is there. -/
theorem Progress.top (h : Progress W bv pin rest f kp pk s) :
    (∃ fr below, s.stack = fr :: below ∧
      (fr = .afterPin bv pin ∧ PastPin W s bv pin rest f kp pk ∨ fr.isPut = true)) ∨
      Bound s f kp pk ∨ Memo s f kp := by
  cases h with
  | resolving h => exact Or.inl ⟨_, _, h.stack, Or.inl ⟨rfl, h⟩⟩
  | putPinned hst | putKPTree hst | putPinCover hst => exact Or.inl ⟨_, _, hst, Or.inr rfl⟩
  | bound h => exact Or.inr (Or.inl h)
  | memo h => exact Or.inr (Or.inr h)

theorem Progress.succeeds {pin : Nat} {below : List (Frame κ)} (hblob : Blob W kp pk)
    (h : Progress W bv pin below f kp pk s) (hb : Base s) {c : Choice}
    {rest : List (Frame κ)} (hio : ∀ i, c.io i = none) (hpend : s.graph.pending = [])
    (hst : s.stack = fr :: rest) (hcon : Consults s f kp fr)
    (hs : JobsIroh.step W s (.exec c) = some s') {m : Nat} (hm : s'.phase m = .failed) :
    s.phase m = .failed := by
  have heq := execStep_top hpend hst hs
  subst heq
  cases fr with
  | afterPin =>
    refine afterPin_failed (s := { s with stack := rest }) hio hb.graph hcon ?_ hm
    intro hr
    rcases h.top with ⟨fr', below', hst', hfr⟩ | hbound | hmemo
    · rw [hst] at hst'
      obtain ⟨rfl, -⟩ := List.cons.inj hst'
      rcases hfr with ⟨-, hpast⟩ | hput
      · exact ⟨_, hpast.derived⟩
      · cases hput
    · exact absurd (hbound.pinCover.symm.trans hr) (by simp)
    · exact absurd hr hmemo.pinCover
  | putPinned | putKPTree => exact putOrFail_failed (s := { s with stack := rest }) hio hm
  | putPinCover =>
    exact putPinCover_failed (s := { s with stack := rest }) hio hb.graph hm
  | unfold n =>
    have hid : s.graph.id n = ⟨.buildRun, kp⟩ := hcon
    have hkind : State.kind { s with stack := rest } n = .buildRun := congrArg NodeID.kind hid
    have hkey : State.key { s with stack := rest } n = kp := congrArg NodeID.key hid
    change (unfoldLocked W c { s with stack := rest } n).phase m = .failed at hm
    unfold unfoldLocked at hm
    rw [hkind] at hm
    refine unfoldBuildRun_failed (s := { s with stack := rest }) hio ?_ hm
    rw [hkey]
    rcases h.top with ⟨fr', below', hst', hfr⟩ | hbound | hmemo
    · rw [hst] at hst'
      obtain ⟨rfl, -⟩ := List.cons.inj hst'
      rcases hfr with ⟨hne, -⟩ | hput
      · cases hne
      · cases hput
    · obtain ⟨b, p, t, e, hfile, hdec, -⟩ := hblob
      refine Or.inr ⟨b, p, ?_, hdec⟩
      simp [Store.readRefFile, hbound.pinned, Store.readFile, hbound.complete, hfile]
    · have halive : s.graph.Alive n :=
        hb.frames (.unfold n) (State.top_mem hst)
      refine Or.inl (hmemo.done n ?_)
      rw [← hid]
      exact halive
  | _ => exact hcon.elim

theorem Progress.published (hw : Addressed W)
    (hblob : Blob W kp pk) (h : Progress W bv pin rest f kp pk s) (hb : Base s) (hf : Fenced s)
    (hu : Undisturbed f kp pk s a) (hs : JobsIroh.step W s a = some s') {j : Job κ}
    (hj : s'.jobs = j :: s.jobs) (hid : j.id = ⟨.buildRun, kp⟩) : Whole s'.store f kp pk := by
  have ho := (step_move hb hf hs).handsOut hf hj
  obtain ⟨st, hjob, hst⟩ := step_job hb hs hj
  rcases h.top with ⟨fr, below, hstack, hfr⟩ | hbound | hmemo
  · -- no job comes out of the frames that resolve KP
    refine absurd (hj.symm.trans ?_) (List.cons_ne_self _ _)
    rcases a.exec_or with ⟨c, rfl⟩ | hex
    swap
    · exact (step_open hb.graph (State.free_of_stack hstack) hu.lives hex hs).2.2.2.1
    · by_cases hpend : s.graph.pending = []
      · have he := exec_rule W c { s with stack := below } fr
        rw [← execStep_top hpend hstack hs] at he
        refine (he.jobs hb.graph).resolve_right fun hout => ?_
        obtain ⟨m, s₁, hfr', -⟩ := hout
        rcases hfr' with rfl | ⟨n, todo, seen, rfl⟩ <;> rcases hfr with ⟨hne, -⟩ | hput
        · cases hne
        · cases hput
        · cases hne
        · cases hput
      · change execStep W c s = some s' at hs
        unfold execStep at hs
        rw [if_pos hpend] at hs
        rw [← Option.some.inj hs]
  · have h' := hbound.step hw hblob hb hu hs
    have hcar := hjob.healed (.kpTree kp) (by rw [← hjob.id, hid]; rfl)
    obtain ⟨v, hv⟩ := Option.ne_none_iff_exists'.mp hcar
    have hv' : s'.store.refs (.kpTree kp) = some v :=
      (hst (.kpTree kp) (not_scratch nofun)).trans hv
    exact ⟨h'.pinned, by rw [hv', h'.kpTree v hv'], h'.pinCover⟩
  · -- a node that is done is not handed out
    have hdone : s.phase j.ptr = .done := by
      refine hmemo.done j.ptr ?_
      rw [← hid, hjob.id]
      exact ho.alive
    rcases ho.due with hheld | ⟨fr, below, -, -, hr⟩
    · unfold Held at hheld
      rw [hdone] at hheld
      rcases hheld with h₁ | h₁ | ⟨h₁, -⟩ <;> cases h₁
    · simp [ready, hdone] at hr

/-- The three ways in which missing refs come back. -/
theorem PastPin.heals (hw : Addressed W)
    (h : PastPin W s bv pin rest f kp pk) (hb : Base s) (hf : Fenced s) (hal : Alone s)
    (hsound : Sound s f kp) : Heals W f kp pk s := by
  have hblob := blob_of_derived h.derived
  have hp : Progress W bv pin rest f kp pk s := by
    by_cases hr : s.store.refs (.pinCover f) = none
    · exact .resolving h hr
    · rcases hsound with hnone | hpinned | ⟨hout, hdone⟩
      · exact absurd hnone hr
      · exact .bound (h.bound hal hr hpinned)
      · exact .memo ⟨hr, hout, hdone⟩
  constructor
  · intro s' c fr below s'' hsteps hu hpend hst hcon hstep m hm
    obtain ⟨⟨hb', -, -⟩, hp'⟩ := hp.reached hw hblob hb hf hal hsteps
    exact hp'.succeeds hblob hb' hu.reads hpend hst hcon hstep hm
  · intro s' a s'' j hsteps hu hstep hj hid
    obtain ⟨⟨hb', hf', -⟩, hp'⟩ := hp.reached hw hblob hb hf hal hsteps
    exact hp'.published hw hblob hb' hf' hu hstep hj hid

/-- A node that is made and not done yet is unfolded next. -/
structure Made (s s' : State κ) (id : NodeID κ) (below : List (Frame κ)) : Prop where
  stack : s'.stack = .unfold s.graph.next :: below
  phase : s'.phase s.graph.next = .waiting
  store : s'.store = s.store
  identity : s'.graph.id s.graph.next = id
  settled : s'.graph.pending = []

omit [Inhabited κ] in
theorem require_made {c : Choice} {kind : Kind} {k : κ} {p : Nat} {o : Option κ} (defn : Bytes)
    (platform label : String) (ret : Nat → List (Frame κ)) (hg : s.graph.Inv s.target)
    (hp : s.graph.Alive p) (hpend : s.graph.pending = [])
    (hnone : s.graph.nodes ⟨kind, k⟩ = none)
    (hout : outputExistsLocked c s.store ⟨kind, k⟩ = (o, .ok false)) :
    Made s (require c s kind k defn platform p label ret) ⟨kind, k⟩
      (ret s.graph.next ++ s.stack) := by
  have hid := hg.require_id ⟨kind, k⟩ p
  obtain ⟨nd, fs, lg, heq, hj⟩ := require_eq hg kind k defn platform p label ret
  rw [heq]
  rw [InterestGraph.Graph.occupant_of_none hnone] at hj hid ⊢
  rw [hnone] at hj
  cases hj with
  | existed nd hold => cases hold
  | failed hold f e hout' | cached hold f hout' =>
    rw [hout] at hout'
    cases hout'
  | fresh =>
    exact ⟨rfl, by simp [State.phase, freshNode, fillNode], rfl, hid,
      hg.require_pending hp hnone hpend⟩

omit [Inhabited κ] in
/-- Unfolding a run stage without its pinned job fails it. -/
theorem unfold_unpinned {c : Choice} {n : Nat} (hid : s.graph.id n = ⟨.buildRun, kp⟩)
    (hw : s.phase n = .waiting) (hpinned : s.store.refs (.pinned kp) = none)
    (hio : ∀ i, c.io i = none) : (exec W c s (.unfold n)).phase n = .failed := by
  have hkind : s.kind n = .buildRun := congrArg NodeID.kind hid
  have hkey : s.key n = kp := congrArg NodeID.key hid
  show (unfoldLocked W c s n).phase n = .failed
  unfold unfoldLocked
  rw [hkind]
  unfold unfoldBuildRun readBlobLocked
  rw [hio 0, hio 1, hkey]
  unfold Store.readRefFile
  rw [hpinned]
  dsimp only
  unfold failNodeLocked
  rw [if_neg (by rw [hw]; simp [Phase.settled])]
  simp [State.phase, State.setNode]

/-- A buildvalue that finds the binding alone makes a run stage that fails at once. -/
theorem PastPin.fails (h : PastPin W s bv pin rest f kp pk)
    (hb : Base s) (hfresh : s.graph.nodes ⟨.buildRun, kp⟩ = none) (hbad : ¬ Sound s f kp) :
    ¬ Heals W f kp pk s := by
  intro hheals
  obtain ⟨hcover, hpinned, hout⟩ : s.store.has (.pinCover f) ∧ ¬ s.store.has (.pinned kp) ∧
      ¬ s.store.has (.output kp) := by
    refine ⟨fun hn => hbad (Or.inl hn), fun hn => hbad (Or.inr (Or.inl hn)), fun hn => ?_⟩
    exact hbad (Or.inr (Or.inr ⟨hn, fun n hn => by rw [hfresh] at hn; cases hn⟩))
  have hkp : s.store.refs (.pinCover f) = some kp := by
    obtain ⟨v, hv⟩ := Option.ne_none_iff_exists'.mp hcover
    rw [hv, h.agree.pinCover v hv]
  have calm : ∀ s₀ : State κ, Undisturbed f kp pk s₀ (.exec {}) := by
    intro s₀
    exact { keeps := by simp, lives := by simp, reads := fun _ => rfl, binds := by simp,
            covers := by simp }
  have halive : s.graph.Alive bv :=
    (hb.frames (.afterPin bv pin) (State.top_mem h.stack)).1.1
  -- the binding is found, and the run stage is made
  have hfirst : exec W {} { s with stack := rest } (.afterPin bv pin)
      = requireRun {} { s with stack := rest } bv kp := by
    show afterPin W {} { s with stack := rest } bv pin = _
    unfold afterPin
    rw [if_neg (show ¬ State.phase { s with stack := rest } pin ≠ .done from not_not.mpr h.done)]
    rw [h.unresolved, h.source]
    dsimp only
    rw [hkp]
  have hmade : Made s (requireRun {} { s with stack := rest } bv kp) ⟨.buildRun, kp⟩
      (.afterRun bv s.graph.next :: rest) := by
    have hm := require_made (c := {}) (o := none)
      (s := State.setNode { s with stack := rest } bv { s.node bv with kp := some kp }) []
      (s.node bv).platform (s.node bv).label (fun n => [.afterRun bv n]) hb.graph halive
      h.settled hfresh
      (by simp [outputExistsLocked, outputRef, hout, State.setNode])
    unfold requireRun requireStage
    rw [State.setNode_node]
    exact ⟨hm.stack, hm.phase, hm.store, hm.identity, hm.settled⟩
  have hstep₁ := exec_of_top (W := W) (c := {}) h.settled h.stack
  rw [hfirst] at hstep₁
  generalize requireRun {} { s with stack := rest } bv kp = s₁ at hstep₁ hmade
  -- its unfold finds no pinned job
  have hstep₂ := exec_of_top (W := W) (c := {}) hmade.settled hmade.stack
  have hfails := hheals.succeeds s₁ {} _ _ _ (Run.Steps.refl.tail (calm s) hstep₁) (calm s₁)
    hmade.settled hmade.stack hmade.identity hstep₂ s.graph.next
    (unfold_unpinned (s := { s₁ with stack := _ }) hmade.identity hmade.phase
      (by rw [show State.store { s₁ with stack := _ } = s.store from hmade.store]
          simpa [Store.has] using hpinned) fun _ => rfl)
  rw [hmade.phase] at hfails
  cases hfails

/-- **Derived refs are healed**, unless the binding stands alone.  A buildvalue whose pin is
done goes on to its run stage without a node failing for want of a derived ref, and every
job of that stage finds all three of them, if `pin-cover:F` is missing, or `build-pinned:KP`
is there, or the output of KP is.  When the run stage is not in the table yet, it is so in no
other case. -/
theorem derived_refs_healed {P : State κ → Label κ → Prop} {st : Store κ}
    (hw : Addressed W) (hreach : Reached W P st s)
    (h : PastPin W s bv pin rest f kp pk) :
    (Sound s f kp → Heals W f kp pk s) ∧
      (s.graph.nodes ⟨.buildRun, kp⟩ = none → Heals W f kp pk s → Sound s f kp) := by
  refine ⟨fun hsound => ?_, fun hfresh hheals => ?_⟩
  · exact h.heals hw hreach.base hreach.fenced.2 hreach.alone hsound
  · by_contra hbad
    exact h.fails hreach.base hfresh hbad hheals

end

/-! ### A binding that stands alone -/

/-- The build `0` has the F-tree `10`, which is pinned by the blob `31`; its KP is `41`. -/
def boundWorld : World UInt8 :=
  smallWorld
    { definition := fun b => .ok (smallDef b ⟨.tree, [9]⟩)
      resolved := fun _ => .ok { plugins := [] }
      pinned := fun _ => .ok { inputs := [] }
      subdir := fun k name => if k = 10 then if name = "env" then some 12 else some 13 else none
      derive := fun b => if b = 31 then .ok 41 else .error "no cover" }

/-- The build `0` is pinned and bound to its KP; `derived` is what else is left of the
derived refs. -/
def boundStore (derived : List (RefName UInt8 × UInt8)) : Store UInt8 :=
  smallStore ([(.buildFrom 0, 10), (.pluginResolved 10, 20), (.pinned 10, 31), (.pinCover 10, 41)]
    ++ derived)

theorem boundWorld_addressed : Addressed boundWorld where
  derive := by
    have hkey : ∀ {b p t e kp}, boundWorld.derive b p t e = .ok kp → b = [31] := by
      intro b p t e kp h
      match b, h with
      | [x], h =>
        by_cases hx : x = 31
        · rw [hx]
        · simp [boundWorld, smallWorld, oneByte, hx] at h
    intro b p t e b' p' t' e' kp h h'
    rw [hkey h, hkey h']
  file := by
    intro k k' b h h'
    have hk : [k] = b := Except.ok.inj h
    have hk' : [k'] = b := Except.ok.inj h'
    simpa using hk.trans hk'.symm

/-- What is computed of a run to see that its buildvalue `0` has come to the pin `3`. -/
def atPin (s : State UInt8) : Bool :=
  s.stack.head? = some (.afterPin 0 3) && s.graph.pending.isEmpty && s.phase 3 = .done &&
    (s.node 0).f = some 10 && (s.node 0).kp = none &&
    (deriveKPValue boundWorld s.store 10).toOption = some (41, 31) &&
    (s.store.refs (.pinned 41)).all (· = 31) && (s.store.refs (.kpTree 41)).all (· = 41) &&
    (s.store.refs (.pinCover 10)).all (· = 41)

theorem pastPin_of_atPin {s : State UInt8} (h : atPin s = true) :
    PastPin boundWorld s 0 3 s.stack.tail 10 41 31 := by
  simp only [atPin, Bool.and_eq_true, decide_eq_true_eq, List.isEmpty_iff] at h
  obtain ⟨⟨⟨⟨⟨⟨⟨⟨htop, hpend⟩, hdone⟩, hf⟩, hkp⟩, hderive⟩, hpinned⟩, htree⟩, hcover⟩ := h
  refine ⟨?_, hpend, hdone, hf, hkp, ?_, ?_, ?_, ?_⟩
  · exact (List.cons_head?_tail htop).symm
  · cases hd : deriveKPValue boundWorld s.store 10 with
    | error => simp [hd, Except.toOption] at hderive
    | ok => simpa [hd, Except.toOption] using hderive
  all_goals
    intro v hv
    simp_all

/-- With `build-pinned:KP` gone and the binding left, the run stage fails. -/
theorem binding_alone_fails : ∃ s s' s'' : State UInt8, ∃ n rest,
    Reached boundWorld Run.Always (boundStore []) s ∧
    PastPin boundWorld s 0 3 rest 10 41 31 ∧
    step boundWorld s (.exec {}) = some s' ∧ step boundWorld s' (.exec {}) = some s'' ∧
    s''.graph.id n = ⟨.buildRun, 41⟩ ∧ s'.phase n = .waiting ∧ s''.phase n = .failed := by
  have hrun : ∃ s ∈ runSched boundWorld (State.init (boundStore [])) (submitRun 0 4),
      atPin s = true ∧ ∃ s' ∈ step boundWorld s (.exec {}), s'.phase 4 = .waiting ∧
        ∃ s'' ∈ step boundWorld s' (.exec {}),
          s''.graph.id 4 = ⟨.buildRun, 41⟩ ∧ s''.phase 4 = .failed := by
    decide +kernel
  obtain ⟨s, hs, hpin, s', hs', hwait, s'', hs'', hid, hfail⟩ := hrun
  exact ⟨s, s', s'', 4, _, Run.Steps.of_run _ hs, pastPin_of_atPin hpin, hs', hs'', hid, hwait,
    hfail⟩

/-- With the pinned job of KP there and its tree gone, they are healed. -/
theorem derived_refs_healed_bound : ∃ s : State UInt8, ∃ rest,
    Reached boundWorld Run.Always (boundStore [(.pinned 41, 31)]) s ∧
    PastPin boundWorld s 0 3 rest 10 41 31 ∧ s.store.refs (.kpTree 41) = none ∧
    Sound s 10 41 ∧ Heals boundWorld 10 41 31 s := by
  have hrun : ∃ s ∈ runSched boundWorld (State.init (boundStore [(.pinned 41, 31)]))
      (submitRun 0 4), atPin s = true ∧ s.store.refs (.kpTree 41) = none ∧
        s.store.refs (.pinned 41) = some 31 := by
    decide +kernel
  obtain ⟨s, hs, hpin, htree, hpinned⟩ := hrun
  have hreach := Run.Steps.of_run _ hs
  have hsound : Sound s 10 41 := Or.inr (Or.inl (by simp [Store.has, hpinned]))
  exact ⟨s, _, hreach, pastPin_of_atPin hpin, htree, hsound,
    (derived_refs_healed boundWorld_addressed hreach (pastPin_of_atPin hpin)).1 hsound⟩

end JobsIroh
