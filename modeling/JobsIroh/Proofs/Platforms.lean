/-
Where the stages of a build are placed.

F and KP record the platform of the build's definition.  The nodes of the stages are placed
by another route: each takes the platform its buildvalue carries, which is the one the
buildvalue was first asked for with.  A submit and an input ask with the platform of the
definition; an import asks for the build of its fetcher with its own.  The two routes agree
when every fetcher is defined for the platform of its import.
-/
import JobsIroh.Cover.Derive
import JobsIroh.Lib.Assoc
import JobsIroh.Proofs.Heal
import JobsIroh.Proofs.Pipelines

namespace JobsIroh

variable {κ : Type} [DecidableEq κ]

/-! ### Recorded platforms -/

/-- The platform recorded in an F-tree or in a KP tree. -/
def World.recorded (W : World κ) (t : κ) : Option String :=
  match W.subdir t "platform" with
  | .ok (some pk) => (W.file pk).toOption.map W.text
  | _ => none

/-- The platform of the definition whose key is `k`. -/
def World.defined (W : World κ) (k : κ) : Option String :=
  match W.file k with
  | .ok b => (W.decodeDefinition b).toOption.map (·.platform)
  | .error _ => none

/-- Files are found under their keys, and a KP tree records the platform it was derived for. -/
structure Content (W : World κ) : Prop where
  file : ∀ {b k}, W.fileKey b = .ok k → W.file k = .ok b
  derive : ∀ {b p t e kp}, W.derive b p (W.text t) e = .ok kp → W.recorded kp = some (W.text t)

/-- The tree `t`, an F or a KP, records the platform of the definition `k`. -/
def Records (W : World κ) (k t : κ) : Prop :=
  ∃ p, W.defined k = some p ∧ W.recorded t = some p

/-- What `f` records, `kp` records as well. -/
def SamePlatform (W : World κ) (f kp : κ) : Prop :=
  ∀ p, W.recorded f = some p → W.recorded kp = some p

variable {k : κ}

section

omit [DecidableEq κ]

theorem Records.cover {W : World κ} {f kp : κ} (h : Records W k f) (hc : SamePlatform W f kp) :
    Records W k kp := by
  obtain ⟨p, hk, hf⟩ := h
  exact ⟨p, hk, hc p hf⟩

theorem Records.samePlatform {W : World κ} {f kp : κ} (h : Records W k f)
    (h' : Records W k kp) : SamePlatform W f kp := by
  obtain ⟨p, hk, hf⟩ := h
  obtain ⟨p', hk', hkp⟩ := h'
  intro q hq
  rw [hkp, ← hk', hk, ← hf, hq]

/-- The definition under the key of `b` is `b`. -/
theorem Content.decode {W : World κ} (hW : Content W) {b : Bytes} {p : String}
    (hk : W.fileKey b = .ok k) (hp : W.defined k = some p) :
    ∃ d, W.decodeDefinition b = .ok d ∧ d.platform = p := by
  unfold World.defined at hp
  rw [hW.file hk] at hp
  dsimp only at hp
  cases hd : W.decodeDefinition b with
  | error =>
    rw [hd] at hp
    cases hp
  | ok d =>
    rw [hd] at hp
    exact ⟨d, rfl, Option.some.inj hp⟩

/-- KP is derived for the platform recorded in F. -/
theorem samePlatform_of_derived {W : World κ} (hW : Content W) {st : Store κ} {f kp pk : κ}
    (h : deriveKPValue W st f = .ok (kp, pk)) : SamePlatform W f kp := by
  obtain ⟨-, b, p, env, platKey, platform, -, -, -, hsub, hfile, hkp⟩ := deriveKPValue_ok.mp h
  have hsub' : W.subdir f "platform" = .ok (some platKey) := by
    unfold Store.treeSubdir at hsub
    split at hsub
    · exact hsub
    · cases hsub
  intro q hq
  unfold World.recorded at hq
  rw [hsub'] at hq
  dsimp only at hq
  rw [hfile] at hq
  rw [hW.derive hkp]
  exact hq

end

/-! ### The refs a stage pulls -/

/-- The stages that are placed by F or KP alone. -/
def Kind.staged : Kind → Bool
  | .pluginResolve | .pin | .buildRun => true
  | _ => false

/-- A shell or a cache of this platform. -/
def OnPlatform (platform : String) (r : RefName κ) : Prop :=
  r = shellRef platform ∨ ∃ id, r = .raw (cacheRefName id platform)

section

variable {W : World κ} {st : Store κ}

variable {out : List (RefName κ)}

theorem mem_addName {r r' : RefName κ} (h : r ∈ addName out r') :
    r ∈ out ∨ r = r' := by
  unfold addName at h
  split at h
  · exact Or.inl h
  · simpa using h

theorem mem_addNames {rs : List (RefName κ)} {r : RefName κ} :
    ∀ {out : List (RefName κ)}, r ∈ addNames out rs → r ∈ out ∨ r ∈ rs := by
  induction rs with
  | nil =>
    intro out h
    exact Or.inl h
  | cons r' rs ih =>
    intro out h
    rcases ih h with h | h
    · rcases mem_addName h with h | h
      · exact Or.inl h
      · exact Or.inr (List.mem_cons.mpr (Or.inl h))
    · exact Or.inr (List.mem_cons_of_mem _ h)

theorem mem_addIfPresent {r r' : RefName κ}
    (h : r ∈ addIfPresent st out r') : r ∈ out ∨ r = r' := by
  unfold addIfPresent at h
  split at h
  · exact mem_addName h
  · exact Or.inl h

variable {r : String}

/-- An input is pulled by refs that are keyed. -/
theorem raw_of_addInputOutputs {out' : List (RefName κ)} {i : Input} {deps : Bool}
    (h : addInputOutputs W st out i deps = .ok out') (hr : .raw r ∈ out') :
    .raw r ∈ out := by
  unfold addInputOutputs at h
  split at h
  · cases h
  split at h
  · obtain rfl := Except.ok.inj h
    simpa using mem_addName hr
  · split at h
    · cases h
    · obtain rfl := Except.ok.inj h
      have hmem := mem_addNames hr
      split at hmem <;> simpa using hmem
  · split at h
    · cases h
    · obtain rfl := Except.ok.inj h
      simpa using mem_addName hr
  · obtain rfl := Except.ok.inj h
    exact hr

theorem raw_of_addAllOutputs {deps : Bool} {is : List Input} :
    ∀ {out out' : List (RefName κ)}, addAllOutputs W st deps is out = .ok out' → .raw r ∈ out' →
      .raw r ∈ out := by
  induction is with
  | nil =>
    intro out out' h hr
    obtain rfl := Except.ok.inj h
    exact hr
  | cons i is ih =>
    intro out out' h hr
    unfold addAllOutputs at h
    split at h
    · cases h
    · rename_i out₁ h₁
      exact raw_of_addInputOutputs h₁ (ih h hr)

theorem raw_of_caches {platform : String} {caches : List PinnedCache} :
    ∀ {out : List (RefName κ)}, .raw r ∈ caches.foldl
        (fun out c => addIfPresent st out (.raw (cacheRefName c.id platform))) out →
      .raw r ∈ out ∨ ∃ id, r = cacheRefName id platform := by
  induction caches with
  | nil =>
    intro out h
    exact Or.inl h
  | cons c cs ih =>
    intro out h
    rcases ih h with h | h
    · rcases mem_addIfPresent h with h | h
      · exact Or.inl h
      · exact Or.inr ⟨c.id, RefName.raw.inj h⟩
    · exact Or.inr h

/-- **The shell and the caches a stage pulls are those of its node's platform.** -/
theorem onPlatform_of_pull {id : NodeID κ} {nd : Node κ}
    (hk : id.kind.staged = true) (h : computePullRefs W st id nd = .ok out)
    (hr : .raw r ∈ out) : OnPlatform nd.platform (.raw r : RefName κ) := by
  have first : ∀ {a b : RefName κ}, a ≠ .raw r → b ≠ .raw r →
      .raw r ∈ addIfPresent st [a, b] (shellRef nd.platform) →
      (.raw r : RefName κ) = shellRef nd.platform := by
    intro a b ha hb hmem
    rcases mem_addIfPresent hmem with hmem | hmem
    · simp [ha.symm, hb.symm] at hmem
    · exact hmem
  unfold computePullRefs at h
  split at h
  · rename_i hkind
    simp [hkind, Kind.staged] at hk
  · rename_i hkind
    simp [hkind, Kind.staged] at hk
  · obtain rfl := Except.ok.inj h
    simp at hr
  · exact Or.inl (first (by simp) (by simp) (raw_of_addAllOutputs h hr))
  · split at h
    · cases h
    · rename_i out₁ h₁
      obtain rfl := Except.ok.inj h
      rcases raw_of_caches hr with hr | ⟨cid, hr⟩
      · exact Or.inl (first (by simp) (by simp) (raw_of_addAllOutputs h₁ hr))
      · exact Or.inr ⟨cid, by rw [hr]⟩
  · rename_i hkind
    simp [hkind, Kind.staged] at hk

end

/-! ### The platform of a node -/

section

variable {W : World κ} {c : Choice} {s s' : State κ} {fr : Frame κ} {q : Nat}

omit [DecidableEq κ] in
/-- Only an import and a buildfrom take another platform than they were made with. -/
theorem RecordStep.platform {nd' : Node κ} (h : RecordStep W c s fr q nd')
    (hk : s.kind q ≠ .importK ∧ s.kind q ≠ .buildFrom) (hne : (s.node q).platform ≠ "") :
    nd'.platform = (s.node q).platform := by
  cases h with
  | kept h => exact h.platform hne
  | read nd rest hfr h hkept =>
    have hnd : nd.platform = (s.node q).platform := by
      cases h with
      | named hkind => exact absurd hkind hk.1
      | source hkind => exact absurd hkind hk.2
      | _ => rfl
    rw [hkept.platform (by rw [hnd]; exact hne), hnd]
  | fetcher nd d hfr h => exact absurd h.kind hk.1
  | unreadable hfr hset hf hkp hdefn hp => exact hp.resolve_left hk.1
  | loop ni rest hfr hkept =>
    have hnd := keepInput_platform (s.node q) (s.kind q) ni.input
    rw [hkept.platform (by rw [hnd]; exact hne), hnd]
  | resolvedF bf f hfr hf hr hkept | resolvedKP kp hfr hkp hkept => exact hkept.platform hne

theorem Joined.platform {st : Store κ} {id : NodeID κ} {defn : Bytes} {platform label : String}
    {n : Nat} {lg lg' : NodeID κ → Nat} {nd : Node κ} {fs : List (Frame κ)}
    (h : Joined c st id none defn platform label n lg nd fs lg') : nd.platform = platform := by
  cases h with
  | existed nd hold => cases hold
  | _ => simp [freshNode, fillNode]

/-- A join makes its node for the platform it is given. -/
theorem joinNode_asked {target : ReqID → Option Nat} (hg : s.graph.Inv target) {id : NodeID κ}
    {g : InterestGraph.Graph (NodeID κ) ReqID} {defn : Bytes} {platform label : String}
    {ret : List (Frame κ)} (hid : g.id (s.graph.occupant id) = id)
    (hold : g.Alive q → q = s.graph.occupant id ∨ s.graph.Alive q)
    (hq : (joinNode c s id g defn platform label ret).graph.Alive q)
    (hnew : s.graph.next ≤ q) :
    (joinNode c s id g defn platform label ret).graph.id q = id ∧
      ((joinNode c s id g defn platform label ret).node q).platform = platform ∧
      (joinNode c s id g defn platform label ret).store = s.store := by
  obtain ⟨nd, fs, lg, heq, hj⟩ := joinNode_eq defn platform label ret hid
  rw [heq] at hq ⊢
  obtain rfl : q = s.graph.occupant id := by
    refine (hold hq).resolve_right fun h => ?_
    have := hg.alive_lt h
    omega
  rw [hg.absent_of_occupant hnew] at hj
  refine ⟨hid, ?_, rfl⟩
  dsimp only
  rw [Function.update_self]
  exact hj.platform

variable [Inhabited κ] {a : Label κ}

/-- The platform of a node that stays in the table. -/
theorem step_platform (hb : Base s) (ha : a ≠ .crash) (hs : step W s a = some s')
    (hq : s.graph.Alive q) (hk : s.kind q ≠ .importK ∧ s.kind q ≠ .buildFrom)
    (hne : (s.node q).platform ≠ "") : (s'.node q).platform = (s.node q).platform := by
  rcases step_cases hb ha hs with ⟨c, fr, rest, -, hp, hst, he⟩ | haside
  · exact (he.record (hb.pop hst) hq).platform hk hne
  · exact (haside.record q hq).platform hne

/-- Who asked first for a new node, and with which platform. -/
inductive Asked (W : World κ) (s : State κ) (a : Label κ) (s' : State κ) (q : Nat) : Prop
  | frame (c : Choice) (fr : Frame κ) (rest : List (Frame κ)) (p : Nat) (ha : a = .exec c)
      (hp : s.graph.pending = []) (hst : s.stack = fr :: rest)
      (he : NewEdge W { s with stack := rest } fr p (s'.graph.id q))
      (hplat : (s'.node q).platform = fr.gives W { s with stack := rest })
      (hstore : s'.store = s.store ∨ fr.opens = none)
  | submit (c : Choice) (i : Nat) (rid : ReqID) (sub : Submission κ) (ha : a = .submit c i rid)
      (hsub : sub ∈ s.submits) (hid : s'.graph.id q = ⟨.buildValue, sub.k⟩)
      (hplat : (s'.node q).platform = sub.platform)

/-- **A new node has the platform it was first asked for with.** -/
theorem step_asked (hb : Base s) (hs : step W s a = some s') (hq : s'.graph.Alive q)
    (hnew : s.graph.next ≤ q) : Asked W s a s' q := by
  have old : s.graph.Alive q → Asked W s a s' q := by
    intro h
    have := hb.graph.alive_lt h
    omega
  have same : s'.graph = s.graph → Asked W s a s' q := by
    intro h
    rw [h] at hq
    exact old hq
  have hr := step_rule hb.graph hs
  have hhandled := hr.handled
  cases hr with
  | visit => exact old ((InterestGraph.Graph.visitNext_alive _ q).mp hq)
  | frame c fr rest hp hst s' he =>
    cases he.graphRule (hb.pop hst) hp (hb.top hst).1 with
    | same _ h =>
      rw [h] at hq
      exact old hq
    | require s₁ hgr hlg kind k defn platform p label ret hedge hplat hstore =>
      have hg₁ : s₁.graph.Inv s.target := hgr ▸ hb.graph
      have hnew₁ : s₁.graph.next ≤ q := by
        rw [hgr]
        exact hnew
      obtain ⟨hid, hpl, hst'⟩ := joinNode_asked hg₁ (hg₁.require_id _ p)
        (hg₁.require_alive _ p q).mp hq hnew₁
      exact Asked.frame c fr rest p rfl hp hst (hid ▸ hedge) (hpl.trans hplat)
        (hstore.imp_left hst'.trans)
    | dropped _ r h => exact old ((h.alive_iff q).mp hq).1
  | submit c i rid sub hsub =>
    obtain ⟨hid, hpl, -⟩ := joinNode_asked (by exact hb.graph)
      (by exact hb.graph.requireTarget_id _ rid)
      (by exact (hb.graph.requireTarget_alive _ rid q).mp) hq hnew
    exact Asked.submit c i rid sub rfl (List.mem_of_getElem? hsub) hid hpl
  | cancelled rid r hr hfree | deleted rid r hr hfree | starved rid now reason r hr hfree =>
    exact old (((hb.dropped hr hfree).alive_iff q).mp hq).1
  | dropped | accepted | finishStale | finish | timer => exact same (hhandled rfl).graph
  | crash => cases hq
  | _ => exact same rfl

end

/-! ### The conditions -/

/-- An entry that binds a build's F binds a tree which records the platform of the build's
definition, as `RunBuildFrom` makes it. -/
def bindsRecorded (W : World κ) (p : RefProposal) : Bool :=
  match RefName.parse W.toKeyPkg p.name, W.parse p.key with
  | .buildFrom k, .ok f => (W.defined k).isSome && W.recorded f = W.defined k
  | _, _ => true

/-- A runner reports what it recorded. -/
def reportsRecorded (W : World κ) : Label κ → Bool
  | .result _ res => res.refs.all (bindsRecorded W)
  | _ => true

/-- The build `b` is asked for the first time, and has work left. -/
def startsBuild (W : World κ) (c : Choice) (s : State κ) (b : Bytes) : Bool :=
  match W.inputKey ⟨.build, b⟩ with
  | .error _ => false
  | .ok k =>
    (s.graph.nodes ⟨.buildValue, k⟩).isNone &&
      match (outputExistsLocked c s.store ⟨.buildValue, k⟩).2 with
      | .ok done => !done
      | .error _ => false

/-- The definition `b` names a platform, one that `allowed` admits. -/
def namesPlatform (W : World κ) (allowed : String → Bool) (b : Bytes) : Bool :=
  match W.decodeDefinition b with
  | .ok d => d.platform ≠ "" && allowed d.platform
  | .error _ => true

/-- A build that is started as an input names its platform, and one that is started as a
fetcher names the platform of its import. -/
def platformsAgree (W : World κ) (s : State κ) : Label κ → Bool
  | .exec c =>
    if s.graph.pending ≠ [] then true
    else match s.stack with
      | .unfold n :: _ =>
        match W.decodeImport (s.node n).defn with
        | .error _ => true
        | .ok d =>
          s.kind n ≠ .importK || d.fetcherDef = [] || !startsBuild W c s d.fetcherDef ||
            namesPlatform W
              (fun p => p = if d.platform = "" then (s.node n).platform else d.platform)
              d.fetcherDef
      | .unfolding _ (ni :: _) :: _ =>
        ni.input.kind ≠ .build || !startsBuild W c s ni.input.definition ||
          namesPlatform W (fun _ => true) ni.input.definition
      | _ => true
  | _ => true

/-- Runners report what they recorded, and the platforms of the definitions agree. -/
structure Agreed (W : World κ) (s : State κ) (a : Label κ) : Prop where
  reports : reportsRecorded W a = true
  agree : platformsAgree W s a = true

/-! ### The invariant -/

/-- The buildvalue and the KP of a derivation under way. -/
def Frame.derives : Frame κ → Option (Nat × κ)
  | .putPinned bv kp _ | .putKPTree bv kp | .putPinCover bv kp => some (bv, kp)
  | _ => none

/-- What is bound in the store, or about to be, is recorded right. -/
structure Bindings (W : World κ) (st : Store κ) : Prop where
  froms : ∀ k f, st.refs (.buildFrom k) = some f → Records W k f
  covers : ∀ f kp, st.refs (.pinCover f) = some kp → SamePlatform W f kp

/-- A stage of F or KP is placed on the platform recorded there. -/
def PlacedOn (W : World κ) (id : NodeID κ) (platform : String) : Prop :=
  id.kind.staged = true → W.recorded id.key = some platform

structure Platforms (W : World κ) (s : State κ) : Prop where
  store : Bindings W s.store
  submits : ∀ sub ∈ s.submits, W.defined sub.k = some sub.platform ∧ sub.platform ≠ ""
  batches : ∀ cm ∈ s.commits, ∀ p ∈ cm.refs, bindsRecorded W p = true
  /-- F and KP of a buildvalue, and the KP it is about to bind. -/
  resolved : ∀ n t, s.graph.Alive n → s.kind n = .buildValue →
    (s.node n).f = some t ∨ (s.node n).kp = some t → Records W (s.key n) t
  derived : ∀ fr ∈ s.stack, ∀ bv kp, fr.derives = some (bv, kp) → Records W (s.key bv) kp
  /-- A buildvalue that goes on to its stages has the platform of its definition. -/
  values : ∀ n p, s.graph.Alive n → s.kind n = .buildValue → (s.phase n).settled = false →
    W.defined (s.key n) = some p → (s.node n).platform = p ∧ p ≠ ""
  nodes : ∀ n, s.graph.Alive n → PlacedOn W (s.graph.id n) (s.node n).platform
  /-- So that no later join fills it in. -/
  named : ∀ n, s.graph.Alive n → (s.kind n).staged = true → (s.node n).platform ≠ ""
  commits : ∀ cm ∈ s.commits, PlacedOn W cm.id cm.platform
  jobs : ∀ j ∈ s.jobs, PlacedOn W j.id j.platform ∧
    (j.id.kind.staged = true →
      ∀ r, .raw r ∈ j.pullRefs → OnPlatform j.platform (.raw r : RefName κ))

section

variable {W : World κ} {c : Choice} {s s' : State κ} {fr : Frame κ}

variable {k : κ}

/-- The entry of a plan that binds a build's F stands in the batch. -/
theorem records_of_plan {cm : Commit κ} {st : Store κ} {ks : List κ} {v : κ}
    (hb : BatchAccepted W st cm ks) (hp : ∀ p ∈ cm.refs, bindsRecorded W p = true)
    (h : (.buildFrom k, v) ∈ cm.plan W ks) : Records W k v := by
  rcases List.mem_append.mp h with h | h
  · obtain ⟨⟨p, k'⟩, hmem, heq⟩ := List.mem_map.mp h
    obtain ⟨hname, rfl⟩ := Prod.mk.inj heq
    have hkey : W.parse p.key = .ok k' := (List.forall₂_iff_zip.mp hb.keys).2 hmem
    have hbinds := hp p (List.of_mem_zip hmem).1
    unfold bindsRecorded at hbinds
    rw [hname, hkey] at hbinds
    simp only [Bool.and_eq_true, decide_eq_true_eq] at hbinds
    obtain ⟨q, hq⟩ := Option.isSome_iff_exists.mp hbinds.1
    exact ⟨q, hq, hbinds.2.trans hq⟩
  · split at h
    · obtain ⟨e, -, heq⟩ := List.mem_map.mp h
      cases (Prod.mk.inj heq).1
    · cases h

/-- A commit binds no KP but the one it has derived. -/
theorem Confined.cover {cm : Commit κ} {f kp : κ} (hW : Content W)
    (h : Confined W cm (.pinCover f) kp) : SamePlatform W f kp := by
  cases h with
  | own _ _ h =>
    unfold ownRefs at h
    split at h <;> simp at h
  | pinCover hkind _ hd =>
    obtain ⟨st, pk, hd⟩ := hd
    exact samePlatform_of_derived hW hd

variable {bv : Nat}

/-- F or KP of the next stage records the platform of the build. -/
theorem Platforms.next {nd : Node κ} {kind : Kind} {ret : Nat → Frame κ}
    (h : Platforms W s) (hn : NextStage s fr bv nd kind k ret) (hbv : s.graph.Alive bv)
    (hk : s.kind bv = .buildValue) : Records W (s.key bv) k := by
  cases hn with
  | knownF _ bf hdone _ hf | resolved _ pr hdone _ hf => exact h.resolved bv k hbv hk (Or.inl hf)
  | readF _ bf hdone _ hf hr => exact h.store.froms _ _ hr
  | knownKP _ pin hdone _ hkp => exact h.resolved bv k hbv hk (Or.inr hkp)
  | readKP _ pin hdone f _ hf hkp hr =>
    exact (h.resolved bv f hbv hk (Or.inl hf)).cover (h.store.covers f k hr)

theorem Platforms.pop {rest : List (Frame κ)} (h : Platforms W s) (hst : s.stack = fr :: rest) :
    Platforms W { s with stack := rest } := by
  refine ⟨h.store, h.submits, h.batches, h.resolved, ?_, h.values, h.nodes, h.named, h.commits,
    h.jobs⟩
  intro fr' hfr'
  exact h.derived fr' (State.below_mem hst hfr')

omit [DecidableEq κ] in
/-- A buildvalue that goes on to its next stage keeps its platform. -/
theorem NextStage.platform {nd : Node κ} {kind : Kind} {ret : Nat → Frame κ}
    (h : NextStage s fr bv nd kind k ret) : nd.platform = (s.node bv).platform := by
  cases h <;> rfl

/-- A stage is asked for with the platform its F or KP records. -/
theorem Platforms.stage (h : Platforms W s) (hbv : s.graph.Alive bv)
    (hk : s.kind bv = .buildValue) (hu : (s.phase bv).settled = false)
    (hr : Records W (s.key bv) k) :
    W.recorded k = some (s.node bv).platform ∧ (s.node bv).platform ≠ "" := by
  obtain ⟨p, hdef, hrec⟩ := hr
  obtain ⟨hplat, hne⟩ := h.values bv p hbv hk hu hdef
  rw [hplat]
  exact ⟨hrec, hne⟩

end

section

variable [Inhabited κ] {W : World κ} {P : State κ → Label κ → Prop} {st : Store κ}
  {s s' : State κ} {a : Label κ} {n : Nat}

theorem Platforms.step_store (h : Platforms W s) (hW : Content W) (hr : Reached W P st s)
    (hs : JobsIroh.step W s a = some s') : Bindings W s'.store := by
  have hb := Reached.base hr
  have hstore := JobsIroh.step_store hb.graph hs
  refine ⟨fun k f hf => ?_, fun f kp hkp => ?_⟩
  · rcases hstore.refs (.buildFrom k) with heq | ⟨v, hv, hw⟩ | ⟨hnone, -⟩
    · exact h.store.froms k f (heq ▸ hf)
    · obtain rfl : v = f := Option.mem_unique hv hf
      cases hw with
      | commit c i cm hcm _ _ hcw =>
        have hmem := List.mem_of_getElem? hcm
        have hst := Reached.stageInv hr cm hmem
        cases hcw with
        | entry _ _ rest hstage =>
          unfold StageInv at hst
          simp only [hstage] at hst
          obtain ⟨ks, hba, htodo⟩ := hst
          exact records_of_plan hba (h.batches cm hmem) (htodo.subset List.mem_cons_self)
      | frame c fr rest hst _ _ hfw =>
        cases hfw with
        | heal _ _ _ hc => simp [Carrier] at hc
      | heal _ ha _ _ hc => simp [Carrier] at hc
    · rw [hf] at hnone
      cases hnone
  · rcases hstore.refs (.pinCover f) with heq | ⟨v, hv, hw⟩ | ⟨hnone, -⟩
    · exact h.store.covers f kp (heq ▸ hkp)
    · obtain rfl : v = kp := Option.mem_unique hv hkp
      cases hw with
      | commit c i cm hcm _ _ hcw =>
        exact ((Reached.stageInv hr cm (List.mem_of_getElem? hcm)).confined hcw).2.cover hW
      | frame c fr rest hst _ _ hfw =>
        have htop := State.top_mem hst
        cases hfw with
        | pinCover bv _ _ hf =>
          obtain ⟨halive, hkind⟩ := (hb.frames _ htop).stage rfl
          exact (h.resolved bv f halive hkind (Or.inl hf)).samePlatform
            (h.derived _ htop bv v rfl)
        | heal _ _ _ hc => simp [Carrier] at hc
      | heal _ ha _ _ hc => simp [Carrier] at hc
    · rw [hkp] at hnone
      cases hnone

theorem step_submits (hg : s.graph.Inv s.target) (hs : step W s a = some s') :
    ∀ sub ∈ s'.submits, sub ∈ s.submits ∨
      ∃ c req st, a = .prepare c req ∧ prepareSubmit W c s.store req = (st, .ok sub) := by
  intro sub hsub
  have same : s'.submits = s.submits → sub ∈ s.submits ∨
      ∃ c req st, a = .prepare c req ∧ prepareSubmit W c s.store req = (st, .ok sub) := by
    intro h
    exact Or.inl (h ▸ hsub)
  have hr := step_rule hg hs
  have hhandled := hr.handled
  cases hr with
  | frame c fr rest hp hst s' he => exact same he.outside.submits
  | prepared c req st subs hp =>
    rcases hp with ⟨e, -, rfl⟩ | ⟨sub', hp, rfl⟩
    · exact Or.inl hsub
    · rcases List.mem_append.mp hsub with hold | hnew
      · exact Or.inl hold
      · rw [List.mem_singleton.mp hnew]
        exact Or.inr ⟨c, req, st, rfl, hp⟩
  | submitClosed => exact Or.inl (List.mem_of_mem_eraseIdx hsub)
  | submit c i rid sub' =>
    obtain ⟨nd, fs, lg, heq, -⟩ := joinSubmit_eq
      (s := { s with submits := s.submits.eraseIdx i }) hg sub' rid
    rw [heq] at hsub
    exact Or.inl (List.mem_of_mem_eraseIdx hsub)
  | dropped | accepted | finishStale | finish | timer => exact same (hhandled rfl).submits
  | crash => cases hsub
  | _ => exact same rfl

omit [Inhabited κ] in
/-- A submission has the platform of its definition. -/
theorem prepared_platform (hW : Content W) {c : Choice} {st st' : Store κ} {req : SubmitRequest}
    {sub : Submission κ} (h : prepareSubmit W c st req = (st', .ok sub)) :
    W.defined sub.k = some sub.platform ∧ sub.platform ≠ "" := by
  unfold prepareSubmit at h
  split at h
  · cases h
  rename_i d res hv
  split at h
  · cases h
  split at h
  · cases h
  · cases h
  rename_i k hio hk
  split at h
  · cases h
  split at h
  · cases h
  obtain rfl := Except.ok.inj (Prod.mk.inj h).2
  obtain ⟨hd, -, hne⟩ := validateSubmit_ok hv
  refine ⟨?_, hne⟩
  unfold World.defined
  rw [hW.file hk]
  dsimp only
  rw [hd]
  rfl

theorem Platforms.step_submits (h : Platforms W s) (hW : Content W) (hb : Base s)
    (hs : JobsIroh.step W s a = some s') :
    ∀ sub ∈ s'.submits, W.defined sub.k = some sub.platform ∧ sub.platform ≠ "" := by
  intro sub hsub
  rcases JobsIroh.step_submits hb.graph hs sub hsub with hold | ⟨c, req, st, -, hp⟩
  · exact h.submits sub hold
  · exact prepared_platform hW hp

/-- What a commit carries from its start on. -/
theorem Platforms.step_commits (h : Platforms W s) (hb : Base s) (hc : Agreed W s a)
    (hs : JobsIroh.step W s a = some s') : ∀ cm ∈ s'.commits,
      (∀ p ∈ cm.refs, bindsRecorded W p = true) ∧ PlacedOn W cm.id cm.platform := by
  intro cm hcm
  cases JobsIroh.step_commits hb.graph hs cm hcm with
  | old hcm => exact ⟨h.batches cm hcm, h.commits cm hcm⟩
  | started c res m ha hid hm hacc hok heq =>
    subst heq ha
    refine ⟨?_, h.nodes m hm⟩
    intro p hp
    exact List.all_eq_true.mp hc.reports p hp
  | staged cm₀ hcm₀ stage hr heq =>
    subst heq
    exact ⟨h.batches cm₀ hcm₀, h.commits cm₀ hcm₀⟩

/-- The KP of a buildvalue is the one it had, one it has found bound to its F, or the one it
has just derived. -/
theorem step_kp (hb : Base s) (ha : a ≠ .crash) (hs : step W s a = some s')
    (hn : s.graph.Alive n) : (s'.node n).kp = (s.node n).kp ∨
      ∃ kp, (s'.node n).kp = some kp ∧
        ((∃ f, (s.node n).f = some f ∧ s.store.refs (.pinCover f) = some kp) ∨
          .putPinCover n kp ∈ s.stack) := by
  rcases step_cases hb ha hs with ⟨c, fr, rest, -, hp, hst, he⟩ | haside
  swap
  · exact Or.inl (haside.record n hn).kp
  rcases (he.record (hb.pop hst) hn).resolved.2 with heq | ⟨kp, heq, -, hkp⟩
  · exact Or.inl heq
  · refine Or.inr ⟨kp, heq, ?_⟩
    rcases hkp with ⟨-, hbound⟩ | htop
    · exact Or.inl hbound
    · refine Or.inr ?_
      rw [hst, htop]
      exact List.mem_cons_self

theorem Platforms.step_resolved (h : Platforms W s) (hW : Content W) (hr : Reached W P st s)
    (ha : a ≠ .crash) (hs : JobsIroh.step W s a = some s') (hn' : s'.graph.Alive n)
    (hk' : s'.kind n = .buildValue) {t : κ}
    (ht : (s'.node n).f = some t ∨ (s'.node n).kp = some t) : Records W (s'.key n) t := by
  have hb := Reached.base hr
  obtain ⟨hext, hfresh⟩ := step_table hb ha hs
  rcases hext.alive n hn' with ⟨hn, hid⟩ | hnew
  swap
  · have hf := hfresh n hn' hnew
    rcases ht with ht | ht
    · exact (h.step_store hW hr hs).froms _ _ (hf.resolved ht)
    · rw [hf.blank.1] at ht
      cases ht
  rw [State.kind_of_id hid] at hk'
  rw [State.key_of_id hid]
  rcases ht with ht | ht
  · rcases step_f hb ha hs hn with heq | ⟨-, f, heq, hstore⟩
    · exact h.resolved n t hn hk' (Or.inl (heq ▸ ht))
    · obtain rfl : f = t := Option.mem_unique heq ht
      exact h.store.froms _ _ hstore
  · rcases JobsIroh.step_kp hb ha hs hn with heq | ⟨kp, heq, ⟨f, hf, hstore⟩ | hput⟩
    · exact h.resolved n t hn hk' (Or.inr (heq ▸ ht))
    · obtain rfl : kp = t := Option.mem_unique heq ht
      exact (h.resolved n f hn hk' (Or.inl hf)).cover (h.store.covers f kp hstore)
    · obtain rfl : kp = t := Option.mem_unique heq ht
      exact h.derived _ hput n kp rfl

omit [DecidableEq κ] [Inhabited κ] in
theorem Frame.derives_isPut {fr : Frame κ} {bv : Nat} {kp : κ}
    (h : fr.derives = some (bv, kp)) : fr.isPut = true ∧ fr.stageOf = some bv := by
  cases fr <;> simp only [Frame.derives, Option.some.injEq, Prod.mk.injEq, reduceCtorEq] at h
  all_goals
    obtain ⟨rfl, -⟩ := h
    exact ⟨rfl, rfl⟩

theorem Platforms.step_derived (h : Platforms W s) (hW : Content W) (hb : Base s)
    (ha : a ≠ .crash) (hs : JobsIroh.step W s a = some s') {fr' : Frame κ}
    (hmem : fr' ∈ s'.stack) {bv : Nat} {kp : κ} (hd : fr'.derives = some (bv, kp)) :
    Records W (s'.key bv) kp := by
  obtain ⟨hput, hstage⟩ := Frame.derives_isPut hd
  have hbv' := (((hb.step hs).frames fr' hmem).stage hstage).1
  have key : s.graph.Alive bv → s'.key bv = s.key bv := by
    intro hbv
    exact State.key_of_id ((step_table hb ha hs).1.id_eq hbv' (hb.graph.alive_lt hbv))
  have old : fr' ∈ s.stack → Records W (s'.key bv) kp := by
    intro hold
    rw [key ((hb.frames fr' hold).stage hstage).1]
    exact h.derived fr' hold bv kp hd
  rcases step_cases hb ha hs with ⟨c, fr, rest, -, hp, hst, he⟩ | haside
  · rcases he.put hb.graph hmem hput with hrest | ⟨-, hfrom⟩
    · exact old (State.below_mem hst hrest)
    have htop := State.top_mem hst
    have hok := hb.frames fr htop
    cases hfrom with
    | derived bv' pin f kp' pk hf hr hdk =>
      obtain ⟨rfl, rfl⟩ := Prod.mk.inj (Option.some.inj hd)
      obtain ⟨hbv, hk⟩ := hok.stage rfl
      rw [key hbv]
      exact (h.resolved bv' f hbv hk (Or.inl hf)).cover (samePlatform_of_derived hW hdk)
    | carrier bv' kp' | cover bv' kp' =>
      obtain ⟨rfl, rfl⟩ := Prod.mk.inj (Option.some.inj hd)
      rw [key (hok.stage rfl).1]
      exact h.derived _ htop bv' kp' rfl
  · exact old (haside.put hmem hput ▸ hmem)

omit [Inhabited κ] in
/-- A new buildvalue that has work left is one that `startsBuild` is about. -/
theorem Fresh.starts {c : Choice} {k : κ} {b : Bytes} (h : Fresh c s s' n)
    (hu : (s'.phase n).settled = false) (hst : s'.store = s.store)
    (hid : s'.graph.id n = ⟨.buildValue, k⟩) (hk : W.inputKey ⟨.build, b⟩ = .ok k) :
    startsBuild W c s b = true := by
  have habs := h.absent
  rw [hid] at habs
  obtain ⟨r, hout, ⟨hph, -⟩ | ⟨hph, -⟩ | ⟨-, rfl, -⟩⟩ := h.made
  · simp [hph, Phase.settled] at hu
  · simp [hph, Phase.settled] at hu
  rw [hst, hid] at hout
  simp [startsBuild, hk, habs, hout]

omit [DecidableEq κ] [Inhabited κ] in
/-- What the condition says of a build that is started. -/
theorem namesPlatform_ok {allowed : String → Bool} {b : Bytes} {d : Definition}
    (h : namesPlatform W allowed b = true) (hd : W.decodeDefinition b = .ok d) :
    d.platform ≠ "" ∧ allowed d.platform = true := by
  unfold namesPlatform at h
  rw [hd] at h
  simpa using h

theorem Platforms.step_values (h : Platforms W s) (hW : Content W) (hb : Base s) (hf : Fenced s)
    (ha : a ≠ .crash) (hc : Agreed W s a) (hs : JobsIroh.step W s a = some s') {p : String}
    (hn' : s'.graph.Alive n) (hk' : s'.kind n = .buildValue)
    (hu' : (s'.phase n).settled = false) (hp : W.defined (s'.key n) = some p) :
    (s'.node n).platform = p ∧ p ≠ "" := by
  obtain ⟨hext, hfresh⟩ := step_table hb ha hs
  rcases hext.alive n hn' with ⟨hn, hid⟩ | hnew
  · rw [State.kind_of_id hid] at hk'
    rw [State.key_of_id hid] at hp
    have hu := ((step_move hb hf hs).node hf ha hn).unsettled hu'
    obtain ⟨hplat, hne⟩ := h.values n p hn hk' hu hp
    refine ⟨?_, hne⟩
    rw [step_platform hb ha hs hn (by simp [hk']) (by rw [hplat]; exact hne), hplat]
  have hf' := hfresh n hn' hnew
  have value : ∀ {kind : Kind} {k : κ}, (⟨kind, k⟩ : NodeID κ) = s'.graph.id n →
      kind = .buildValue ∧ W.defined k = some p := by
    intro kind k hid
    unfold State.kind at hk'
    unfold State.key at hp
    rw [← hid] at hk' hp
    exact ⟨hk', hp⟩
  have hagree := hc.agree
  cases step_asked hb hs hn' hnew with
  | frame c fr rest m hac hpend hst he hplat hstore =>
    subst hac
    unfold platformsAgree at hagree
    simp only [hpend, ne_eq, not_true_eq_false, if_false, hst] at hagree
    rw [hplat]
    generalize hid : s'.graph.id n = id at he
    cases he with
    | fetcher _ nd d hr fk hkey =>
      obtain ⟨d', hd', rfl⟩ := hW.decode hkey (value hid.symm).2
      have hstarts : startsBuild W c s d.fetcherDef = true :=
        hf'.starts hu' (hstore.resolve_right (by simp [Frame.opens])) hid hkey
      have hdec : W.decodeImport (s.node m).defn = .ok d := hr.decoded
      have hkind : s.kind m = .importK := hr.kind
      simp only [hdec, hkind, hr.fetcher, hstarts, not_true_eq_false, decide_false,
        Bool.not_true, Bool.false_or] at hagree
      obtain ⟨hne, hall⟩ := namesPlatform_ok hagree hd'
      refine ⟨?_, hne⟩
      unfold Frame.gives
      dsimp only
      rw [hdec]
      exact (of_decide_eq_true hall).symm
    | input _ ni left kind hkind k hkey =>
      obtain ⟨rfl, hdef⟩ := value hid.symm
      have hbuild : ni.input.kind = .build := by
        unfold nodeKind at hkind
        split at hkind
        · cases hkind
        · assumption
        · cases hkind
      obtain ⟨d', hd', rfl⟩ := hW.decode hkey hdef
      have hstarts : startsBuild W c s ni.input.definition = true :=
        hf'.starts hu' (hstore.resolve_right (by simp [Frame.opens])) hid hkey
      simp only [hbuild, hstarts, not_true_eq_false, decide_false, Bool.not_true,
        Bool.false_or] at hagree
      obtain ⟨hne, -⟩ := namesPlatform_ok hagree hd'
      refine ⟨?_, hne⟩
      unfold Frame.gives linkPlatform
      simp [hbuild, hd', hne]
    | first | run => cases (value hid.symm).1
    | stage _ _ nd kind k ret hnext =>
      obtain ⟨rfl, -⟩ := value hid.symm
      cases hnext
  | submit c i rid sub hac hsub hid hplat =>
    obtain ⟨-, hdef⟩ := value hid.symm
    obtain ⟨hsubdef, hne⟩ := h.submits sub hsub
    obtain rfl : sub.platform = p := Option.mem_unique hsubdef hdef
    exact ⟨hplat, hne⟩

theorem Platforms.step_nodes (h : Platforms W s) (hb : Base s) (hpl : Pipelines s)
    (ha : a ≠ .crash) (hs : JobsIroh.step W s a = some s') (hn' : s'.graph.Alive n)
    (hk' : (s'.kind n).staged = true) :
    W.recorded (s'.key n) = some (s'.node n).platform ∧ (s'.node n).platform ≠ "" := by
  obtain ⟨hext, -⟩ := step_table hb ha hs
  rcases hext.alive n hn' with ⟨hn, hid⟩ | hnew
  · rw [State.kind_of_id hid] at hk'
    rw [State.key_of_id hid]
    have hne := h.named n hn hk'
    have hother : ∀ kind : Kind, kind.staged = false → s.kind n ≠ kind := by
      rintro _ hkind rfl
      rw [hkind] at hk'
      cases hk'
    rw [step_platform hb ha hs hn ⟨hother _ rfl, hother _ rfl⟩ hne]
    exact ⟨h.nodes n hn hk', hne⟩
  cases step_asked hb hs hn' hnew with
  | frame c fr rest m hac hpend hst he hplat =>
    have hok := hb.frames fr (State.top_mem hst)
    have hknown := hpl.top hst
    rw [hplat]
    unfold State.key
    unfold State.kind at hk'
    generalize s'.graph.id n = id at he hk'
    cases he with
    | fetcher | first => cases hk'
    | input _ ni left kind hkind =>
      unfold nodeKind at hkind
      split at hkind
      · cases hkind
        cases hk'
      · cases hkind
        cases hk'
      · cases hkind
    | stage _ _ nd kind k ret hnext =>
      obtain ⟨hbv, hkind⟩ := hok.stage hnext.stageOf.1
      have hu := hknown.unsettled m hnext.stageOf.1
      have hrec := (h.pop hst).next hnext hbv hkind
      rw [hnext.gives W, hnext.platform]
      exact h.stage hbv hkind hu hrec
    | run _ kp =>
      obtain ⟨hbv, hkind⟩ := hok.stage rfl
      exact h.stage hbv hkind (hknown.unsettled m rfl)
        (h.derived _ (State.top_mem hst) m kp rfl)
  | submit c i rid sub hac hsub hid =>
    unfold State.kind at hk'
    rw [hid] at hk'
    cases hk'

theorem Platforms.step_jobs (h : Platforms W s) (hb : Base s) (hf : Fenced s)
    (hnodes : ∀ n, s'.graph.Alive n → PlacedOn W (s'.graph.id n) (s'.node n).platform)
    (hs : JobsIroh.step W s a = some s') : ∀ j ∈ s'.jobs, PlacedOn W j.id j.platform ∧
      (j.id.kind.staged = true →
        ∀ r, .raw r ∈ j.pullRefs → OnPlatform j.platform (.raw r : RefName κ)) := by
  intro j hj
  rcases (step_move hb hf hs).jobs hf with heq | ⟨j', heq, ho⟩
  · exact h.jobs j (heq ▸ hj)
  rw [heq] at hj
  rcases List.mem_cons.mp hj with rfl | hj
  swap
  · exact h.jobs j hj
  obtain ⟨st, hp⟩ := ho.published
  have hjob := hp.job
  have hn' : s'.graph.Alive j.ptr := by
    rw [ho.graph]
    exact ho.alive
  have hplaced := hnodes j.ptr hn'
  rw [ho.graph] at hplaced
  rw [hjob.id, hjob.platform]
  exact ⟨hplaced, fun hk r hr => onPlatform_of_pull hk hjob.pull hr⟩

theorem Platforms.init (hst : Bindings W st) : Platforms W (State.init st) := by
  -- nothing is in the table, and nothing is under way
  exact ⟨hst, nofun, nofun, nofun, nofun, nofun, nofun, nofun, nofun, nofun⟩

theorem Platforms.step (h : Platforms W s) (hW : Content W) (hr : Reached W P st s)
    (hc : Agreed W s a) (hs : JobsIroh.step W s a = some s') : Platforms W s' := by
  have hb := Reached.base hr
  obtain ⟨⟨-, hf⟩, hpl⟩ := Reached.pipelines hr
  have hstore := h.step_store hW hr hs
  rcases crash_or hs with ⟨rfl, rfl⟩ | ha
  · -- Only the store and the history survive.
    have hinit := Platforms.init hstore
    exact ⟨hstore, hinit.submits, hinit.batches, hinit.resolved, hinit.derived, hinit.values,
      hinit.nodes, hinit.named, hinit.commits, h.jobs⟩
  have hcommits := h.step_commits hb hc hs
  have hnodes : ∀ n, s'.graph.Alive n → PlacedOn W (s'.graph.id n) (s'.node n).platform :=
    fun n hn hk => (h.step_nodes hb hpl ha hs hn hk).1
  refine ⟨hstore, h.step_submits hW hb hs, fun cm hcm => (hcommits cm hcm).1, ?_, ?_, ?_, hnodes,
    ?_, fun cm hcm => (hcommits cm hcm).2, h.step_jobs hb hf hnodes hs⟩
  · intro n t hn hk ht
    exact h.step_resolved hW hr ha hs hn hk ht
  · intro fr hfr bv kp hd
    exact h.step_derived hW hb ha hs hfr hd
  · intro n p hn hk hu hp
    exact h.step_values hW hb hf ha hc hs hn hk hu hp
  · intro n hn hk
    exact (h.step_nodes hb hpl ha hs hn hk).2

/-- What is placed on the recorded platform: the nodes of the stages, the lanes of their jobs
with the shell and the caches the jobs pull, and the commits, whose caches must be of that
platform. -/
structure Placement (W : World κ) (s : State κ) : Prop where
  nodes : ∀ n, s.graph.Alive n → PlacedOn W (s.graph.id n) (s.node n).platform
  jobs : ∀ j ∈ s.jobs, PlacedOn W j.id j.platform
  pulls : ∀ j ∈ s.jobs, j.id.kind.staged = true →
    ∀ r, .raw r ∈ j.pullRefs → OnPlatform j.platform (.raw r : RefName κ)
  commits : ∀ cm ∈ s.commits, PlacedOn W cm.id cm.platform

theorem placement_of_agreed (hW : Content W) (hst : Bindings W st)
    (h : Reached W (Agreed W) st s) : Placement W s := by
  have hall : Reached W (Agreed W) st s ∧ Platforms W s :=
    Run.Steps.inv (I := fun s => Reached W (Agreed W) st s ∧ Platforms W s) h
      ⟨Run.Steps.refl, Platforms.init hst⟩
      fun s a s' hi hc hs => ⟨hi.1.tail hc hs, hi.2.step hW hi.1 hc hs⟩
  have hp := hall.2
  exact ⟨hp.nodes, fun j hj => (hp.jobs j hj).1, fun j hj => (hp.jobs j hj).2, hp.commits⟩

/-- **The platform of a stage is the one its F or KP records**, in every run in which no build
is started as a fetcher for another platform than its import's, or without a platform of its
own. -/
theorem stages_placed_as_recorded (hW : Content W) (hst : Bindings W st)
    (h : Reached W (Agreed W) st s) : Placement W s := placement_of_agreed hW hst h

end

/-! ### What the trees record -/

namespace Cover

open JobsIroh.Tree (Dir)

/-- Files are found under their keys, and a KP tree that is derived is stored. -/
structure Site.Stocked (S : Site κ) (o : MapOrder) : Prop where
  file : ∀ {b k}, S.outside.fileKey b = .ok k → S.objects.file k = some b
  derived : ∀ {pinned p platform root src}, coveredTree o p root = .ok src →
    S.objects.tree ((kpTree pinned platform src).key S.objects.keys)
      = some (kpTree pinned platform src)

/-- `f` is what `BuildFromTree` makes of the definition `k`, with the bytes of its platform. -/
def Site.Made (S : Site κ) (k f : κ) : Prop :=
  ∃ b d env dir params platform override, S.objects.file k = some b ∧
    S.outside.decodeDefinition b = .ok d ∧ S.outside.text platform = d.platform ∧
    S.objects.tree f = some (buildFromTree env dir params platform override)

variable {S : Site κ} {o : MapOrder}

omit [DecidableEq κ] in
theorem Site.recorded_of_find {t : κ} {d : Dir} {a : Tree.Attr} {b : Bytes}
    (ht : S.objects.tree t = some d) (hf : d.find "platform" = some (a, .leaf (.file b))) :
    (S.world o).recorded t = some (S.outside.text b) := by
  have hfile := S.objects.tree_file ht hf
  simp [World.recorded, Site.world, ht, hf, contentKey, hfile, Except.toOption]

omit [DecidableEq κ] in
theorem Site.Stocked.content (h : S.Stocked o) : Content (S.world o) where
  file := by
    intro b k hk
    simp [Site.world, h.file hk]
  derive := by
    intro b p t e kp hd
    simp only [Site.world] at hd
    split at hd
    · cases hd
    rename_i root _
    rw [S.toBytes_text, Cover.derive] at hd
    cases hsrc : coveredTree o p root with
    | error =>
      rw [hsrc] at hd
      cases hd
    | ok src =>
      rw [hsrc] at hd
      obtain rfl := Except.ok.inj hd
      exact Site.recorded_of_find (a := { name := "platform", perm := 0o444 }) (h.derived hsrc)
        (by simp [kpTree, Dir.find])

theorem Site.Made.binds {p : RefProposal} (h : ∀ k f, RefName.parse S.outside.toKeyPkg p.name =
    .buildFrom k → S.outside.parse p.key = .ok f → S.Made k f) :
    bindsRecorded (S.world o) p = true := by
  unfold bindsRecorded
  split
  · rename_i k f hk hf
    obtain ⟨b, d, env, dir, params, platform, override, hb, hd, hp, ht⟩ := h k f hk hf
    have hdefined : (S.world o).defined k = some d.platform := by
      simp [World.defined, Site.world, hb, hd, Except.toOption]
    have hfind : ∃ a, (buildFromTree env dir params platform override).find "platform" =
        some (a, .leaf (.file platform)) := by
      by_cases hdir : dir = [] <;> cases override <;> simp [buildFromTree, hdir, Dir.find]
    obtain ⟨a, hfind⟩ := hfind
    simp [hdefined, Site.recorded_of_find ht hfind, hp]
  · rfl

/-- In a run over such a site in which the runners report what `BuildFromTree` makes, the
assumptions on the trees hold. -/
theorem Site.placement [Inhabited κ] (hS : S.Stocked o) {st : Store κ}
    (hst : Bindings (S.world o) st) {s : State κ}
    (h : JobsIroh.Reached (S.world o) (fun s a => platformsAgree (S.world o) s a = true ∧
      ∀ c res, a = .result c res → ∀ p ∈ res.refs, ∀ k f,
        RefName.parse S.outside.toKeyPkg p.name = .buildFrom k → S.outside.parse p.key = .ok f →
          S.Made k f) st s) : Placement (S.world o) s := by
  refine placement_of_agreed hS.content hst (h.mono fun s a ha => ⟨?_, ha.1⟩)
  cases a with
  | result c res => exact List.all_eq_true.mpr fun p hp => Site.Made.binds (ha.2 c res rfl p hp)
  | _ => rfl

end Cover

/-! ### A fetcher for another platform -/

/-- The build `1` takes its source from the import `7`, whose fetcher is the build `2`, defined
for the platform `p`. Its F is `3`, which records what the file `4` holds. -/
def fetcherWorld (p : String) : World UInt8 :=
  { smallWorld
      { definition := fun b =>
          if b = 2 then .ok { smallDef 2 ⟨.tree, [9]⟩ with platform := p }
          else .ok (smallDef b ⟨.importK, [7]⟩)
        importDef := fun _ => .ok { fetcher := "git", platform := "linux", fetcherDef := [2] }
        subdir := fun t name => if t = 3 ∧ name = "platform" then some 4 else none } with
    text := fun _ => p }

/-- The fetcher has been unpacked but not built. -/
def fetcherStore : Store UInt8 := smallStore [(.buildFrom 2, 3), (.fTree 3, 3)]

theorem fetcherWorld_content (p : String) : Content (fetcherWorld p) := by
  refine ⟨?_, ?_⟩
  · intro b k h
    have h' : oneByte (fun x : UInt8 => Except.ok x) b = .ok k := h
    unfold oneByte at h'
    split at h'
    · obtain rfl := Except.ok.inj h'
      rfl
    · cases h'
  · intro b pi t e kp h
    have h' : oneByte (fun _ : UInt8 => (Except.error "no cover" : Except String UInt8)) b =
        .ok kp := h
    unfold oneByte at h'
    split at h' <;> cases h'

theorem fetcherStore_bindings (p : String) : Bindings (fetcherWorld p) fetcherStore := by
  refine ⟨?_, ?_⟩
  · intro k f h
    obtain ⟨rfl, rfl⟩ : k = 2 ∧ f = 3 := by simpa using Assoc.mem_of_lookup h
    exact ⟨p, rfl, rfl⟩
  · intro f kp h
    simpa using Assoc.mem_of_lookup h

/-- The checks of a run. -/
def agreed (W : World κ) (s : State κ) (a : Label κ) : Bool :=
  reportsRecorded W a && platformsAgree W s a

/-- The fetcher of the build `1` is defined for the platform of the import, and its first stage
is queued there. -/
theorem stages_placed_as_recorded_fetcher : ∃ s : State UInt8, ∃ j ∈ s.jobs,
    j.id = ⟨.pluginResolve, 3⟩ ∧ j.platform = "linux" ∧
    (fetcherWorld "linux").recorded 3 = some j.platform := by
  have hrun : ∃ s ∈ Run.runIf (step (fetcherWorld "linux")) (agreed (fetcherWorld "linux"))
      (State.init fetcherStore) (submitRun 1 15),
      ∃ j ∈ s.jobs, j.id = ⟨.pluginResolve, 3⟩ ∧ j.platform = "linux" := by
    decide +kernel
  obtain ⟨s, hs, j, hj, hjp⟩ := hrun
  have hreach : Reached (fetcherWorld "linux") (Agreed (fetcherWorld "linux")) fetcherStore s := by
    refine (Run.Steps.of_checked hs).mono ?_
    intro s a hc
    obtain ⟨hrep, hagree⟩ := (Bool.and_eq_true _ _).mp hc
    exact ⟨hrep, hagree⟩
  have hp := stages_placed_as_recorded (fetcherWorld_content "linux")
    (fetcherStore_bindings "linux") hreach
  have hplaced := hp.jobs j hj (by rw [hjp.1]; rfl)
  rw [hjp.1] at hplaced
  exact ⟨s, j, hj, hjp.1, hjp.2, hplaced⟩

/-- The fetcher is defined for another platform than the import names. Its first stage is
queued, with the import's platform, for runners of the other kind. -/
theorem fetcher_placed_elsewhere : Content (fetcherWorld "darwin") ∧
    Bindings (fetcherWorld "darwin") fetcherStore ∧ ∃ s : State UInt8,
      Reached (fetcherWorld "darwin") (fun _ a => reportsRecorded (fetcherWorld "darwin") a = true)
        fetcherStore s ∧
      (∃ n, s.graph.Alive n ∧ s.graph.id n = ⟨.pluginResolve, 3⟩ ∧
        (s.node n).platform = "linux") ∧
      (∃ j ∈ s.jobs, j.id = ⟨.pluginResolve, 3⟩ ∧ j.platform = "linux") ∧
      (fetcherWorld "darwin").recorded 3 = some "darwin" := by
  refine ⟨fetcherWorld_content _, fetcherStore_bindings _, ?_⟩
  have hrun : ∃ s ∈ Run.runIf (step (fetcherWorld "darwin"))
      (fun _ a => reportsRecorded (fetcherWorld "darwin") a) (State.init fetcherStore)
      (submitRun 1 15),
        (∃ n ∈ s.graph.nodes ⟨.pluginResolve, 3⟩,
          s.graph.id n = ⟨.pluginResolve, 3⟩ ∧ (s.node n).platform = "linux") ∧
        ∃ j ∈ s.jobs, j.id = ⟨.pluginResolve, 3⟩ ∧ j.platform = "linux" := by
    decide +kernel
  obtain ⟨s, hs, ⟨n, hn, hnp⟩, hjob⟩ := hrun
  refine ⟨s, ?_, ⟨n, ?_, hnp⟩, hjob, rfl⟩
  · exact Run.Steps.of_checked hs
  · unfold InterestGraph.Graph.Alive
    rw [hnp.1]
    exact hn

end JobsIroh
