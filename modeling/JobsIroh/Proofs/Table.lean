/-
The node table between and inside critical sections.

`Base` is the invariant all later arguments start from: the table, the edges and
the interest sets form an interest graph for the live requests, and every open
frame works on nodes that are in the table.  It holds after every single step, so
at the end of a critical section, when no visit is pending, interest has its exact
reading: a request is interested in precisely the nodes its target reaches.
-/
import JobsIroh.Proofs.Labels
import JobsIroh.Sched.Small

namespace JobsIroh

open Search (Reach)

variable {κ : Type} [DecidableEq κ]

/-! ### The invariant -/

def Frame.isSubmitted : Frame κ → Bool
  | .submitted _ _ _ => true
  | _ => false

/-- The buildvalue of a stage frame is in the table, with its F resolved. -/
def StageOK (s : State κ) (bv : Nat) : Prop :=
  s.graph.Alive bv ∧ s.kind bv = .buildValue ∧ (s.node bv).f ≠ none

/-- What an open frame relies on. -/
def FrameOK (s : State κ) : Frame κ → Prop
  | .unfold n => s.graph.Alive n
  | .unfolding n _ => s.graph.Alive n ∧ s.kind n ≠ .buildValue
  | .advance bv => s.graph.Alive bv ∧ s.kind bv = .buildValue
  | .afterFrom bv x => s.graph.Alive bv ∧ s.kind bv = .buildValue ∧ x ∈ s.graph.deps bv
  | .afterResolve bv x | .afterPin bv x => StageOK s bv ∧ x ∈ s.graph.deps bv
  | .afterRun bv x => StageOK s bv ∧ x ∈ s.graph.deps bv ∧ (s.node bv).kp ≠ none
  | .putPinned bv _ _ | .putKPTree bv _ | .putPinCover bv _ => StageOK s bv
  | .putAliasDeps bv _ _ | .putAliasOutput bv _ => StageOK s bv
  | .notify _ todo _ => ∀ d ∈ todo, s.graph.Alive d
  | .submitted rid t _ => ∃ r, s.requests rid = some r ∧ r.target = t

/-- The invariant of the table, at every moment. -/
structure Base (s : State κ) : Prop where
  graph : s.graph.Inv s.target
  watched : s.graph.Watched
  frames : ∀ fr ∈ s.stack, FrameOK s fr
  /-- The frame that may turn a submit down lies at the bottom. -/
  bottom : ∀ fr ∈ s.stack.dropLast, fr.isSubmitted = false
  /-- A buildvalue waits for the stages of its pipeline, never for a buildvalue. -/
  edges : ∀ p d, s.graph.Alive p → d ∈ s.graph.deps p → s.kind p = .buildValue →
    s.kind d ≠ .buildValue

/-! ### Growth within a critical section -/

/-- Nothing leaves the table and nothing resolved is forgotten. -/
structure Grows (s s' : State κ) : Prop where
  alive : ∀ p, s.graph.Alive p → s'.graph.Alive p
  id : ∀ p, s.graph.Alive p → s'.graph.id p = s.graph.id p
  deps : ∀ p d, d ∈ s.graph.deps p → d ∈ s'.graph.deps p
  f : ∀ p, s.graph.Alive p → (s.node p).f ≠ none → (s'.node p).f ≠ none
  kp : ∀ p, s.graph.Alive p → (s.node p).kp ≠ none → (s'.node p).kp ≠ none
  requests : s'.requests = s.requests

section

omit [DecidableEq κ]

theorem State.key_of_id {s s' : State κ} {n : Nat} (h : s'.graph.id n = s.graph.id n) :
    s'.key n = s.key n := by
  unfold State.key
  rw [h]

theorem State.kind_of_id {s s' : State κ} {n : Nat} (h : s'.graph.id n = s.graph.id n) :
    s'.kind n = s.kind n := by
  unfold State.kind
  rw [h]

theorem Grows.kind {s s' : State κ} (h : Grows s s') {p : Nat} (hp : s.graph.Alive p) :
    s'.kind p = s.kind p :=
  State.kind_of_id (h.id p hp)

theorem Grows.stageOK {s s' : State κ} (h : Grows s s') {bv : Nat} (hbv : StageOK s bv) :
    StageOK s' bv := by
  obtain ⟨ha, hk, hf⟩ := hbv
  exact ⟨h.alive bv ha, by rw [h.kind ha]; exact hk, h.f bv ha hf⟩

/-- Frames stay valid while the table grows. -/
theorem Grows.frameOK {s s' : State κ} (h : Grows s s') {fr : Frame κ} (hfr : FrameOK s fr) :
    FrameOK s' fr := by
  cases fr with
  | unfold n => exact h.alive n hfr
  | unfolding n => exact ⟨h.alive n hfr.1, by rw [h.kind hfr.1]; exact hfr.2⟩
  | advance bv => exact ⟨h.alive bv hfr.1, by rw [h.kind hfr.1]; exact hfr.2⟩
  | afterFrom bv x =>
    exact ⟨h.alive bv hfr.1, by rw [h.kind hfr.1]; exact hfr.2.1, h.deps bv x hfr.2.2⟩
  | afterResolve bv x | afterPin bv x => exact ⟨h.stageOK hfr.1, h.deps bv x hfr.2⟩
  | afterRun bv x => exact ⟨h.stageOK hfr.1, h.deps bv x hfr.2.1, h.kp bv hfr.1.1 hfr.2.2⟩
  | notify n todo seen => exact fun d hd => h.alive d (hfr d hd)
  | submitted =>
    obtain ⟨r, hr, ht⟩ := hfr
    exact ⟨r, by rw [h.requests]; exact hr, ht⟩
  | _ => exact h.stageOK hfr

/-- What is resolved stays resolved. -/
def Keeps (nd nd' : Node κ) : Prop :=
  (nd.f ≠ none → nd'.f ≠ none) ∧ (nd.kp ≠ none → nd'.kp ≠ none)

theorem Keeps.of_eq {nd nd' : Node κ} (hf : nd'.f = nd.f) (hkp : nd'.kp = nd.kp) :
    Keeps nd nd' := by
  rw [Keeps, hf, hkp]
  exact ⟨fun x => x, fun x => x⟩

theorem failedNode_keeps {nd nd' : Node κ} (h : Keeps nd nd') (e : String) :
    Keeps nd (failedNode nd' e) := by
  unfold failedNode
  split <;> exact h

/-- A step that leaves the graph and the requests alone, and forgets nothing resolved. -/
theorem Grows.of_same {s s' : State κ} (hg : s'.graph = s.graph) (hr : s'.requests = s.requests)
    (hk : ∀ p, Keeps (s.node p) (s'.node p)) : Grows s s' := by
  refine ⟨?_, ?_, ?_, fun p _ => (hk p).1, fun p _ => (hk p).2, hr⟩
  · rw [hg]; exact fun _ h => h
  · rw [hg]; exact fun _ _ => rfl
  · rw [hg]; exact fun _ _ h => h

theorem target_congr {s s' : State κ} (h : s'.requests = s.requests) : s'.target = s.target := by
  unfold State.target
  rw [h]

end

namespace Base

variable {s s' : State κ} {n p bv : Nat}

section

variable (h : Base s) (hg : s'.graph = s.graph) (hr : s'.requests = s.requests)
  (hst : s'.stack = s.stack)
include h hg hr hst
omit [DecidableEq κ]

theorem of_same (hk : ∀ p, Keeps (s.node p) (s'.node p)) : Base s' := by
  have hgrow := Grows.of_same hg hr hk
  refine ⟨?_, ?_, ?_, ?_, ?_⟩
  · rw [hg, target_congr hr]
    exact h.graph
  · rw [hg]
    exact h.watched
  · rw [hst]
    exact fun fr hfr => hgrow.frameOK (h.frames fr hfr)
  · rw [hst]
    exact h.bottom
  · unfold State.kind
    rw [hg]
    exact h.edges

theorem congr (hn : s'.node = s.node) : Base s' :=
  h.of_same hg hr hst fun p => .of_eq (by rw [hn]) (by rw [hn])

end

section

omit [DecidableEq κ]

/-- The top frame is taken off. -/
theorem pop {fr : Frame κ} {rest : List (Frame κ)} (h : Base s) (hst : s.stack = fr :: rest) :
    Base { s with stack := rest } := by
  refine ⟨h.graph, h.watched, ?_, ?_, h.edges⟩
  · intro fr' hfr'
    exact Grows.frameOK (Grows.of_same rfl rfl fun _ => .of_eq rfl rfl)
      (h.frames fr' (State.below_mem hst hfr'))
  · intro fr' hfr'
    refine h.bottom fr' ?_
    rw [hst]
    rcases rest with _ | ⟨r, rest⟩
    · cases hfr'
    · exact List.mem_cons_of_mem _ hfr'

theorem bottom_append {fs st : List (Frame κ)} (hfs : ∀ fr ∈ fs, fr.isSubmitted = false)
    (hst : ∀ fr ∈ st.dropLast, fr.isSubmitted = false) :
    ∀ fr ∈ (fs ++ st).dropLast, fr.isSubmitted = false := by
  intro fr hfr
  by_cases hnil : st = []
  · rw [hnil, List.append_nil] at hfr
    exact hfs fr ((List.dropLast_sublist fs).subset hfr)
  · rw [List.dropLast_append_of_ne_nil hnil] at hfr
    exact (List.mem_append.mp hfr).elim (hfs fr) (hst fr)

theorem push {fs : List (Frame κ)} (h : Base s)
    (hfs : ∀ fr ∈ fs, FrameOK s fr ∧ fr.isSubmitted = false) : Base (s.push fs) := by
  have hgrow : Grows s (s.push fs) := Grows.of_same rfl rfl fun _ => .of_eq rfl rfl
  refine ⟨h.graph, h.watched, ?_, ?_, h.edges⟩
  · intro fr hfr
    rcases List.mem_append.mp hfr with hfr | hfr
    · exact hgrow.frameOK (hfs fr hfr).1
    · exact hgrow.frameOK (h.frames fr hfr)
  · exact bottom_append (fun fr hfr => (hfs fr hfr).2) h.bottom

theorem pushOne {fr : Frame κ} (h : Base s) (hfr : FrameOK s fr)
    (hsub : fr.isSubmitted = false) : Base (s.push [fr]) := by
  refine h.push fun fr' hfr' => ?_
  rw [List.mem_singleton.mp hfr']
  exact ⟨hfr, hsub⟩

theorem setNode (h : Base s) {nd : Node κ} (hk : Keeps (s.node n) nd) :
    Base (s.setNode n nd) := by
  refine h.of_same rfl rfl rfl fun p => ?_
  by_cases hpn : p = n
  · subst hpn
    rwa [State.setNode_node]
  · rw [State.setNode_node_ne s nd hpn]
    exact .of_eq rfl rfl

theorem sameRun (h : Base s) {nd : Node κ} (hnd : SameRun (s.node n) nd) :
    Base (s.setNode n nd) :=
  h.setNode (.of_eq hnd.f hnd.kp)

end

end Base

variable {id : NodeID κ} {nd : Node κ}

theorem Attempt.keeps {W : World κ} {st : Store κ} {n : Nat} {down : Bool}
    {nd' : Node κ} {timers timers' : List (Nat × Nat)} {jobs jobs' : List (Job κ)}
    (h : Attempt W st n id down nd timers jobs nd' timers' jobs') :
    Keeps nd nd' := by
  cases h with
  | refused => exact failedNode_keeps (.of_eq rfl rfl) _
  | _ => exact .of_eq rfl rfl

namespace Base

variable {s s' : State κ} {n p bv : Nat}

omit [DecidableEq κ] in
theorem failNode (h : Base s) (e : String) : Base (failNodeLocked s n e) := by
  rw [failNodeLocked_eq]
  exact h.setNode (failedNode_keeps (.of_eq rfl rfl) e)

theorem enqueue (h : Base s) (W : World κ) (c : Choice) (n : Nat) :
    Base (enqueueLocked W c s n) := by
  rcases enqueueLocked_eq W c s n with ⟨-, heq⟩ | ⟨st, nd, timers, jobs, heq, -, hat⟩
  · rw [heq]
    exact h
  · rw [heq]
    have h' : Base (s.setNode n nd) := h.setNode hat.keeps
    exact h'.congr rfl rfl rfl rfl

theorem maybeEnqueue (h : Base s) (W : World κ) (c : Choice) (n : Nat) :
    Base (maybeEnqueueLocked W c s n) := by
  unfold maybeEnqueueLocked
  split
  · exact h.enqueue W c n
  · exact h

omit [DecidableEq κ] in
theorem nodeDone (h : Base s) (n : Nat) : Base (nodeDoneLocked s n) := by
  unfold nodeDoneLocked
  split
  · exact h
  · have h' : Base (s.setNode n { s.node n with phase := .done, errSummary := "" }) :=
      h.setNode (.of_eq rfl rfl)
    exact h'.pushOne (fun d hd => ((h.graph.dependentsIff d n).mp hd).1) rfl

end Base

/-! ### Joining -/

/-- The frames a join pushes are for the node it made. -/
theorem Joined.frames {c : Choice} {st : Store κ} {old : Option (Node κ)}
    {defn : Bytes} {platform label : String} {n : Nat} {lg lg' : NodeID κ → Nat}
    {fs : List (Frame κ)} (h : Joined c st id old defn platform label n lg nd fs lg') :
    ∀ fr ∈ fs, fr = .unfold n := by
  cases h with
  | _ => simp

section Require

variable {s : State κ} {c : Choice} {kind : Kind} {k : κ} {defn : Bytes} {platform label : String}
  {p : Nat} {ret : Nat → List (Frame κ)}

/-- What a `require` guarantees its caller about the node it returns. -/
structure Required (s s' : State κ) (kind : Kind) (k : κ) (p n : Nat) : Prop where
  grows : Grows s s'
  alive : s'.graph.Alive n
  dep : n ∈ s'.graph.deps p
  id : s'.graph.id n = ⟨kind, k⟩

theorem Base.required (h : Base s) :
    Required s (require c s kind k defn platform p label ret) kind k p
      (s.graph.occupant ⟨kind, k⟩) := by
  obtain ⟨nd, fs, lg, heq, hj⟩ := require_eq h.graph kind k defn platform p label ret
  rw [heq]
  have hkeeps : ∀ q, s.graph.Alive q → Keeps (s.node q)
      (Function.update s.node (s.graph.occupant ⟨kind, k⟩) nd q) := by
    intro q hq
    rcases hj.table_node h.graph hq with ⟨hqo, -, hfill, -⟩ | ⟨hne, -⟩
    · rw [← hqo, ← hfill, Function.update_self]
      exact .of_eq rfl rfl
    · rw [Function.update_of_ne hne]
      exact .of_eq rfl rfl
  refine ⟨⟨?_, ?_, ?_, fun q hq => (hkeeps q hq).1, fun q hq => (hkeeps q hq).2, rfl⟩, ?_, ?_, ?_⟩
  · intro q hq
    exact (h.graph.require_alive _ p q).mpr (Or.inr hq)
  · intro q hq
    exact h.graph.require_id_of_alive _ p hq
  · intro q d hd
    exact (h.graph.mem_require_deps _ p q d).mpr (Or.inl hd)
  · exact (h.graph.require_alive _ p _).mpr (Or.inl rfl)
  · exact (h.graph.mem_require_deps _ p p _).mpr (Or.inr ⟨rfl, rfl⟩)
  · exact h.graph.require_id _ p

/-- **A `require` keeps the table in order**, if the caller's frames are for nodes it knows. -/
theorem Base.require (h : Base s) (hpend : s.graph.pending = []) (hp : s.graph.Alive p)
    (hedge : s.kind p = .buildValue → kind ≠ .buildValue)
    (hret : ∀ s' n, Required s s' kind k p n → ∀ fr ∈ ret n,
      FrameOK s' fr ∧ fr.isSubmitted = false) :
    Base (require c s kind k defn platform p label ret) := by
  have hreq : Required s (JobsIroh.require c s kind k defn platform p label ret) kind k p
      (s.graph.occupant ⟨kind, k⟩) := h.required
  obtain ⟨nd, fs, lg, heq, hj⟩ := require_eq h.graph kind k defn platform p label ret
  have hint : s.graph.interest p ≠ [] :=
    (h.graph.alive_iff_of_settled h.watched hpend p).mp hp
  rw [heq] at hreq ⊢
  refine ⟨?_, ?_, ?_, ?_, ?_⟩
  · exact h.graph.require hp _
  · exact h.watched.require h.graph hint _
  · intro fr hfr
    rcases List.mem_append.mp hfr with hfr | hfr
    · rw [hj.frames fr hfr]
      exact hreq.alive
    rcases List.mem_append.mp hfr with hfr | hfr
    · exact (hret _ _ hreq fr hfr).1
    · exact hreq.grows.frameOK (h.frames fr hfr)
  · dsimp only
    rw [← List.append_assoc]
    refine bottom_append (fun fr hfr => ?_) h.bottom
    rcases List.mem_append.mp hfr with hfr | hfr
    · rw [hj.frames fr hfr]
      rfl
    · exact (hret _ _ hreq fr hfr).2
  · intro q d hq hd hkq
    rcases (h.graph.mem_require_deps _ p q d).mp hd with hd | ⟨rfl, rfl⟩
    · have hq' := h.graph.alive_of_dep ((h.graph.require_alive _ p q).mp hq) hd
      have hd' := h.graph.depsIn q d hq' hd
      have hkq' : s.kind q = .buildValue := by
        rw [← hreq.grows.kind hq']
        exact hkq
      have := h.edges q d hq' hd hkq'
      rw [← hreq.grows.kind hd'] at this
      exact this
    · have hkq' : s.kind q = .buildValue := by
        rw [← hreq.grows.kind hp]
        exact hkq
      have := hedge hkq'
      unfold State.kind
      rw [hreq.id]
      exact this

/-- A stage of the pipeline is required by its buildvalue. -/
theorem Base.requireStage (h : Base s) {bv : Nat} (hpend : s.graph.pending = [])
    (hbv : s.graph.Alive bv) (hkind : kind ≠ .buildValue) {ret : Nat → Frame κ}
    (hret : ∀ s' n, Required s s' kind k bv n → FrameOK s' (ret n) ∧ (ret n).isSubmitted = false) :
    Base (requireStage c s bv kind k defn ret) := by
  refine h.require hpend hbv (fun _ => hkind) ?_
  intro s' n hreq fr hfr
  rw [List.mem_singleton.mp hfr]
  exact hret s' n hreq

end Require

/-! ### Letting go -/

omit [DecidableEq κ] in
theorem Request.live_iff (r : Request κ) :
    r.live = true ↔ r.cancelled = false ∧ r.failReason = "" := by
  simp [Request.live]

variable {rid : ReqID}

section

omit [DecidableEq κ]

theorem target_eq_some_iff {s : State κ} {t : Nat} :
    s.target rid = some t ↔ ∃ r, s.requests rid = some r ∧ r.live = true ∧ r.target = t := by
  unfold State.target
  rcases hr : s.requests rid with _ | r
  · simp
  · by_cases hl : r.live = true
    · simp [hl]
    · simp [hl]

theorem target_eq {s : State κ} {r : Request κ} (hr : s.requests rid = some r) :
    s.target rid = some r.target ∨ s.target rid = none := by
  unfold State.target
  rw [hr]
  dsimp only
  split
  · exact Or.inl rfl
  · exact Or.inr rfl

/-- The live targets after a request has been replaced. -/
theorem target_update (s : State κ) (rid : ReqID) (r : Option (Request κ)) :
    (setRequest s rid r).target = Function.update s.target rid
      (r.bind fun q => if q.live then some q.target else none) := by
  funext x
  by_cases hx : x = rid
  · subst hx
    rw [Function.update_self]
    unfold State.target setRequest
    dsimp only
    rw [Function.update_self]
    cases r <;> rfl
  · rw [Function.update_of_ne hx]
    unfold State.target setRequest
    dsimp only
    rw [Function.update_of_ne hx]

end

/-- **Letting go of a request keeps the table in order**, when no critical section is open. -/
theorem Base.letGo {s : State κ} {r : Request κ} (h : Base s) (hst : s.stack = [])
    (hpend : s.graph.pending = []) (hr : s.requests rid = some r) {r' : Option (Request κ)}
    (hdead : (r'.bind fun q => if q.live then some q.target else none) = none)
    (purged : List Nat) :
    Base { s with
      graph := s.graph.drop rid r.target, requests := Function.update s.requests rid r',
      purged := purged } := by
  have ht := target_eq hr
  have hd := h.graph.drop_dropped h.watched hpend ht
  refine ⟨?_, ?_, ?_, ?_, ?_⟩
  · have htar : Function.update s.target rid none = (setRequest s rid r').target := by
      rw [target_update, hdead]
    show (s.graph.drop rid r.target).Inv (setRequest s rid r').target
    rw [← htar]
    exact h.graph.drop h.watched hpend ht
  · exact h.watched.drop h.graph hpend ht
  · show ∀ fr ∈ s.stack, _
    simp [hst]
  · show ∀ fr ∈ s.stack.dropLast, _
    simp [hst]
  · intro p d hp hdep hk
    have hp' := ((hd.alive_iff p).mp hp).1
    have hdep' : d ∈ s.graph.deps p := by rw [← hd.deps]; exact hdep
    have hk' : (s.graph.id p).kind = .buildValue := by rw [← hd.id]; exact hk
    show ((s.graph.drop rid r.target).id d).kind ≠ .buildValue
    rw [hd.id]
    exact h.edges p d hp' hdep' hk'

/-! ### One step of a critical section -/

section Exec

omit [DecidableEq κ] in
/-- Whom a loop over the dependents goes on to is in the table. -/
theorem FrameOK.notified {s : State κ} {n d : Nat} {todo seen : List Nat}
    (hfr : FrameOK s (.notify n todo seen)) (hg : s.graph.Inv s.target)
    (hd : d ∈ todo ∨ d ∈ s.graph.dependents n) : s.graph.Alive d := by
  rcases hd with hd | hd
  · exact hfr d hd
  · exact ((hg.dependentsIff d n).mp hd).1

variable {W : World κ} {c : Choice} {s s' : State κ} {fr : Frame κ}

theorem Base.input {p : Nat} {i : Input} (h : Base s) (hpend : s.graph.pending = [])
    (hp : s.graph.Alive p) (hkind : s.kind p ≠ .buildValue) (hi : InputStep W c s p i s') :
    Base s' := by
  cases hi with
  | tree => exact h
  | link =>
    exact h.require hpend hp (fun hbv => absurd hbv hkind) (by simp)
  | _ => exact h.failNode _

theorem Base.nextStage {bv : Nat} {nd : Node κ} {kind : Kind} {k : κ} {ret : Nat → Frame κ}
    (h : Base s) (hpend : s.graph.pending = []) (hfr : FrameOK s fr)
    (hn : NextStage s fr bv nd kind k ret) :
    Base (JobsIroh.requireStage c (s.setNode bv nd) bv kind k [] ret) := by
  cases hn with
  | knownF bv bf hdone f hf =>
    rw [State.setNode_self]
    refine h.requireStage hpend hfr.1 (by simp) fun s' n hr => ⟨⟨?_, hr.dep⟩, rfl⟩
    exact hr.grows.stageOK ⟨hfr.1, hfr.2.1, by simp [hf]⟩
  | readF bv bf hdone f hf hr =>
    have h' : Base (s.setNode bv { s.node bv with f := some k }) :=
      h.setNode ⟨by simp, fun x => x⟩
    refine h'.requireStage hpend hfr.1 (by simp) fun s' n hr => ⟨⟨?_, hr.dep⟩, rfl⟩
    exact hr.grows.stageOK ⟨hfr.1, hfr.2.1, by simp⟩
  | resolved =>
    rw [State.setNode_self]
    exact h.requireStage hpend hfr.1.1 (by simp) fun s' n hr =>
      ⟨⟨hr.grows.stageOK hfr.1, hr.dep⟩, rfl⟩
  | knownKP bv pin hdone kp hk =>
    rw [State.setNode_self]
    exact h.requireStage hpend hfr.1.1 (by simp) fun s' n hr =>
      ⟨⟨hr.grows.stageOK hfr.1, hr.dep, hr.grows.kp bv hfr.1.1 (by simp [hk])⟩, rfl⟩
  | readKP bv pin hdone f kp hf hk hr =>
    have h' : Base (s.setNode bv { s.node bv with kp := some k }) :=
      h.setNode ⟨fun x => x, by simp⟩
    have hs : StageOK (s.setNode bv { s.node bv with kp := some k }) bv :=
      ⟨hfr.1.1, hfr.1.2.1, by rw [State.setNode_node]; simp [hf]⟩
    refine h'.requireStage hpend hfr.1.1 (by simp)
      fun s' n hr => ⟨⟨hr.grows.stageOK hs, hr.dep, hr.grows.kp bv hs.1 ?_⟩, rfl⟩
    simp

omit [DecidableEq κ] in
/-- The frame of a stage works on its buildvalue. -/
theorem FrameOK.stage {bv : Nat} (hfr : FrameOK s fr) (hbv : fr.stageOf = some bv) :
    s.graph.Alive bv ∧ s.kind bv = .buildValue := by
  cases fr with
  | afterResolve | afterPin | afterRun =>
    obtain rfl := Option.some.inj hbv
    exact ⟨hfr.1.1, hfr.1.2.1⟩
  | afterFrom | putPinned | putKPTree | putPinCover | putAliasDeps | putAliasOutput =>
    obtain rfl := Option.some.inj hbv
    exact ⟨hfr.1, hfr.2.1⟩
  | _ => cases hbv

/-- **A frame keeps the table in order.** The frame that may turn a submit down is the last. -/
theorem Base.exec (h : Base s) (hpend : s.graph.pending = []) (hfr : FrameOK s fr)
    (hlast : fr.isSubmitted = true → s.stack = []) (he : ExecStep W c s fr s') : Base s' := by
  cases he with
  | unfoldFail n nd hnd e =>
    exact h.setNode (failedNode_keeps (.of_eq hnd.f hnd.kp) e)
  | unfoldRead n nd rest hr =>
    exact (h.sameRun hr.sameRun).pushOne ⟨hfr, hr.placeable⟩ rfl
  | unfoldFetcher n nd d hr =>
    have hkind : s.kind n ≠ .buildValue := by rw [hr.kind]; simp
    refine (h.sameRun hr.same).require hpend hfr (fun hbv => absurd hbv hkind) ?_
    intro s' m hreq fr hmem
    rw [List.mem_singleton.mp hmem]
    exact ⟨⟨hreq.grows.alive n hfr, by rw [hreq.grows.kind hfr]; exact hkind⟩, rfl⟩
  | unfoldValue n hkind => exact h.pushOne ⟨hfr, hkind⟩ rfl
  | unfolded n => exact h.maybeEnqueue W c n
  | input n ni rest s' hi =>
    have h' := (h.sameRun (keepInput_sameRun (s.node n) (s.kind n) ni.input)).pushOne
      (show FrameOK _ (.unfolding n rest) from hfr) rfl
    exact h'.input hpend hfr.1 hfr.2 hi
  | advance bv =>
    exact h.requireStage hpend hfr.1 (by simp) fun s' n hr =>
      ⟨⟨hr.grows.alive bv hfr.1, by rw [hr.grows.kind hfr.1]; exact hfr.2, hr.dep⟩, rfl⟩
  | stageFail fr bv hbv e => exact h.failNode e
  | nextStage fr bv nd kind k ret hn => exact h.nextStage hpend hfr hn
  | deriveKP bv pin hdone f kp =>
    have h' : Base { s with store := s.store.ingest kp } := h.congr rfl rfl rfl rfl
    exact h'.pushOne hfr.1 rfl
  | putPinned bv kp pk =>
    have h' : Base (s.putRef (.pinned kp) pk) := h.congr rfl rfl rfl rfl
    exact h'.pushOne hfr rfl
  | putKPTree bv kp =>
    have h' : Base (s.putRef (.kpTree kp) kp) := h.congr rfl rfl rfl rfl
    exact h'.pushOne hfr rfl
  | putPinCover bv kp f =>
    have h' : Base (s.putRef (.pinCover f) kp) := h.congr rfl rfl rfl rfl
    have hs : StageOK (s.bound bv f kp) bv :=
      ⟨hfr.1, hfr.2.1, by rw [State.setNode_node]; exact hfr.2.2⟩
    have h'' : Base (s.bound bv f kp) := h'.setNode ⟨fun x => x, by simp⟩
    refine h''.requireStage hpend hfr.1 (by simp)
      fun s' n hr => ⟨⟨hr.grows.stageOK hs, hr.dep, hr.grows.kp bv hs.1 ?_⟩, rfl⟩
    simp
  | aliased bv => exact h.nodeDone bv
  | startAlias => exact h.pushOne hfr.1 rfl
  | putAliasDeps bv deps out f =>
    have h' : Base (s.putRef (.outputDeps f) deps) := h.congr rfl rfl rfl rfl
    exact h'.pushOne hfr rfl
  | putAliasOutput bv out f =>
    have h' : Base (s.putRef (.output f) out) := h.congr rfl rfl rfl rfl
    exact h'.nodeDone bv
  | notifyValue n todo seen d hd hkind =>
    have hda := hfr.notified h.graph hd
    refine h.push fun fr hmem => ?_
    rcases List.mem_cons.mp hmem with rfl | hmem
    · exact ⟨⟨hda, hkind⟩, rfl⟩
    · rw [List.mem_singleton.mp hmem]
      exact ⟨fun x hx => hfr x (List.mem_filter.mp hx).1, rfl⟩
  | notifyNode n todo seen d =>
    refine (h.pushOne ?_ rfl).maybeEnqueue W c d
    exact fun x hx => hfr x (List.mem_filter.mp hx).1
  | rejected rid t scratch r hr =>
    obtain ⟨r', hr', ht⟩ := hfr
    obtain rfl : r = r' := Option.mem_unique hr hr'
    subst ht
    exact h.letGo (hlast rfl) hpend hr rfl _
  | submitted rid t scratch =>
    rw [deleteScratch_eta]
    exact h.congr rfl rfl rfl rfl
  | _ => exact h

end Exec

/-! ### One step -/

section Step

variable {W : World κ} {c : Choice} {s s' : State κ} {n : Nat}

theorem Base.verdict (h : Base s) (hv : Verdict W c s n s') : Base s' := by
  cases hv with
  | fail =>
    refine h.setNode (failedNode_keeps ?_ _)
    exact .of_eq rfl rfl
  | requeue hcap e =>
    have h' : Base (s.setNode n (requeued (s.node n) e)) := h.setNode (.of_eq rfl rfl)
    exact h'.enqueue W c n
  | rearm hcap e =>
    have h' : Base (s.setNode n (rearmed (s.node n) e)) := h.setNode (.of_eq rfl rfl)
    exact h'.congr rfl rfl rfl rfl
  | unwatched => exact h

theorem Base.deleteScratch (h : Base s) (W : World κ) (ns ref : String) :
    Base (deleteScratch W ns ref s) := by
  rw [deleteScratch_eta]
  exact h.congr rfl rfl rfl rfl

theorem Base.acceptResult {res : Result} (h : Base s) (ha : AcceptRule W c s n res s') :
    Base s' := by
  cases ha with
  | commits =>
    have h' : Base (s.setNode n { received (s.node n) res with phase := .publishing }) :=
      h.setNode (.of_eq rfl rfl)
    exact h'.congr rfl rfl rfl rfl
  | verdict hok s' hv =>
    refine Base.deleteScratch (Base.verdict ?_ hv) _ _ _
    have h' : Base (s.setNode n (received (s.node n) res)) :=
      h.setNode (.of_eq rfl rfl)
    exact h'.congr rfl rfl rfl rfl

theorem Base.applyCommit {cm : Commit κ} {err : Option CommitError} (h : Base s)
    (hc : CommitVerdict W c s cm err s') : Base s' := by
  cases hc with
  | done node hnode =>
    have h' : Base { s with node := node } := by
      refine h.of_same rfl rfl rfl fun p => ?_
      obtain ⟨label, retry, control, hm, -⟩ := hnode p
      show Keeps (s.node p) (node p)
      rw [hm]
      exact .of_eq rfl rfl
    exact h'.nodeDone _
  | verdict e s' hv => exact h.verdict hv

/-- **Registering a request keeps the table in order.** -/
theorem Base.joinSubmit (h : Base s) (hfree : s.free = true) {rid : ReqID}
    (hrid : s.requests rid = none) (sub : Submission κ) : Base (joinSubmit c s sub rid) := by
  obtain ⟨hst, hpend⟩ := s.free_iff.mp hfree
  have htar : s.target rid = none := by
    unfold State.target
    rw [hrid]
  obtain ⟨nd, fs, lg, heq, hj⟩ := joinSubmit_eq h.graph sub rid
  rw [heq]
  refine ⟨?_, ?_, ?_, ?_, ?_⟩
  · show (s.graph.requireTarget _ rid).Inv (setRequest s rid _).target
    rw [target_update]
    exact h.graph.requireTarget htar _
  · exact h.watched.requireTarget h.graph _ rid
  · intro fr hfr
    rcases List.mem_append.mp hfr with hfr | hfr
    · rw [hj.frames fr hfr]
      exact (h.graph.requireTarget_alive _ rid _).mpr (Or.inl rfl)
    · have hfr' : fr ∈ [Frame.submitted rid (s.graph.occupant ⟨.buildValue, sub.k⟩)
          sub.scratchRef] ++ s.stack := hfr
      rw [hst, List.append_nil, List.mem_singleton] at hfr'
      rw [hfr']
      exact ⟨_, Function.update_self .., rfl⟩
  · intro fr hfr
    have hfr' : fr ∈ (fs ++ [Frame.submitted rid (s.graph.occupant ⟨.buildValue, sub.k⟩)
          sub.scratchRef]).dropLast := by
      have : fr ∈ (fs ++ ([Frame.submitted rid (s.graph.occupant ⟨.buildValue, sub.k⟩)
          sub.scratchRef] ++ s.stack)).dropLast := hfr
      rwa [hst, List.append_nil] at this
    rw [List.dropLast_concat] at hfr'
    rw [hj.frames fr hfr']
    rfl
  · intro p d hp hd hk
    have hd' : d ∈ s.graph.deps p := by rw [← h.graph.requireTarget_deps _ rid]; exact hd
    have hp' := h.graph.alive_of_dep ((h.graph.requireTarget_alive _ rid p).mp hp) hd'
    have hda := h.graph.depsIn p d hp' hd'
    show ((s.graph.requireTarget _ rid).id d).kind ≠ .buildValue
    rw [h.graph.requireTarget_id_of_alive _ rid hda]
    refine h.edges p d hp' hd' ?_
    unfold State.kind
    rw [← h.graph.requireTarget_id_of_alive _ rid hp']
    exact hk

section

omit [DecidableEq κ]

/-- Between critical sections only the graph and the live targets matter. -/
theorem Base.of_free (h : Base s) (hst : s'.stack = []) (hg : s'.graph = s.graph)
    (ht : s'.target = s.target) : Base s' := by
  refine ⟨?_, ?_, ?_, ?_, ?_⟩
  · rw [hg, ht]
    exact h.graph
  · rw [hg]
    exact h.watched
  · rw [hst]
    simp
  · rw [hst]
    simp
  · unfold State.kind
    rw [hg]
    exact h.edges

theorem Base.init [Inhabited κ] (st : Store κ) : Base (State.init st) := by
  refine ⟨?_, ?_, ?_, ?_, ?_⟩
  · refine ⟨?_, ?_, ?_, ?_, ?_, ?_, ?_, ?_, ?_, ?_⟩ <;>
      simp [State.init, InterestGraph.Graph.empty, InterestGraph.Graph.Alive, State.target]
  · intro p hp
    simp [State.init, InterestGraph.Graph.empty, InterestGraph.Graph.Alive] at hp
  · simp [State.init]
  · simp [State.init]
  · intro p d hp
    simp [State.init, InterestGraph.Graph.empty, InterestGraph.Graph.Alive] at hp

theorem Base.visit (h : Base s) : Base { s with graph := s.graph.visitNext } := by
  have hgrow : Grows s { s with graph := s.graph.visitNext } := by
    refine ⟨?_, ?_, ?_, fun _ _ x => x, fun _ _ x => x, rfl⟩
    · exact fun p hp => (InterestGraph.Graph.visitNext_alive s.graph p).mpr hp
    · intro p _
      show s.graph.visitNext.id p = _
      rw [InterestGraph.Graph.visitNext_id]
    · intro p d hd
      show d ∈ s.graph.visitNext.deps p
      rwa [InterestGraph.Graph.visitNext_deps]
  refine ⟨h.graph.visitNext, h.watched.visitNext, ?_, h.bottom, ?_⟩
  · exact fun fr hfr => hgrow.frameOK (h.frames fr hfr)
  · intro p d hp hd hk
    have hp' := (InterestGraph.Graph.visitNext_alive s.graph p).mp hp
    have hd' : d ∈ s.graph.deps p := by
      rw [← InterestGraph.Graph.visitNext_deps]
      exact hd
    rw [hgrow.kind hp'] at hk
    rw [hgrow.kind (h.graph.depsIn p d hp' hd')]
    exact h.edges p d hp' hd' hk

/-- The frame under execution: it is valid, and if it may turn a submit down it is the last. -/
theorem Base.top {fr : Frame κ} {rest : List (Frame κ)} (h : Base s)
    (hst : s.stack = fr :: rest) :
    FrameOK { s with stack := rest } fr ∧ (fr.isSubmitted = true → rest = []) := by
  refine ⟨?_, fun hsub => ?_⟩
  · exact Grows.frameOK (Grows.of_same rfl rfl fun _ => .of_eq rfl rfl)
      (h.frames fr (State.top_mem hst))
  · rcases rest with _ | ⟨fr', rest⟩
    · rfl
    · have := h.bottom fr (by rw [hst]; exact List.mem_cons_self)
      rw [hsub] at this
      cases this

end

/-- **Every step keeps the table in order.** -/
theorem Base.step [Inhabited κ] {a : Label κ} (h : Base s) (hs : step W s a = some s') :
    Base s' := by
  have hr := step_rule h.graph hs
  cases hr with
  | visit => exact h.visit
  | frame c fr rest hp hst s' he =>
    exact (h.pop hst).exec hp (h.top hst).1 (h.top hst).2 he
  | prepared c req st subs hp | committed c i cm hcm | fleet a fleet hfree ha | push k
  | expire r | close hfree | cancelCtx => exact h.congr rfl rfl rfl rfl
  | submitClosed | timerStale =>
    exact h.congr rfl rfl rfl rfl
  | submit c i rid sub hsub hrid hfree =>
    have h' : Base { s with submits := s.submits.eraseIdx i } :=
      h.congr rfl rfl rfl rfl
    exact h'.joinSubmit hfree hrid sub
  | cancelled rid r hr hfree =>
    obtain ⟨hst, hpend⟩ := s.free_iff.mp hfree
    exact h.letGo hst hpend hr (by simp [Request.live]) _
  | deleted rid r hr hfree =>
    obtain ⟨hst, hpend⟩ := s.free_iff.mp hfree
    exact h.letGo hst hpend hr rfl _
  | watched rid now reason r hr hfree =>
    obtain ⟨hst, -⟩ := s.free_iff.mp hfree
    refine h.of_free hst rfl ?_
    rw [target_update]
    refine Function.update_eq_self_iff.mpr ?_
    unfold State.target
    rw [hr]
    rfl
  | starved rid now reason r hr hfree msg hmsg =>
    obtain ⟨hst, hpend⟩ := s.free_iff.mp hfree
    exact h.letGo hst hpend hr (by simp [Request.live, hmsg]) _
  | nothing => exact h
  | dropped => exact h.deleteScratch W _ _
  | accepted c res n => exact h.acceptResult (acceptResult_rule W c s n res)
  | finishStale =>
    refine Base.deleteScratch ?_ W _ _
    exact h.congr rfl rfl rfl rfl
  | finish c i cm err =>
    refine Base.deleteScratch (Base.applyCommit ?_ (applyCommit_rule W c _ cm err)) W _ _
    exact h.congr rfl rfl rfl rfl
  | timer c i n =>
    refine Base.enqueue ?_ W c n
    exact h.congr rfl rfl rfl rfl
  | running name gen n hfree hn hph => exact h.setNode (.of_eq rfl rfl)
  | crash => exact (Base.init s.store).of_free rfl rfl rfl

end Step

variable [Inhabited κ] {W : World κ} {P : State κ → Label κ → Prop} {st : Store κ} {s : State κ}

/-- The table is in order in every state of every run. -/
theorem Reached.base (h : Reached W P st s) : Base s :=
  h.inv (Base.init st) fun _ _ _ hb _ hs => hb.step hs

/-- **The graph and the interest sets, between critical sections.** Edges are recorded at both
ends, deps of table nodes are table nodes, a node is in the table exactly while somebody wants
it, and a request wants exactly what its target reaches while it is live. -/
theorem table_and_interest_exact (h : Reached W P st s) (hfree : s.free = true) :
    (∀ n d, s.graph.Alive n → (d ∈ s.graph.deps n ↔ n ∈ s.graph.dependents d)) ∧
    (∀ n d, s.graph.Alive n → d ∈ s.graph.deps n → s.graph.Alive d) ∧
    (∀ n, s.graph.Alive n ↔ s.graph.interest n ≠ []) ∧
    ∀ n rid, rid ∈ s.graph.interest n ↔
      ∃ r, s.requests rid = some r ∧ r.cancelled = false ∧ r.failReason = "" ∧
        Reach s.graph.deps r.target n := by
  have hb := Reached.base h
  obtain ⟨-, hpend⟩ := s.free_iff.mp hfree
  refine ⟨?_, hb.graph.depsIn, hb.graph.alive_iff_of_settled hb.watched hpend, ?_⟩
  · intro n d hn
    rw [hb.graph.dependentsIff]
    exact ⟨fun hd => ⟨hn, hd⟩, fun hd => hd.2⟩
  · intro n rid
    rw [hb.graph.interest_iff_of_settled hpend]
    constructor
    · intro hc
      obtain ⟨t, ht, hreach⟩ := hc
      obtain ⟨r, hr, hlive, rfl⟩ := target_eq_some_iff.mp ht
      obtain ⟨h1, h2⟩ := r.live_iff.mp hlive
      exact ⟨r, hr, h1, h2, hreach⟩
    · intro hc
      obtain ⟨r, hr, h1, h2, hreach⟩ := hc
      exact ⟨r.target, target_eq_some_iff.mpr ⟨r, hr, r.live_iff.mpr ⟨h1, h2⟩, rfl⟩, hreach⟩

/-- One submit of a build that needs its source fetched: three nodes are wanted by it. -/
theorem table_and_interest_exact_one_request :
    ∃ s, runSched (smallWorld { definition := fun b => .ok (smallDef b ⟨.importK, [7]⟩)
                                importDef := fun _ => .ok { fetcher := "git" } })
        (State.init (smallStore [])) (submitRun 1 9) = some s ∧ s.free = true ∧
      (∀ n, s.graph.Alive n ↔ s.graph.interest n ≠ []) ∧ s.graph.interest 2 = ["r1"] := by
  have hrun : ∃ s ∈ runSched fetchWorld (State.init (smallStore [])) (submitRun 1 9),
      s.free = true ∧ s.graph.interest 2 = ["r1"] := by
    decide +kernel
  obtain ⟨s, hs, hfree, hint⟩ := hrun
  exact ⟨s, hs, hfree, (table_and_interest_exact (Run.Steps.of_run _ hs) hfree).2.2.1, hint⟩

end JobsIroh
