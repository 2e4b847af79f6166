/-
A submit that is turned down leaves no trace in the graph.

The rejection comes after the join: by then nodes may have been made, completed and
enqueued, and nodes that other requests want have gained a watcher.  Two facts about the
critical section undo all of it.  Every call that is open works for a node made since the
submit took the lock (`Frame.actsOn`), so a node that was there before keeps its phase, its
generation and its deps; the rest of its place in the graph can be read off the deps and the
live requests.  And a node that got a message either still has it in the queue or has
failed, in which case the request is over and is not turned down.
-/
import JobsIroh.Proofs.Snapshots

namespace JobsIroh

variable {κ : Type} [DecidableEq κ]

open Search (Reach)

/-! ### What a frame works for -/

/-- The nodes whose calls a frame goes on with. -/
def Frame.actsOn : Frame κ → List Nat
  | .unfold n | .unfolding n _ | .advance n => [n]
  | .notify n todo _ => n :: todo
  | fr => fr.stageOf.toList

/-- The nodes a frame may move: its own, and the dependents a map iteration may yield. -/
def Frame.Touches (s : State κ) (fr : Frame κ) (q : Nat) : Prop :=
  q ∈ fr.actsOn ∨ ∃ m ∈ fr.actsOn, q ∈ s.graph.dependents m

section

variable {W : World κ} {c : Choice} {s s' : State κ} {fr : Frame κ} {n q : Nat}

section

omit [DecidableEq κ]

theorem Frame.mem_actsOn_of_opens (h : fr.opens = some n) : n ∈ fr.actsOn := by
  cases fr <;> simp_all [Frame.opens, Frame.actsOn]

theorem Frame.actsOn_of_stageOf (h : fr.stageOf = some n) : fr.actsOn = [n] := by
  cases fr <;> simp_all [Frame.stageOf, Frame.actsOn]

theorem Frame.mem_actsOn_of_stageOf (h : fr.stageOf = some n) : n ∈ fr.actsOn := by
  rw [Frame.actsOn_of_stageOf h]
  exact List.mem_singleton_self n

end

theorem NewEdge.mem_actsOn {id : NodeID κ} (h : NewEdge W s fr n id) : n ∈ fr.actsOn := by
  cases h with
  | stage _ _ nd kind k ret h => exact Frame.mem_actsOn_of_stageOf h.stageOf.1
  | run => simp [Frame.actsOn, Frame.stageOf]
  | _ => simp [Frame.actsOn]

omit [DecidableEq κ] in
/-- The frames a frame leaves work for the nodes it may move. -/
theorem Leaves.touches {p : List (Frame κ)} (h : Leaves s fr p) :
    ∀ fr' ∈ p, fr'.isSubmitted = false ∧ ∀ q ∈ fr'.actsOn, fr.Touches s q := by
  have notify : ∀ {n : Nat} {todo todo' seen seen' : List Nat}, todo' ⊆ todo →
      ∀ q ∈ (Frame.notify n todo' seen' : Frame κ).actsOn,
        (Frame.notify n todo seen).Touches s q := by
    intro n todo todo' seen seen' hsub q hq
    exact Or.inl (List.cons_subset_cons n hsub hq)
  cases h with
  | nothing => simp
  | first => simp [Frame.isSubmitted, Frame.Touches, Frame.actsOn, Frame.stageOf]
  | stage fr fr' bv h h' =>
    intro fr'' hfr
    obtain rfl : fr'' = fr' := by simpa using hfr
    refine ⟨by cases fr'' <;> simp_all [Frame.stageOf, Frame.isSubmitted], ?_⟩
    intro q hq
    rw [Frame.actsOn_of_stageOf h'] at hq
    obtain rfl : q = bv := by simpa using hq
    exact Or.inl (Frame.mem_actsOn_of_stageOf h)
  | done fr bv h ds hds =>
    intro fr'' hfr
    obtain rfl : fr'' = .notify bv ds [] := by simpa using hfr
    refine ⟨rfl, ?_⟩
    intro q hq
    have hbv := Frame.mem_actsOn_of_stageOf h
    rcases List.mem_cons.mp hq with rfl | hq
    · exact Or.inl hbv
    · exact Or.inr ⟨bv, hbv, hds ▸ hq⟩
  | advances n todo todo' seen seen' d hd hkind hsub =>
    intro fr'' hfr
    rcases List.mem_cons.mp hfr with rfl | hfr
    · refine ⟨rfl, ?_⟩
      intro q hq
      obtain rfl : q = d := by simpa [Frame.actsOn] using hq
      rcases hd with hd | hd
      · exact Or.inl (List.mem_cons_of_mem _ hd)
      · exact Or.inr ⟨n, List.mem_cons_self, hd⟩
    · obtain rfl : fr'' = .notify n todo' seen' := by simpa using hfr
      exact ⟨rfl, notify hsub⟩
  | notifies n todo todo' seen seen' hsub =>
    intro fr'' hfr
    obtain rfl : fr'' = .notify n todo' seen' := by simpa using hfr
    exact ⟨rfl, notify hsub⟩
  | _ => simp [Frame.isSubmitted, Frame.Touches, Frame.actsOn]

/-! ### Messages -/

/-- The generation of a node and its place in the queue are as before. -/
def SameMessage (s s' : State κ) (q : Nat) : Prop :=
  (s'.node q).gen = (s.node q).gen ∧ (s'.node q).queueSeq = (s.node q).queueSeq

/-- What a frame does to the queue: nothing, or one node is enqueued. -/
inductive Posting (W : World κ) (c : Choice) (s : State κ) (fr : Frame κ) (s' : State κ) : Prop
  | quiet (hjobs : s'.jobs = s.jobs) (h : ∀ q, s.graph.Alive q → SameMessage s s' q)
  | enqueues (d : Nat) (st : List (Frame κ)) (hd : fr.Touches s d) (hn : s.graph.Alive d)
      (hr : ready s d = true) (hc : s.closed = false)
      (heq : s' = enqueueLocked W c { s with stack := st } d)

section

omit [DecidableEq κ]

theorem SameMessage.of_eq (h : s'.node q = s.node q) : SameMessage s s' q := by
  rw [SameMessage, h]
  exact ⟨rfl, rfl⟩

theorem SameMessage.trans {s'' : State κ} (h : SameMessage s s' q) (h' : SameMessage s' s'' q) :
    SameMessage s s'' q :=
  ⟨h'.1.trans h.1, h'.2.trans h.2⟩

theorem SameMessage.setNode {nd : Node κ} (hgen : nd.gen = (s.node n).gen)
    (hseq : nd.queueSeq = (s.node n).queueSeq) (q : Nat) : SameMessage s (s.setNode n nd) q := by
  by_cases hq : q = n
  · subst hq
    rw [SameMessage, State.setNode_node]
    exact ⟨hgen, hseq⟩
  · exact SameMessage.of_eq (s.setNode_node_ne nd hq)

theorem failedNode_message (nd : Node κ) (e : String) :
    (failedNode nd e).gen = nd.gen ∧ (failedNode nd e).queueSeq = nd.queueSeq := by
  unfold failedNode
  split
  · exact ⟨rfl, rfl⟩
  · exact ⟨rfl, rfl⟩

end

/-- A join fills in what a table node lacks and nothing else. -/
theorem require_message (hg : s.graph.Inv s.target) (kind : Kind) (k : κ) (defn : Bytes)
    (platform : String) (parent : Nat) (label : String) (ret : Nat → List (Frame κ))
    (hq : s.graph.Alive q) :
    SameMessage s (require c s kind k defn platform parent label ret) q := by
  obtain ⟨nd, fs, lg, heq, hj⟩ := require_eq hg kind k defn platform parent label ret
  rw [heq]
  rcases hj.table_node hg hq with ⟨hqo, -, hfill, -⟩ | ⟨hne, -⟩
  · rw [SameMessage]
    dsimp only
    rw [← hqo, ← hfill, Function.update_self]
    exact ⟨rfl, rfl⟩
  · exact SameMessage.of_eq (Function.update_of_ne hne _ _)

theorem Posting.maybeEnqueue (st : List (Frame κ)) (hd : fr.Touches s n) (hn : s.graph.Alive n) :
    Posting W c s fr (maybeEnqueueLocked W c { s with stack := st } n) := by
  unfold maybeEnqueueLocked
  by_cases hr : ready s n = true
  · rw [if_pos (by exact hr)]
    by_cases hc : s.closed = true
    · refine Posting.quiet ?_ ?_
      · rw [enqueueLocked, if_pos hc]
      · intro q _
        rw [enqueueLocked, if_pos hc]
        exact SameMessage.of_eq rfl
    · exact Posting.enqueues n st hd hn hr (by simpa using hc) rfl
  · rw [if_neg (by exact hr)]
    exact Posting.quiet rfl fun q _ => SameMessage.of_eq rfl

theorem Posting.require (s₁ : State κ) (hg : s.graph.Inv s.target) (hgr : s₁.graph = s.graph)
    (ht : s₁.target = s.target) (hj : s₁.jobs = s.jobs) (hm : ∀ q, SameMessage s s₁ q)
    (kind : Kind) (k : κ) (defn : Bytes) (platform : String) (p : Nat) (label : String)
    (ret : Nat → List (Frame κ)) :
    Posting W c s fr (JobsIroh.require c s₁ kind k defn platform p label ret) := by
  have hg₁ : s₁.graph.Inv s₁.target := by
    rw [hgr, ht]
    exact hg
  refine Posting.quiet ?_ fun q hq => (hm q).trans (require_message hg₁ _ _ _ _ _ _ _ (hgr ▸ hq))
  rw [(require_quiet hg₁ kind k defn platform p label ret).jobs, hj]

section

variable (s₁ : State κ) (hj : s₁.jobs = s.jobs) (hm : ∀ q, SameMessage s s₁ q)
include hj hm

theorem Posting.failNode (n : Nat) (e : String) : Posting W c s fr (failNodeLocked s₁ n e) := by
  rw [failNodeLocked_eq]
  obtain ⟨hgen, hseq⟩ := failedNode_message (s₁.node n) e
  exact Posting.quiet hj fun q _ => (hm q).trans (SameMessage.setNode hgen hseq q)

theorem Posting.nodeDone (n : Nat) : Posting W c s fr (nodeDoneLocked s₁ n) := by
  unfold nodeDoneLocked
  split
  · exact Posting.quiet hj fun q _ => hm q
  · refine Posting.quiet hj fun q _ => (hm q).trans ?_
    have hself : SameMessage s₁
        (s₁.setNode n { s₁.node n with phase := .done, errSummary := "" }) q := by
      refine SameMessage.setNode ?_ ?_ q <;> rfl
    exact hself

end

/-- **What a frame does to the queue.** -/
theorem ExecStep.posting (hb : Base s) (hfr : FrameOK s fr) (h : ExecStep W c s fr s') :
    Posting W c s fr s' := by
  have still : ∀ {s₁ : State κ}, s₁.node = s.node → s₁.jobs = s.jobs → Posting W c s fr s₁ := by
    intro s₁ hn hj
    exact Posting.quiet hj fun q _ => SameMessage.of_eq (by rw [hn])
  have self : ∀ q, SameMessage s s q := fun q => SameMessage.of_eq rfl
  cases h with
  | unfoldFail n nd hnd e =>
    obtain ⟨hgen, hseq⟩ := failedNode_message nd e
    exact Posting.quiet rfl fun q _ =>
      SameMessage.setNode (hgen.trans hnd.gen) (hseq.trans hnd.queueSeq) q
  | unfoldRead n nd rest hr =>
    exact Posting.quiet rfl fun q _ =>
      SameMessage.setNode hr.sameRun.gen hr.sameRun.queueSeq q
  | unfoldFetcher n nd d hr =>
    exact Posting.require (s.setNode n nd) hb.graph rfl rfl rfl
      (SameMessage.setNode hr.same.gen hr.same.queueSeq) _ _ _ _ _ _ _
  | unfolded => exact Posting.maybeEnqueue s.stack (Or.inl (by simp [Frame.actsOn])) hfr.1
  | input n ni rest s' hi =>
    have hkeep := keepInput_sameRun (s.node n) (s.kind n) ni.input
    have hloop : ∀ q, SameMessage s (loopState s n ni rest) q :=
      SameMessage.setNode hkeep.gen hkeep.queueSeq
    cases hi with
    | tree hk => exact Posting.quiet rfl fun q _ => hloop q
    | link =>
      exact Posting.require (loopState s n ni rest) hb.graph rfl rfl rfl hloop _ _ _ _ _ _ _
    | _ => exact Posting.failNode (s := s) (loopState s n ni rest) rfl hloop n _
  | advance => exact Posting.require s hb.graph rfl rfl rfl self _ _ _ _ _ _ _
  | stageFail fr bv hbv e => exact Posting.failNode s rfl self bv e
  | nextStage fr bv nd kind k ret hn =>
    have hnd : nd.gen = (s.node bv).gen ∧ nd.queueSeq = (s.node bv).queueSeq := by
      cases hn <;> exact ⟨rfl, rfl⟩
    exact Posting.require (s.setNode bv nd) hb.graph rfl rfl rfl
      (SameMessage.setNode hnd.1 hnd.2) _ _ _ _ _ _ _
  | putPinCover bv kp f =>
    have hput : ∀ q, SameMessage s (s.bound bv f kp) q := by
      intro q
      have hself : SameMessage s (s.setNode bv { s.node bv with kp := some kp }) q := by
        refine SameMessage.setNode ?_ ?_ q <;> rfl
      exact hself
    exact Posting.require (s.bound bv f kp) hb.graph rfl rfl rfl hput _ _ _ _ _ _ _
  | aliased bv => exact Posting.nodeDone s rfl self bv
  | putAliasOutput bv out f =>
    exact Posting.nodeDone (s := s) (s.putRef (.output f) out) rfl self bv
  | notifyNode n todo seen d hd =>
    refine Posting.maybeEnqueue
      (.notify n (todo.filter (fun x => x ≠ d)) (d :: seen) :: s.stack) ?_
      (hfr.notified hb.graph hd)
    rcases hd with hd | hd
    · exact Or.inl (List.mem_cons_of_mem _ hd)
    · exact Or.inr ⟨n, List.mem_cons_self, hd⟩
  | submitted rid t scratch =>
    rw [deleteScratch_eta]
    exact still rfl rfl
  | _ => exact still rfl rfl

/-- An enqueue that gets a sequence number leaves the node queued under it. -/
theorem enqueueLocked_posts (W : World κ) (c : Choice) (s : State κ) (n : Nat)
    (hc : s.closed = false) : (enqueueLocked W c s n).jobs = s.jobs ∨
      ∃ j, (enqueueLocked W c s n).jobs = j :: s.jobs ∧ j.ptr = n ∧ ∀ x, j.seq = some x →
        (enqueueLocked W c s n).phase n = .queued ∧
          ((enqueueLocked W c s n).node n).queueSeq = x := by
  unfold enqueueLocked
  rw [if_neg (by simp [hc])]
  dsimp only
  split
  · left
    rw [failNodeLocked_eq]
    rfl
  · right
    unfold publishJob
    dsimp only
    split
    · rename_i seq hseq
      refine ⟨_, rfl, rfl, ?_⟩
      intro x hx
      obtain rfl : seq = x := Option.mem_unique hseq hx
      simp [State.phase]
    · rename_i hseq
      have hno : ∀ x, c.publish ≠ some x := by simp [hseq]
      split <;> exact ⟨_, rfl, rfl, fun x hx => absurd hx (hno x)⟩

end

/-! ### The call -/

/-- A job of the call: its node is new, and its message is in the queue unless it failed. -/
structure Posted (s₀ s : State κ) (j : Job κ) : Prop where
  new : s₀.graph.next ≤ j.ptr
  alive : s.graph.Alive j.ptr
  placeable : s.kind j.ptr ≠ .buildValue
  message : ∀ x, j.seq = some x → s.phase j.ptr = .failed ∨
    s.phase j.ptr = .queued ∧ (s.node j.ptr).queueSeq = x

/-- A submit that took the lock in `s₀` for the request `r` is still at work. -/
structure Submitting (s₀ : State κ) (rid : ReqID) (r : Request κ) (s : State κ) : Prop where
  next : s₀.graph.next ≤ s.graph.next
  deps : ∀ p, p < s₀.graph.next → ∀ d, d ∈ s.graph.deps p ↔ d ∈ s₀.graph.deps p
  alive : ∀ p, s₀.graph.Alive p → s.graph.Alive p ∧ s.graph.id p = s₀.graph.id p
  stays : ∀ p, s₀.graph.Alive p → s.phase p = s₀.phase p ∧ (s.node p).gen = (s₀.node p).gen
  requests : s.requests = Function.update s₀.requests rid (some r)
  /-- Every call that is open works for new nodes. -/
  stack : ∃ fs scratch, s.stack = fs ++ [.submitted rid r.target scratch] ∧
    ∀ fr ∈ fs, fr.isSubmitted = false ∧ ∀ n ∈ fr.actsOn, s₀.graph.next ≤ n
  posted : ∃ new, s.jobs = new ++ s₀.jobs ∧ ∀ j ∈ new, Posted s₀ s j

section

variable {W : World κ} {c : Choice} {s₀ s s' : State κ} {rid : ReqID} {r : Request κ}
  {fr : Frame κ} {p q : Nat}

omit [DecidableEq κ] in
theorem Submitting.request (h : Submitting s₀ rid r s) : s.requests rid = some r := by
  rw [h.requests, Function.update_self]

omit [DecidableEq κ] in
/-- Only new nodes depend on new nodes. -/
theorem Submitting.touches_new (h : Submitting s₀ rid r s) (hb₀ : Base s₀) (hb : Base s)
    (hfr : ∀ n ∈ fr.actsOn, s₀.graph.next ≤ n) (hq : fr.Touches s q) : s₀.graph.next ≤ q := by
  rcases hq with hq | ⟨m, hm, hq⟩
  · exact hfr q hq
  · by_contra hold
    obtain ⟨-, hdep⟩ := (hb.graph.dependentsIff q m).mp hq
    have hm₀ := (h.deps q (by omega) m).mp hdep
    have := (hb₀.graph.depsLt q m hm₀).2
    have := hfr m hm
    omega

/-- A frame that hands no job out starts no attempt. -/
theorem ExecStep.moves_quietly (hb : Base s) (hfr : FrameOK s fr) (h : ExecStep W c s fr s')
    (hquiet : ∀ q, s.graph.Alive q → SameMessage s s' q) (hq : s.graph.Alive q) :
    s'.phase q = s.phase q ∨ q ∈ fr.actsOn ∧
      (s'.phase q = .failed ∨ s.kind q = .buildValue) := by
  cases h.move hb hfr with
  | still _ hs => exact Or.inl (hs q hq).phase
  | fails n _ hn _ hph _ ho =>
    by_cases hqn : q = n
    · subst hqn
      refine Or.inr ⟨?_, Or.inl hph⟩
      rcases hn with hn | hn
      · exact Frame.mem_actsOn_of_opens hn
      · exact Frame.mem_actsOn_of_stageOf hn
    · exact Or.inl (ho q hq hqn).phase
  | completes n _ hn _ _ ho =>
    by_cases hqn : q = n
    · subst hqn
      have hstage := stageOf_of_completing hn
      exact Or.inr ⟨Frame.mem_actsOn_of_stageOf hstage, Or.inr (hfr.stage hstage).2⟩
    · exact Or.inl (ho q hq hqn).phase
  | attempts n _ hn _ _ hat =>
    have hgen := hat.gen
    rw [(hquiet n hn).1] at hgen
    omega

/-- An enqueue leaves the other nodes alone. -/
theorem enqueueLocked_other (W : World κ) (c : Choice) (st : List (Frame κ)) {d : Nat}
    (hc : s.closed = false)
    (hd : s.graph.Alive d) (hw : s.phase d = .waiting) (hq : s.graph.Alive q) (hqd : q ≠ d) :
    (enqueueLocked W c { s with stack := st } d).phase q = s.phase q ∧
      SameMessage s (enqueueLocked W c { s with stack := st } d) q := by
  obtain ⟨-, ho⟩ := enqueueLocked_moves W c (s := { s with stack := st }) hc hd hw
  have hstays := ho q hq hqd
  obtain ⟨st', nd, timers, jobs, heq, -, -⟩ :=
    (enqueueLocked_eq W c { s with stack := st } d).resolve_left (by simp [hc])
  refine ⟨hstays.phase, hstays.gen, ?_⟩
  rw [heq]
  dsimp only
  rw [Function.update_of_ne hqd]

section

variable (h : Submitting s₀ rid r s) (hb₀ : Base s₀) (hb : Base s) (hfr : FrameOK s fr)
  (hnew : ∀ n ∈ fr.actsOn, s₀.graph.next ≤ n) (he : ExecStep W c s fr s')
include h hb₀ hb hfr hnew he

/-- The phase and the generation of a node that was there before. -/
theorem Submitting.old_stays
    (hp : s₀.graph.Alive p) :
    s'.phase p = s₀.phase p ∧ (s'.node p).gen = (s₀.node p).gen := by
  have hlt := hb₀.graph.alive_lt hp
  obtain ⟨halive, -⟩ := h.alive p hp
  obtain ⟨hphase, hgen⟩ := h.stays p hp
  cases he.posting hb hfr with
  | quiet _ hquiet =>
    refine ⟨?_, (hquiet p halive).1.trans hgen⟩
    rcases he.moves_quietly hb hfr hquiet halive with hsame | ⟨hact, -⟩
    · exact hsame.trans hphase
    · have := hnew p hact
      omega
  | enqueues d st hd hn hr hc heq =>
    have hdnew := h.touches_new hb₀ hb hnew hd
    obtain ⟨hsame, hmsg⟩ := enqueueLocked_other W c st hc hn
      (phase_of_ready hr).1 halive (by omega)
    rw [heq]
    exact ⟨hsame.trans hphase, hmsg.1.trans hgen⟩

/-- The messages of the call, after one more frame. -/
theorem Submitting.step_posted
    (hgrow : ∀ p, s.graph.Alive p → s'.graph.Alive p ∧ s'.graph.id p = s.graph.id p) :
    ∃ new, s'.jobs = new ++ s₀.jobs ∧ ∀ j ∈ new, Posted s₀ s' j := by
  obtain ⟨new, hjobs, hposted⟩ := h.posted
  have hkind : ∀ {p}, s.graph.Alive p → s'.kind p = s.kind p := fun hp =>
    State.kind_of_id (hgrow _ hp).2
  cases he.posting hb hfr with
  | quiet hsame hquiet =>
    refine ⟨new, hsame.trans hjobs, ?_⟩
    intro j hj
    have hj := hposted j hj
    refine ⟨hj.new, (hgrow _ hj.alive).1, by rw [hkind hj.alive]; exact hj.placeable, ?_⟩
    intro x hx
    rcases he.moves_quietly hb hfr hquiet hj.alive with hph | ⟨-, hfailed | hvalue⟩
    · rw [hph, (hquiet _ hj.alive).2]
      exact hj.message x hx
    · exact Or.inl hfailed
    · exact absurd hvalue hj.placeable
  | enqueues d st hd hn hr hc heq =>
    obtain ⟨hwaiting, hplace⟩ := phase_of_ready hr
    have hkeep : ∀ j ∈ new, Posted s₀ s' j := by
      intro j hj
      have hj := hposted j hj
      refine ⟨hj.new, (hgrow _ hj.alive).1, by rw [hkind hj.alive]; exact hj.placeable, ?_⟩
      intro x hx
      have hmsg := hj.message x hx
      have hne : j.ptr ≠ d := by
        intro hjd
        rw [hjd, hwaiting] at hmsg
        simp at hmsg
      obtain ⟨hsame, -, hseq⟩ := enqueueLocked_other W c st hc hn hwaiting
        hj.alive hne
      rw [heq, hsame, hseq]
      exact hmsg
    rcases enqueueLocked_posts W c { s with stack := st } d hc with hsame | ⟨j, hcons, hptr, hmsg⟩
    · exact ⟨new, by rw [heq, hsame]; exact hjobs, hkeep⟩
    · refine ⟨j :: new, by rw [heq, hcons, List.cons_append, ← hjobs], ?_⟩
      intro j' hj'
      rcases List.mem_cons.mp hj' with rfl | hj'
      · subst hptr
        refine ⟨h.touches_new hb₀ hb hnew hd, (hgrow _ hn).1, ?_, fun x hx => ?_⟩
        · rw [hkind hn]
          exact hplace
        · rw [heq]
          exact Or.inr (hmsg x hx)
      · exact hkeep j' hj'

end

/-- What a frame other than the last one does to the graph. -/
theorem ExecStep.graph_grows (hb : Base s) (hpend : s.graph.pending = []) (hfr : FrameOK s fr)
    (hsub : fr.isSubmitted = false) (h : ExecStep W c s fr s') :
    s'.graph = s.graph ∨ ∃ p id, p ∈ fr.actsOn ∧ s'.graph = s.graph.require id p := by
  have hrule := h.graphRule hb hpend hfr
  cases hrule with
  | same _ hg => exact Or.inl hg
  | require s₁ hgr hlg kind k defn platform p label ret he =>
    refine Or.inr ⟨p, ⟨kind, k⟩, he.mem_actsOn, ?_⟩
    have hg := hb.graph
    rw [← hgr] at hg ⊢
    obtain ⟨nd, fs, lg, heq, -⟩ := require_eq (c := c) hg kind k defn platform p label ret
    rw [heq]
  | dropped _ r' hd hcontra => rw [hsub] at hcontra; cases hcontra

theorem Submitting.frame (h : Submitting s₀ rid r s) (hb₀ : Base s₀) (hb : Base s)
    {rest : List (Frame κ)} (hst : s.stack = fr :: rest) (hpend : s.graph.pending = [])
    (hsub : fr.isSubmitted = false) (he : ExecStep W c { s with stack := rest } fr s') :
    Submitting s₀ rid r s' := by
  obtain ⟨fs, scratch, hstack, hfs⟩ := h.stack
  obtain ⟨fs', hfs', hrest⟩ : ∃ fs', fs = fr :: fs' ∧
      rest = fs' ++ [.submitted rid r.target scratch] := by
    rw [hst] at hstack
    cases fs with
    | nil =>
      obtain ⟨rfl, -⟩ : fr = .submitted rid r.target scratch ∧ _ := by simpa using hstack
      cases hsub
    | cons fr' fs' =>
      obtain ⟨rfl, rfl⟩ : fr = fr' ∧ rest = _ := by simpa using hstack
      exact ⟨fs', rfl, rfl⟩
  have hnew : ∀ n ∈ fr.actsOn, s₀.graph.next ≤ n := (hfs fr (by simp [hfs'])).2
  have hbpop : Base { s with stack := rest } := hb.pop hst
  have hfr : FrameOK { s with stack := rest } fr := (hb.top hst).1
  have hpop : Submitting s₀ rid r { s with stack := rest } :=
    ⟨h.next, h.deps, h.alive, h.stays, h.requests,
      ⟨fs', scratch, hrest, fun fr' hfr' => hfs fr' (by simp [hfs', hfr'])⟩,
      by obtain ⟨new, hjobs, hp⟩ := h.posted; exact ⟨new, hjobs, fun j hj => { hp j hj with }⟩⟩
  have hgraph := he.graph_grows hbpop hpend hfr hsub
  have hgrow : ∀ p, s.graph.Alive p → s'.graph.Alive p ∧ s'.graph.id p = s.graph.id p := by
    intro p hp
    rcases hgraph with heq | ⟨p', id, -, heq⟩
    · rw [heq]
      exact ⟨hp, rfl⟩
    · rw [heq]
      exact ⟨(hb.graph.require_alive id p' p).mpr (Or.inr hp),
        hb.graph.require_id_of_alive id p' hp⟩
  refine ⟨?_, ?_, ?_, ?_, ?_, ?_, ?_⟩
  · rcases hgraph with heq | ⟨p', id, -, heq⟩
    · rw [heq]
      exact h.next
    · rw [heq]
      exact le_trans h.next (hb.graph.require_extends id p').next
  · intro p hp d
    rcases hgraph with heq | ⟨p', id, hact, heq⟩
    · rw [heq]
      exact h.deps p hp d
    · have := hnew p' hact
      rw [heq, show d ∈ (s.graph.require id p').deps p ↔ _ from
        hb.graph.mem_require_deps id p' p d, h.deps p hp d]
      exact or_iff_left fun hc => by omega
  · intro p hp
    obtain ⟨halive, hid⟩ := h.alive p hp
    obtain ⟨halive', hid'⟩ := hgrow p halive
    exact ⟨halive', hid'.trans hid⟩
  · intro p hp
    exact hpop.old_stays hb₀ hbpop hfr hnew he hp
  · rw [he.requests hsub]
    exact h.requests
  · obtain ⟨fs₁, p, hst', hmade, hleaves⟩ := he.leaves hbpop.graph
    refine ⟨fs₁ ++ (p ++ fs'), scratch, ?_, ?_⟩
    · rw [hst', show ({ s with stack := rest } : State κ).stack = rest from rfl, hrest]
      simp
    · intro fr' hfr'
      rcases List.mem_append.mp hfr' with hfr' | hfr'
      · have hunfold : fr' = .unfold s.graph.next := by
          rcases hmade with hmade | hmade
          · rw [hmade] at hfr'
            cases hfr'
          · rw [hmade] at hfr'
            exact List.mem_singleton.mp hfr'
        subst hunfold
        refine ⟨rfl, fun n hn => ?_⟩
        obtain rfl : n = s.graph.next := by simpa [Frame.actsOn] using hn
        exact h.next
      · rcases List.mem_append.mp hfr' with hfr' | hfr'
        · obtain ⟨hno, htouch⟩ := hleaves.touches fr' hfr'
          exact ⟨hno, fun n hn => hpop.touches_new hb₀ hbpop hnew (htouch n hn)⟩
        · exact hfs fr' (by simp [hfs', hfr'])
  · exact hpop.step_posted hb₀ hbpop hfr hnew he hgrow

omit [DecidableEq κ] in
/-- A step that touches nothing the call works with. -/
theorem Submitting.of_same (h : Submitting s₀ rid r s) (hg : s'.graph = s.graph)
    (hn : s'.node = s.node) (hr : s'.requests = s.requests) (hst : s'.stack = s.stack)
    (hj : s'.jobs = s.jobs) : Submitting s₀ rid r s' := by
  obtain ⟨new, hjobs, hposted⟩ := h.posted
  refine ⟨by rw [hg]; exact h.next, by rw [hg]; exact h.deps, by rw [hg]; exact h.alive, ?_,
    hr.trans h.requests, by rw [hst]; exact h.stack, new, hj.trans hjobs, ?_⟩
  · intro p hp
    rw [State.phase, hn]
    exact h.stays p hp
  · intro j hj
    have hj := hposted j hj
    refine ⟨hj.new, by rw [hg]; exact hj.alive, ?_, ?_⟩
    · rw [State.kind, hg]
      exact hj.placeable
    · intro x hx
      rw [State.phase, hn]
      exact hj.message x hx

/-- The last frame of the call. -/
theorem exec_submitted_free {t : Nat} {scratch : String} (hst : s.stack = [])
    (hpend : s.graph.pending = []) (hb : Base s) (hr : s.requests rid = some r)
    (ht : r.target = t) (h : ExecStep W c s (.submitted rid t scratch) s') : s'.free = true := by
  rw [State.free_iff]
  cases h with
  | rejected _ _ _ r' hr' =>
    obtain rfl : r = r' := Option.mem_unique hr hr'
    refine ⟨hst, ?_⟩
    have hdrop := hb.graph.drop_dropped hb.watched hpend (target_eq hr)
    rw [ht] at hdrop
    exact hdrop.pending.trans hpend
  | submitGone => exact ⟨hst, hpend⟩
  | submitted =>
    rw [deleteScratch_eta]
    exact ⟨hst, hpend⟩
  | stageWaits _ x hx => cases hx
  | stageUnresolved _ bv hbv | stageFail _ bv hbv => cases hbv
  | nextStage _ bv nd kind k ret hn => cases hn

end

section

variable [Inhabited κ] {W : World κ} {s₀ s s' : State κ} {a : Label κ} {rid : ReqID}
  {r : Request κ}

/-- **The call goes on, or it has returned.** -/
theorem Submitting.step (h : Submitting s₀ rid r s) (hb₀ : Base s₀) (hb : Base s)
    (hopen : s.free = false) (ha : a ≠ .crash) (hs : JobsIroh.step W s a = some s') :
    s'.free = true ∨ Submitting s₀ rid r s' := by
  rcases a.exec_or with ⟨c, rfl⟩ | hex
  case inr =>
    obtain ⟨hst, hn, hg, hj, hr⟩ := step_open hb.graph hopen ha hex hs
    exact Or.inr (h.of_same hg hn hr hst hj)
  cases step_rule hb.graph hs with
  | visit c hp =>
    obtain ⟨new, hjobs, hposted⟩ := h.posted
    have hkind : ∀ n, ({ s with graph := s.graph.visitNext } : State κ).kind n = s.kind n :=
      fun n => State.kind_of_id (by simp)
    refine Or.inr ⟨by simpa using h.next, by simpa using h.deps, ?_, h.stays, h.requests, h.stack,
      new, hjobs, fun j hj => ?_⟩
    · intro p hp
      obtain ⟨halive, hid⟩ := h.alive p hp
      exact ⟨(InterestGraph.Graph.visitNext_alive _ p).mpr halive, by simpa using hid⟩
    · have hj := hposted j hj
      exact ⟨hj.new, (InterestGraph.Graph.visitNext_alive _ _).mpr hj.alive,
        by rw [hkind]; exact hj.placeable, hj.message⟩
  | frame c fr rest hp hst s' he =>
    cases hsub : fr.isSubmitted with
    | false => exact Or.inr (h.frame hb₀ hb hst hp hsub he)
    | true =>
      obtain ⟨fs, scratch, hstack, hfs⟩ := h.stack
      obtain ⟨rfl, rfl⟩ : fs = [] ∧ rest = [] := by
        rw [hst] at hstack
        cases fs with
        | nil => exact ⟨rfl, by simpa using (List.cons.inj hstack).2⟩
        | cons =>
          obtain ⟨rfl, -⟩ := List.cons.inj hstack
          have := (hfs fr List.mem_cons_self).1
          rw [hsub] at this
          cases this
      obtain rfl : fr = .submitted rid r.target scratch := by
        rw [hst] at hstack
        simpa using hstack
      left
      exact exec_submitted_free (s := { s with stack := [] }) rfl hp (hb.pop hst) h.request rfl he
  | nothing _ hfree | fleet _ fleet hfree =>
    rw [hfree] at hopen
    cases hopen

omit [Inhabited κ] in
/-- The call as it starts: the request is registered and its target joined. -/
theorem Submitting.join {c : Choice} {i : Nat} {sub : Submission κ} (hb : Base s)
    (hfree : s.free = true) :
    Submitting s rid (sub.request s)
      (joinSubmit c { s with submits := s.submits.eraseIdx i } sub rid) := by
  obtain ⟨hstack, -⟩ := s.free_iff.mp hfree
  obtain ⟨nd, fs, lg, heq, hj⟩ := joinSubmit_eq (c := c)
    (s := { s with submits := s.submits.eraseIdx i }) hb.graph sub rid
  rw [heq]
  refine ⟨?_, ?_, ?_, ?_, rfl, ⟨fs, sub.scratchRef, ?_, ?_⟩, [], rfl, by simp⟩
  · exact (hb.graph.requireTarget_extends _ rid).next
  · intro p _ d
    show d ∈ (s.graph.requireTarget _ rid).deps p ↔ _
    rw [hb.graph.requireTarget_deps]
  · intro p hp
    exact ⟨(hb.graph.requireTarget_alive _ rid p).mpr (Or.inr hp),
      hb.graph.requireTarget_id_of_alive _ rid hp⟩
  · intro p hp
    have hstays : Stays s { s with
        node := Function.update s.node (s.graph.occupant ⟨.buildValue, sub.k⟩) nd
        lastGen := lg } p := hj.stays hb.graph rfl rfl hp
    exact ⟨hstays.phase, hstays.gen⟩
  · show fs ++ ([.submitted rid _ sub.scratchRef] ++ s.stack) = _
    rw [hstack]
    rfl
  · intro fr hfr
    have hunfold := hj.frames fr hfr
    subst hunfold
    refine ⟨rfl, fun n hn => ?_⟩
    obtain rfl : n = s.graph.occupant ⟨.buildValue, sub.k⟩ := List.mem_singleton.mp hn
    have hnone : s.graph.nodes ⟨.buildValue, sub.k⟩ = none := by
      by_contra hsome
      obtain ⟨m, hm⟩ := Option.ne_none_iff_exists'.mp hsome
      cases hj with
      | fresh hold =>
        rw [show ({ s with submits := s.submits.eraseIdx i } : State κ).graph.nodes _ = some m
          from hm] at hold
        cases hold
      | _ => cases hfr
    rw [InterestGraph.Graph.occupant_of_none hnone]

theorem Submitting.start {c : Choice} {i : Nat} (hb : Base s)
    (hs : JobsIroh.step W s (.submit c i rid) = some s') (hopen : s'.free = false) :
    s.free = true ∧ s.requests rid = none ∧ ∃ r, r.cancelled = false ∧ r.failReason = "" ∧
      Submitting s rid r s' := by
  have busy : ∀ {P : Prop}, s'.free = true → P := fun hfree => by rw [hfree] at hopen; cases hopen
  cases step_rule hb.graph hs with
  | submit _ _ _ sub hsub hrid hfree =>
    exact ⟨hfree, hrid, sub.request s, rfl, rfl, .join hb hfree⟩
  | submitClosed _ _ _ hfree | nothing _ hfree | fleet _ fleet hfree => exact busy hfree

/-! ### The end of the call -/

/-- A step while the lock is held; the server does not die. -/
def inCall (s : State κ) : Label κ → Bool
  | .crash => false
  | _ => !s.free

/-- A submit from the moment it takes the lock to its return, when it is turned down because
no live runner serves the platform. -/
inductive TurnedDown (W : World κ) (s : State κ) (rid : ReqID) (s' : State κ) : Prop
  | intro (c c' : Choice) (i : Nat) (s₁ s₂ : State κ)
      (hsubmit : JobsIroh.step W s (.submit c i rid) = some s₁)
      (hcall : Run.Steps (JobsIroh.step W) (fun s a => inCall s a = true) s₁ s₂)
      (hopen : s₂.free = false)
      (hlast : JobsIroh.step W s₂ (.exec c') = some s') (hfree : s'.free = true)
      (hgone : s'.requests rid = none)

/-- The state in which a submit is turned down. -/
structure Refused (s₀ : State κ) (rid : ReqID) (r : Request κ) (s s' : State κ) : Prop where
  base : Base s
  call : Submitting s₀ rid r s
  pending : s.graph.pending = []
  running : terminal (assembleLocked s r) = false
  eq : s' = setRequest (dropInterestLocked { s with stack := [] } rid r.target) rid none

theorem TurnedDown.refused (h : TurnedDown W s rid s') (hb : Base s) :
    s.free = true ∧ s.requests rid = none ∧ ∃ r s₂, r.cancelled = false ∧ r.failReason = "" ∧
      Refused s rid r s₂ s' := by
  obtain ⟨c, c', i, s₁, s₂, hsubmit, hcall, hopen, hlast, hret, hgone⟩ := h
  have hinv := hcall.inv (I := fun s₂ => Base s₂ ∧ (s₂.free = true ∨ s.free = true ∧
    s.requests rid = none ∧
      ∃ r, r.cancelled = false ∧ r.failReason = "" ∧ Submitting s rid r s₂)) ?_ ?_
  · obtain ⟨hb₂, hsub⟩ := hinv
    obtain ⟨hfree, hnone, r, hcancelled, hreason, hsub⟩ := hsub.resolve_left (by simp [hopen])
    refine ⟨hfree, hnone, r, s₂, hcancelled, hreason, ?_⟩
    obtain ⟨fs, scratch, hstack, hfs⟩ := hsub.stack
    have hreq := hsub.request
    cases step_rule hb₂.graph hlast with
    | visit =>
      rw [State.free_iff] at hret
      rw [show s₂.stack = [] from hret.1] at hstack
      simp at hstack
    | frame _ fr rest hp hst _ he =>
      -- Nothing is left on the stack, so the frame is the last one.
      obtain ⟨fs₁, p, hst', -, -⟩ := he.leaves (hb₂.pop hst).graph
      rw [(State.free_iff s').mp hret |>.1] at hst'
      obtain ⟨-, -, rfl⟩ : fs₁ = [] ∧ p = [] ∧ rest = [] := by simpa using hst'.symm
      obtain ⟨rfl, rfl⟩ : fs = [] ∧ fr = .submitted rid r.target scratch := by
        rw [hst] at hstack
        cases fs with
        | nil => exact ⟨rfl, by simpa using hstack⟩
        | cons => simp at hstack
      suffices hend : terminal (assembleLocked s₂ r) = false ∧
          s' = setRequest (dropInterestLocked { s₂ with stack := [] } rid r.target) rid none from
        ⟨hb₂, hsub, hp, hend.1, hend.2⟩
      have hexec : execStep W c' s₂ = some s' := hlast
      rw [execStep, if_neg (by simp [hp]), hst] at hexec
      have hafter : afterSubmit W c' { s₂ with stack := [] } rid r.target scratch = s' :=
        Option.some.inj hexec
      rw [afterSubmit, show ({ s₂ with stack := [] } : State κ).requests rid = some r from hreq]
        at hafter
      dsimp only at hafter
      split at hafter
      · rename_i hcond
        exact ⟨hcond.1, hafter.symm⟩
      · rw [← hafter, (deleteScratch_inner _ _ _ _ (.refl _)).requests] at hgone
        rw [show ({ s₂ with stack := [] } : State κ).requests rid = some r from hreq] at hgone
        cases hgone
    | nothing _ hfree | fleet _ fleet hfree => rw [hopen] at hfree; cases hfree
  · refine ⟨hb.step hsubmit, ?_⟩
    cases hfree : s₁.free with
    | true => exact Or.inl rfl
    | false => exact Or.inr (Submitting.start hb hsubmit hfree)
  · rintro s₂ a s₃ ⟨hb₂, hsub⟩ hcall hs
    obtain ⟨hbusy, ha⟩ : s₂.free = false ∧ a ≠ .crash := by
      cases a <;> simp_all [inCall]
    refine ⟨hb₂.step hs, ?_⟩
    obtain ⟨hfree, hnone, r, hcancelled, hreason, hsub⟩ := hsub.resolve_left (by simp [hbusy])
    exact (hsub.step hb hb₂ hbusy ha hs).imp id fun h =>
      ⟨hfree, hnone, r, hcancelled, hreason, h⟩

end

/-! ### What is left -/

section

variable {s₀ s s' : State κ} {rid : ReqID} {r : Request κ} {t p : Nat}

section

omit [DecidableEq κ]

/-- What a node of the state before leads to has not changed. -/
theorem Submitting.reach_iff (h : Submitting s₀ rid r s) (hb₀ : Base s₀) (ht : t < s₀.graph.next) :
    Reach s.graph.deps t p ↔ Reach s₀.graph.deps t p := by
  constructor
  · intro hreach
    suffices hgen : Reach s₀.graph.deps t p ∧ p < s₀.graph.next from hgen.1
    induction hreach with
    | refl => exact ⟨Relation.ReflTransGen.refl, ht⟩
    | tail _ hedge ih =>
      have hedge₀ := (h.deps _ ih.2 _).mp hedge
      exact ⟨ih.1.tail hedge₀, (hb₀.graph.depsLt _ _ hedge₀).2⟩
  · intro hreach
    induction hreach with
    | refl => exact Relation.ReflTransGen.refl
    | tail _ hedge ih =>
      exact ih.tail ((h.deps _ (hb₀.graph.depsLt _ _ hedge).1 _).mpr hedge)

theorem reach_lt (hb : Base s) (ht : t < s.graph.next) (h : Reach s.graph.deps t p) :
    p < s.graph.next := by
  induction h with
  | refl => exact ht
  | tail _ hedge _ => exact (hb.graph.depsLt _ _ hedge).2

theorem target_lt (hb : Base s) (hfree : s.free = true) (h : s.target rid = some t) :
    t < s.graph.next := by
  obtain ⟨-, hpend⟩ := s.free_iff.mp hfree
  rcases hb.graph.targetIn rid t h with hin | ⟨ids, hmem, -⟩
  · exact hb.graph.interest_lt hin
  · rw [hpend] at hmem
    cases hmem

/-- The other requests want what they wanted. -/
theorem Submitting.target_of_ne (h : Submitting s₀ rid r s) {rid' : ReqID} (hne : rid' ≠ rid) :
    s.target rid' = s₀.target rid' := by
  rw [State.target, State.target, h.requests, Function.update_of_ne hne]

/-- A node the call made is wanted by the request alone. -/
theorem Submitting.new_wanted (h : Submitting s₀ rid r s) (hb₀ : Base s₀)
    (hfree : s₀.free = true) (hb : Base s) (hpend : s.graph.pending = [])
    (hnew : s₀.graph.next ≤ p) (hp : s.graph.Alive p) :
    rid ∈ s.graph.interest p ∧ Reach s.graph.deps r.target p := by
  have hwanted := (hb.graph.alive_iff_of_settled hb.watched hpend p).mp hp
  obtain ⟨rid', hin⟩ := List.exists_mem_of_ne_nil _ hwanted
  obtain ⟨t, ht, hreach⟩ := hb.graph.sound p rid' hin
  by_cases hrid : rid' = rid
  · subst hrid
    obtain ⟨r', hr', -, rfl⟩ := target_eq_some_iff.mp ht
    obtain rfl := Option.mem_unique h.request hr'
    exact ⟨hin, hreach⟩
  · rw [h.target_of_ne hrid] at ht
    have hlt := target_lt hb₀ hfree ht
    have := reach_lt hb₀ hlt ((h.reach_iff hb₀ hlt).mp hreach)
    omega

end

variable (h : Refused s₀ rid r s s')

include h

theorem Refused.dropped : s.graph.Dropped s'.graph rid := by
  rw [h.eq]
  exact h.base.graph.drop_dropped h.base.watched h.pending (target_eq h.call.request)

variable (hb₀ : Base s₀) (hfree : s₀.free = true)

include hb₀ hfree

/-- A message of the call is still in the queue when the request is not over. -/
theorem Refused.queued (hc : r.cancelled = false) (hf : r.failReason = "") {j : Job κ}
    (hj : Posted s₀ s j) {x : Nat} (hx : j.seq = some x) :
    s.phase j.ptr = .queued ∧ (s.node j.ptr).queueSeq = x := by
  refine (hj.message x hx).resolve_left ?_
  intro hfailed
  obtain ⟨-, hreach⟩ := h.call.new_wanted hb₀ hfree h.base h.pending hj.new hj.alive
  have hrun := h.running
  rw [Stricken.over ⟨j.ptr, hreach, hfailed⟩ h.base h.call.request hc hf] at hrun
  cases hrun

/-- A node is in the table as it was. -/
structure Untouched (s s' : State κ) (n : Nat) : Prop where
  phase : s'.phase n = s.phase n
  gen : (s'.node n).gen = (s.node n).gen
  deps : ∀ d, d ∈ s'.graph.deps n ↔ d ∈ s.graph.deps n
  dependents : ∀ d, d ∈ s'.graph.dependents n ↔ d ∈ s.graph.dependents n
  interest : ∀ rid, rid ∈ s'.graph.interest n ↔ rid ∈ s.graph.interest n

/-- The jobs handed out since, and that their messages were taken back. -/
def TakenBack (s s' : State κ) : Prop :=
  ∃ new, s'.jobs = new ++ s.jobs ∧ ∀ j ∈ new, ∀ x, j.seq = some x → x ≠ 0 → x ∈ s'.purged

variable (hnone : s₀.requests rid = none)

include hnone

/-- Interest is what it was before the call. -/
theorem Refused.interest_iff (p : Nat) (rid' : ReqID) :
    rid' ∈ s'.graph.interest p ↔ rid' ∈ s₀.graph.interest p := by
  obtain ⟨-, hpend₀⟩ := s₀.free_iff.mp hfree
  rw [h.dropped.interestIff, h.base.graph.interest_iff_of_settled h.pending,
    hb₀.graph.interest_iff_of_settled hpend₀]
  constructor
  · rintro ⟨⟨t, ht, hreach⟩, hne⟩
    rw [h.call.target_of_ne hne] at ht
    exact ⟨t, ht, (h.call.reach_iff hb₀ (target_lt hb₀ hfree ht)).mp hreach⟩
  · rintro ⟨t, ht, hreach⟩
    have hne : rid' ≠ rid := by
      intro hrid
      rw [hrid, State.target, hnone] at ht
      cases ht
    refine ⟨⟨t, ?_, (h.call.reach_iff hb₀ (target_lt hb₀ hfree ht)).mpr hreach⟩, hne⟩
    rw [h.call.target_of_ne hne]
    exact ht

theorem Refused.interest_ne_nil (p : Nat) : s'.graph.interest p ≠ [] ↔ s₀.graph.Alive p := by
  obtain ⟨-, hpend₀⟩ := s₀.free_iff.mp hfree
  rw [hb₀.graph.alive_iff_of_settled hb₀.watched hpend₀]
  simp only [ne_eq, List.eq_nil_iff_forall_not_mem, h.interest_iff hb₀ hfree hnone]

theorem Refused.nodes : s'.graph.nodes = s₀.graph.nodes := by
  funext id
  refine Option.ext fun p => ?_
  rw [h.dropped.nodesIff, h.interest_ne_nil hb₀ hfree hnone]
  constructor
  · rintro ⟨hp, hold⟩
    have hid := (h.base.graph.occ id p hp).1
    rw [← hid, (h.call.alive p hold).2]
    exact hold
  · intro hp
    obtain ⟨hid, -⟩ := hb₀.graph.occ id p hp
    have hold : s₀.graph.Alive p := by
      rw [← hid] at hp
      exact hp
    obtain ⟨halive, hid'⟩ := h.call.alive p hold
    rw [InterestGraph.Graph.Alive, hid', hid] at halive
    exact ⟨halive, hold⟩

theorem Refused.untouched (hp : s₀.graph.Alive p) : Untouched s₀ s' p := by
  have hlt := hb₀.graph.alive_lt hp
  have hnode : s'.node = s.node := by rw [h.eq]; rfl
  obtain ⟨hphase, hgen⟩ := h.call.stays p hp
  refine ⟨?_, ?_, ?_, ?_, h.interest_iff hb₀ hfree hnone p⟩
  · rw [State.phase, hnode]
    exact hphase
  · rw [hnode]
    exact hgen
  · intro d
    rw [h.dropped.deps]
    exact h.call.deps p hlt d
  · intro d
    rw [h.dropped.dependentsIff, h.interest_ne_nil hb₀ hfree hnone, h.base.graph.dependentsIff,
      hb₀.graph.dependentsIff]
    constructor
    · rintro ⟨⟨-, hdep⟩, hold⟩
      exact ⟨hold, (h.call.deps d (hb₀.graph.alive_lt hold) p).mp hdep⟩
    · rintro ⟨hold, hdep⟩
      exact ⟨⟨(h.call.alive d hold).1, (h.call.deps d (hb₀.graph.alive_lt hold) p).mpr hdep⟩, hold⟩

theorem Refused.takenBack (hc : r.cancelled = false) (hf : r.failReason = "") :
    TakenBack s₀ s' := by
  obtain ⟨new, hjobs, hposted⟩ := h.call.posted
  refine ⟨new, by rw [h.eq]; exact hjobs, ?_⟩
  intro j hj x hx hne
  have hj := hposted j hj
  obtain ⟨hphase, hseq⟩ := h.queued hb₀ hfree hc hf hj hx
  obtain ⟨hin, -⟩ := h.call.new_wanted hb₀ hfree h.base h.pending hj.new hj.alive
  have hgone : ¬ s'.graph.Alive j.ptr := by
    rw [h.dropped.alive_iff, h.interest_ne_nil hb₀ hfree hnone]
    intro hc
    have := hb₀.graph.alive_lt hc.2
    have := hj.new
    omega
  have hid : s'.graph.id = s.graph.id := h.dropped.id
  rw [InterestGraph.Graph.Alive, hid] at hgone
  rw [h.eq] at hgone ⊢
  refine List.mem_append_left _ (List.mem_map.mpr ⟨j.ptr, List.mem_filter.mpr ⟨?_, ?_⟩, hseq⟩)
  · exact h.base.graph.mem_subtree h.pending (target_eq h.call.request) hin
  · rw [decide_eq_true_eq]
    refine ⟨hj.alive, hgone, ?_, ?_⟩
    · rw [show (({ s with stack := [] } : State κ).node j.ptr).queueSeq = x from hseq]
      exact hne
    · rw [show ({ s with stack := [] } : State κ).phase j.ptr = .queued from hphase]
      rfl

end

/--
**A submit that is turned down leaves no trace in the graph.**  The requests and the table
are those from before the call; every node that was there has the phase, the generation,
the edges and the watchers it had; and the message of every job the call handed out has
been deleted from the queue.
-/
theorem rejected_submit_leaves_no_trace [Inhabited κ] {W : World κ}
    {P : State κ → Label κ → Prop} {st : Store κ} {s s' : State κ} {rid : ReqID}
    (h : Reached W P st s) (hdown : TurnedDown W s rid s') :
    s'.requests = s.requests ∧ s'.graph.nodes = s.graph.nodes ∧
      (∀ n, s.graph.Alive n → Untouched s s' n) ∧ TakenBack s s' := by
  have hb := Reached.base h
  obtain ⟨hfree, hnone, r, s₂, hc, hf, href⟩ := hdown.refused hb
  refine ⟨?_, href.nodes hb hfree hnone, fun n hn => href.untouched hb hfree hnone hn,
    href.takenBack hb hfree hnone hc hf⟩
  have hreq : s'.requests = Function.update s₂.requests rid none := by rw [href.eq]; rfl
  rw [hreq, href.call.requests, Function.update_idem, Function.update_eq_self_iff]
  exact hnone.symm

/-- The runner has not been heard of for a while. -/
def late : Choice := { now := 100 * 1000000000, publish := some 2 }

/-- A second build of the same source is submitted when no runner is left: it joins the
node of the import, which is in the queue, and is turned down. -/
theorem rejected_submit_leaves_no_trace_second_build : ∃ s s' : State UInt8,
    TurnedDown fetchWorld s "r2" s' ∧ s.graph.Alive 2 ∧ s.graph.next < s'.graph.next ∧
      s'.graph.nodes = s.graph.nodes ∧ Untouched s s' 2 := by
  have hrun : ∃ s ∈ runSched fetchWorld (State.init (smallStore []))
      (submitRun 1 9 ++ [.prepare {} { defn := [2] }]), s.graph.Alive 2 ∧
        ∃ s₁ ∈ step fetchWorld s (.submit late 0 "r2"),
        ∃ s₂ ∈ Run.runIf (step fetchWorld) inCall s₁ (List.replicate 6 (.exec late)),
          s₂.free = false ∧ ∃ s' ∈ step fetchWorld s₂ (.exec late),
            s'.free = true ∧ s'.requests "r2" = none ∧ s.graph.next < s'.graph.next := by
    decide +kernel
  obtain ⟨s, hs, halive, s₁, hs₁, s₂, hs₂, hopen, s', hs', hfree, hgone, hnext⟩ := hrun
  have hsteps := Run.Steps.of_checked hs₂
  have hdown : TurnedDown fetchWorld s "r2" s' :=
    .intro late late 0 s₁ s₂ hs₁ hsteps hopen hs' hfree hgone
  obtain ⟨-, hnodes, hold, -⟩ := rejected_submit_leaves_no_trace (Run.Steps.of_run _ hs) hdown
  exact ⟨s, s', hdown, halive, hnext, hnodes, hold 2 halive⟩

end JobsIroh
