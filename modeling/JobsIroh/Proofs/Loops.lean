/-
The input loops of a critical section.

An unfold reads the inputs of a node and links them one by one.  Linking an input can
make a node, and the calls for that node run on top of the loop.  `Loops` says how the
loops lie on the stack: every node is opened by at most one frame, an unfold that has
read nothing yet is on top, and an input that has been read is linked already or is
still in the loop.
-/
import JobsIroh.Proofs.Records

namespace JobsIroh

variable {κ : Type} [DecidableEq κ]

/-- The input has its node among the deps of `n`, if it asks for one. -/
def Linked (W : World κ) (s : State κ) (n : Nat) (i : Input) : Prop :=
  ∀ kind, nodeKind i.kind = some kind →
    ∃ k, W.inputKey i = .ok k ∧ ∃ d ∈ s.graph.deps n, s.graph.id d = ⟨kind, k⟩

/-- The inputs of `n` are read, and each is linked or still in the loop. -/
def Reading (W : World κ) (s : State κ) (n : Nat) : Prop :=
  ∃ l, (s.node n).inputs = some l ∧ ∀ i ∈ l, Linked W s n i ∨
    ∃ left, .unfolding n left ∈ s.stack ∧ ∃ ni ∈ left, ni.input = i

/-- How the frames that unfold nodes lie on the stack. -/
structure Loops (W : World κ) (s : State κ) : Prop where
  distinct : (s.stack.filterMap Frame.opens).Nodup
  /-- An unfold starts as soon as its node is made. -/
  head : ∀ n, .unfold n ∉ s.stack.tail
  unread : ∀ n, .unfold n ∈ s.stack → (s.node n).inputs = none
  reading : ∀ n, s.graph.Alive n → s.kind n ≠ .buildValue → (s.phase n).settled = false →
    .unfold n ∈ s.stack ∨ Reading W s n

section

variable {W : World κ} {c : Choice} {s s' : State κ} {n q : Nat}

/-! ### Linking -/

section

variable (hg : s.graph.Inv s.target) (kind : Kind) (k : κ) (defn : Bytes) (platform : String)
  (p : Nat) (label : String) (ret : Nat → List (Frame κ))
include hg kind k defn platform p label ret

theorem require_linked :
    ∃ d ∈ (require c s kind k defn platform p label ret).graph.deps p,
      (require c s kind k defn platform p label ret).graph.id d = ⟨kind, k⟩ := by
  obtain ⟨nd, fs, lg, heq, -⟩ := require_eq hg kind k defn platform p label ret
  rw [heq]
  refine ⟨s.graph.occupant ⟨kind, k⟩, ?_, hg.require_id ⟨kind, k⟩ p⟩
  exact (hg.mem_require_deps _ p p _).mpr (Or.inr ⟨rfl, rfl⟩)

/-- Either nothing is put on top of the caller, or the new dep waits. -/
theorem require_top :
    (require c s kind k defn platform p label ret).stack =
        ret (s.graph.occupant ⟨kind, k⟩) ++ s.stack ∨
      ∃ d ∈ (require c s kind k defn platform p label ret).graph.deps p,
        (require c s kind k defn platform p label ret).phase d = .waiting := by
  obtain ⟨nd, fs, lg, heq, hj⟩ := require_eq hg kind k defn platform p label ret
  rw [heq]
  cases hj with
  | fresh =>
    refine Or.inr ⟨s.graph.occupant ⟨kind, k⟩, ?_, ?_⟩
    · exact (hg.mem_require_deps _ p p _).mpr (Or.inr ⟨rfl, rfl⟩)
    · simp [State.phase, freshNode, fillNode]
  | _ => exact Or.inl rfl

end

/-- A link stays for as long as its node is in the table. -/
theorem Linked.step {i : Input} (h : Linked W s n i) (hg : s.graph.Inv s.target)
    (hg' : s'.graph.Inv s'.target) (hext : s.graph.Extends s'.graph) (hn : s'.graph.Alive n) :
    Linked W s' n i := by
  intro kind hkind
  obtain ⟨k, hk, d, hd, hid⟩ := h kind hkind
  have hd' := hext.deps n d hd
  refine ⟨k, hk, d, hd', ?_⟩
  rcases hext.alive d (hg'.depsIn n d hn hd') with ⟨-, hsame⟩ | hnew
  · rw [hsame, hid]
  · have := (hg.depsLt n d hd).2
    omega

/-! ### One turn of a loop -/

/-- After a turn the loop of `n` goes on with `left`. If something came on top of it, that
is a dep of `n` that waits. -/
structure Turn (s : State κ) (n : Nat) (left : List NamedInput) : Prop where
  frame : .unfolding n left ∈ s.stack
  top : (∃ rest, s.stack = .unfolding n left :: rest) ∨ ∃ d ∈ s.graph.deps n, s.phase d = .waiting

omit [DecidableEq κ] in
theorem Turn.of_top {left : List NamedInput} {rest : List (Frame κ)}
    (h : s.stack = .unfolding n left :: rest) : Turn s n left := by
  refine ⟨?_, Or.inl ⟨rest, h⟩⟩
  rw [h]
  exact List.mem_cons_self

theorem require_turn (hg : s.graph.Inv s.target) (kind : Kind) (k : κ) (defn : Bytes)
    (platform : String) (label : String) (ret : Nat → List (Frame κ)) {left : List NamedInput}
    {rest : List (Frame κ)}
    (hret : ret (s.graph.occupant ⟨kind, k⟩) ++ s.stack = .unfolding n left :: rest) :
    Turn (require c s kind k defn platform n label ret) n left := by
  refine ⟨?_, ?_⟩
  · obtain ⟨nd, fs, lg, heq, -⟩ := require_eq hg kind k defn platform n label ret
    rw [heq, hret]
    exact List.mem_append_right _ List.mem_cons_self
  · refine (require_top hg kind k defn platform n label ret).imp_left fun htop => ?_
    exact ⟨rest, htop.trans hret⟩

omit [DecidableEq κ] in
theorem failNodeLocked_settled (s : State κ) (n : Nat) (e : String) :
    ((failNodeLocked s n e).phase n).settled = true := by
  rw [failNodeLocked_eq, State.phase, State.setNode_node]
  exact failedNode_settled _ _

/-- The first turn: the inputs are read, unless the node fails. -/
theorem ExecStep.unfold_turn (h : ExecStep W c s (.unfold n) s') (hg : s.graph.Inv s.target)
    (hn : s.graph.Alive n) (hkind : s.kind n ≠ .buildValue) :
    (s'.phase n).settled = true ∨ ∃ l left, (s'.node n).inputs = some l ∧ Turn s' n left ∧
      ∀ i ∈ l, Linked W s' n i ∨ ∃ ni ∈ left, ni.input = i := by
  cases h with
  | unfoldFail _ nd hnd e =>
    refine Or.inl ?_
    rw [State.phase, State.setNode_node]
    exact failedNode_settled nd e
  | unfoldRead _ nd rest hr =>
    refine Or.inr ⟨rest.map (·.input), rest, ?_, Turn.of_top rfl, fun i hi => ?_⟩
    · rw [← hr.inputs]
      exact congrArg Node.inputs (s.setNode_node n nd)
    · exact Or.inr (List.mem_map.mp hi)
  | unfoldFetcher _ nd d hr fk hk platform label =>
    have hkept := require_kept (c := c) (s := s.setNode n nd) hg .buildValue fk d.fetcherDef
      platform n label (fun _ => [.unfolding n []]) hn
    rw [State.setNode_node] at hkept
    refine Or.inr ⟨[⟨.build, d.fetcherDef⟩], [], ?_, ?_, fun i hi => Or.inl ?_⟩
    · rw [hkept.inputs, hr.inputs]
    · exact require_turn (s := s.setNode n nd) hg _ _ _ _ _ _ rfl
    · intro kind hkind'
      rw [List.mem_singleton.mp hi] at hkind' ⊢
      obtain rfl : Kind.buildValue = kind := Option.some.inj hkind'
      exact ⟨fk, hk, require_linked (s := s.setNode n nd) hg _ _ _ _ _ _ _⟩
  | unfoldValue _ hkind' => exact absurd hkind' hkind
  | stageWaits _ x hx => cases hx
  | stageUnresolved _ bv hbv | stageFail _ bv hbv => cases hbv
  | nextStage _ bv nd kind k ret hns => cases hns

/-- A later turn: one input is linked, unless the node fails. -/
theorem ExecStep.loop_turn {ni : NamedInput} {rest : List NamedInput}
    (h : ExecStep W c s (.unfolding n (ni :: rest)) s') (hg : s.graph.Inv s.target) :
    Turn s' n rest ∧ ((s'.phase n).settled = true ∨ Linked W s' n ni.input) := by
  have fail : ∀ e, Turn (failNodeLocked (loopState s n ni rest) n e) n rest ∧
      (((failNodeLocked (loopState s n ni rest) n e).phase n).settled = true ∨
        Linked W (failNodeLocked (loopState s n ni rest) n e) n ni.input) := by
    intro e
    exact ⟨Turn.of_top (failNodeLocked_stack _ n e), Or.inl (failNodeLocked_settled _ n e)⟩
  cases h with
  | input _ _ _ _ hi =>
    cases hi with
    | tree hk =>
      refine ⟨Turn.of_top rfl, Or.inr fun kind hkind => ?_⟩
      rw [hk] at hkind
      cases hkind
    | link kind hk k he =>
      refine ⟨require_turn (s := loopState s n ni rest) hg _ _ _ _ _ _ rfl, Or.inr ?_⟩
      intro kind' hkind'
      obtain rfl : kind = kind' := Option.mem_unique hk hkind'
      exact ⟨k, he, require_linked (s := loopState s n ni rest) hg _ _ _ _ _ _ _⟩
    | _ => exact fail _
  | stageWaits _ x hx => cases hx
  | stageUnresolved _ bv hbv | stageFail _ bv hbv => cases hbv
  | nextStage _ bv nd kind k ret hns => cases hns

/-- The last turn leaves nothing of the loop. -/
theorem ExecStep.unfolded_eq (h : ExecStep W c s (.unfolding n []) s') :
    s' = maybeEnqueueLocked W c s n := by
  cases h with
  | unfolded => rfl
  | stageWaits _ x hx => cases hx
  | stageUnresolved _ bv hbv | stageFail _ bv hbv => cases hbv
  | nextStage _ bv nd kind k ret hns => cases hns

/-! ### The invariant -/

section

omit [DecidableEq κ]

theorem Base.opens_alive {fr : Frame κ} (hb : Base s) (hfr : fr ∈ s.stack)
    (ho : fr.opens = some n) : s.graph.Alive n := by
  have hok := hb.frames fr hfr
  cases fr with
  | unfold m =>
    obtain rfl : m = n := Option.some.inj ho
    exact hok
  | unfolding m =>
    obtain rfl : m = n := Option.some.inj ho
    exact hok.1
  | _ => cases ho

theorem opens_cons (fr : Frame κ) (rest : List (Frame κ)) :
    (fr :: rest).filterMap Frame.opens = fr.opens.toList ++ rest.filterMap Frame.opens := by
  cases h : fr.opens with
  | none | some => simp [h]

/-- Two frames that open one node are the same place on the stack. -/
theorem Loops.not_below {fr fr' : Frame κ} {rest : List (Frame κ)} (h : Loops W s)
    (hst : s.stack = fr :: rest) (ho : fr.opens = some n) (hfr' : fr' ∈ rest) :
    fr'.opens ≠ some n := by
  intro ho'
  have hd := h.distinct
  rw [hst, opens_cons, ho] at hd
  exact (List.nodup_cons.mp hd).1 (List.mem_filterMap.mpr ⟨fr', hfr', ho'⟩)

/-- The new frames of a step, as far as they unfold nodes. -/
theorem opens_push {fs p l : List (Frame κ)} (hd : (l.filterMap Frame.opens).Nodup)
    (hlt : ∀ fr ∈ l, ∀ m, fr.opens = some m → m < s.graph.next)
    (hmade : fs = [] ∨ fs = [.unfold s.graph.next])
    (hp : (p.filterMap Frame.opens).Sublist (l.head?.bind Frame.opens).toList) :
    ((fs ++ (p ++ l.tail)).filterMap Frame.opens).Nodup := by
  have hsub : ((p ++ l.tail).filterMap Frame.opens).Sublist (l.filterMap Frame.opens) := by
    rw [List.filterMap_append]
    cases l with
    | nil => simpa using hp
    | cons =>
      rw [opens_cons]
      exact hp.append_right _
  have hold := hd.sublist hsub
  rcases hmade with rfl | rfl
  · exact hold
  · refine List.nodup_cons.mpr ⟨fun hm => ?_, hold⟩
    -- the new pointer is above every node that is on the stack
    obtain ⟨fr, hfr, ho⟩ := List.mem_filterMap.mp (hsub.subset hm)
    exact Nat.lt_irrefl _ (hlt fr hfr _ ho)

end

variable [Inhabited κ] {a : Label κ}

omit [DecidableEq κ] in
theorem Loops.init (W : World κ) (st : Store κ) : Loops W (State.init st) := by
  refine ⟨List.nodup_nil, fun n h => ?_, fun n h => ?_, fun n h => ?_⟩
  · cases h
  · cases h
  · cases h

/-- The stack after a step: what the step put on top is the unfold of a new node and frames
that unfold nothing new. -/
theorem step_stack (hb : Base s) (ha : a ≠ .crash) (hs : step W s a = some s') :
    Aside s s' ∧ s'.stack = s.stack ∨ ∃ fs p, s'.stack = fs ++ (p ++ s.stack.tail) ∧
      (fs = [] ∨ fs = [.unfold s.graph.next]) ∧
      ((p.filterMap Frame.opens).Sublist (s.stack.head?.bind Frame.opens).toList) ∧
      ∀ fr ∈ p, ∀ n, fr ≠ .unfold n := by
  rcases step_cases hb ha hs with ⟨c, fr, rest, -, hp, hst, he⟩ | haside
  · obtain ⟨fs, p, hst', hpush⟩ := he.stack hb.graph
    refine Or.inr ⟨fs, p, ?_, hpush.made, ?_, hpush.read⟩
    · rw [hst', hst]
      rfl
    · rw [hst]
      exact hpush.opened
  · rcases haside.stack with hsame | ⟨hnil, fs, b, hst', hmade, hbot⟩
    · exact Or.inl ⟨haside, hsame⟩
    · refine Or.inr ⟨fs, [b], ?_, hmade, ?_, ?_⟩
      · rw [hst', hnil]
        rfl
      · rcases hbot with ⟨rid, t, scratch, rfl⟩ | ⟨m, rfl⟩
        · exact List.nil_sublist _
        · exact List.nil_sublist _
      · rcases hbot with ⟨rid, t, scratch, rfl⟩ | ⟨m, rfl⟩
        · simp
        · simp

section

variable (hl : Loops W s) (hb : Base s) (ha : a ≠ .crash) (hs : step W s a = some s')
include hl hb ha hs

/-- An unfold that has not started: it was there before, or its node is new. -/
theorem step_unfold_mem (hu : .unfold n ∈ s'.stack) :
    Aside s s' ∧ .unfold n ∈ s.stack ∨ n = s.graph.next := by
  rcases step_stack hb ha hs with ⟨haside, hsame⟩ | ⟨fs, p, hst, hmade, -, hread⟩
  · exact Or.inl ⟨haside, hsame ▸ hu⟩
  · rw [hst] at hu
    rcases List.mem_append.mp hu with hnew | hu
    · rcases hmade with rfl | rfl
      · cases hnew
      · exact Or.inr (Frame.unfold.inj (List.mem_singleton.mp hnew))
    · rcases List.mem_append.mp hu with hp | hold
      · exact absurd rfl (hread _ hp n)
      · exact absurd hold (hl.head n)

theorem Loops.step_head : .unfold n ∉ s'.stack.tail := by
  intro hu
  rcases step_stack hb ha hs with ⟨-, hsame⟩ | ⟨fs, p, hst, hmade, -, hread⟩
  · rw [hsame] at hu
    exact hl.head n hu
  · have hmem : .unfold n ∈ p ++ s.stack.tail := by
      rw [hst] at hu
      rcases hmade with rfl | rfl
      · exact List.mem_of_mem_tail hu
      · exact hu
    rcases List.mem_append.mp hmem with hp | hold
    · exact hread _ hp n rfl
    · exact hl.head n hold

end

theorem Loops.step_unread (hl : Loops W s) (hb : Base s) (hb' : Base s') (ha : a ≠ .crash)
    (hs : step W s a = some s') (hu : .unfold n ∈ s'.stack) : (s'.node n).inputs = none := by
  rcases step_unfold_mem hl hb ha hs hu with ⟨haside, hold⟩ | hnew
  · rw [(haside.record n (hb.opens_alive hold rfl)).inputs]
    exact hl.unread n hold
  · have hn := hb'.opens_alive hu rfl
    obtain ⟨-, hfresh⟩ := step_table hb ha hs
    exact (hfresh n hn (Nat.le_of_eq hnew.symm)).blank.2.1

omit [DecidableEq κ] [Inhabited κ] in
/-- What a frame that does not unfold `n` leaves of the record of its inputs. -/
theorem RecordStep.inputs {c : Choice} {fr : Frame κ} {nd' : Node κ}
    (h : RecordStep W c s fr n nd') (hfr : fr.opens ≠ some n) : nd'.inputs = (s.node n).inputs := by
  cases h with
  | kept h => exact h.inputs
  | read nd rest hfr' | fetcher nd d hfr' | unreadable hfr' | loop ni rest hfr' =>
    exact absurd (by rw [hfr']; rfl) hfr
  | resolvedF bf f hfr' hf hr hk | resolvedKP kp hfr' hkp hk => exact hk.inputs

omit [DecidableEq κ] [Inhabited κ] in
/-- Reading goes on as before when nothing of it is touched. -/
theorem Reading.mono (h : Reading W s n) (hin : (s'.node n).inputs = (s.node n).inputs)
    (hlink : ∀ i, Linked W s n i → Linked W s' n i)
    (hst : ∀ left, .unfolding n left ∈ s.stack → .unfolding n left ∈ s'.stack) :
    Reading W s' n := by
  obtain ⟨l, hl, hread⟩ := h
  refine ⟨l, hin.trans hl, fun i hi => ?_⟩
  rcases hread i hi with hlinked | ⟨left, hfr, hmem⟩
  · exact Or.inl (hlink i hlinked)
  · exact Or.inr ⟨left, hst left hfr, hmem⟩

omit [Inhabited κ] in
/-- A node that is being unfolded, after a step of the frame on top. -/
theorem Loops.step_frame {c : Choice} {fr : Frame κ} {rest : List (Frame κ)} (hl : Loops W s)
    (hb : Base s) (hst : s.stack = fr :: rest) (he : ExecStep W c { s with stack := rest } fr s')
    (hlink : ∀ i, Linked W s n i → Linked W s' n i) (hn : s.graph.Alive n)
    (hk : s.kind n ≠ .buildValue) (hu : (s'.phase n).settled = false)
    (hread : .unfold n ∈ s.stack ∨ Reading W s n) : .unfold n ∈ s'.stack ∨ Reading W s' n := by
  have below : ∀ fr' ∈ rest, fr' ∈ s'.stack := by
    intro fr' hfr'
    obtain ⟨fs, p, hst', -⟩ := he.stack hb.graph
    rw [hst']
    exact List.mem_append_right _ (List.mem_append_right _ hfr')
  by_cases ho : fr.opens = some n
  · refine Or.inr ?_
    cases fr with
    | unfold m =>
      obtain rfl : m = n := Option.some.inj ho
      rcases he.unfold_turn hb.graph hn hk with hset | ⟨l, left, hin, hturn, hl'⟩
      · rw [hu] at hset
        cases hset
      · exact ⟨l, hin, fun i hi => (hl' i hi).imp_right fun h => ⟨left, hturn.frame, h⟩⟩
    | unfolding m left =>
      obtain rfl : m = n := Option.some.inj ho
      have hread' : Reading W s m := by
        refine hread.resolve_left fun hmem => ?_
        rw [hst] at hmem
        rcases List.mem_cons.mp hmem with heq | hmem
        · cases heq
        · exact hl.not_below hst rfl hmem rfl
      obtain ⟨l, hin, hl'⟩ := hread'
      -- the frame on top is the only one with inputs of `m`
      have only : ∀ i ∈ l, Linked W s m i ∨ ∃ ni ∈ left, ni.input = i := by
        intro i hi
        refine (hl' i hi).imp_right fun h => ?_
        obtain ⟨left', hfr', hmem⟩ := h
        rw [hst] at hfr'
        rcases List.mem_cons.mp hfr' with heq | hfr'
        · obtain ⟨-, rfl⟩ := Frame.unfolding.inj heq
          exact hmem
        · exact absurd rfl (hl.not_below hst rfl hfr')
      cases left with
      | nil =>
        rw [he.unfolded_eq] at hlink ⊢
        refine ⟨l, ?_, fun i hi => Or.inl (hlink i ?_)⟩
        · rw [(maybeEnqueueLocked_kept W c _ m m).inputs]
          exact hin
        · rcases only i hi with hlinked | ⟨ni, hni, -⟩
          · exact hlinked
          · cases hni
      | cons ni left =>
        obtain ⟨hturn, hdone⟩ := he.loop_turn hb.graph
        have hin' : (s'.node m).inputs = some l := by
          cases he.record (hb.pop hst) hn with
          | kept h => exact h.inputs.trans hin
          | loop ni' rest' hfr' hkept =>
            rw [hkept.inputs, keepInput_inputs]
            exact hin
          | read nd rest' hfr' | fetcher nd d hfr' | unreadable hfr' | resolvedF bf f hfr'
          | resolvedKP kp hfr' => cases hfr'
        refine ⟨l, hin', fun i hi => ?_⟩
        rcases only i hi with hlinked | ⟨ni', hni', rfl⟩
        · exact Or.inl (hlink i hlinked)
        · rcases List.mem_cons.mp hni' with rfl | hni'
          · refine Or.inl (hdone.resolve_left fun hset => ?_)
            rw [hu] at hset
            cases hset
          · exact Or.inr ⟨left, hturn.frame, ni', hni', rfl⟩
    | _ => cases ho
  · rw [hst] at hread
    rcases hread with hmem | hread
    · rcases List.mem_cons.mp hmem with heq | hmem
      · rw [← heq] at ho
        exact absurd rfl ho
      · exact Or.inl (below _ hmem)
    · refine Or.inr (hread.mono ?_ hlink fun left hfr' => ?_)
      · exact (he.record (hb.pop hst) hn).inputs ho
      · rw [hst] at hfr'
        rcases List.mem_cons.mp hfr' with heq | hfr'
        · rw [← heq] at ho
          exact absurd rfl ho
        · exact below _ hfr'

omit [Inhabited κ] in
/-- A node that is settled stays so. -/
theorem NodeMove.unsettled (h : NodeMove W s s' n) (hu : (s'.phase n).settled = false) :
    (s.phase n).settled = false := by
  cases h with
  | stays h => rwa [← h.phase]
  | pipeline hk hgen h =>
    rcases h with ⟨hu', -⟩ | hd
    · exact hu'
    · rw [hd] at hu
      cases hu
  | unfoldFails fr hfr ho hu' => exact hu'
  | attempts hk' hph | committed hk' i cm hcm hptr hgen hcs hph =>
    rw [hph]
    rfl
  | reported hk' hph => exact unsettled_of_inFlight hph

theorem Loops.step (hl : Loops W s) (hb : Base s) (hf : Fenced s) (hs : step W s a = some s') :
    Loops W s' := by
  rcases crash_or hs with ⟨rfl, rfl⟩ | ha
  · exact ⟨List.nodup_nil, nofun, nofun, nofun⟩
  have hb' := hb.step hs
  obtain ⟨hext, hfresh⟩ := step_table hb ha hs
  refine ⟨?_, fun n => hl.step_head hb ha hs, fun n => hl.step_unread hb hb' ha hs, ?_⟩
  · rcases step_stack hb ha hs with ⟨-, hsame⟩ | ⟨fs, p, hst, hmade, hp, -⟩
    · rw [hsame]
      exact hl.distinct
    · rw [hst]
      refine opens_push hl.distinct (fun fr hfr m ho => ?_) hmade hp
      exact hb.graph.alive_lt (hb.opens_alive hfr ho)
  · intro n hn' hk' hu'
    rcases hext.alive n hn' with ⟨hn, hid⟩ | hnew
    swap
    · exact Or.inl ((hfresh n hn' hnew).unfold_mem hu')
    have hk := State.kind_of_id hid ▸ hk'
    have hu := ((step_move hb hf hs).node hf ha hn).unsettled hu'
    have hread := hl.reading n hn hk hu
    have hlink : ∀ i, Linked W s n i → Linked W s' n i := fun i h =>
      h.step hb.graph hb'.graph hext hn'
    rcases step_cases hb ha hs with ⟨c, fr, rest, -, hp, hst, he⟩ | haside
    · exact hl.step_frame hb hst he hlink hn hk hu' hread
    · refine hread.imp (fun h => haside.frames _ h) fun h => ?_
      exact h.mono (haside.record n hn).inputs hlink fun left hfr => haside.frames _ hfr

end

end JobsIroh
