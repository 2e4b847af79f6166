/-
No set of nodes waits for each other.

The code searches for a cycle before it links one kind of edge, the build inputs of a
definition or a blob.  The search is exact: it finds a chain just when the new edge
would close a cycle.  The other edges are added without it: the fetcher of an import,
the imports of a node, and the stages of a buildvalue.  The table is acyclic in the
runs in which the search would have found nothing for these either.
-/
import JobsIroh.Proofs.Loops

namespace JobsIroh

open Search (Reach)

variable {κ : Type} [DecidableEq κ]

/-! ### The condition -/

/-- The edge the frame is about to add without a search, if any. -/
def nextEdge (W : World κ) (s : State κ) : Frame κ → Option (Nat × NodeID κ)
  | .unfold n =>
    match s.kind n, W.decodeImport (s.node n).defn with
    | .importK, .ok d =>
      match W.inputKey ⟨.build, d.fetcherDef⟩ with
      | .ok fk => if d.fetcherDef = [] then none else some (n, ⟨.buildValue, fk⟩)
      | .error _ => none
    | _, _ => none
  | .unfolding n (ni :: _) =>
    match ni.input.kind, W.inputKey ni.input with
    | .importK, .ok k => some (n, ⟨.importK, k⟩)
    | _, _ => none
  | .advance bv => if (s.phase bv).settled then none else some (bv, ⟨.buildFrom, s.key bv⟩)
  | .afterFrom bv bf =>
    if s.phase bf = .done then
      ((s.node bv).f <|> s.store.refs (.buildFrom (s.key bv))).map
        (fun f => (bv, ⟨.pluginResolve, f⟩))
    else none
  | .afterResolve bv pr =>
    if s.phase pr = .done then (s.node bv).f.map (fun f => (bv, ⟨.pin, f⟩)) else none
  | .afterPin bv pin =>
    if s.phase pin = .done then
      ((s.node bv).kp <|> (s.node bv).f.bind (fun f => s.store.refs (.pinCover f))).map
        (fun kp => (bv, ⟨.buildRun, kp⟩))
    else none
  | .putPinCover bv kp => some (bv, ⟨.buildRun, kp⟩)
  | _ => none

/-- The search the code makes for a build input finds nothing for the other edges either. -/
def edgesChecked (W : World κ) (s : State κ) : Label κ → Bool
  | .exec _ =>
    match s.stack with
    | [] => true
    | fr :: _ =>
      match nextEdge W s fr with
      | some (p, id) => (cycleChainLocked s p id).isNone
      | none => true
  | _ => true

section

variable {W : World κ} {s s' : State κ} {n p : Nat} {fr : Frame κ} {id : NodeID κ}

/-! ### The search -/

/-- **The search finds a chain just when the edge would close a cycle.** -/
theorem cycleChainLocked_none_iff (hb : Base s) (hp : s.graph.Alive p) :
    cycleChainLocked s p id = none ↔ ¬ Reach s.graph.deps (s.graph.occupant id) p := by
  have hclosed : ∀ n ∈ List.range s.graph.next, ∀ d ∈ s.graph.dependents n,
      d ∈ List.range s.graph.next := by
    intro n _ d hd
    exact List.mem_range.mpr (hb.graph.alive_lt ((hb.graph.dependentsIff d n).mp hd).1)
  have hsearch : cycleChainLocked s p id = none ↔
      ¬ ∃ m, s.graph.id m = id ∧ Reach s.graph.dependents p m := by
    have hiff : (cycleChainLocked s p id).isSome = true ↔ _ := Search.dfs_isSome_iff hclosed
      (show (List.range s.graph.next).length < s.graph.next + 1 by simp)
      (List.mem_range.mpr (hb.graph.alive_lt hp))
    rw [← Option.not_isSome_iff_eq_none, hiff]
    simp only [decide_eq_true_eq]
  rw [hsearch, not_iff_not]
  constructor
  · intro h
    obtain ⟨m, rfl, hm⟩ := h
    obtain ⟨ham, hreach⟩ := (hb.graph.reach_dependents_iff hp m).mp hm
    rw [InterestGraph.Graph.occupant_of_some (show s.graph.nodes (s.graph.id m) = some m from ham)]
    exact hreach
  · intro hreach
    rcases hn : s.graph.nodes id with _ | m
    · -- a node that is not there yet has no edges
      rw [InterestGraph.Graph.occupant_of_none hn] at hreach
      exfalso
      rcases Relation.ReflTransGen.cases_head hreach with heq | ⟨d, hd, -⟩
      · exact Nat.lt_irrefl _ (heq ▸ hb.graph.alive_lt hp)
      · exact Nat.lt_irrefl _ (hb.graph.depsLt _ d hd).1
    · have hid := (hb.graph.occ id m hn).1
      have ham : s.graph.Alive m := by
        rw [InterestGraph.Graph.Alive, hid]
        exact hn
      rw [InterestGraph.Graph.occupant_of_some hn] at hreach
      exact ⟨m, hid, (hb.graph.reach_dependents_iff hp m).mpr ⟨ham, hreach⟩⟩

/-- An edge the code adds after a search, or one the condition is about. -/
theorem NewEdge.searched (h : NewEdge W s fr p id) :
    nextEdge W s fr = some (p, id) ∨ cycleChainLocked s p id = none := by
  cases h with
  | fetcher _ nd d hr fk hk =>
    refine Or.inl ?_
    simp [nextEdge, hr.kind, hr.decoded, hk, hr.fetcher]
  | input _ ni rest kind hkind k hk hc =>
    rcases hi : ni.input.kind with _ | _ | _ | other <;> rw [hi] at hkind
    · obtain rfl : Kind.importK = kind := Option.some.inj hkind
      exact Or.inl (by simp [nextEdge, hi, hk])
    · obtain rfl : Kind.buildValue = kind := Option.some.inj hkind
      exact Or.inr (hc hi)
    · cases hkind
    · cases hkind
  | first _ hu => exact Or.inl (by simp [nextEdge, hu])
  | stage _ _ nd kind k ret h =>
    refine Or.inl ?_
    cases h with
    | knownF _ bf hdone _ hf | resolved _ pr hdone _ hf => simp [nextEdge, hdone, hf]
    | readF _ bf hdone _ hf hr => simp [nextEdge, hdone, hf, hr]
    | knownKP _ pin hdone _ hk => simp [nextEdge, hdone, hk]
    | readKP _ pin hdone f _ hf hk hr => simp [nextEdge, hdone, hf, hk, hr]
  | run => exact Or.inl rfl

variable [Inhabited κ] {a : Label κ}

/-! ### The table is acyclic -/

def EdgesChecked (W : World κ) (s : State κ) (a : Label κ) : Prop := edgesChecked W s a = true

theorem acyclic_step (h : s.graph.Acyclic) (hb : Base s) (hp : EdgesChecked W s a)
    (hs : step W s a = some s') : s'.graph.Acyclic := by
  rcases crash_or hs with ⟨rfl, rfl⟩ | ha
  · intro p hp
    cases hp
  obtain ⟨hext, -⟩ := step_table hb ha hs
  rcases step_cases hb ha hs with ⟨c, fr, rest, rfl, hpend, hst, he⟩ | haside
  swap
  · exact hb.graph.acyclic_extends h hext haside.deps
  have hfr := (hb.top hst).1
  rcases (he.graphRule (hb.pop hst) hpend hfr).edges hb.graph with hsame | ⟨p, id, hedge, hreq⟩
  · exact hb.graph.acyclic_extends h hext hsame
  rw [hreq]
  refine hb.graph.acyclic_require h ?_
  refine (cycleChainLocked_none_iff hb (hedge.alive hfr)).mp ?_
  rcases hedge.searched with hnext | hnone
  · have hnext' : nextEdge W s fr = some (p, id) := hnext
    unfold EdgesChecked edgesChecked at hp
    rw [hst] at hp
    dsimp only at hp
    rw [hnext'] at hp
    exact Option.isNone_iff_eq_none.mp hp
  · exact hnone

theorem Reached.acyclic {st : Store κ} (h : Reached W (EdgesChecked W) st s) :
    Base s ∧ s.graph.Acyclic := by
  refine h.inv (I := fun s => Base s ∧ s.graph.Acyclic) ?_ ?_
  · refine ⟨Base.init st, fun p hp => ?_⟩
    cases hp
  · intro s a s' hi hp hs
    exact ⟨hi.1.step hs, acyclic_step hi.2 hi.1 hp hs⟩

/-- The node has failed with the chain that the search found. -/
def CycleFailed (W : World κ) (s s' : State κ) (n : Nat) (k : κ) : Prop :=
  s'.phase n = .failed ∧ ∃ chain, cycleChainLocked s n ⟨.buildValue, k⟩ = some chain ∧
    (s'.node n).errSummary = "sub-build cycle: " ++
      String.intercalate " -> " (chain.map fun m => nodeName W (s.graph.id m))

omit [Inhabited κ] in
/-- A build input that would close a cycle is not linked; its parent fails. -/
theorem unfoldNext_cycle (hb : Base s) (hn : s.graph.Alive n) {c : Choice} {ni : NamedInput}
    {left : List NamedInput} {k : κ} (hkind : ni.input.kind = .build)
    (hk : W.inputKey ni.input = .ok k)
    (hreach : Reach s.graph.deps (s.graph.occupant ⟨.buildValue, k⟩) n) :
    (unfoldNext W c s n ni left).graph = s.graph ∧
    ((s.phase n).settled = false → CycleFailed W s (unfoldNext W c s n ni left) n k) := by
  have hsome : cycleChainLocked s n ⟨.buildValue, k⟩ ≠ none :=
    fun hnone => (cycleChainLocked_none_iff hb hn).mp hnone hreach
  obtain ⟨chain, hchain⟩ := Option.ne_none_iff_exists'.mp hsome
  have hsame : cycleChainLocked ((s.setNode n (keepInput (s.node n) (s.kind n) ni.input)).push
      [.unfolding n left]) n ⟨.buildValue, k⟩ = some chain := hchain
  unfold unfoldNext requireInputLocked
  rw [hkind]
  rw [hk]
  dsimp only
  rw [hsame]
  dsimp only
  rw [failNodeLocked_eq]
  refine ⟨rfl, fun hu => ?_⟩
  have hphase : (keepInput (s.node n) (s.kind n) ni.input).phase.settled = false := by
    rw [(keepInput_sameRun _ _ _).phase]
    exact hu
  refine ⟨?_, chain, hchain, ?_⟩
  · simp [State.phase, State.setNode, State.push, failedNode, hphase]
  · simp [State.setNode, State.push, failedNode, hphase]

/-- **No circular waiting**, in every run in which the search finds nothing for the edges it is
not made for: the edges are acyclic, and a build input that would close a cycle fails its
parent instead of being linked. -/
theorem no_circular_waiting {st : Store κ} (h : Reached W (EdgesChecked W) st s) :
    s.graph.Acyclic ∧
    ∀ c n ni left rest k s', s.graph.pending = [] → s.stack = .unfolding n (ni :: left) :: rest →
      ni.input.kind = .build → W.inputKey ni.input = .ok k →
      Reach s.graph.deps (s.graph.occupant ⟨.buildValue, k⟩) n → step W s (.exec c) = some s' →
      s'.graph = s.graph ∧ ((s.phase n).settled = false → CycleFailed W s s' n k) := by
  obtain ⟨hb, hacyclic⟩ := Reached.acyclic h
  refine ⟨hacyclic, fun c n ni left rest k s' hpend hst hkind hk hreach hs => ?_⟩
  have hstep : some (unfoldNext W c { s with stack := rest } n ni left) = some s' := by
    rw [← hs]
    show _ = execStep W c s
    rw [execStep, if_neg (fun hne => hne hpend), hst]
    rfl
  obtain rfl := Option.some.inj hstep
  exact unfoldNext_cycle (hb.pop hst) (hb.top hst).1.1 hkind hk hreach

end

/-- The build `0` is resolved, and its only plugin is the build `1`, whose source is the
build `0`. -/
def turnedWorld : World UInt8 :=
  smallWorld
    { definition := fun b => .ok (smallDef b (if b = 1 then ⟨.build, [0]⟩ else ⟨.tree, [9]⟩))
      resolved := fun _ => .ok { plugins := [("p", ⟨.build, [1]⟩)] } }

def turnedStore : Store UInt8 := smallStore [(.buildFrom 0, 10), (.pluginResolved 10, 20)]

/-- The build `1` would wait for the build `0`, and its buildfrom fails. -/
theorem no_circular_waiting_source_build : ∃ s s' : State UInt8,
    Reached turnedWorld (EdgesChecked turnedWorld) turnedStore s ∧
    step turnedWorld s (.exec {}) = some s' ∧ s.graph.Acyclic ∧ s'.graph = s.graph ∧
    CycleFailed turnedWorld s s' 5 0 := by
  have hrun : ∃ s ∈ Run.runIf (step turnedWorld) (edgesChecked turnedWorld) (State.init turnedStore)
      (submitRun 0 9), s.graph.pending = [] ∧
        s.stack.head? = some (.unfolding 5 [⟨"", ⟨.build, [0]⟩⟩]) ∧ (s.phase 5).settled = false ∧
        s.graph.Alive 5 ∧ (cycleChainLocked s 5 ⟨.buildValue, 0⟩).isSome = true ∧
        (step turnedWorld s (.exec {})).isSome = true := by
    decide +kernel
  obtain ⟨s, hs, hpend, hhead, hu, halive, hchain, hstep⟩ := hrun
  obtain ⟨s', hs'⟩ := Option.isSome_iff_exists.mp hstep
  have hreach := Run.Steps.of_checked hs
  obtain ⟨hacyclic, hfails⟩ := no_circular_waiting hreach
  have hst : s.stack = .unfolding 5 [⟨"", ⟨.build, [0]⟩⟩] :: s.stack.tail :=
    (List.head?_eq_some_iff.mp hhead).elim (fun rest h => by rw [h]; rfl)
  have hloop : Reach s.graph.deps (s.graph.occupant ⟨.buildValue, 0⟩) 5 := by
    by_contra hno
    have hnone := (cycleChainLocked_none_iff (Reached.acyclic hreach).1 halive).mpr hno
    rw [hnone] at hchain
    cases hchain
  obtain ⟨hgraph, hfailed⟩ := hfails {} 5 _ [] _ 0 s' hpend hst rfl rfl hloop hs'
  exact ⟨s, s', hreach, hs', hacyclic, hgraph, hfailed hu⟩

/-- The build `0` is resolved, and its only plugin is the import `5`, which is fetched by the
build `0`. -/
def fetchesItselfWorld : World UInt8 :=
  smallWorld
    { definition := fun b => .ok (smallDef b ⟨.tree, [9]⟩)
      importDef := fun _ => .ok { fetcher := "git", fetcherDef := [0] }
      resolved := fun _ => .ok { plugins := [("p", ⟨.importK, [5]⟩)] } }

/-- The build waits for its pin, the pin for the import and the import for the build: the edge
to a fetcher is added without a search. -/
theorem waits_for_own_fetcher : ∃ s : State UInt8,
    Reached fetchesItselfWorld Run.Always turnedStore s ∧ s.free = true ∧ ¬ s.graph.Acyclic ∧
    s.graph.id 0 = ⟨.buildValue, 0⟩ ∧ s.graph.id 3 = ⟨.pin, 10⟩ ∧ s.graph.id 4 = ⟨.importK, 5⟩ ∧
    3 ∈ s.graph.deps 0 ∧ 4 ∈ s.graph.deps 3 ∧ 0 ∈ s.graph.deps 4 ∧
    ∀ n ∈ [0, 3, 4], s.graph.Alive n ∧ s.phase n = .waiting := by
  have hrun : ∃ s ∈ runSched fetchesItselfWorld (State.init turnedStore) (submitRun 0 11),
      s.free = true ∧ s.graph.id 0 = ⟨.buildValue, 0⟩ ∧ s.graph.id 3 = ⟨.pin, 10⟩ ∧
        s.graph.id 4 = ⟨.importK, 5⟩ ∧ 3 ∈ s.graph.deps 0 ∧ 4 ∈ s.graph.deps 3 ∧
        0 ∈ s.graph.deps 4 ∧ ∀ n ∈ [0, 3, 4], s.graph.Alive n ∧ s.phase n = .waiting := by
    decide +kernel
  obtain ⟨s, hs, hfree, h0, h3, h4, h03, h34, h40, hwait⟩ := hrun
  refine ⟨s, Run.Steps.of_run _ hs, hfree, fun hacyclic => ?_, h0, h3, h4, h03, h34, h40, hwait⟩
  exact hacyclic 0 (hwait 0 (by simp)).1 (((Relation.TransGen.single h03).tail h34).tail h40)

end JobsIroh
