/-
Runtime closures are transitive.

Which build needs what at run time is fixed by the pinned jobs.  A run adds an output and
a flat directory; it reads the directories of its runtime deps, never their deps'.  The
invariant says that every such directory lists exactly what can be reached, so that one
level of reading is enough.  An artifact that is there stays what it is, since a build
that has its output is not executed again and a directory's key is that of its content.
-/
import JobsIroh.Proofs.Derive
import JobsIroh.Proofs.StoreTree

namespace JobsIroh.Runner

open JobsIroh.Tree (Attr Content Stored Keys)

variable {κ : Type}

/-! ### The graph of builds -/

/-- The pinned job of a KP. -/
def pinnedAt (T : Tools κ) (h : Host κ) (kp : κ) : Option Pinned :=
  (h.store.refs (.pinned kp)).bind fun k =>
    (h.store.readFile T.world k).toOption.bind fun b => (T.world.decodePinned b).toOption

/-- An item is among the inputs of a pinned job. -/
def Uses (T : Tools κ) (p : Pinned) (i : Item κ) : Prop := ∃ pi ∈ p.inputs, Names T pi i

/-- An item is a runtime dep of a pinned job. -/
def RuntimeDep (T : Tools κ) (p : Pinned) (i : Item κ) : Prop :=
  Uses T p i ∧ T.world.bytes i.key ∈ p.runtimeDeps

/-- The KP of a build; an import has none. -/
def kpOf (h : Host κ) (i : Item κ) : Option κ :=
  if i.kind = .build then
    (h.store.refs (.buildFrom i.key)).bind fun f => h.store.refs (.pinCover f)
  else none

/-- What can be reached from a build along one or more runtime deps. -/
inductive Reach (T : Tools κ) (h : Host κ) : κ → Item κ → Prop
  | direct {kp : κ} {p : Pinned} {i : Item κ} (hp : pinnedAt T h kp = some p)
      (hi : RuntimeDep T p i) : Reach T h kp i
  | later {kp kp' : κ} {p : Pinned} {i j : Item κ} (hp : pinnedAt T h kp = some p)
      (hj : RuntimeDep T p j) (hkp : kpOf h j = some kp') (hi : Reach T h kp' i) : Reach T h kp i

/-- An item, and what can be reached from it. -/
def Below (T : Tools κ) (h : Host κ) (j i : Item κ) : Prop :=
  i = j ∨ ∃ kp, kpOf h j = some kp ∧ Reach T h kp i

theorem reach_iff {T : Tools κ} {h : Host κ} {kp : κ} {i : Item κ} :
    Reach T h kp i ↔ ∃ p j, pinnedAt T h kp = some p ∧ RuntimeDep T p j ∧ Below T h j i := by
  constructor
  · rintro (⟨hp, hi⟩ | ⟨hp, hj, hkp, hi⟩)
    · exact ⟨_, i, hp, hi, Or.inl rfl⟩
    · exact ⟨_, _, hp, hj, Or.inr ⟨_, hkp, hi⟩⟩
  · rintro ⟨p, j, hp, hj, rfl | ⟨kp', hkp, hi⟩⟩
    · exact .direct hp hj
    · exact .later hp hj hkp hi

def IsKP (h : Host κ) (kp : κ) : Prop := ∃ f, h.store.refs (.pinCover f) = some kp

/-- The builds of a store, none of them executed. -/
structure BuildGraph (T : Tools κ) (h : Host κ) : Prop where
  /-- No build has an output yet. -/
  fresh : ∀ k, h.store.refs (.output k) = none ∧ h.store.refs (.outputDeps k) = none
  /-- Directories are stored under the keys of their content. -/
  addressed : ∀ {k es}, h.dirs k = some es → T.keys.dirKey es = k
  /-- An environment tree is no KP tree. -/
  apart : ∀ {f}, ((∃ k, h.store.refs (.buildFrom k) = some f) ∨
    ∃ kp, h.store.refs (.pinCover f) = some kp) → ¬ IsKP h f
  /-- The key of an input says whether it is an import or a build. -/
  kinds : ∀ {kp p i j}, pinnedAt T h kp = some p → Uses T p i → Uses T p j → i.key = j.key →
    i.kind = j.kind

/-! ### What the steps leave alone -/

/-- The refs the graph is read from. -/
def Planned : RefName κ → Prop
  | .buildFrom _ | .pinned _ | .pinCover _ => True
  | _ => False

/-- The graph is the same. -/
structure Static (h₀ h : Host κ) : Prop where
  complete : h.store.complete = h₀.store.complete
  refs : ∀ r, Planned r → h.store.refs r = h₀.store.refs r

/-- What is there stays. -/
def Grown (T : Tools κ) (h h' : Host κ) : Prop :=
  ∀ i a, artifact T h i = some a → artifact T h' i = some a

theorem Grown.trans {T : Tools κ} {h h' h'' : Host κ} (hg : Grown T h h') (hg' : Grown T h' h'') :
    Grown T h h'' :=
  fun i a ha => hg' i a (hg i a ha)

/-- A directory lists the artifacts of the items, all of which are there. -/
structure Lists (T : Tools κ) (h : Host κ) (es : List (Stored κ)) (Q : Item κ → Prop) : Prop where
  sorted : Sorted es
  present : ∀ i, Q i → ∃ a, artifact T h i = some a
  mem : ∀ e, e ∈ es ↔ ∃ i a, Q i ∧ artifact T h i = some a ∧ e = T.storeEntry a

theorem Lists.grown {T : Tools κ} {h h' : Host κ} {es : List (Stored κ)} {Q : Item κ → Prop}
    (hl : Lists T h es Q) (hg : Grown T h h') : Lists T h' es Q where
  sorted := hl.sorted
  present i hi := by
    obtain ⟨a, ha⟩ := hl.present i hi
    exact ⟨a, hg i a ha⟩
  mem e := by
    rw [hl.mem]
    constructor
    · rintro ⟨i, a, hi, ha, rfl⟩
      exact ⟨i, a, hi, hg i a ha, rfl⟩
    · rintro ⟨i, a, hi, ha, rfl⟩
      obtain ⟨b, hb⟩ := hl.present i hi
      obtain rfl : a = b := by simpa [ha] using hg i b hb
      exact ⟨i, a, hi, hb, rfl⟩

/-- The state of a pipeline over a graph. -/
structure Inv (T : Tools κ) (h₀ h : Host κ) : Prop where
  static : Static h₀ h
  addressed : ∀ {k es}, h.dirs k = some es → T.keys.dirKey es = k
  /-- Only KPs and the environments of KPs have outputs. -/
  owner : ∀ {x}, h.store.refs (.outputDeps x) ≠ none → IsKP h₀ x ∨
    ∃ kp, h₀.store.refs (.pinCover x) = some kp
  /-- An alias repeats what its KP has. -/
  output : ∀ {f kp o}, h₀.store.refs (.pinCover f) = some kp → h.store.refs (.output f) = some o →
    h.store.refs (.output kp) = some o
  deps : ∀ {f kp d}, h₀.store.refs (.pinCover f) = some kp →
    h.store.refs (.outputDeps f) = some d →
    h.store.refs (.outputDeps kp) = some d ∧ h.store.refs (.output kp) ≠ none
  /-- A deps tree lists what can be reached. -/
  exact : ∀ {kp d}, IsKP h₀ kp → h.store.refs (.outputDeps kp) = some d →
    ∃ es, h.dirs d = some es ∧ Lists T h es (Reach T h₀ kp)

section Collect

variable {T : Tools κ} {h₀ h : Host κ}

/-- The closure of a build is that of its KP. -/
theorem Inv.depsTree (hg : BuildGraph T h₀) (hi : Inv T h₀ h) {k d : κ}
    (hd : Tools.resolveBuildOutputDeps h k = some d) :
    ∃ kp es, kpOf h₀ ⟨.build, k⟩ = some kp ∧ h.dirs d = some es ∧
      Lists T h es (Reach T h₀ kp) := by
  obtain ⟨f, hf, hfd⟩ := Option.bind_eq_some_iff.mp hd
  rw [hi.static.refs (.buildFrom _) trivial] at hf
  obtain ⟨kp, hkp⟩ := (hi.owner (by simp [hfd])).resolve_left (hg.apart (Or.inl ⟨_, hf⟩))
  obtain ⟨es, hes, hlists⟩ := hi.exact ⟨f, hkp⟩ (hi.deps hkp hfd).1
  exact ⟨kp, es, by simp [kpOf, hf, hkp], hes, hlists⟩

theorem Lists.storeEntry {es : List (Stored κ)} {Q : Item κ → Prop} (hl : Lists T h es Q) :
    ∀ e ∈ es, ∃ k, e = T.storeEntry k := by
  intro e he
  obtain ⟨i, a, -, -, rfl⟩ := (hl.mem e).mp he
  exact ⟨a, rfl⟩

section

variable (hg : BuildGraph T h₀) (hi : Inv T h₀ h)
include hg hi

/-- What one input contributes: itself and what can be reached from it. -/
theorem Inv.resolve {pi : NamedInput} {bok : κ}
    {deps : List κ} (hbok : T.resolveInputOutputKey h pi = .ok bok)
    (hdeps : T.resolveInputDeps h pi = .ok deps) :
    ∃ j, Names T pi j ∧ (∀ i, Below T h₀ j i → ∃ a, artifact T h i = some a) ∧
      ∀ a, (a = bok ∨ a ∈ deps) ↔ ∃ i, Below T h₀ j i ∧ artifact T h i = some a := by
  obtain ⟨j, hj, ha⟩ := resolveInputOutputKey_ok.mp hbok
  refine ⟨j, hj, ?_⟩
  rcases resolveInputDeps_ok.mp hdeps with ⟨hkind, rfl⟩ | ⟨hkind, k, d, es, hk, hd, hes, hks⟩
  · -- An import is a leaf.
    have hleaf : ∀ i, Below T h₀ j i ↔ i = j := by
      intro i
      have hkp : kpOf h₀ j = none := by
        unfold kpOf
        rw [if_neg (hj.1 ▸ hkind)]
      simp [Below, hkp]
    refine ⟨fun i hi => ⟨bok, by rw [(hleaf i).mp hi]; exact ha⟩, fun a => ?_⟩
    simp only [hleaf, exists_eq_left, ha]
    simp [eq_comm]
  · obtain rfl : k = j.key := by simpa [hj.2] using hk.symm
    obtain ⟨kp, es', hkp, hes', hlists⟩ := hi.depsTree hg hd
    obtain rfl : es = es' := by simpa [hes] using hes'
    have hbuild : j = ⟨.build, j.key⟩ := by rw [← hkind, hj.1]
    have hbelow : ∀ i, Below T h₀ j i ↔ i = j ∨ Reach T h₀ kp i := by
      intro i
      rw [← hbuild] at hkp
      simp [Below, hkp]
    have hkeys := mem_entryKeys hlists.storeEntry hks
    refine ⟨?_, fun a => ?_⟩
    · intro i hi
      rcases (hbelow i).mp hi with rfl | hi
      · exact ⟨bok, ha⟩
      · exact hlists.present i hi
    · rw [hkeys, hlists.mem]
      constructor
      · rintro (rfl | ⟨i, b, hi, hb, heq⟩)
        · exact ⟨j, (hbelow j).mpr (Or.inl rfl), ha⟩
        · obtain rfl := storeEntry_inj (congrArg (·.attr.name) heq)
          exact ⟨i, (hbelow i).mpr (Or.inr hi), hb⟩
      · rintro ⟨i, hi, hb⟩
        rcases (hbelow i).mp hi with rfl | hi
        · exact Or.inl (by simpa [ha] using hb.symm)
        · exact Or.inr ⟨i, a, hi, hb, rfl⟩

/-- What the inputs of a build contribute together. -/
theorem Inv.collect {inputs : List NamedInput}
    {rs : List (κ × List κ)} (hc : T.collectStore h inputs = .ok rs) :
    (∀ i, (∃ pi ∈ inputs, ∃ j, Names T pi j ∧ Below T h₀ j i) → ∃ a, artifact T h i = some a) ∧
      ∀ a, a ∈ Tools.boks rs ↔
        ∃ i, (∃ pi ∈ inputs, ∃ j, Names T pi j ∧ Below T h₀ j i) ∧ artifact T h i = some a := by
  have hunique : ∀ {pi : NamedInput} {i j : Item κ}, Names T pi i → Names T pi j → i = j := by
    rintro pi ⟨kind, key⟩ ⟨kind', key'⟩ ⟨rfl, hk⟩ ⟨rfl, hk'⟩
    obtain rfl : key = key' := by simpa [hk] using hk'
    rfl
  obtain ⟨hall, hmem⟩ := collectStore_ok hc
  refine ⟨?_, fun a => ?_⟩
  · rintro i ⟨pi, hpi, j, hj, hb⟩
    obtain ⟨bok, deps, hbok, hdeps⟩ := hall pi hpi
    obtain ⟨j', hj', hpresent, -⟩ := hi.resolve hg hbok hdeps
    rw [hunique hj hj'] at hb
    exact hpresent i hb
  · rw [hmem]
    constructor
    · rintro ⟨pi, hpi, ha⟩
      obtain ⟨bok, deps, hbok, hdeps⟩ := hall pi hpi
      obtain ⟨j, hj, -, hboth⟩ := hi.resolve hg hbok hdeps
      have hor : a = bok ∨ a ∈ deps := by
        rcases ha with ha | ⟨deps', hdeps', ha⟩
        · exact Or.inl (by simpa [hbok] using ha.symm)
        · obtain rfl : deps = deps' := by simpa [hdeps] using hdeps'
          exact Or.inr ha
      obtain ⟨i, hb, hart⟩ := (hboth a).mp hor
      exact ⟨i, ⟨pi, hpi, j, hj, hb⟩, hart⟩
    · rintro ⟨i, ⟨pi, hpi, j, hj, hb⟩, hart⟩
      obtain ⟨bok, deps, hbok, hdeps⟩ := hall pi hpi
      obtain ⟨j', hj', -, hboth⟩ := hi.resolve hg hbok hdeps
      rw [hunique hj hj'] at hb
      refine ⟨pi, hpi, ?_⟩
      rcases (hboth a).mpr ⟨i, hb, hart⟩ with rfl | ha
      · exact Or.inl hbok
      · exact Or.inr ⟨deps, hdeps, ha⟩

theorem Inv.lists {inputs : List NamedInput}
    {rs : List (κ × List κ)} (hc : T.collectStore h inputs = .ok rs) {Q : Item κ → Prop}
    (hQ : ∀ i, (∃ pi ∈ inputs, ∃ j, Names T pi j ∧ Below T h₀ j i) ↔ Q i) :
    Lists T h (T.storeEntries (Tools.boks rs)) Q := by
  obtain ⟨hpresent, hmem⟩ := hi.collect hg hc
  refine ⟨sorted_storeEntries _, fun i hq => hpresent i ((hQ i).mpr hq), fun e => ?_⟩
  rw [mem_storeEntries]
  constructor
  · rintro ⟨a, ha, rfl⟩
    obtain ⟨i, hb, hart⟩ := (hmem a).mp ha
    exact ⟨i, a, (hQ i).mp hb, hart, rfl⟩
  · rintro ⟨i, a, hq, hart, rfl⟩
    exact ⟨a, (hmem a).mpr ⟨i, (hQ i).mpr hq, hart⟩, rfl⟩

end

end Collect

/-- The inputs looked up for the deps tree are the runtime deps. -/
theorem names_runtimeDepInputs {T : Tools κ} {p : Pinned} {rt : List NamedInput}
    (hkinds : ∀ {i j}, Uses T p i → Uses T p j → i.key = j.key → i.kind = j.kind)
    (hrt : T.runtimeDepInputs p = .ok rt) (j : Item κ) :
    (∃ pi ∈ rt, Names T pi j) ↔ RuntimeDep T p j := by
  rw [Tools.runtimeDepInputs] at hrt
  split at hrt
  · simp at hrt
  rename_i byKey hbyKey
  have hmem := mem_keyedInputs hbyKey
  obtain ⟨hall, honly⟩ := lookupDeps_ok hrt
  constructor
  · rintro ⟨pi, hpi, hj⟩
    obtain ⟨b, hb, hin⟩ := honly pi hpi
    obtain ⟨hinput, k, hk, rfl⟩ := (hmem b pi).mp hin
    obtain rfl : k = j.key := by simpa [hk] using hj.2
    exact ⟨⟨pi, hinput, hj⟩, hb⟩
  · rintro ⟨huses, hb⟩
    obtain ⟨pi, hpi, hin⟩ := hall _ hb
    obtain ⟨hinput, k, hk, hbytes⟩ := (hmem _ pi).mp hin
    have hkey : j.key = k := by
      have hparse := T.world.parse_bytes j.key
      rw [hbytes, T.world.parse_bytes] at hparse
      exact (Except.ok.inj hparse).symm
    refine ⟨pi, hpi, ?_, hkey ▸ hk⟩
    exact hkinds (i := ⟨pi.input.kind, k⟩) ⟨pi, hinput, rfl, hk⟩ huses hkey.symm

/-! ### One step -/

section Steps

variable {T : Tools κ} {h₀ h h' : Host κ}

theorem Static.pinnedAt_eq (hs : Static h₀ h) (kp : κ) : pinnedAt T h kp = pinnedAt T h₀ kp := by
  unfold pinnedAt Store.readFile
  rw [hs.refs (.pinned kp) trivial, hs.complete]

theorem Grown.of_refs (hdirs : ∀ k es, h.dirs k = some es → h'.dirs k = some es)
    (hfrom : ∀ k, h'.store.refs (.buildFrom k) = h.store.refs (.buildFrom k))
    (himport : ∀ k v, h.store.refs (.importOutput k) = some v →
      h'.store.refs (.importOutput k) = some v)
    (hout : ∀ k f v, h.store.refs (.buildFrom k) = some f → h.store.refs (.output f) = some v →
      h'.store.refs (.output f) = some v) : Grown T h h' := by
  intro i a ha
  unfold artifact at ha ⊢
  cases hkind : i.kind with
  | importK =>
    rw [hkind] at ha
    exact himport _ _ ha
  | build =>
    rw [hkind] at ha
    simp only [Tools.resolveBuildOutput, Option.bind_eq_some_iff] at ha ⊢
    obtain ⟨out, ⟨f, hf, hfo⟩, hc⟩ := ha
    refine ⟨out, ⟨f, (hfrom _).trans hf, hout _ f out hf hfo⟩, ?_⟩
    unfold Tools.resolveSubdirKey at hc ⊢
    cases hd : h.dirs out with
    | none => simp [hd, Except.toOption] at hc
    | some es =>
      rw [hdirs out es hd]
      rwa [hd] at hc
  | tree | other => simp [hkind] at ha

variable [DecidableEq κ]

/-- A directory under its own key leaves the others as they are. -/
theorem dirs_putDir (haddr : ∀ {k es}, h.dirs k = some es → T.keys.dirKey es = k)
    (es : List (Stored κ)) {k : κ} {es' : List (Stored κ)} :
    (h.putDir (T.keys.dirKey es) es).dirs k = some es' ↔
      h.dirs k = some es' ∨ (k = T.keys.dirKey es ∧ es' = es) := by
  by_cases hk : k = T.keys.dirKey es
  · subst hk
    simp only [Host.putDir, Function.update_self, Option.some.injEq, true_and]
    constructor
    · rintro rfl
      exact Or.inr rfl
    · rintro (hd | rfl)
      · exact (T.keys.dirKey_inj (haddr hd)).symm
      · rfl
  · simp [Host.putDir, hk]

theorem Inv.grown_putDir (hi : Inv T h₀ h) (es : List (Stored κ)) :
    Grown T h (h.putDir (T.keys.dirKey es) es) :=
  Grown.of_refs (fun _ _ hd => (dirs_putDir hi.addressed es).mpr (Or.inl hd)) (fun _ => rfl)
    (fun _ _ hv => hv) (fun _ _ _ _ hv => hv)

theorem Inv.putDir (hi : Inv T h₀ h) (es : List (Stored κ)) :
    Inv T h₀ (h.putDir (T.keys.dirKey es) es) := by
  refine ⟨⟨hi.static.complete, hi.static.refs⟩, ?_, hi.owner, hi.output, hi.deps, ?_⟩
  · intro k es' hd
    rcases (dirs_putDir hi.addressed es).mp hd with hd | ⟨rfl, rfl⟩
    · exact hi.addressed hd
    · rfl
  · intro kp d hkp hd
    obtain ⟨es', hes, hlists⟩ := hi.exact hkp hd
    exact ⟨es', (dirs_putDir hi.addressed es).mpr (Or.inl hes),
      hlists.grown (hi.grown_putDir es)⟩

/-- A written name has one of the values written to it, every other its old one. -/
theorem putRefs_cases (h : Host κ) (refs : List (RefName κ × κ)) (r : RefName κ) :
    (h.putRefs refs).store.refs r = h.store.refs r ∨
      ∃ k, (r, k) ∈ refs ∧ (h.putRefs refs).store.refs r = some k := by
  induction refs generalizing h with
  | nil => exact Or.inl rfl
  | cons w refs ih =>
    have hcons : h.putRefs (w :: refs)
        = Host.putRefs { h with store := h.store.putRef w.1 w.2 } refs := rfl
    rw [hcons]
    rcases ih { h with store := h.store.putRef w.1 w.2 } with heq | ⟨k, hk, heq⟩
    · rw [heq]
      by_cases hr : r = w.1
      · refine Or.inr ⟨w.2, ?_, ?_⟩
        · rw [hr]
          exact List.mem_cons_self
        · simp [Store.putRef, hr]
      · exact Or.inl (by simp [Store.putRef, Function.update_of_ne hr])
    · exact Or.inr ⟨k, List.mem_cons_of_mem _ hk, heq⟩

theorem putRefs_of_notMem {refs : List (RefName κ × κ)} {r : RefName κ}
    (hr : ∀ k, (r, k) ∉ refs) : (h.putRefs refs).store.refs r = h.store.refs r := by
  rcases putRefs_cases h refs r with heq | ⟨k, hk, -⟩
  · exact heq
  · exact absurd hk (hr k)

theorem putRefs_complete (refs : List (RefName κ × κ)) :
    (h.putRefs refs).store.complete = h.store.complete := by
  induction refs generalizing h with
  | nil => rfl
  | cons w refs ih => exact ih (h := { h with store := h.store.putRef w.1 w.2 })

/-- Refs that may be written: not the graph's, and what is read keeps its value. -/
structure Allowed (h₀ h : Host κ) (refs : List (RefName κ × κ)) : Prop where
  planned : ∀ {r k}, (r, k) ∈ refs → ¬ Planned r
  imports : ∀ {k v w}, (.importOutput k, v) ∈ refs → h.store.refs (.importOutput k) = some w → v = w
  outputs : ∀ {k f v w}, (.output f, v) ∈ refs → h₀.store.refs (.buildFrom k) = some f →
    h.store.refs (.output f) = some w → v = w

theorem Allowed.static {refs : List (RefName κ × κ)} (ha : Allowed h₀ h refs)
    (hs : Static h₀ h) : Static h₀ (h.putRefs refs) where
  complete := (putRefs_complete refs).trans hs.complete
  refs r hr := by
    rw [putRefs_of_notMem fun k hk => ha.planned hk hr]
    exact hs.refs r hr

theorem Allowed.grown {refs : List (RefName κ × κ)} (ha : Allowed h₀ h refs)
    (hs : Static h₀ h) : Grown T h (h.putRefs refs) := by
  refine Grown.of_refs (fun _ _ hd => hd) ?_ ?_ ?_
  · intro k
    rw [putRefs_of_notMem fun v hv => ha.planned (r := .buildFrom k) hv trivial]
  · intro k v hv
    rcases putRefs_cases h refs (.importOutput k) with heq | ⟨w, hw, heq⟩
    · rw [heq, hv]
    · rw [heq, ha.imports hw hv]
  · intro k f v hf hv
    rw [hs.refs (.buildFrom k) trivial] at hf
    rcases putRefs_cases h refs (.output f) with heq | ⟨w, hw, heq⟩
    · rw [heq, hv]
    · rw [heq, ha.outputs hw hf hv]

theorem Inv.imported (hi : Inv T h₀ h) {k out : κ} (hk : h.store.refs (.importOutput k) = none) :
    Inv T h₀ (h.putRefs [(.importOutput k, out)]) := by
  have hallow : Allowed h₀ h [(.importOutput k, out)] := by
    refine ⟨?_, ?_, ?_⟩
    · intro r v hr
      obtain ⟨rfl, rfl⟩ : r = .importOutput k ∧ v = out := by simpa using hr
      exact id
    · intro k' v w hv hw
      obtain ⟨rfl, rfl⟩ : k' = k ∧ v = out := by simpa using hv
      simp [hk] at hw
    · intro k' f v w hv
      simp at hv
  refine ⟨hallow.static hi.static, hi.addressed, hi.owner, hi.output, hi.deps, ?_⟩
  intro kp d hkp hd
  obtain ⟨es, hes, hlists⟩ := hi.exact hkp hd
  exact ⟨es, hes, hlists.grown (hallow.grown hi.static)⟩

/-- A run writes cache refs and the output and deps of its KP. -/
def Published (kp d : κ) (refs : List (RefName κ × κ)) : Prop :=
  ∀ r v, (r, v) ∈ refs → (∃ s, r = .raw s) ∨ (r = .outputDeps kp ∧ v = d) ∨ r = .output kp

theorem Inv.ran (hg : BuildGraph T h₀) (hi : Inv T h₀ h) {kp d : κ} {es : List (Stored κ)}
    {refs : List (RefName κ × κ)} (hkp : IsKP h₀ kp) (hnone : h.store.refs (.output kp) = none)
    (hrefs : Published kp d refs) (hes : h.dirs d = some es)
    (hl : Lists T h es (Reach T h₀ kp)) : Inv T h₀ (h.putRefs refs) := by
  have hallow : Allowed h₀ h refs := by
    refine ⟨?_, ?_, ?_⟩
    · intro r v hr
      rcases hrefs r v hr with ⟨s, rfl⟩ | ⟨rfl, -⟩ | rfl <;> exact id
    · intro k v w hv
      simpa using hrefs _ v hv
    · intro k f v w hv hf
      obtain rfl : f = kp := by simpa using hrefs _ v hv
      exact absurd hkp (hg.apart (Or.inl ⟨k, hf⟩))
  have hout : ∀ {x}, x ≠ kp → (h.putRefs refs).store.refs (.output x)
      = h.store.refs (.output x) := fun hx =>
    putRefs_of_notMem fun v hv => hx (by simpa using hrefs _ v hv)
  have hdeps : ∀ {x}, x ≠ kp → (h.putRefs refs).store.refs (.outputDeps x)
      = h.store.refs (.outputDeps x) := by
    intro x hx
    refine putRefs_of_notMem fun v hv => hx ?_
    obtain ⟨rfl, -⟩ : x = kp ∧ v = d := by simpa using hrefs _ v hv
    rfl
  -- An environment is never the KP that runs, and a KP that has an alias never runs.
  have hf : ∀ {f kp'}, h₀.store.refs (.pinCover f) = some kp' → f ≠ kp := by
    rintro f kp' hcover rfl
    exact hg.apart (Or.inr ⟨kp', hcover⟩) hkp
  have hdone : ∀ {kp'}, h.store.refs (.output kp') ≠ none → kp' ≠ kp := by
    rintro kp' hsome rfl
    exact hsome hnone
  refine ⟨hallow.static hi.static, hi.addressed, ?_, ?_, ?_, ?_⟩
  · intro x hx
    by_cases hxk : x = kp
    · exact Or.inl (hxk ▸ hkp)
    · rw [hdeps hxk] at hx
      exact hi.owner hx
  · intro f kp' o hcover ho
    rw [hout (hf hcover)] at ho
    have hkp' := hi.output hcover ho
    rw [hout (hdone (by simp [hkp'])), hkp']
  · intro f kp' d' hcover hd
    rw [hdeps (hf hcover)] at hd
    obtain ⟨hd', hsome⟩ := hi.deps hcover hd
    rw [hdeps (hdone hsome), hout (hdone hsome)]
    exact ⟨hd', hsome⟩
  · intro kp' d' hkp' hd
    have hold : h.store.refs (.outputDeps kp') = some d' →
        ∃ es', (h.putRefs refs).dirs d' = some es' ∧
          Lists T (h.putRefs refs) es' (Reach T h₀ kp') := by
      intro hd
      obtain ⟨es', hes', hlists⟩ := hi.exact hkp' hd
      exact ⟨es', hes', hlists.grown (hallow.grown hi.static)⟩
    rcases putRefs_cases h refs (.outputDeps kp') with heq | ⟨v, hv, heq⟩
    · exact hold (heq ▸ hd)
    · obtain ⟨rfl, rfl⟩ : kp' = kp ∧ v = d := by simpa using hrefs _ v hv
      obtain rfl : v = d' := by simpa [heq] using hd
      exact ⟨es, hes, hl.grown (hallow.grown hi.static)⟩

/-- The output and deps of a KP, under its F. -/
abbrev Host.aliased (h : Host κ) (f deps out : κ) : Host κ :=
  h.putRefs [(.outputDeps f, deps), (.output f, out)]

theorem Inv.aliased (hg : BuildGraph T h₀) (hi : Inv T h₀ h) {f kp deps out : κ}
    (hcover : h₀.store.refs (.pinCover f) = some kp)
    (hdeps : h.store.refs (.outputDeps kp) = some deps)
    (hout : h.store.refs (.output kp) = some out) :
    Inv T h₀ (h.aliased f deps out) := by
  have hapart : ∀ {x}, IsKP h₀ x → x ≠ f := by
    rintro x hx rfl
    exact hg.apart (Or.inr ⟨kp, hcover⟩) hx
  have hallow : Allowed h₀ h [(.outputDeps f, deps), (.output f, out)] := by
    refine ⟨?_, ?_, ?_⟩
    · intro r v hr
      obtain ⟨rfl, -⟩ | ⟨rfl, -⟩ : r = .outputDeps f ∧ v = deps ∨ r = .output f ∧ v = out := by
        simpa using hr
      all_goals exact id
    · intro k v w hv
      simp at hv
    · intro k f' v w hv _ hw
      obtain ⟨rfl, rfl⟩ : f' = f ∧ v = out := by simpa using hv
      simpa [hout] using hi.output hcover hw
  -- What the two names hold, and that no other is touched.
  have hnew : (h.aliased f deps out).store.refs (.outputDeps f) = some deps := by
    simp [Host.putRefs, Store.putRef]
  have hnew' : (h.aliased f deps out).store.refs (.output f) = some out := by
    simp [Host.putRefs, Store.putRef]
  have hother : ∀ {x}, x ≠ f → (h.aliased f deps out).store.refs (.outputDeps x)
      = h.store.refs (.outputDeps x) := fun hx => putRefs_of_notMem (by simp [hx])
  have hother' : ∀ {x}, x ≠ f → (h.aliased f deps out).store.refs (.output x)
      = h.store.refs (.output x) := fun hx => putRefs_of_notMem (by simp [hx])
  refine ⟨hallow.static hi.static, hi.addressed, ?_, ?_, ?_, ?_⟩
  · intro x hx
    by_cases hxf : x = f
    · exact Or.inr ⟨kp, hxf ▸ hcover⟩
    · rw [hother hxf] at hx
      exact hi.owner hx
  · intro f' kp' o hcover' ho
    rw [hother' (hapart ⟨f', hcover'⟩)]
    by_cases hff : f' = f
    · subst hff
      obtain rfl : kp = kp' := by simpa [hcover] using hcover'
      obtain rfl : out = o := by simpa [hnew'] using ho
      exact hout
    · rw [hother' hff] at ho
      exact hi.output hcover' ho
  · intro f' kp' d hcover' hd
    rw [hother (hapart ⟨f', hcover'⟩), hother' (hapart ⟨f', hcover'⟩)]
    by_cases hff : f' = f
    · subst hff
      obtain rfl : kp = kp' := by simpa [hcover] using hcover'
      obtain rfl : deps = d := by simpa [hnew] using hd
      exact ⟨hdeps, by simp [hout]⟩
    · rw [hother hff] at hd
      exact hi.deps hcover' hd
  · intro kp' d hkp' hd
    rw [hother (hapart hkp')] at hd
    obtain ⟨es, hes, hlists⟩ := hi.exact hkp' hd
    exact ⟨es, hes, hlists.grown (hallow.grown hi.static)⟩

variable {cfg : BuildRunCfg κ} {p : Pinned}

/-- What an assembled build was made of. -/
theorem assembleBuildSpec_ok {kp : κ} {spec : Tools.BuildSpec κ}
    (ha : T.assembleBuildSpec h cfg kp = .ok (spec, p, h')) :
    pinnedAt T h kp = some p ∧ ∃ rs, T.collectStore h p.inputs = .ok rs ∧
      spec.storeKey = T.keys.dirKey (T.mounted cfg rs) ∧
      h' = h.putDir spec.storeKey (T.mounted cfg rs) := by
  unfold Tools.assembleBuildSpec at ha
  split at ha
  · simp at ha
  rename_i pinnedKey hk
  split at ha
  · simp at ha
  rename_i b hb
  split at ha
  · simp at ha
  rename_i p' hp
  split at ha
  · simp at ha
  rename_i rs hrs
  obtain ⟨rfl, rfl, rfl⟩ := ha
  refine ⟨?_, rs, hrs, rfl, rfl⟩
  simp [pinnedAt, hk, hb, hp, Except.toOption]

/-- What a build that ran has published. -/
theorem Inv.runBuild (hg : BuildGraph T h₀) (hi : Inv T h₀ h)
    {ex : Tools.Execution κ} {kp : κ} {refs : List (RefName κ × κ)}
    (hr : T.runBuild h cfg ex kp = .ok (h', refs)) :
    h'.store = h.store ∧ Inv T h₀ h' ∧ ∃ d es, Published kp d refs ∧ h'.dirs d = some es ∧
      Lists T h' es (Reach T h₀ kp) := by
  unfold Tools.runBuild at hr
  split at hr
  · simp at hr
  rename_i spec p h₁ ha
  obtain ⟨hp, rs, -, hkey, rfl⟩ := assembleBuildSpec_ok ha
  have hi₁ := hi.putDir (T.mounted cfg rs)
  rw [hkey] at hr
  split at hr
  · simp at hr
  · simp at hr
  rename_i art attr caches
  have hi₂ := hi₁.putDir (Tools.outputEntries art attr)
  dsimp only at hr
  split at hr
  · simp at hr
  rename_i rt hrt
  split at hr
  · simp at hr
  rename_i resolved hres
  obtain ⟨rfl, rfl⟩ := hr
  have hi₃ := hi₂.putDir (T.storeEntries (Tools.boks resolved))
  refine ⟨rfl, hi₃, _, T.storeEntries (Tools.boks resolved), ?_,
    (dirs_putDir hi₂.addressed _).mpr (Or.inr ⟨rfl, rfl⟩), ?_⟩
  · intro r v hv
    simp only [List.mem_append, List.mem_map, Prod.mk.injEq, List.mem_cons, List.not_mem_nil,
      or_false] at hv
    rcases hv with ⟨c, -, rfl, -⟩ | ⟨rfl, rfl⟩ | ⟨rfl, -⟩
    · exact Or.inl ⟨_, rfl⟩
    · exact Or.inr (Or.inl ⟨rfl, rfl⟩)
    · exact Or.inr (Or.inr rfl)
  · rw [hi.static.pinnedAt_eq] at hp
    have hreach : ∀ i, (∃ pi ∈ rt, ∃ j, Names T pi j ∧ Below T h₀ j i) ↔ Reach T h₀ kp i := by
      intro i
      have hdep := names_runtimeDepInputs (hg.kinds hp) hrt
      rw [reach_iff]
      constructor
      · rintro ⟨pi, hpi, j, hj, hb⟩
        exact ⟨p, j, hp, (hdep j).mp ⟨pi, hpi, hj⟩, hb⟩
      · rintro ⟨p', j, hp', hj, hb⟩
        obtain rfl : p = p' := by simpa [hp] using hp'
        obtain ⟨pi, hpi, hn⟩ := (hdep j).mpr hj
        exact ⟨pi, hpi, j, hn, hb⟩
    have hlists := hi₂.lists hg hres hreach
    exact hlists.grown (hi₂.grown_putDir _)

theorem ok_of_toOption {ε α : Type} {x : Except ε α} {a : α} (hx : x.toOption = some a) :
    x = .ok a := by
  cases x with
  | error => simp [Except.toOption] at hx
  | ok => simpa [Except.toOption] using hx

/-- What a build waits for: the artifact of every input, with its closure if it is a build. -/
structure Ready (T : Tools κ) (h : Host κ) (p : Pinned) : Prop where
  inputs : ∀ pi ∈ p.inputs, ∃ i a, Names T pi i ∧ artifact T h i = some a ∧
    (i.kind = .build → ∃ d, Tools.resolveBuildOutputDeps h i.key = some d)
  /-- Each runtime dep is the key of an input. -/
  runtimeDeps : ∀ b ∈ p.runtimeDeps, ∃ i, Uses T p i ∧ b = T.world.bytes i.key

omit [DecidableEq κ] in
theorem Ready.grown (hr : Ready T h p) (hg : Grown T h h')
    (hstore : h'.store = h.store) : Ready T h' p where
  inputs pi hpi := by
    obtain ⟨i, a, hn, ha, hd⟩ := hr.inputs pi hpi
    refine ⟨i, a, hn, hg i a ha, ?_⟩
    unfold Tools.resolveBuildOutputDeps at hd ⊢
    rwa [hstore]
  runtimeDeps := hr.runtimeDeps

omit [DecidableEq κ] in
theorem Ready.runtimeDepInputs (hr : Ready T h p) :
    ∃ rt, T.runtimeDepInputs p = .ok rt ∧ ∀ pi ∈ rt, pi ∈ p.inputs := by
  obtain ⟨byKey, hkey⟩ := keyedInputs_total fun pi hpi => by
    obtain ⟨i, a, hn, -, -⟩ := hr.inputs pi hpi
    exact ⟨i.key, hn.2⟩
  have hmem := mem_keyedInputs hkey
  obtain ⟨rt, hrt⟩ : ∃ rt, Tools.lookupDeps byKey p.runtimeDeps = .ok rt := by
    refine lookupDeps_total fun b hb => ?_
    obtain ⟨i, ⟨pi, hpi, hn⟩, rfl⟩ := hr.runtimeDeps b hb
    exact ⟨pi, (hmem _ pi).mpr ⟨hpi, i.key, hn.2, rfl⟩⟩
  refine ⟨rt, ?_, fun pi hpi => ?_⟩
  · rw [Tools.runtimeDepInputs, hkey]
    exact hrt
  · obtain ⟨b, -, hin⟩ := (lookupDeps_ok hrt).2 pi hpi
    exact ((hmem b pi).mp hin).1

omit [DecidableEq κ] in
theorem Ready.collect (hg : BuildGraph T h₀) (hi : Inv T h₀ h) (hr : Ready T h p)
    {inputs : List NamedInput} (hsub : ∀ pi ∈ inputs, pi ∈ p.inputs) :
    ∃ rs, T.collectStore h inputs = .ok rs := by
  refine collectStore_total fun pi hpi => ?_
  obtain ⟨i, a, hn, ha, hd⟩ := hr.inputs pi (hsub pi hpi)
  by_cases hkind : pi.input.kind = .build
  · obtain ⟨d, hd⟩ := hd (hn.1 ▸ hkind)
    obtain ⟨kp, es, -, hes, hlists⟩ := hi.depsTree hg hd
    obtain ⟨ks, hks⟩ := entryKeys_total hlists.storeEntry
    exact ⟨a, ks, resolveInputOutputKey_ok.mpr ⟨i, hn, ha⟩,
      resolveInputDeps_ok.mpr (Or.inr ⟨hkind, i.key, d, es, hn.2, hd, hes, hks⟩)⟩
  · exact ⟨a, [], resolveInputOutputKey_ok.mpr ⟨i, hn, ha⟩,
      resolveInputDeps_ok.mpr (Or.inl ⟨hkind, rfl⟩)⟩

/-- A build whose inputs are there runs to its end. -/
theorem Ready.runBuild (hg : BuildGraph T h₀) (hi : Inv T h₀ h) {kp : κ}
    (hp : pinnedAt T h₀ kp = some p) (hr : Ready T h p) (cfg : BuildRunCfg κ) (art : κ)
    (attr : Attr) (caches : List (PinnedCache × κ)) :
    ∃ h' d out, T.runBuild h cfg (.built art attr caches) kp = .ok (h',
      caches.map (fun c => (.raw (cacheRefName c.1.id cfg.platform), c.2)) ++
        [(.outputDeps kp, d), (.output kp, out)]) ∧
      h'.dirs out = some (Tools.outputEntries art attr) := by
  obtain ⟨rs, hrs⟩ := hr.collect hg hi fun pi hpi => hpi
  have hassemble : ∃ spec, T.assembleBuildSpec h cfg kp
      = .ok (spec, p, h.putDir (T.keys.dirKey (T.mounted cfg rs)) (T.mounted cfg rs)) := by
    rw [← hi.static.pinnedAt_eq, pinnedAt] at hp
    obtain ⟨k, hk, hp⟩ := Option.bind_eq_some_iff.mp hp
    obtain ⟨b, hb, hp⟩ := Option.bind_eq_some_iff.mp hp
    unfold Tools.assembleBuildSpec
    rw [hk]
    dsimp only
    rw [ok_of_toOption hb]
    dsimp only
    rw [ok_of_toOption hp]
    dsimp only
    rw [hrs]
    exact ⟨_, rfl⟩
  obtain ⟨rt, hrt, hsub⟩ := hr.runtimeDepInputs
  obtain ⟨spec, hspec⟩ := hassemble
  have hgrown := (hi.grown_putDir (T.mounted cfg rs)).trans
    ((hi.putDir (T.mounted cfg rs)).grown_putDir (Tools.outputEntries art attr))
  have hi₂ := (hi.putDir (T.mounted cfg rs)).putDir (Tools.outputEntries art attr)
  obtain ⟨resolved, hres⟩ := (hr.grown hgrown rfl).collect hg hi₂ hsub
  unfold Tools.runBuild
  rw [hspec]
  dsimp only
  rw [hrt]
  dsimp only
  rw [hres]
  refine ⟨_, _, _, rfl, ?_⟩
  exact (dirs_putDir hi₂.addressed _).mpr (Or.inl
    ((dirs_putDir (hi.putDir (T.mounted cfg rs)).addressed _).mpr (Or.inr ⟨rfl, rfl⟩)))

theorem run_output_of_ne (hg : BuildGraph T h₀) (hi : Inv T h₀ h) {kp x : κ}
    {ex : Tools.Execution κ} {n : Nat}
    (hs : T.step h (.run kp cfg ex n) = some h') (hx : x ≠ kp) :
    h'.store.refs (.output x) = h.store.refs (.output x) := by
  rw [Tools.step] at hs
  split at hs
  · split at hs
    · rw [Option.some.inj hs]
    · rename_i h₁ refs hr
      obtain ⟨hstore, -, d, es, hpub, -, -⟩ := hi.runBuild hg hr
      rw [← Option.some.inj hs, ← hstore]
      refine putRefs_of_notMem fun v hv => hx ?_
      simpa using hpub _ v (List.mem_of_mem_take hv)
  · simp at hs

/-- The builds that are run are those of the graph. -/
def OfGraph (h₀ : Host κ) (_ : Host κ) : Tools.Label κ → Prop
  | .run kp _ _ _ => IsKP h₀ kp
  | _ => True

omit [DecidableEq κ] in
theorem Published.take {kp d : κ} {refs : List (RefName κ × κ)} (hp : Published kp d refs)
    (n : Nat) : Published kp d (refs.take n) :=
  fun r v hv => hp r v (List.mem_of_mem_take hv)

theorem Inv.step (hg : BuildGraph T h₀) (hi : Inv T h₀ h) {l : Tools.Label κ}
    (hl : OfGraph h₀ h l) (hs : T.step h l = some h') : Inv T h₀ h' := by
  cases l with
  | imported =>
    rw [Tools.step] at hs
    split at hs
    · rename_i hk
      obtain rfl := Option.some.inj hs
      exact hi.imported hk
    · simp at hs
  | run kp cfg ex written =>
    rw [Tools.step] at hs
    split at hs
    · rename_i hnone
      split at hs
      · obtain rfl := Option.some.inj hs
        exact hi
      · rename_i h₁ refs hr
        obtain rfl := Option.some.inj hs
        obtain ⟨hstore, hi₁, d, es, hpub, hes, hlists⟩ := hi.runBuild hg hr
        exact hi₁.ran hg hl (hstore ▸ hnone) (hpub.take written) hes hlists
    · simp at hs
  | aliased f =>
    rw [Tools.step] at hs
    split at hs
    · simp at hs
    · rename_i kp hcover
      unfold Tools.writeFAliases at hs
      split at hs
      · rename_i deps out hdeps hout
        obtain rfl : _ = h' := by simpa [Except.toOption] using hs
        rw [hi.static.refs (.pinCover f) trivial] at hcover
        exact hi.aliased hg hcover hdeps hout
      · simp [Except.toOption] at hs

omit [DecidableEq κ] in
theorem BuildGraph.inv (hg : BuildGraph T h₀) : Inv T h₀ h₀ where
  static := ⟨rfl, fun _ _ => rfl⟩
  addressed := hg.addressed
  owner hx := absurd (hg.fresh _).2 hx
  output _ ho := by simp [(hg.fresh _).1] at ho
  deps _ hd := by simp [(hg.fresh _).2] at hd
  exact _ hd := by simp [(hg.fresh _).2] at hd

theorem BuildGraph.reached (hg : BuildGraph T h₀) (hs : Run.Steps T.step (OfGraph h₀) h₀ h) :
    Inv T h₀ h :=
  hs.inv hg.inv fun _ _ _ hi hl hstep => hi.step hg hl hstep

/-- The step of a build whose inputs are there publishes its output and its closure. -/
theorem Ready.step (hg : BuildGraph T h₀) (hi : Inv T h₀ h) {kp : κ}
    (hp : pinnedAt T h₀ kp = some p) (hr : Ready T h p) (hnone : h.store.refs (.output kp) = none)
    (cfg : BuildRunCfg κ) (art : κ) (attr : Attr) (caches : List (PinnedCache × κ)) :
    ∃ h', T.step h (.run kp cfg (.built art attr caches) (caches.length + 2)) = some h' ∧
      h'.store.has (.outputDeps kp) ∧ ∃ out, h'.store.refs (.output kp) = some out ∧
        T.resolveSubdirKey h' out "c" = .ok art := by
  obtain ⟨h', d, out, hrun, hdir⟩ := hr.runBuild hg hi hp cfg art attr caches
  rw [Tools.step, if_pos hnone, hrun]
  dsimp only
  rw [List.take_of_length_le (by simp)]
  refine ⟨_, rfl, ?_, out, ?_, ?_⟩
  · simp [Host.putRefs, Store.putRef, Store.has]
  · simp [Host.putRefs, Store.putRef]
  · unfold Tools.resolveSubdirKey
    rw [show (Host.putRefs h' _).dirs out = h'.dirs out from rfl, hdir]
    simp [Tools.outputEntries, Tools.entryKey]

/-- **Runtime closures are transitive.**  In every state the pipeline reaches, the deps tree
of a build, under its KP or its F, has one entry for each artifact that can be reached along
one or more runtime deps, and no other; what is mounted for a build are the shell, the
artifacts of its inputs and what can be reached from these, each under one name.  A build
whose inputs are there can run, and publishes both its closure and its artifact. -/
theorem runtime_closure_transitive (hg : BuildGraph T h₀)
    (hs : Run.Steps T.step (OfGraph h₀) h₀ h) :
    (∀ {kp p}, pinnedAt T h₀ kp = some p → Ready T h p → h.store.refs (.output kp) = none →
      ∀ cfg art attr caches, ∃ h',
        T.step h (.run kp cfg (.built art attr caches) (caches.length + 2)) = some h' ∧
        h'.store.has (.outputDeps kp) ∧ ∃ out, h'.store.refs (.output kp) = some out ∧
          T.resolveSubdirKey h' out "c" = .ok art) ∧
    (∀ {kp x d}, IsKP h₀ kp → (x = kp ∨ h₀.store.refs (.pinCover x) = some kp) →
      h.store.refs (.outputDeps x) = some d →
      ∃ es, h.dirs d = some es ∧ Lists T h es (Reach T h₀ kp)) ∧
    ∀ {cfg kp spec p h'}, T.assembleBuildSpec h cfg kp = .ok (spec, p, h') →
      pinnedAt T h₀ kp = some p ∧ ∃ es, h'.dirs spec.storeKey = some es ∧ Sorted es ∧
        (∀ j, Uses T p j → ∀ i, Below T h₀ j i → ∃ a, artifact T h i = some a) ∧
        ∀ e, e ∈ es ↔ e = T.storeEntry cfg.shellKey ∨
          ∃ j i a, Uses T p j ∧ Below T h₀ j i ∧ artifact T h i = some a ∧ e = T.storeEntry a := by
  have hi := hg.reached hs
  refine ⟨fun hp hr hnone => hr.step hg hi hp hnone, ?_, ?_⟩
  · rintro kp x d hkp (rfl | hcover) hd
    · exact hi.exact hkp hd
    · exact hi.exact hkp (hi.deps hcover hd).1
  · intro cfg kp spec p h' ha
    obtain ⟨hp, rs, hrs, hkey, rfl⟩ := assembleBuildSpec_ok ha
    obtain ⟨hpresent, hmem⟩ := hi.collect hg hrs
    refine ⟨hi.static.pinnedAt_eq kp ▸ hp, T.mounted cfg rs, ?_, sorted_storeEntries _, ?_, ?_⟩
    · rw [hkey]
      exact (dirs_putDir hi.addressed _).mpr (Or.inr ⟨rfl, rfl⟩)
    · rintro j ⟨pi, hpi, hj⟩ i hb
      exact hpresent i ⟨pi, hpi, j, hj, hb⟩
    · intro e
      rw [Tools.mounted, mem_storeEntries]
      constructor
      · rintro ⟨a, ha, rfl⟩
        rcases List.mem_append.mp ha with ha | ha
        · obtain ⟨i, ⟨pi, hpi, j, hj, hb⟩, hart⟩ := (hmem a).mp ha
          exact Or.inr ⟨j, i, a, ⟨pi, hpi, hj⟩, hb, hart, rfl⟩
        · rw [List.mem_singleton.mp ha]
          exact Or.inl rfl
      · rintro (rfl | ⟨j, i, a, ⟨pi, hpi, hj⟩, hb, hart, rfl⟩)
        · exact ⟨cfg.shellKey, by simp, rfl⟩
        · exact ⟨a, List.mem_append_left _ ((hmem a).mpr ⟨i, ⟨pi, hpi, j, hj, hb⟩, hart⟩), rfl⟩

end Steps

/-! ### An app that needs a tool that needs a library -/

def lib : Item Nat := ⟨.importK, 3⟩

def tool : Item Nat := ⟨.build, 1⟩

def toolPinned : Pinned :=
  { inputs := [⟨"lib", ⟨.importK, [0, 0, 0]⟩⟩], runtimeDeps := [[0, 0, 0, 0]] }

def appPinned : Pinned := { inputs := [⟨"tool", ⟨.build, [0]⟩⟩], runtimeDeps := [[0, 0]] }

/-- The key of a definition is its length, and a file is as long as its key says. -/
noncomputable def chainTools : Tools Nat where
  world :=
    { Cover.plainWorld with
      fileKey := fun b => .ok b.length
      file := fun k => .ok (List.replicate k 0)
      decodePinned := fun b => .ok (if b.length = 21 then toolPinned else appPinned) }
  keys := Cover.numberKeys
  isFile _ := false

/-- The tool is build 1 with environment 11 and KP 21; the app's KP is 22. -/
def chainHost : Host Nat where
  store :=
    { refs := fun
        | .buildFrom 1 => some 11
        | .pinCover 11 => some 21
        | .pinCover 12 => some 22
        | .pinned 21 => some 21
        | .pinned 22 => some 22
        | _ => none
      complete := fun _ => true }
  dirs _ := none

theorem chain_pinned_tool : pinnedAt chainTools chainHost 21 = some toolPinned := by
  simp [pinnedAt, chainTools, chainHost, Store.readFile, Except.toOption]

theorem chain_pinned_app : pinnedAt chainTools chainHost 22 = some appPinned := by
  simp [pinnedAt, chainTools, chainHost, Store.readFile, Except.toOption]

theorem chain_isKP {kp : Nat} : IsKP chainHost kp ↔ kp = 21 ∨ kp = 22 := by
  constructor
  · rintro ⟨f, hf⟩
    unfold chainHost at hf
    dsimp only at hf
    split at hf <;> simp_all
  · rintro (rfl | rfl)
    · exact ⟨11, rfl⟩
    · exact ⟨12, rfl⟩

theorem chain_graph : BuildGraph chainTools chainHost where
  fresh _ := ⟨rfl, rfl⟩
  addressed hd := by simp [chainHost] at hd
  apart := by
    intro f hf
    rw [chain_isKP]
    rcases hf with ⟨k, hk⟩ | ⟨kp, hk⟩
    all_goals
      unfold chainHost at hk
      dsimp only at hk
      split at hk <;> simp_all <;> omega
  kinds := by
    intro kp p i j hp hi hj _
    have hone : ∃ pi, p.inputs = [pi] := by
      obtain ⟨k, -, hp⟩ := Option.bind_eq_some_iff.mp hp
      obtain ⟨b, -, hp⟩ := Option.bind_eq_some_iff.mp hp
      have hb := ok_of_toOption hp
      simp only [chainTools, Except.ok.injEq] at hb
      rw [← hb]
      split <;> exact ⟨_, rfl⟩
    obtain ⟨pi, hpi⟩ := hone
    obtain ⟨_, hmem, hi⟩ := hi
    obtain ⟨_, hmem', hj⟩ := hj
    rw [hpi, List.mem_singleton] at hmem hmem'
    subst hmem hmem'
    exact hi.1.symm.trans hj.1

theorem chain_uses_lib : Uses chainTools toolPinned lib := ⟨_, List.mem_cons_self, rfl, rfl⟩

theorem chain_uses_tool : Uses chainTools appPinned tool := ⟨_, List.mem_cons_self, rfl, rfl⟩

theorem chain_reach_lib : Reach chainTools chainHost 22 lib :=
  .later chain_pinned_app ⟨chain_uses_tool, List.mem_cons_self⟩ rfl
    (.direct chain_pinned_tool ⟨chain_uses_lib, List.mem_cons_self⟩)

theorem chain_ready {h : Host Nat} {a : Nat} {p : Pinned} {pi : NamedInput} {i : Item Nat}
    (hpi : p.inputs = [pi]) (hp : p.runtimeDeps = [chainTools.world.bytes i.key])
    (hn : Names chainTools pi i) (ha : artifact chainTools h i = some a)
    (hd : i.kind = .build → ∃ d, Tools.resolveBuildOutputDeps h i.key = some d) :
    Ready chainTools h p where
  inputs pi' hpi' := by
    rw [hpi, List.mem_singleton] at hpi'
    exact ⟨i, a, hpi' ▸ hn, ha, hd⟩
  runtimeDeps b hb := by
    rw [hp, List.mem_singleton] at hb
    exact ⟨i, ⟨pi, by simp [hpi], hn⟩, hb⟩

/-- The app lists the library, which it does not name. -/
theorem runtime_closure_transitive_chain :
    ∃ h d es a, Run.Steps chainTools.step (OfGraph chainHost) chainHost h ∧
      h.store.refs (.outputDeps 22) = some d ∧ h.dirs d = some es ∧
      artifact chainTools h lib = some a ∧ chainTools.storeEntry a ∈ es := by
  let cfg : BuildRunCfg Nat := { platform := "linux", shellKey := 5 }
  let attr : Attr := { name := "c", perm := 0o755 }
  have s₁ : Run.Steps chainTools.step (OfGraph chainHost) chainHost
      (chainHost.putRefs [(.importOutput 3, 100)]) :=
    Run.Steps.tail (a := .imported 3 100) .refl trivial rfl
  have r₁ : Ready chainTools (chainHost.putRefs [(.importOutput 3, 100)]) toolPinned :=
    chain_ready (i := lib) rfl rfl ⟨rfl, rfl⟩ rfl (by simp [lib])
  obtain ⟨h₂, hs₂, hd₂, out, hout₂, hc₂⟩ :=
    (runtime_closure_transitive chain_graph s₁).1 chain_pinned_tool r₁ rfl cfg 200 attr []
  have s₂ := s₁.tail (a := Tools.Label.run 21 cfg (.built 200 attr []) 2)
    (chain_isKP.mpr (Or.inl rfl)) hs₂
  obtain ⟨d₂, hd₂⟩ := Option.ne_none_iff_exists'.mp hd₂
  have hi₂ := chain_graph.reached s₂
  have s₃ : Run.Steps chainTools.step (OfGraph chainHost) chainHost
      (h₂.aliased 11 d₂ out) := by
    refine s₂.tail (a := .aliased 11) trivial ?_
    have hcover : h₂.store.refs (.pinCover 11) = some 21 := hi₂.static.refs (.pinCover 11) trivial
    simp [Tools.step, hcover, Tools.writeFAliases, hd₂, hout₂, Except.toOption]
  have hfrom : h₂.store.refs (.buildFrom 1) = some 11 := hi₂.static.refs (.buildFrom 1) trivial
  have r₃ : Ready chainTools (h₂.aliased 11 d₂ out) appPinned := by
    refine chain_ready (i := tool) (a := 200) rfl rfl ⟨rfl, rfl⟩ ?_ fun _ => ⟨d₂, ?_⟩
    · have hout : Tools.resolveBuildOutput
          (h₂.aliased 11 d₂ out) 1 = some out := by
        simp [Tools.resolveBuildOutput, Host.putRefs, Store.putRef, hfrom]
      have hc : chainTools.resolveSubdirKey
          (h₂.aliased 11 d₂ out) out "c" = .ok 200 := hc₂
      simp [artifact, tool, hout, hc, Except.toOption]
    · simp [tool, Tools.resolveBuildOutputDeps, Host.putRefs, Store.putRef, hfrom]
  have hnone : (h₂.aliased 11 d₂ out).store.refs (.output 22)
      = none := by
    rw [putRefs_of_notMem (by simp), run_output_of_ne chain_graph (chain_graph.reached s₁) hs₂
      (by omega)]
    rfl
  obtain ⟨h₄, hs₄, hd₄, -⟩ :=
    (runtime_closure_transitive chain_graph s₃).1 chain_pinned_app r₃ hnone cfg 300 attr []
  have s₄ := s₃.tail (a := Tools.Label.run 22 cfg (.built 300 attr []) 2)
    (chain_isKP.mpr (Or.inr rfl)) hs₄
  obtain ⟨d₄, hd₄⟩ := Option.ne_none_iff_exists'.mp hd₄
  obtain ⟨es, hes, hlists⟩ := (runtime_closure_transitive chain_graph s₄).2.1
    (chain_isKP.mpr (Or.inr rfl)) (Or.inl rfl) hd₄
  obtain ⟨a, ha⟩ := hlists.present lib chain_reach_lib
  exact ⟨h₄, d₄, es, a, s₄, hd₄, hes, ha, (hlists.mem _).mpr ⟨lib, a, chain_reach_lib, ha, rfl⟩⟩

end JobsIroh.Runner
