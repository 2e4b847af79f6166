/-
Which tree of an input its consumers use.

An input that has an output has one artifact: all of an import's output, or the `c` of a
build's.  Build inputs, resolution deps, build sources, fetchers and outputs run by key all
come to it.  A plugin does not: the code takes an import's output under the input's key if
there is one and the whole output of the build otherwise, so that it agrees with the others
for imports and, but for coincidences, never for builds.
-/
import JobsIroh.Proofs.Derive
import JobsIroh.Runner.Resolve

namespace JobsIroh.Runner

open JobsIroh.Tree (Dir)
open Cover (Site contentKey)

variable {κ ε : Type} {S : Site κ} {st : Store κ}

/-! ### What the lookups return -/

/-- The tree at a key, as `openTree` finds it. -/
def opened (S : Site κ) (st : Store κ) (k : κ) : Except String Dir :=
  match S.oracle st (.object k) with
  | .error e => .error e
  | .ok (.dir d) => .ok d
  | .ok (.file _) => .error ("amber: " ++ S.outside.string k ++ " is not a directory")

/-- The content key of a named entry of the tree at a key. -/
def childKey (S : Site κ) (st : Store κ) (root : κ) (name : String) : Option κ :=
  (opened S st root).toOption.bind fun d =>
    (d.find name).bind fun e => contentKey S.objects.keys e.2

/-- A build's output, through the bridge. -/
def outputOf (st : Store κ) (k : κ) : Option κ :=
  (st.refs (.buildFrom k)).bind fun f => st.refs (.output f)

@[simp]
theorem run_getKey_bind {α : Type} (r : RefName κ) (f : Option κ → Reads κ ε α) :
    Query.run (S.oracle st) (getKey r >>= f) = Query.run (S.oracle st) (f (st.refs r)) := rfl

theorem run_orFail {α : Type} {f : String → ε} {x : Except String α} {y : α} :
    Query.run (S.oracle st) (orFail f x) = .ok y ↔ x = .ok y := by
  cases x with
  | error | ok => simp [orFail]

theorem run_openTree (k : κ) :
    Query.run (S.oracle st) (openTree S k : Reads κ ε _) = .ok (opened S st k) := by
  unfold openTree opened readObject
  rw [Query.run_lookup_bind]
  cases S.oracle st (.object k) with
  | error => rfl
  | ok x => cases x <;> rfl

theorem run_resolveBuildOutput (k : κ) :
    Query.run (S.oracle st) (resolveBuildOutput k : Reads κ ε _) = .ok (outputOf st k) := by
  unfold resolveBuildOutput outputOf
  rw [run_getKey_bind]
  cases st.refs (.buildFrom k) <;> rfl

theorem run_resolveSubdirKey (root : κ) (name : String) :
    ∃ r, Query.run (S.oracle st) (resolveSubdirKey S root name : Reads κ ε _) = .ok r ∧
      r.toOption = childKey S st root name := by
  unfold resolveSubdirKey childKey
  rw [Query.run_bind_of_ok (run_openTree root)]
  cases opened S st root with
  | error => exact ⟨_, rfl, rfl⟩
  | ok d =>
    dsimp only [Except.toOption, Option.bind_some]
    cases d.find name with
    | none => exact ⟨_, rfl, rfl⟩
    | some e =>
      dsimp only [Option.bind_some]
      cases contentKey S.objects.keys e.2 with
      | none | some => exact ⟨_, rfl, rfl⟩

theorem run_treeSubdir {root k : κ} {name : String} (h : childKey S st root name = some k) :
    Query.run (S.oracle st) (treeSubdir S root name : Reads κ ε _) = .ok (.ok (some k)) := by
  unfold treeSubdir
  unfold childKey at h
  rw [Query.run_bind_of_ok (run_openTree root)]
  cases ho : opened S st root with
  | error =>
    rw [ho] at h
    cases h
  | ok d =>
    rw [ho] at h
    dsimp only [Except.toOption, Option.bind_some] at h ⊢
    cases hf : d.find name with
    | none =>
      rw [hf] at h
      cases h
    | some =>
      rw [hf, Option.bind_some] at h
      dsimp only
      rw [h]
      rfl

/-! ### The artifact -/

/-- The artifact of an input: the output of an import, the `c` of a build's. -/
def artifactOf (S : Site κ) (st : Store κ) (i : Input) (k : κ) : Option κ :=
  match i.kind with
  | .importK => st.refs (.importOutput k)
  | .build => (outputOf st k).bind fun out => childKey S st out "c"
  | _ => none

section

variable {i : Input} {k a : κ}

theorem artifactOf_build (hkind : i.kind = .build) (h : artifactOf S st i k = some a) :
    ∃ out, outputOf st k = some out ∧ childKey S st out "c" = some a := by
  unfold artifactOf at h
  rw [hkind] at h
  exact Option.bind_eq_some_iff.mp h

theorem artifactOf_import (hkind : i.kind = .importK) (h : artifactOf S st i k = some a) :
    st.refs (.importOutput k) = some a := by
  unfold artifactOf at h
  rw [hkind] at h
  exact h

theorem artifactOf_kind (h : artifactOf S st i k = some a) :
    i.kind = .importK ∨ i.kind = .build := by
  unfold artifactOf at h
  split at h
  · exact .inl ‹_›
  · exact .inr ‹_›
  · cases h

/-- The `c` of an output that is there. -/
theorem run_subdir_c {out : κ} (h : childKey S st out "c" = some a) {f : String → ε} :
    Query.run (S.oracle st)
      ((do orFail f (← resolveSubdirKey S out "c")) : Reads κ ε κ) = .ok a := by
  obtain ⟨r, hr, hopt⟩ : ∃ r, Query.run (S.oracle st) (resolveSubdirKey S out "c" : Reads κ ε _) =
      .ok r ∧ r.toOption = childKey S st out "c" := run_resolveSubdirKey out "c"
  rw [Query.run_bind_of_ok hr, run_orFail]
  rw [h] at hopt
  cases r with
  | error => cases hopt
  | ok => rw [Option.some.inj hopt]

section

variable (hk : S.outside.inputKey i = .ok k) (ha : artifactOf S st i k = some a)
include hk ha

theorem run_resolveInputOutputKey :
    Query.run (S.oracle st) (resolveInputOutputKey S i) = .ok a := by
  unfold resolveInputOutputKey
  rw [Query.run_bind_of_ok (run_orFail.mpr hk)]
  rcases artifactOf_kind ha with hkind | hkind
  · rw [hkind]
    rw [run_getKey_bind, artifactOf_import hkind ha]
    rfl
  · obtain ⟨out, hout, hc⟩ := artifactOf_build hkind ha
    rw [hkind]
    rw [Query.run_bind_of_ok (run_resolveBuildOutput k), hout]
    exact run_subdir_c hc

theorem run_resolveSourceContentTree :
    Query.run (S.oracle st) (resolveSourceContentTree S i) = .ok a := by
  unfold resolveSourceContentTree
  rw [Query.run_bind_of_ok (run_orFail.mpr hk)]
  rcases artifactOf_kind ha with hkind | hkind
  · rw [hkind]
    rw [run_getKey_bind, artifactOf_import hkind ha]
    rfl
  · obtain ⟨out, hout, hc⟩ := artifactOf_build hkind ha
    rw [hkind]
    rw [Query.run_bind_of_ok (run_resolveBuildOutput k), hout]
    exact run_subdir_c hc

end

theorem run_resolveBuildArtifact (hkind : i.kind = .build) (ha : artifactOf S st i k = some a) :
    Query.run (S.oracle st) (resolveBuildArtifact S k : Reads κ ε _) = .ok (.ok (some a)) := by
  obtain ⟨out, hout, hc⟩ := artifactOf_build hkind ha
  have hfound : Query.run (S.oracle st) (outputOrDirect k : Reads κ ε _) = .ok (some out) := by
    unfold outputOrDirect
    rw [Query.run_bind_of_ok (run_resolveBuildOutput k), hout]
    rfl
  unfold resolveBuildArtifact
  rw [Query.run_bind_of_ok hfound]
  rw [Query.run_bind_of_ok (run_treeSubdir hc)]
  rfl

theorem run_fetcherArtifact (hkind : i.kind = .build) (hk : S.outside.inputKey i = .ok k)
    (ha : artifactOf S st i k = some a) :
    Query.run (S.oracle st) (fetcherArtifact S i.definition) = .ok a := by
  have hfk : S.outside.inputKey ⟨.build, i.definition⟩ = .ok k := hk
  unfold fetcherArtifact
  rw [Query.run_bind_of_ok (run_orFail.mpr hfk),
    Query.run_bind_of_ok (run_resolveBuildArtifact hkind ha)]
  rfl

/-- A plugin: an import under the key, or else the whole output of the build. -/
theorem run_pluginOutput (name : String) (hk : S.outside.inputKey i = .ok k) {out : κ} :
    Query.run (S.oracle st) (pluginOutput S name i) = .ok out ↔
      st.refs (.importOutput k) = some out ∨
        st.refs (.importOutput k) = none ∧ outputOf st k = some out := by
  unfold pluginOutput
  rw [Query.run_bind_of_ok (run_orFail.mpr hk), run_getKey_bind]
  cases st.refs (.importOutput k) with
  | some => simp
  | none =>
    rw [Query.run_bind_of_ok (run_resolveBuildOutput k)]
    cases outputOf st k with
    | none | some => simp

end

/-! ### The consumers -/

inductive Consumer where
  | buildInput
  | resolutionDep
  | plugin (name : String)
  | source
  | fetcher
  | byKey

/-- A fetcher and an output run by key are builds. -/
def Consumer.takes : Consumer → InputKind → Bool
  | .fetcher, kind => kind = .build
  | .byKey, kind => kind = .build
  | _, kind => kind = .importK || kind = .build

/-- The tree the consumer uses. -/
def Consumer.resolves (S : Site κ) (st : Store κ) (i : Input) (k : κ) : Consumer → Option κ
  | .buildInput => (Query.run (S.oracle st) (resolveInputOutputKey S i)).toOption
  | .resolutionDep => (Query.run (S.oracle st) (resolveInputOutputKey S i)).toOption
  | .plugin name => (Query.run (S.oracle st) (pluginOutput S name i)).toOption
  | .source => (Query.run (S.oracle st) (resolveSourceContentTree S i)).toOption
  | .fetcher => (Query.run (S.oracle st) (fetcherArtifact S i.definition)).toOption
  | .byKey =>
    match Query.run (S.oracle st) (resolveBuildArtifact S k : Reads κ String _) with
    | .ok (.ok out) => out
    | _ => none

section

variable {i : Input} {k a : κ}

/-- Every consumer but a plugin comes to the artifact. -/
theorem Consumer.resolves_of_not_plugin (hk : S.outside.inputKey i = .ok k)
    (ha : artifactOf S st i k = some a) {c : Consumer} (hc : ∀ name, c ≠ .plugin name)
    (htakes : c.takes i.kind = true) : c.resolves S st i k = some a := by
  cases c with
  | buildInput => simp only [Consumer.resolves, run_resolveInputOutputKey hk ha, Except.toOption]
  | resolutionDep =>
    simp only [Consumer.resolves, run_resolveInputOutputKey hk ha, Except.toOption]
  | plugin name => exact absurd rfl (hc name)
  | source => simp only [Consumer.resolves, run_resolveSourceContentTree hk ha, Except.toOption]
  | fetcher =>
    have hkind : i.kind = .build := of_decide_eq_true htakes
    simp only [Consumer.resolves, run_fetcherArtifact hkind hk ha, Except.toOption]
  | byKey =>
    have hkind : i.kind = .build := of_decide_eq_true htakes
    simp only [Consumer.resolves, run_resolveBuildArtifact hkind ha]

theorem Consumer.plugin_resolves (hk : S.outside.inputKey i = .ok k) (name : String) {out : κ} :
    (Consumer.plugin name).resolves S st i k = some out ↔
      st.refs (.importOutput k) = some out ∨
        st.refs (.importOutput k) = none ∧ outputOf st k = some out := by
  rw [← run_pluginOutput name hk]
  simp only [Consumer.resolves]
  cases Query.run (S.oracle st) (pluginOutput S name i) with
  | error | ok => simp [Except.toOption]

/-- What is run by key is the artifact, whatever else has to be there. -/
theorem bokSelf_of_resolveByKeyArtifact (hkind : i.kind = .build)
    (ha : artifactOf S st i k = some a) {decodes : Bytes → Except String Unit}
    {shellRef : String} {needShell : Bool} {r : ResolvedArtifact κ}
    (h : Query.run (S.oracle st) (resolveByKeyArtifact S decodes shellRef needShell k) = .ok r) :
    r.bokSelf = a := by
  have hself : Query.run (S.oracle st) (artifactForKey S k) = .ok a := by
    unfold artifactForKey
    rw [Query.run_bind_of_ok (run_resolveBuildArtifact hkind ha)]
    rfl
  obtain ⟨shellKey, -, h⟩ := Query.run_bind_eq_ok.mp h
  rw [Query.run_bind_of_ok hself] at h
  obtain ⟨file, -, h⟩ := Query.run_bind_eq_ok.mp h
  obtain ⟨entrypoint, -, h⟩ := Query.run_bind_eq_ok.mp h
  obtain ⟨_, -, h⟩ := Query.run_bind_eq_ok.mp h
  obtain ⟨depBOKs, -, h⟩ := Query.run_bind_eq_ok.mp h
  rw [← Except.ok.inj h]

/-- **One artifact for all consumers.**  Of an input that has its output every consumer uses the
artifact exactly when it is an import, or a build whose key happens to have that artifact
recorded as an import's output, or whose output happens to be its own `c`; all but the plugins
use it in any case. -/
theorem consumers_agree (hk : S.outside.inputKey i = .ok k) (ha : artifactOf S st i k = some a) :
    ((∀ c : Consumer, c.takes i.kind = true → c.resolves S st i k = some a) ↔
      i.kind = .importK ∨ st.refs (.importOutput k) = some a ∨
        st.refs (.importOutput k) = none ∧ outputOf st k = some a) ∧
    (∀ c : Consumer, (∀ name, c ≠ .plugin name) → c.takes i.kind = true →
      c.resolves S st i k = some a) ∧
    (i.kind = .build → ∀ decodes shellRef needShell r,
      Query.run (S.oracle st) (resolveByKeyArtifact S decodes shellRef needShell k) = .ok r →
        r.bokSelf = a) := by
  have hothers := fun c hc htakes => Consumer.resolves_of_not_plugin hk ha (c := c) hc htakes
  refine ⟨⟨fun hall => ?_, fun hcond c htakes => ?_⟩, hothers, ?_⟩
  · have htakes : (Consumer.plugin "").takes i.kind = true := by
      rcases artifactOf_kind ha with hkind | hkind <;> rw [hkind] <;> rfl
    exact .inr ((Consumer.plugin_resolves hk "").mp (hall (.plugin "") htakes))
  · by_cases hc : ∃ name, c = .plugin name
    · obtain ⟨name, rfl⟩ := hc
      rw [Consumer.plugin_resolves hk]
      rcases hcond with hkind | hout
      · exact .inl (artifactOf_import hkind ha)
      · exact hout
    · exact hothers c (fun name heq => hc ⟨name, heq⟩) htakes
  · intro hkind decodes shellRef needShell r h
    exact bokSelf_of_resolveByKeyArtifact hkind ha h

end

/-! ### A build used as a plugin -/

/-- Every tree is stored, and definitions under the keys of their bytes. -/
noncomputable def treeSite : Site Nat :=
  { Cover.plainSite with
    outside := { Cover.plainWorld with fileKey := fun b => .ok (Cover.numberKeys.fileKey b) }
    toBytes_text := Cover.plainSite.toBytes_text }

/-- A plugin: an executable at its root. -/
def pluginDir : Dir := .leaf { name := "plugin", perm := 0o755 } (.file [1]) .nil

/-- The output of the build that makes it. -/
def pluginOutputDir : Dir := .sub { name := "c", perm := 0o755 } pluginDir .nil

noncomputable def treeKey (d : Dir) : Nat := d.key Cover.numberKeys

/-- Every build has F 5 and this output. -/
noncomputable def pluginStore : Store Nat where
  refs
    | .buildFrom _ => some 5
    | .output _ => some (treeKey pluginOutputDir)
    | _ => none
  complete _ := true

/-- The same with an import in place of the build. -/
noncomputable def importStore : Store Nat where
  refs
    | .importOutput _ => some (treeKey pluginDir)
    | _ => none
  complete _ := true

theorem opened_treeKey {st : Store Nat} (hall : ∀ k, st.complete k = true) (d : Dir) :
    opened treeSite st (treeKey d) = .ok d := by
  have htree : Cover.everything.tree (treeKey d) = some d := Cover.withKey_tree.mpr rfl
  have hfile : Cover.everything.file (treeKey d) = none := by
    by_contra hne
    obtain ⟨b, hb⟩ := Option.ne_none_iff_exists'.mp hne
    rw [Cover.everything.file_or_tree hb] at htree
    cases htree
  have hobj : treeSite.objects.obj (treeKey d) = some (.dir d) := by
    show Cover.everything.obj (treeKey d) = _
    rw [Cover.Objects.obj, hfile, htree]
    rfl
  unfold opened Site.oracle
  simp only [hall, if_true, hobj]

theorem artifactOf_plugin (b : Bytes) (k : Nat) :
    artifactOf treeSite pluginStore ⟨.build, b⟩ k = some (treeKey pluginDir) := by
  show childKey treeSite pluginStore (treeKey pluginOutputDir) "c" = _
  unfold childKey
  rw [opened_treeKey fun _ => rfl]
  rfl

/-- An import used as a plugin. -/
theorem consumers_agree_import :
    (Consumer.plugin "p").resolves treeSite importStore ⟨.importK, [3]⟩
      (Cover.numberKeys.fileKey [3]) = some (treeKey pluginDir) := by
  have hk : treeSite.outside.inputKey ⟨.importK, [3]⟩ = .ok (Cover.numberKeys.fileKey [3]) := rfl
  have ha : artifactOf treeSite importStore ⟨.importK, [3]⟩ (Cover.numberKeys.fileKey [3]) =
      some (treeKey pluginDir) := rfl
  exact (consumers_agree hk ha).1.mpr (.inl rfl) _ rfl

/-- **A build used as a plugin is run from another tree than it is mounted from.** -/
theorem plugin_resolves_whole_output :
    Consumer.buildInput.resolves treeSite pluginStore ⟨.build, [3]⟩ (Cover.numberKeys.fileKey [3]) =
      some (treeKey pluginDir) ∧
    (Consumer.plugin "p").resolves treeSite pluginStore ⟨.build, [3]⟩
      (Cover.numberKeys.fileKey [3]) = some (treeKey pluginOutputDir) ∧
    treeKey pluginDir ≠ treeKey pluginOutputDir := by
  have hk : treeSite.outside.inputKey ⟨.build, [3]⟩ = .ok (Cover.numberKeys.fileKey [3]) := rfl
  refine ⟨?_, ?_, ?_⟩
  · exact Consumer.resolves_of_not_plugin hk (artifactOf_plugin _ _) (by simp) rfl
  · exact (Consumer.plugin_resolves hk "p").mpr (.inr ⟨rfl, rfl⟩)
  · intro heq
    have hdir := Dir.key_inj.mp heq
    simp [pluginDir, pluginOutputDir] at hdir

end JobsIroh.Runner
