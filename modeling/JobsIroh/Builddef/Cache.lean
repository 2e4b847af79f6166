/-
Build caches and the paths of the sandbox (`builddef/cache.go`, `runner/buildexec_linux.go`,
`runner/hermeticetc.go`, `sandbox/reexec_linux.go`).

A cache is mounted read-write at a path its recipe chooses.  Paths are lists of the parts
between the slashes, as in `Lib/Filepath.lean`; one lies inside another when the other is a
beginning of it.
-/
import JobsIroh.Builddef
import JobsIroh.Cover.Walk
import JobsIroh.Lib.Filepath

namespace JobsIroh.Cache

open Paths
open Cover (quoted)

/-- `PinnedCache`, its path cut at the slashes. -/
structure Mount where
  path : Path
  id : String

/-! ### What a recipe may declare -/

/-- `/jobs`, `/build/src`, `/build/out`, `/dev`, `/proc`, `/tmp`. -/
def reservedCachePrefixes : List Path :=
  [["", "jobs"], ["", "build", "src"], ["", "build", "out"], ["", "dev"], ["", "proc"],
    ["", "tmp"]]

def validateCachePath (p : Path) : Except String Unit :=
  if isAbs p = false then .error ("cache path " ++ quoted p ++ ": must be absolute")
  else if p ≠ (clean p).parts then
    .error ("cache path " ++ quoted p ++ ": must be clean (want " ++ quoted (clean p).parts ++ ")")
  else if p = ["", ""] then .error "cache path must not be \"/\""
  else if p = ["", "build"] then
    .error ("cache path " ++ quoted p ++ ": the sandbox work root is reserved")
  else
    match reservedCachePrefixes.find? (·.isPrefixOf p) with
    | some res =>
      .error ("cache path " ++ quoted p ++ ": " ++ "/".intercalate res ++ " is reserved")
    | none => .ok ()

/-- Each declaration, and that no id or path comes twice. -/
def validateEach (ids : List String) (paths : List Path) : List Mount → Except String Unit
  | [] => .ok ()
  | c :: cs =>
    match validateCachePath c.path with
    | .error e => .error e
    | .ok () =>
      if validateCacheID c.id = false then
        .error ("cache id \"" ++ c.id ++ "\": " ++
          if maxCacheIDLen < c.id.utf8ByteSize then "longer than 128 bytes"
          else "must match ^[a-zA-Z0-9][a-zA-Z0-9._-]*$")
      else if c.id ∈ ids then .error ("duplicate cache id \"" ++ c.id ++ "\"")
      else if c.path ∈ paths then .error ("duplicate cache path " ++ quoted c.path)
      else validateEach (c.id :: ids) (c.path :: paths) cs

/-- A cache path that lies inside another one. -/
def nested (cs : List Mount) : Option (Mount × Mount) :=
  (cs.product cs).find? fun ab => ab.1.path ≠ ab.2.path ∧ ab.2.path.isPrefixOf ab.1.path

def validateCaches (cs : List Mount) : Except String Unit :=
  match validateEach [] [] cs with
  | .error e => .error e
  | .ok () =>
    match nested cs with
    | some (a, b) => .error ("cache path " ++ quoted a.path ++ " nests inside cache path " ++
        quoted b.path)
    | none => .ok ()

/-! ### What the executor provisions -/

def sandboxStoreDir : Path := ["", "jobs", "store"]
def sandboxSrcDir : Path := ["", "build", "src"]
def sandboxOutDir : Path := ["", "build", "out"]
def sandboxJobsDepsFile : Path := ["", "build", ".jobs-deps.json"]
def sandboxScriptFile : Path := ["", "build", ".jobs-script.sh"]

/-- `hermeticDevMounts`: the symlinks it makes and the nodes it binds. -/
def hermeticDev : List Path :=
  ["fd", "stdin", "stdout", "stderr", "null", "zero", "full", "random", "urandom"].map
    (["", "dev", ·])

/-- `writeHermeticEtc`. -/
def hermeticEtc : List Path := [["", "etc"], ["", "etc", "hosts"], ["", "etc", "resolv.conf"]]

/-- Everything `assembleSandbox` and `childSetup` put in place beside the caches. -/
def provisioned : List Path :=
  [sandboxStoreDir, sandboxSrcDir, sandboxOutDir, sandboxJobsDepsFile, sandboxScriptFile,
    ["", "dev"], ["", "tmp"], ["", "proc"]] ++ hermeticDev ++ hermeticEtc

/-- The provisioned paths that lie under no reserved one. -/
def unreserved : List Path := [["", "etc"], sandboxJobsDepsFile, sandboxScriptFile]

/-- Neither equals, contains or lies inside the other. -/
def Apart (p q : Path) : Prop := ¬p <+: q ∧ ¬q <+: p

/-- The caches keep out of each other's way and of everything that is provisioned. -/
structure Separate (cs : List Mount) : Prop where
  caches : cs.Pairwise fun a b => Apart a.path b.path
  sandbox : ∀ c ∈ cs, ∀ q ∈ provisioned, Apart c.path q

/-! ### The two lists against each other -/

/-- What is left of a path that passed the check. -/
structure Allowed (p : Path) : Prop where
  long : 2 ≤ p.length
  notBuild : p ≠ ["", "build"]
  free : ∀ r ∈ reservedCachePrefixes, ¬r <+: p

theorem allowed_of_validate {p : Path} (h : validateCachePath p = .ok ()) : Allowed p := by
  unfold validateCachePath at h
  split at h
  · cases h
  rename_i habs
  split at h
  · cases h
  split at h
  · cases h
  split at h
  · cases h
  rename_i hbuild
  split at h
  · cases h
  rename_i hfind
  refine ⟨?_, hbuild, fun r hr hp => ?_⟩
  · match p, habs with
    | [], habs => exact absurd rfl habs
    | [s], habs => exact absurd (by simp [isAbs]) habs
    | _ :: _ :: _, _ => simp
  · exact List.find?_eq_none.mp hfind r hr (List.isPrefixOf_iff_prefix.mpr hp)

theorem validateEach_ok (cs : List Mount) :
    ∀ {ids : List String} {paths : List Path}, validateEach ids paths cs = .ok () →
      (∀ c ∈ cs, Allowed c.path ∧ c.path ∉ paths) ∧ (cs.map (·.path)).Nodup := by
  induction cs with
  | nil => intro ids paths _; simp
  | cons c cs ih =>
    intro ids paths h
    rw [validateEach] at h
    split at h
    · cases h
    rename_i hpath
    split at h
    · cases h
    split at h
    · cases h
    split at h
    · cases h
    rename_i hnew
    obtain ⟨hall, hnodup⟩ := ih h
    refine ⟨fun d hd => ?_, ?_⟩
    · rcases List.mem_cons.mp hd with rfl | hd
      · exact ⟨allowed_of_validate hpath, hnew⟩
      · exact ⟨(hall d hd).1, fun hmem => (hall d hd).2 (List.mem_cons_of_mem _ hmem)⟩
    · rw [List.map_cons, List.nodup_cons]
      refine ⟨fun hmem => ?_, hnodup⟩
      obtain ⟨d, hd, heq⟩ := List.mem_map.mp hmem
      exact (hall d hd).2 (heq ▸ List.mem_cons_self)

theorem caches_apart {cs : List Mount} (hnest : nested cs = none)
    (hnodup : (cs.map (·.path)).Nodup) : cs.Pairwise fun a b => Apart a.path b.path := by
  have hinside : ∀ a ∈ cs, ∀ b ∈ cs, a.path ≠ b.path → ¬b.path <+: a.path := by
    intro a ha b hb hne hp
    have hnot := List.find?_eq_none.mp hnest (a, b) (List.pair_mem_product.mpr ⟨ha, hb⟩)
    exact hnot (by simpa [hne] using hp)
  refine (List.pairwise_map.mp hnodup).imp_of_mem fun {a b} ha hb hne => ?_
  exact ⟨hinside b hb a ha (Ne.symm hne), hinside a ha b hb hne⟩

/-- Every beginning of a provisioned path is `/`, `/build`, or under a listed path. -/
theorem provisioned_listed : ∀ q ∈ provisioned, ∀ p ∈ q.inits, p.length < 2 ∨
    p = ["", "build"] ∨ ∃ r ∈ reservedCachePrefixes ++ unreserved, r <+: p := by
  decide

/--
**Accepted caches keep clear of the sandbox's own paths, except of `/etc` and of the two files
in `/build`**: those are provisioned and not reserved.
-/
theorem caches_separate {cs : List Mount} (h : validateCaches cs = .ok ()) :
    Separate cs ↔ ∀ c ∈ cs, ∀ r ∈ unreserved, ¬r <+: c.path := by
  unfold validateCaches at h
  split at h
  · cases h
  rename_i heach
  split at h
  · cases h
  rename_i hnest
  obtain ⟨hall, hnodup⟩ := validateEach_ok cs heach
  constructor
  · intro hsep c hc r hr
    have hprov : ∀ r ∈ unreserved, r ∈ provisioned := by decide
    exact (hsep.sandbox c hc r (hprov r hr)).2
  · intro hfree
    refine ⟨caches_apart hnest hnodup, fun c hc q hq => ?_⟩
    have hallowed := (hall c hc).1
    have hlisted : ∀ r ∈ reservedCachePrefixes ++ unreserved, ¬r <+: c.path := by
      intro r hr
      rcases List.mem_append.mp hr with hr | hr
      · exact hallowed.free r hr
      · exact hfree c hc r hr
    refine ⟨fun hin => ?_, fun hout => ?_⟩
    · rcases provisioned_listed q hq _ (List.mem_inits _ _ |>.mpr hin) with hshort | hbuild | hr
      · have := hallowed.long
        omega
      · exact hallowed.notBuild hbuild
      · obtain ⟨r, hr, hp⟩ := hr
        exact hlisted r hr hp
    · have hself : ∀ q ∈ provisioned, ∃ r ∈ reservedCachePrefixes ++ unreserved, r <+: q := by
        decide
      obtain ⟨r, hr, hp⟩ := hself q hq
      exact hlisted r hr (hp.trans hout)

/-- A Go cache and a cargo cache. -/
theorem caches_separate_two :
    Separate [⟨["", "build", "cache"], "go"⟩, ⟨["", "root", ".cargo"], "cargo"⟩] :=
  (caches_separate (by decide)).mpr (by decide)

/-- A cache may be declared at the path of the build script, and at `/etc`. -/
theorem caches_hide_script :
    validateCaches [⟨sandboxScriptFile, "a"⟩, ⟨["", "etc"], "b"⟩] = .ok () ∧
      ¬Separate [⟨sandboxScriptFile, "a"⟩, ⟨["", "etc"], "b"⟩] := by
  refine ⟨by decide, fun h => ?_⟩
  exact (h.sandbox ⟨sandboxScriptFile, "a"⟩ (by simp) sandboxScriptFile (by decide)).1
    (List.prefix_refl _)

end JobsIroh.Cache
