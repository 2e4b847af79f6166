/-
Recipe-declared source paths, from `recipe/sources.go`.

A path is the list of the parts between its slashes, as in `Lib/Filepath.lean`.  What a
spelling means is the walk over its components from the context root; the code cleans
the text instead, in three forms.  `normalizeSourcePath_ok` says that the two agree on
every spelling that does not begin with three slashes.
-/
import JobsIroh.Lib.Filepath
import JobsIroh.Cover.Walk

namespace Paths

/-- Where the components lead from `cur`; nothing lies above the root. -/
def walk (cur : Path) : Path → Option Path
  | [] => some cur
  | s :: p =>
    if isSkip s then walk cur p
    else if s = ".." then (if cur = [] then none else walk cur.dropLast p)
    else walk (cur ++ [s]) p

/-- Cleaning a relative path computes the walk, unless the path leaves the root. -/
theorem walk_eq (p : Path) :
    ∀ {cur : Path}, (∀ s ∈ cur, isName s = true) →
      walk cur p = if escapes (cleanFrom cur p) then none else some (cleanFrom cur p) := by
  induction p with
  | nil =>
    intro cur hcur
    have hesc : escapes cur = false := by
      cases cur with
      | nil => rfl
      | cons s cur => simpa [escapes] using (isName_iff.mp (hcur s (by simp))).2
    simp [walk, cleanFrom, hesc]
  | cons s p ih =>
    intro cur hcur
    rw [walk, cleanFrom, List.foldl_cons, cleanStep]
    split
    · exact ih hcur
    rename_i hskip
    split
    · rcases List.eq_nil_or_concat' cur with rfl | ⟨init, t, rfl⟩
      · have hesc : escapes (cleanFrom [".."] p) = true := escapes_cleanFrom p (by decide)
        simp only [cleanFrom] at hesc
        simp [hesc]
      · have ht : t ≠ ".." := (isName_iff.mp (hcur t (by simp))).2
        have hlast : ¬(init ++ [t] = [] ∨ (init ++ [t]).getLast? = some "..") := by simp [ht]
        rw [if_neg hlast, if_neg (by simp), List.dropLast_concat]
        exact ih fun r hr => hcur r (List.mem_append_left _ hr)
    · rename_i hup
      refine ih fun r hr => ?_
      rcases List.mem_append.mp hr with hr | hr
      · exact hcur r hr
      · rw [List.mem_singleton.mp hr]
        exact isName_of_steps hskip hup

variable {p : Path}

theorem names_of_walk {loc : Path} (h : walk [] p = some loc) : ∀ s ∈ loc, isName s = true := by
  rw [walk_eq p (by simp)] at h
  split at h
  · cases h
  · rename_i hesc
    obtain rfl := Option.some.inj h
    exact names_cleanFrom p (by simp) (by simpa using hesc)

theorem cleanFrom_append (acc p q : Path) :
    cleanFrom acc (p ++ q) = cleanFrom (cleanFrom acc p) q :=
  List.foldl_append

/-- The components of a cleaned relative path are clean already. -/
theorem cleanRel_comps (h : Ordered p) : cleanRel p = p := by
  obtain ⟨n, ns, rfl, hns⟩ := h
  have hups : cleanFrom [] (List.replicate n "..") = List.replicate n ".." := by
    induction n with
    | zero => rfl
    | succ n ih =>
      rw [List.replicate_succ', cleanFrom_append, ih, cleanFrom, List.foldl_cons, cleanStep,
        if_neg (by decide), if_pos rfl, if_pos, List.foldl_nil]
      cases n with
      | zero => exact .inl rfl
      | succ n => exact .inr (by rw [List.replicate_succ', List.getLast?_concat])
  rw [cleanRel, cleanFrom_append, hups]
  exact cleanFrom_names hns _

variable {c : Clean}

theorem Clean.parts_eq (h : c.abs = false) :
    c.parts = if c.comps = [] then ["."] else c.comps := by
  unfold Clean.parts
  rw [h]
  cases c.comps <;> rfl

theorem Clean.parts_abs (h : c.abs = true) : ∃ t out, c.parts = "" :: t :: out := by
  unfold Clean.parts
  rw [h]
  cases c.comps <;> exact ⟨_, _, rfl⟩

/-- `Clean` of a relative path. -/
theorem clean_rel (h : isAbs p = false) :
    (clean p).abs = false ∧ (clean p).comps = cleanRel p := by
  unfold clean
  rw [if_neg (by simp [h])]
  exact ⟨rfl, rfl⟩

theorem isAbs_cons {s : String} : isAbs (s :: p) = false ↔ ¬(s = "" ∧ p ≠ []) := by
  cases p with
  | nil => simp [isAbs]
  | cons t p => by_cases hs : s = "" <;> simp [isAbs, hs]

theorem isAbs_comps : isAbs c.comps = false := by
  cases h : c.comps with
  | nil => rfl
  | cons s p =>
    have hs := c.ordered.not_skip (s := s) (by simp [h])
    rw [isAbs_cons]
    rintro ⟨rfl, -⟩
    exact absurd hs (by decide)

theorem comps_clean_parts (h : c.abs = false) :
    (clean c.parts).abs = false ∧ (clean c.parts).comps = c.comps := by
  rw [Clean.parts_eq h]
  split
  · rename_i hnil
    rw [hnil]
    exact ⟨rfl, rfl⟩
  · obtain ⟨habs, hcomps⟩ := clean_rel (isAbs_comps)
    exact ⟨habs, hcomps.trans (cleanRel_comps c.ordered)⟩

end Paths

namespace JobsIroh.Recipe

open Paths
open JobsIroh.Cover (quoted)

/-- The two tests on a cleaned path: it stays inside the context root, and is not the root. -/
def landed (p : Path) (c : Clean) (against : String) : Except String Path :=
  if escapes c.parts then
    .error ("source path " ++ quoted p ++ " escapes the context root" ++ against)
  else if c.parts = ["."] ∨ c.parts = [""] then
    .error ("source path " ++ quoted p ++
      " resolves to the context root — cover specific paths instead")
  else .ok c.parts

/-- `NormalizeSourcePath`. -/
def normalizeSourcePath (p dir : Path) : Except String Path :=
  if p = [""] then .error "source path must be non-empty"
  else
    match p with
    | "" :: "" :: s :: rest => landed p (clean (s :: rest)) ""
    | "" :: _ :: _ =>
      .error ("source path " ++ quoted p ++
        " must not be absolute (use // for root-relative)")
    | _ => landed p (clean (join dir p).parts) (" (resolved against dir " ++ quoted dir ++ ")")

/-- The place in the context a spelling names, read component by component. -/
def location (p dir : Path) : Option Path :=
  match p with
  | "" :: "" :: s :: rest => walk [] (s :: rest)
  | _ => walk [] (dir ++ p)

/-- The spelling begins with three slashes. -/
def tripled : Path → Bool
  | "" :: "" :: "" :: _ :: _ => true
  | _ => false

/-! ### What is accepted is where the spelling leads -/

variable {p out : Path}

theorem landed_ok {c : Clean} {against : String} (habs : c.abs = false)
    (h : landed p c against = .ok out) :
    escapes c.comps = false ∧ c.comps ≠ [] ∧ out = c.comps := by
  unfold landed at h
  rw [Clean.parts_eq habs] at h
  by_cases hnil : c.comps = []
  · simp [hnil, escapes] at h
  · rw [if_neg hnil] at h
    split at h
    · cases h
    rename_i hesc
    split at h
    · cases h
    · exact ⟨by simpa using hesc, hnil, (Except.ok.inj h).symm⟩

theorem join_rel {dir : Path} (hdir : isAbs dir = false) (hp : isAbs p = false) :
    (join dir p).abs = false ∧ (join dir p).comps = cleanRel (dir ++ p) := by
  unfold join
  split
  · rename_i heq
    rw [heq]
    exact clean_rel hp
  · rename_i hne
    refine clean_rel ?_
    cases dir with
    | nil => exact hp
    | cons s dir =>
      rw [isAbs_cons] at hdir
      rw [List.cons_append, isAbs_cons]
      rintro ⟨rfl, -⟩
      exact hdir ⟨rfl, fun h => hne (by rw [h])⟩

/-- **An accepted spelling is stored as the place it names.** -/
theorem normalizeSourcePath_ok {dir : Path} (hdir : isAbs dir = false)
    (hp : tripled p = false) (h : normalizeSourcePath p dir = .ok out) :
    location p dir = some out ∧ out ≠ [] := by
  -- The rejected forms go first: the empty text, and one leading slash.
  unfold normalizeSourcePath at h
  split at h
  · cases h
  unfold location
  split at h
  · rename_i s rest _
    have hrel : isAbs (s :: rest) = false := by
      rw [isAbs_cons]
      rintro ⟨rfl, hne⟩
      obtain ⟨t, rest, rfl⟩ := List.exists_cons_of_ne_nil hne
      simp [tripled] at hp
    obtain ⟨habs, hcomps⟩ := clean_rel hrel
    obtain ⟨hesc, hne, rfl⟩ := landed_ok habs h
    rw [hcomps] at hesc hne ⊢
    refine ⟨?_, hne⟩
    simp only [@walk_eq _ [] (by simp)]
    rw [cleanRel] at hesc ⊢
    simp [hesc]
  · cases h
  · rename_i hdouble hsingle
    have hrel : isAbs p = false := by
      unfold isAbs
      split
      · rename_i t rest heq
        exact absurd rfl (hsingle t rest)
      · rfl
    obtain ⟨habs, hcomps⟩ := comps_clean_parts (join_rel hdir hrel).1
    rw [(join_rel hdir hrel).2] at hcomps
    obtain ⟨hesc, hne, rfl⟩ := landed_ok habs h
    rw [hcomps] at hesc hne ⊢
    refine ⟨?_, hne⟩
    rw [walk_eq _ (by simp)]
    rw [cleanRel] at hesc ⊢
    simp [hesc]

theorem landed_names (s : String) (hp : out ≠ [])
    (hnames : ∀ s ∈ out, isName s = true) : landed p (clean out) s = .ok out := by
  have hord : Ordered out := ⟨0, out, by simp, hnames⟩
  have hrel : isAbs out = false := isAbs_comps (c := ⟨false, out, hord⟩)
  have hparts : (clean out).parts = out := by
    rw [Clean.parts_eq (clean_rel hrel).1, (clean_rel hrel).2, cleanRel_comps hord, if_neg hp]
  obtain ⟨t, rest, rfl⟩ := List.exists_cons_of_ne_nil hp
  obtain ⟨hskip, hup⟩ := isName_iff.mp (hnames t (by simp))
  unfold landed
  rw [hparts, if_neg (by simpa [escapes] using hup), if_neg]
  rintro (h | h) <;> obtain ⟨rfl, -⟩ := List.cons.inj h <;> exact absurd hskip (by decide)

/-- Three slashes: what follows the first two is cleaned as an absolute path. -/
theorem normalizeSourcePath_tripled (dir : Path) (h : tripled p = true) :
    ∃ out, normalizeSourcePath p dir = .ok ("" :: out) := by
  unfold tripled at h
  split at h
  · rename_i s rest
    obtain ⟨t, out, hparts⟩ := Clean.parts_abs (c := clean ("" :: s :: rest)) rfl
    refine ⟨t :: out, ?_⟩
    show landed _ (clean ("" :: s :: rest)) "" = _
    unfold landed
    rw [hparts]
    simp [escapes]
  · cases h

/-! ### The stored form is canonical -/

/-- What one spelling of a covered path is held to. -/
structure Canonical (p dir : Path) : Prop where
  /-- A plain path: at least one name, and nothing but names. -/
  plain : ∀ out, normalizeSourcePath p dir = .ok out → out ≠ [] ∧ ∀ s ∈ out, isName s = true
  /-- The stored form, spelled from the root, is stored as itself. -/
  again : ∀ out dir', normalizeSourcePath p dir = .ok out →
    normalizeSourcePath ("" :: "" :: out) dir' = .ok out
  /-- A spelling that leaves the context or names its root is refused. -/
  refused : location p dir = none ∨ location p dir = some [] →
    ∃ e, normalizeSourcePath p dir = .error e

/-- Two spellings of one place are stored as one text. -/
def Agree (p q dir : Path) : Prop :=
  ∀ out out', normalizeSourcePath p dir = .ok out → normalizeSourcePath q dir = .ok out' →
    location p dir = location q dir → out = out'

theorem location_names {dir loc : Path} (h : location p dir = some loc) :
    ∀ s ∈ loc, isName s = true := by
  unfold location at h
  split at h <;> exact names_of_walk h

theorem canonical_of_untripled {dir : Path} (hdir : isAbs dir = false)
    (hp : tripled p = false) : Canonical p dir where
  plain out h := by
    obtain ⟨hloc, hne⟩ := normalizeSourcePath_ok hdir hp h
    exact ⟨hne, location_names hloc⟩
  again out dir' h := by
    obtain ⟨hloc, hne⟩ := normalizeSourcePath_ok hdir hp h
    have hlanded := landed_names (p := "" :: "" :: out) "" hne (location_names hloc)
    obtain ⟨s, rest, rfl⟩ := List.exists_cons_of_ne_nil hne
    exact hlanded
  refused hloc := by
    cases h : normalizeSourcePath p dir with
    | error e => exact ⟨e, rfl⟩
    | ok out =>
      obtain ⟨heq, hne⟩ := normalizeSourcePath_ok hdir hp h
      rw [heq] at hloc
      simp [hne] at hloc

theorem untripled_of_canonical {dir : Path} (h : Canonical p dir) : tripled p = false := by
  cases hp : tripled p with
  | false => rfl
  | true =>
    obtain ⟨out, hout⟩ := normalizeSourcePath_tripled dir hp
    exact absurd ((h.plain _ hout).2 "" (by simp)) (by decide)

/--
**Source paths are stored in one canonical form, unless they begin with three slashes.**
The build dir is relative; it need not be clean.
-/
theorem source_paths_canonical {p q dir : Path} (hdir : isAbs dir = false) :
    (Canonical p dir ∧ Canonical q dir ∧ Agree p q dir) ↔
      (tripled p = false ∧ tripled q = false) := by
  constructor
  · rintro ⟨hp, hq, -⟩
    exact ⟨untripled_of_canonical hp, untripled_of_canonical hq⟩
  · rintro ⟨hp, hq⟩
    refine ⟨canonical_of_untripled hdir hp, canonical_of_untripled hdir hq, ?_⟩
    intro out out' h h' hsame
    rw [(normalizeSourcePath_ok hdir hp h).1, (normalizeSourcePath_ok hdir hq h').1] at hsame
    exact Option.some.inj hsame

/-- `"../lib"` from `svc/api`, and `"//svc/lib"`. -/
theorem source_paths_sibling :
    Canonical ["..", "lib"] ["svc", "api"] ∧ Canonical ["", "", "svc", "lib"] ["svc", "api"] ∧
      Agree ["..", "lib"] ["", "", "svc", "lib"] ["svc", "api"] :=
  (source_paths_canonical (by decide)).mpr ⟨by decide, by decide⟩

/-- `"///lib"` is stored as `"/lib"`, an absolute path, where `"//lib"` gives `"lib"`. -/
theorem source_paths_tripled :
    normalizeSourcePath ["", "", "", "lib"] ["svc"] = .ok ["", "lib"] ∧
      normalizeSourcePath ["", "", "lib"] ["svc"] = .ok ["lib"] ∧
      location ["", "", "", "lib"] ["svc"] = location ["", "", "lib"] ["svc"] ∧
      ¬Canonical ["", "", "", "lib"] ["svc"] :=
  ⟨by decide, by decide, by decide, fun h => by simpa [tripled] using untripled_of_canonical h⟩

end JobsIroh.Recipe
