/-
Missing declared sources, and the order of the declared paths.

`cover` keeps one set of visited paths for two kinds of visits.  A declared path that does
not exist is an error; the target of a symlink that does not exist is kept with a warning,
and marked as visited all the same.  A declared path that a symlink led to before its own
turn is skipped, missing or not.

The walk fails for three reasons only: a path it has to look at cannot be resolved or a
link leads outside (`Halts`), whatever the order; or a declared path is missing and nothing
before it led there.  So it goes wrong when every missing declared path is the target of
some link that the others lead to (`Overlooked`), and this is the only way in which the
order matters.

Whether a path exists is for a system to say, which goes component by component (`Misses`).
The walk cleans the targets of links as strings, and does not follow a link at the end of a
declared path; on paths where neither makes a difference (`Agreed`) it sees what is missing.
-/
import JobsIroh.Proofs.CoverClosure
import Mathlib.Data.Finset.Card

namespace JobsIroh.Cover

open JobsIroh.Tree
open Paths (isAbs cleanRel escapes Misses)

/-! ### Reasons to fail -/

/-- A link target that the walk does not follow. -/
def Outside (ℓ target : Path) : Prop :=
  isAbs target = true ∨ escapes (cleanRel (ℓ.dropLast ++ target)) = true

/-- A path at which the walk fails, however it was come by. -/
inductive Stops (root : Dir) (allow : List Path) (p : Path) : Prop
  | failed {text : String} (hout : (resolve root p).2 = .failed text)
  | leaves {loc x target : Path} {node : Node} (hout : (resolve root p).2 = .found loc node)
      (hlink : node.LinkAt x target) (houtside : Outside (loc ++ x) target)
      (hallow : loc ++ x ∉ allow)

/-- The walk has to look at a path at which it fails. -/
def Halts (root : Dir) (allow seeds : List Path) : Prop :=
  ∃ p, Needs root seeds p ∧ Stops root allow p

/-- Why the links at a node could not be followed. -/
inductive Failing (next : Path → Walker → Except CoverError Walker) (allow : List Path) (loc : Path)
    (node : Node) (w : Walker) (e : CoverError) : Prop
  | leaves {x target : Path} (text : String) (hlink : node.LinkAt x target)
      (houtside : Outside (loc ++ x) target) (hallow : loc ++ x ∉ allow) (he : e = .failed text)
  | target {x target : Path} (w' : Walker) (hlink : node.LinkAt x target)
      (habs : isAbs target = false)
      (hesc : escapes (cleanRel ((loc ++ x).dropLast ++ target)) = false)
      (hgrows : w.visited ⊆ w'.visited)
      (hnext : next (cleanRel ((loc ++ x).dropLast ++ target)) w' = .error e)

section Failing

variable {root : Dir} {allow seeds : List Path} {w w' : Walker} {e : CoverError}
  {next : Path → Walker → Except CoverError Walker}

theorem Failing.mono {loc : Path} {node : Node} (h : Failing next allow loc node w' e)
    (hgrows : w.visited ⊆ w'.visited) : Failing next allow loc node w e := by
  cases h with
  | leaves text hlink houtside hallow he => exact .leaves text hlink houtside hallow he
  | target w'' hlink habs hesc hsub hnext =>
    exact .target w'' hlink habs hesc (List.Subset.trans hgrows hsub) hnext

/-- A failure at a node below is one at the node. -/
theorem Failing.below {loc y : Path} {node inner : Node}
    (hlinks : ∀ {x target}, inner.LinkAt x target → node.LinkAt (y ++ x) target)
    (h : Failing next allow (loc ++ y) inner w e) : Failing next allow loc node w e := by
  cases h with
  | leaves text hlink houtside hallow he =>
    rw [List.append_assoc] at houtside hallow
    exact .leaves text (hlinks hlink) houtside hallow he
  | target w' hlink habs hesc hsub hnext =>
    rw [List.append_assoc] at hesc hnext
    exact .target w' (hlinks hlink) habs hesc hsub hnext

variable {x : Path}

theorem chaseLink_error {loc target : Path} {node : Node} (hlink : node.LinkAt x target)
    (h : chaseLink next allow (loc ++ x) target w = .error e) :
    Failing next allow loc node w e := by
  unfold chaseLink at h
  split at h
  · rename_i habs
    split at h
    · simp at h
    · rename_i hallow
      exact .leaves _ hlink (Or.inl habs) hallow (by simpa using h.symm)
  · rename_i habs
    split at h
    · rename_i hesc
      split at h
      · simp at h
      · rename_i hallow
        exact .leaves _ hlink (Or.inr hesc) hallow (by simpa using h.symm)
    · rename_i hesc
      exact .target w hlink (by simpa using habs) (by simpa using hesc) (List.Subset.refl _) h

theorem scanDir_error (hnext : Covering root allow seeds next) (d : Dir) :
    ∀ {loc : Path} {w : Walker}, d.WF →
      Needed root seeds loc (.sub d) →
      scanDir (chaseLink next allow) loc d w = .error e →
      Failing next allow loc (.sub d) w e := by
  induction d with
  | nil => intro loc w _ _ h; simp [scanDir] at h
  | leaf a l rest ih =>
    intro loc w hwf hneeds h
    have hrest : ∀ {w'}, scanDir (chaseLink next allow) loc rest w' = .error e →
        Failing next allow loc (.sub (.leaf a l rest)) w' e := by
      intro w' h'
      have := ih hwf.2.2 (fun hx => hneeds (linkAt_leaf_rest hwf hx)) h'
      exact Failing.below (y := []) (linkAt_leaf_rest hwf) (by simpa using this)
    cases l with
    | link t =>
      have hself : (Node.sub (.leaf a (.link t) rest)).LinkAt [a.name] t :=
        ⟨a, (Dir.get_leaf_iff hwf).mpr (Or.inl ⟨rfl, rfl⟩)⟩
      rw [scanDir] at h
      cases hc : chaseLink next allow (loc ++ [a.name]) t w with
      | error e' =>
        obtain rfl : e' = e := by simpa [hc] using h
        exact chaseLink_error hself hc
      | ok =>
        rw [hc] at h
        obtain ⟨hgrows, -⟩ := chaseLink_spec hnext (hneeds hself) hc
        exact (hrest h).mono hgrows.visited
    | file | special =>
      rw [scanDir] at h
      · exact hrest h
      · simp
  | sub a s rest ihs ih =>
    intro loc w hwf hneeds h
    rw [scanDir] at h
    cases hc : scanDir (chaseLink next allow) (loc ++ [a.name]) s w with
    | error e' =>
      obtain rfl : e' = e := by simpa [hc] using h
      exact (ihs hwf.2.2.1 (hneeds.inner hwf) hc).below (linkAt_sub_inner hwf)
    | ok w₁ =>
      rw [hc] at h
      obtain ⟨hgrows, -⟩ := scanDir_spec hnext s hwf.2.2.1 (hneeds.inner hwf) hc
      have := ih hwf.2.2.2 (fun hx => hneeds (linkAt_sub_rest hwf hx)) h
      have hbelow : Failing next allow loc (.sub (.sub a s rest)) w₁ e :=
        Failing.below (y := []) (linkAt_sub_rest hwf) (by simpa using this)
      exact hbelow.mono hgrows.visited

theorem follow_error (hnext : Covering root allow seeds next) {loc : Path} {node : Node}
    (hwf : ∀ d, node = .sub d → d.WF)
    (hneeds : Needed root seeds loc node)
    (h : follow next allow loc node w = .error e) : Failing next allow loc node w e := by
  cases node with
  | sub d => exact scanDir_error hnext d (hwf d rfl) hneeds h
  | leaf l =>
    cases l with
    | link t =>
      have hself : (Node.leaf (.link t)).LinkAt [] t := ⟨rfl, rfl⟩
      rw [follow, ← List.append_nil loc] at h
      exact chaseLink_error hself h
    | file | special => simp [follow] at h

end Failing

/-! ### The fuel that suffices -/

/-- Every entry below a directory, and the cleaned target of every link. -/
def places (loc : Path) : Dir → List Path
  | .nil => []
  | .leaf a (.link target) rest =>
    (loc ++ [a.name]) :: cleanRel (loc ++ target) :: places loc rest
  | .leaf a _ rest => (loc ++ [a.name]) :: places loc rest
  | .sub a d rest => (loc ++ [a.name]) :: (places (loc ++ [a.name]) d ++ places loc rest)

/-- What a walk may come to. -/
def reach (root : Dir) (seeds : List Path) : List Path := seeds ++ places [] root

/-- The fuel of a walk: every call of `cover` beyond one of it visits something new. -/
def enough (root : Dir) (seeds : List Path) : Nat := (reach root seeds).length + 1

theorem mem_places_leaf {loc : Path} {a : Attr} {l : Leaf} {rest : Dir} {q : Path}
    (h : q = loc ++ [a.name] ∨ q ∈ places loc rest) : q ∈ places loc (.leaf a l rest) := by
  cases l <;> rcases h with rfl | h <;> simp [places, *]

theorem mem_places (d : Dir) : ∀ (loc : Path) {x : Path} {a : Attr} {node : Node}, d.WF →
    d.get x = some (a, node) → loc ++ x ∈ places loc d ∧ ∀ target, node = .leaf (.link target) →
      cleanRel ((loc ++ x).dropLast ++ target) ∈ places loc d := by
  induction d with
  | nil => intro loc x a node _ h; cases x <;> simp [Dir.get_cons, Dir.find] at h
  | leaf b l rest ih =>
    intro loc x a node hwf h
    rcases (Dir.get_leaf_iff hwf).mp h with ⟨rfl, he⟩ | h
    · refine ⟨mem_places_leaf (Or.inl rfl), fun target ht => ?_⟩
      obtain rfl : l = .link target := by simpa [ht] using (congrArg Prod.snd he).symm
      simp [places]
    · obtain ⟨hx, htarget⟩ := ih loc hwf.2.2 h
      exact ⟨mem_places_leaf (Or.inr hx), fun t ht => mem_places_leaf (Or.inr (htarget t ht))⟩
  | sub b s rest ihs ih =>
    intro loc x a node hwf h
    rcases (Dir.get_sub_iff hwf).mp h with ⟨rfl, he⟩ | ⟨y, rfl, hy⟩ | h
    · obtain ⟨-, rfl⟩ : _ ∧ node = .sub s := by simpa using he
      simp [places]
    · have := ihs (loc ++ [b.name]) hwf.2.2.1 hy
      rw [List.append_assoc, List.singleton_append] at this
      exact ⟨by simp [places, this.1], fun t ht =>
        List.mem_cons_of_mem _ (List.mem_append_left _ (this.2 t ht))⟩
    · obtain ⟨hx, htarget⟩ := ih loc hwf.2.2.2 h
      exact ⟨by simp [places, hx], fun t ht => by simp [places, htarget t ht]⟩

/-- A link of a node is a link of the context. -/
theorem get_of_linkAt {root : Dir} {loc x target : Path} {a : Attr} {node : Node}
    (hloc : root.get loc = some (a, node)) (hlink : node.LinkAt x target) :
    ∃ b, root.get (loc ++ x) = some (b, .leaf (.link target)) := by
  cases node with
  | leaf l =>
    obtain ⟨rfl, rfl⟩ : x = [] ∧ l = .link target := hlink
    exact ⟨a, by simpa using hloc⟩
  | sub =>
    obtain ⟨b, hget⟩ := hlink
    exact ⟨b, by rw [get_below (Dir.ne_nil_of_get hget) hloc]; exact hget⟩

theorem Needs.mem_reach {root : Dir} {seeds : List Path} (hwf : root.WF) {p : Path}
    (h : Needs root seeds p) : p ∈ reach root seeds := by
  cases h with
  | seed hp => exact List.mem_append_left _ hp
  | @located p loc node _ hfound =>
    obtain ⟨a, hget⟩ := (resolve_resolution root p).get hfound
    have := (mem_places root [] hwf hget).1
    exact List.mem_append_right _ (by simpa using this)
  | @target p loc x target node _ hfound hlink _ _ =>
    obtain ⟨a, hget⟩ := (resolve_resolution root p).get hfound
    obtain ⟨b, htarget⟩ := get_of_linkAt hget hlink
    have := (mem_places root [] hwf htarget).2 _ rfl
    exact List.mem_append_right _ (by simpa using this)

/-- What may still be visited. -/
def left (root : Dir) (seeds : List Path) (w : Walker) : Nat :=
  ((reach root seeds).toFinset \ w.visited.toFinset).card

section Left

variable {root : Dir} {allow seeds : List Path} {w w' : Walker}

variable {p : Path}

theorem left_lt (hp : p ∈ reach root seeds) (hnew : p ∉ w.visited)
    (h : p :: w.visited ⊆ w'.visited) : left root seeds w' < left root seeds w := by
  refine Finset.card_lt_card ((Finset.ssubset_iff_of_subset ?_).mpr ⟨p, ?_, ?_⟩)
  · refine Finset.sdiff_subset_sdiff (Finset.Subset.refl _) ?_
    intro q hq
    simpa using h (List.mem_cons_of_mem _ (by simpa using hq))
  · simp [hp, hnew]
  · simpa using fun _ => h List.mem_cons_self

theorem left_lt_enough (root : Dir) (seeds : List Path) (w : Walker) :
    left root seeds w < enough root seeds :=
  Nat.lt_succ_of_le (le_trans (Finset.card_le_card Finset.sdiff_subset)
    (List.toFinset_card_le _))

/-! ### Every reason to fail -/

/-- Why a path could not be covered. -/
inductive Fails (root : Dir) (allow seeds : List Path) (fuel : Nat) (p : Path) (declared : Bool)
    (w : Walker) : CoverError → Prop
  | fuel (hleft : fuel ≤ left root seeds w) : Fails root allow seeds fuel p declared w .outOfFuel
  | halts {text : String} (h : Halts root allow seeds) :
      Fails root allow seeds fuel p declared w (.failed text)
  | missing {text : String} (hdeclared : declared = true) (hnew : p ∉ w.visited)
      (hout : (resolve root p).2 = .missing) :
      Fails root allow seeds fuel p declared w (.failed text)

/-- A call further down has less fuel, and fewer paths left to visit. -/
theorem Fails.of_call {fuel : Nat} {q : Path} {declared : Bool} {e : CoverError}
    (hp : p ∈ reach root seeds) (hnew : p ∉ w.visited) (hsub : p :: w.visited ⊆ w'.visited)
    (h : Fails root allow seeds fuel q false w' e) :
    Fails root allow seeds (fuel + 1) p declared w e := by
  cases h with
  | fuel hleft => exact .fuel (Nat.succ_le_of_lt (lt_of_le_of_lt hleft (left_lt hp hnew hsub)))
  | halts h => exact .halts h
  | missing hdeclared => simp at hdeclared

theorem cover_error (hwf : root.WF) (fuel : Nat) :
    ∀ {p : Path} {declared : Bool} {w : Walker} {e : CoverError}, Needs root seeds p →
      cover root allow fuel p declared w = .error e →
      Fails root allow seeds fuel p declared w e := by
  induction fuel with
  | zero =>
    intro p declared w e _ h
    obtain rfl : .outOfFuel = e := by simpa [cover] using h
    exact .fuel (Nat.zero_le _)
  | succ fuel ih =>
    intro p declared w e hneeds h
    have hnext : Covering root allow seeds (fun q => cover root allow fuel q false) :=
      fun hq hc => cover_spec hwf fuel hq hc
    have hreach := hneeds.mem_reach hwf
    rw [cover] at h
    split at h
    · simp at h
    rename_i hnew
    rcases hres : resolve root p with ⟨links, out⟩
    rw [hres] at h
    cases out with
    | failed text =>
      obtain rfl : .failed text = e := by simpa using h
      exact .halts ⟨p, hneeds, .failed (by rw [hres])⟩
    | missing =>
      dsimp only at h
      split at h
      · rename_i hdeclared
        obtain rfl : _ = e := by simpa using h
        exact .missing hdeclared hnew (by rw [hres])
      · simp at h
    | found loc node =>
      have hout : (resolve root p).2 = .found loc node := by rw [hres]
      dsimp only at h
      split at h
      · -- The place the path led to could not be covered.
        rename_i e' he
        obtain rfl : e' = e := by simpa using h
        split at he
        · simp at he
        · exact (ih (.located hneeds hout) he).of_call hreach hnew (List.Subset.refl _)
      · rename_i w₂ hw₂
        have hsub : p :: w.visited ⊆ w₂.visited := by
          split at hw₂
          · obtain rfl : _ = w₂ := by simpa using hw₂
            exact List.Subset.refl _
          · exact (cover_spec hwf fuel (.located hneeds hout) hw₂).1.visited
        obtain ⟨a, hget⟩ := (resolve_resolution root p).get hout
        cases follow_error hnext (fun d hd => hwf.get (by rw [hget, hd]))
            (fun hx => .target hneeds hout hx) h with
        | leaves text hlink houtside hallow he =>
          subst he
          exact .halts ⟨p, hneeds, .leaves hout hlink houtside hallow⟩
        | target w' hlink habs hesc hgrows hfailed =>
          exact (ih (.target hneeds hout hlink habs hesc) hfailed).of_call hreach hnew
            (List.Subset.trans hsub hgrows)

theorem coverAll_append {fuel : Nat} {qs : List Path} : ∀ (ps : List Path) (w : Walker),
    coverAll root allow fuel (ps ++ qs) w =
      (coverAll root allow fuel ps w).bind (coverAll root allow fuel qs) := by
  intro ps
  induction ps with
  | nil => intro w; rfl
  | cons p ps ih =>
    intro w
    rw [List.cons_append, coverAll, coverAll]
    cases cover root allow fuel p true w with
    | error => rfl
    | ok w' => exact ih w'

/-- A path that is missing has its turn before anything led to it. -/
def Unannounced (root : Dir) (seeds : List Path) : Prop :=
  ∃ before p after, seeds = before ++ p :: after ∧ (resolve root p).2 = .missing ∧
    ¬ Needs root before p

theorem Needs.mono {seeds' : List Path} (hsub : seeds ⊆ seeds')
    (h : Needs root seeds p) : Needs root seeds' p := by
  induction h with
  | seed hp => exact .seed (hsub hp)
  | located _ hfound ih => exact .located ih hfound
  | target _ hfound hlink habs hesc ih => exact .target ih hfound hlink habs hesc

theorem coverAll_error (hwf : root.WF) {fuel : Nat} (hfuel : enough root seeds ≤ fuel)
    {e : CoverError} (h : coverAll root allow fuel seeds {} = .error e) :
    (∃ text, e = .failed text) ∧ (Halts root allow seeds ∨ Unannounced root seeds) := by
  suffices hgen : ∀ (ps before : List Path) (w : Walker), seeds = before ++ ps →
      coverAll root allow fuel before {} = .ok w → coverAll root allow fuel ps w = .error e →
      (∃ text, e = .failed text) ∧ (Halts root allow seeds ∨ Unannounced root seeds) from
    hgen seeds [] {} rfl rfl h
  intro ps
  induction ps with
  | nil => intro before w _ _ h; simp [coverAll] at h
  | cons p ps ih =>
    intro before w hseeds hbefore h
    have hp : Needs root seeds p := .seed (by simp [hseeds])
    rw [coverAll] at h
    cases hc : cover root allow fuel p true w with
    | ok w₁ =>
      rw [hc] at h
      refine ih (before ++ [p]) w₁ (by simp [hseeds]) ?_ h
      rw [coverAll_append, hbefore]
      simp only [Except.bind, coverAll, hc]
    | error e' =>
      obtain rfl : e' = e := by simpa [hc] using h
      cases cover_error hwf fuel hp hc with
      | fuel =>
        have := left_lt_enough root seeds w
        omega
      | halts hhalts => exact ⟨⟨_, rfl⟩, Or.inl hhalts⟩
      | missing _ hnew hout =>
        refine ⟨⟨_, rfl⟩, Or.inr ⟨before, p, ps, hseeds, hout, ?_⟩⟩
        intro hneeds
        exact hnew ((coverAll_complete hwf hbefore).needed p hneeds)

theorem not_halts_of_complete (h : Complete root allow seeds w) : ¬ Halts root allow seeds := by
  rintro ⟨p, hneeds, hstops⟩
  obtain ⟨-, hdone⟩ := h.done p (h.needed p hneeds)
  cases hstops with
  | failed hout => exact hdone.ok _ hout
  | leaves hout hlink houtside hallow =>
    exact hallow (((hdone.found hout).2.2 _ _ hlink).allowed houtside)

theorem announced_of_ok (hwf : root.WF) {fuel : Nat}
    (h : coverAll root allow fuel seeds {} = .ok w) : ¬ Unannounced root seeds := by
  rintro ⟨before, p, after, rfl, hout, hnot⟩
  cases hb : coverAll root allow fuel before {} with
  | error e => simp [coverAll_append, hb, Except.bind] at h
  | ok w₁ =>
    rw [coverAll_append, hb] at h
    simp only [Except.bind, coverAll] at h
    have hseen : p ∉ w₁.visited := fun hp => hnot ((coverAll_complete hwf hb).done p hp).1
    cases hc : cover root allow fuel p true w₁ with
    | error => simp [hc] at h
    | ok =>
      cases fuel with
      | zero => simp [cover] at hc
      | succ =>
        rcases hres : resolve root p with ⟨links, out⟩
        obtain rfl : out = .missing := by rw [hres] at hout; exact hout
        simp [cover, hseen, hres] at hc

/-- **When the walk succeeds**: nothing makes it halt, and every missing path was announced. -/
theorem coverAll_ok_iff (hwf : root.WF) {fuel : Nat} (hfuel : enough root seeds ≤ fuel) :
    (∃ w, coverAll root allow fuel seeds {} = .ok w) ↔
      ¬ Halts root allow seeds ∧ ¬ Unannounced root seeds := by
  constructor
  · rintro ⟨w, h⟩
    exact ⟨not_halts_of_complete (coverAll_complete hwf h), announced_of_ok hwf h⟩
  · rintro ⟨hhalts, hannounced⟩
    cases h : coverAll root allow fuel seeds {} with
    | ok w => exact ⟨w, rfl⟩
    | error =>
      rcases (coverAll_error hwf hfuel h).2 with hc | hc
      · exact absurd hc hhalts
      · exact absurd hc hannounced

theorem Complete.covered_iff (h : Complete root allow seeds w) (c : Path) :
    c ∈ w.covered ↔ ∃ q, Needs root seeds q ∧ Traced root q c := by
  constructor
  · intro hc
    obtain ⟨q, hq, htraced⟩ := h.traced c hc
    exact ⟨q, (h.done q hq).1, htraced⟩
  · rintro ⟨q, hneeds, htraced⟩
    obtain ⟨-, hdone⟩ := h.done q (h.needed q hneeds)
    rcases htraced with hlink | ⟨rfl, loc, node, hfound⟩
    · exact hdone.links hlink
    · exact (hdone.found hfound).1

end Left

/-! ### The two walks -/

/-- With the build dir as a seed, or from a complete closure. -/
inductive Mode where
  | walk
  | walkClosure
  deriving DecidableEq, Repr

namespace Mode

/-- What is visited before the declared paths. -/
def first : Mode → Path → List Path
  | .walk, dir => if dir = [""] then [] else [dir]
  | .walkClosure, _ => []

def run : Mode → Dir → Path → List Path → List Path → Nat → Except CoverError WalkResult
  | .walk => Cover.walk
  | .walkClosure => Cover.walkClosure

/-- A complete closure has to lead to the build dir. -/
def CoversDir (root : Dir) (dir : Path) (seeds : List Path) : Mode → Prop
  | .walk => True
  | .walkClosure => dir = [""] ∨
      ∃ q c, Needs root seeds q ∧ Traced root q c ∧ (dir <+: c ∨ c <+: dir)

variable {mode : Mode} {root : Dir} {dir : Path} {declared declared' allow : List Path}
  {fuel fuel' : Nat}

theorem coversDir_iff {seeds : List Path} {w : Walker} (h : Complete root allow seeds w) :
    Cover.coversDir dir w.covered = true ↔
      ∃ q c, Needs root seeds q ∧ Traced root q c ∧ (dir <+: c ∨ c <+: dir) := by
  simp only [Cover.coversDir, List.any_eq_true, Bool.or_eq_true, List.isPrefixOf_iff_prefix]
  constructor
  · rintro ⟨c, hc, hpre⟩
    obtain ⟨q, hq, htraced⟩ := (h.covered_iff c).mp hc
    exact ⟨q, c, hq, htraced, hpre⟩
  · rintro ⟨q, c, hq, htraced, hpre⟩
    exact ⟨c, (h.covered_iff c).mpr ⟨q, hq, htraced⟩, hpre⟩

/-- What a walk that found no seeds, failed, or covered everything returns. -/
theorem run_cases (mode : Mode) (root : Dir) (dir : Path) (declared allow : List Path)
    (fuel : Nat) :
    (mode.first dir ++ declared = [] ∧ ∃ text, mode.run root dir declared allow fuel
      = .error (.failed text)) ∨
    (mode.first dir ++ declared ≠ [] ∧ ((∃ e,
      coverAll root allow fuel (mode.first dir ++ declared) {} = .error e ∧
      mode.run root dir declared allow fuel = .error e) ∨
    ∃ w, coverAll root allow fuel (mode.first dir ++ declared) {} = .ok w ∧
      mode.run root dir declared allow fuel =
        if mode = .walkClosure ∧ dir ≠ [""] ∧ Cover.coversDir dir w.covered = false then
          .error (.failed ("cover: closure does not cover the build dir " ++ quoted dir ++
            " — the sandbox workdir would not exist"))
        else .ok w.result)) := by
  have hseeds : mode.first dir ++ declared
      = match mode with
        | .walk => seeds dir declared
        | .walkClosure => declared := by
    cases mode with
    | walk => by_cases hdir : dir = [""] <;> simp [first, seeds, hdir]
    | walkClosure => rfl
  rw [hseeds]
  cases mode with
  | walk =>
    by_cases hnil : seeds dir declared = []
    · exact Or.inl ⟨hnil, _, by simp [run, Cover.walk, hnil]; rfl⟩
    · refine Or.inr ⟨hnil, ?_⟩
      cases h : coverAll root allow fuel (seeds dir declared) {} with
      | error e => exact Or.inl ⟨e, rfl, by simp [run, Cover.walk, hnil, h, Except.map]⟩
      | ok w => exact Or.inr ⟨w, rfl, by simp [run, Cover.walk, hnil, h, Except.map]⟩
  | walkClosure =>
    by_cases hnil : declared = []
    · exact Or.inl ⟨hnil, _, by simp [run, Cover.walkClosure, hnil]; rfl⟩
    · refine Or.inr ⟨hnil, ?_⟩
      cases h : coverAll root allow fuel declared {} with
      | error e => exact Or.inl ⟨e, rfl, by simp [run, Cover.walkClosure, hnil, h]⟩
      | ok w => exact Or.inr ⟨w, rfl, by simp [run, Cover.walkClosure, hnil, h]⟩

/-- The inputs on which a walk succeeds. -/
structure Succeeds (mode : Mode) (root : Dir) (dir : Path) (declared allow : List Path) :
    Prop where
  some : mode.first dir ++ declared ≠ []
  runs : ¬ Halts root allow (mode.first dir ++ declared)
  told : ¬ Unannounced root (mode.first dir ++ declared)
  covers : mode.CoversDir root dir (mode.first dir ++ declared)

/-- **What a walk returns**: the paths that were needed and the links met on the way, or an
error of its own. -/
theorem run_spec (allow : List Path) (hwf : root.WF)
    (hfuel : enough root (mode.first dir ++ declared) ≤ fuel) :
    (mode.Succeeds root dir declared allow ∧ ∃ r, mode.run root dir declared allow fuel = .ok r ∧
      ∀ c, c ∈ r.paths ↔ ∃ q, Needs root (mode.first dir ++ declared) q ∧ Traced root q c) ∨
    (¬ mode.Succeeds root dir declared allow ∧
      ∃ text, mode.run root dir declared allow fuel = .error (.failed text)) := by
  rcases run_cases mode root dir declared allow fuel with
    ⟨hnil, htext⟩ | ⟨hsome, ⟨e, hc, hrun⟩ | ⟨w, hc, hrun⟩⟩
  · exact Or.inr ⟨fun h => h.some hnil, htext⟩
  · obtain ⟨⟨text, rfl⟩, hwhy⟩ := coverAll_error hwf hfuel hc
    refine Or.inr ⟨fun h => ?_, text, hrun⟩
    exact hwhy.elim h.runs h.told
  · have hcomplete := coverAll_complete hwf hc
    obtain ⟨hruns, htold⟩ := (coverAll_ok_iff hwf hfuel).mp ⟨w, hc⟩
    split at hrun
    · rename_i hclosure
      obtain ⟨rfl, hdir, hcovers⟩ := hclosure
      refine Or.inr ⟨fun h => ?_, _, hrun⟩
      rcases h.covers with h | h
      · exact hdir h
      · rw [(coversDir_iff hcomplete).mpr h] at hcovers
        simp at hcovers
    · rename_i hcovers
      refine Or.inl ⟨⟨hsome, hruns, htold, ?_⟩, w.result, hrun, ?_⟩
      · cases mode with
        | walk => exact trivial
        | walkClosure =>
          by_cases hdir : dir = [""]
          · exact Or.inl hdir
          · refine Or.inr ((coversDir_iff hcomplete).mp ?_)
            simpa [hdir] using hcovers
      · intro c
        rw [← hcomplete.covered_iff c]
        simp [Walker.result, List.mem_insertionSort]

end Mode

/-! ### The order of the declared paths -/

/-- The walk's own resolution ends at something missing. -/
def notFound (root : Dir) (p : Path) : Bool := (resolve root p).2 = .missing

/-- The paths of which the walk finds something. -/
def existing (root : Dir) (ps : List Path) : List Path := ps.filter fun p => !notFound root p

/-- Two walks end in the same way, and with the same paths. -/
def SameOutcome : Except CoverError WalkResult → Except CoverError WalkResult → Prop
  | .ok r, .ok r' => ∀ c, c ∈ r.paths ↔ c ∈ r'.paths
  | .error (.failed _), .error (.failed _) => True
  | _, _ => False

/-- A missing declared path is an error, and the order of the declared paths is of no account. -/
structure Strict (mode : Mode) (root : Dir) (dir : Path) (declared allow : List Path) :
    Prop where
  refuses : (∃ p ∈ declared, Misses root.look [] p) →
    ∀ fuel, enough root (mode.first dir ++ declared) ≤ fuel →
      ∃ text, mode.run root dir declared allow fuel = .error (.failed text)
  order : ∀ declared', declared'.Perm declared →
    ∀ fuel fuel', enough root (mode.first dir ++ declared) ≤ fuel →
      enough root (mode.first dir ++ declared') ≤ fuel' →
      SameOutcome (mode.run root dir declared allow fuel) (mode.run root dir declared' allow fuel')

/-- Declared paths are not found, links lead to each of them, and nothing else is wrong. -/
structure Overlooked (mode : Mode) (root : Dir) (dir : Path) (declared allow : List Path) :
    Prop where
  some : ∃ p ∈ declared, notFound root p = true
  chased : ∀ p ∈ declared, notFound root p = true →
    Needs root (existing root (mode.first dir ++ declared)) p
  first : ∀ p ∈ mode.first dir, notFound root p = false
  runs : ¬ Halts root allow (mode.first dir ++ declared)
  covers : mode.CoversDir root dir (mode.first dir ++ declared)

section Order

variable {mode : Mode} {root : Dir} {dir : Path} {declared declared' allow seeds : List Path}

variable {p : Path}

theorem notFound_iff : notFound root p = true ↔ (resolve root p).2 = .missing := by
  simp [notFound]

theorem not_needs_nil : ¬ Needs root [] p := by
  intro h
  induction h with
  | seed hp => simp at hp
  | located _ _ ih | target _ _ _ _ _ ih => exact ih

/-- What is missing leads nowhere. -/
theorem Needs.of_existing (h : Needs root seeds p) :
    p ∈ seeds ∧ notFound root p = true ∨ Needs root (existing root seeds) p := by
  induction h with
  | @seed p hp =>
    cases hm : notFound root p with
    | true => exact Or.inl ⟨hp, rfl⟩
    | false => exact Or.inr (.seed (List.mem_filter.mpr ⟨hp, by simp [hm]⟩))
  | located _ hfound ih =>
    rcases ih with ⟨-, hm⟩ | ih
    · rw [notFound_iff.mp hm] at hfound
      simp at hfound
    · exact Or.inr (.located ih hfound)
  | target _ hfound hlink habs hesc ih =>
    rcases ih with ⟨-, hm⟩ | ih
    · rw [notFound_iff.mp hm] at hfound
      simp at hfound
    · exact Or.inr (.target ih hfound hlink habs hesc)

/-- When every missing path was announced, the existing ones lead to it. -/
theorem announced (h : ¬ Unannounced root seeds) (hp : p ∈ seeds)
    (hm : notFound root p = true) : Needs root (existing root seeds) p := by
  suffices hgen : ∀ (before after : List Path), seeds = before ++ after → ∀ q ∈ before,
      notFound root q = true → Needs root (existing root seeds) q from
    hgen seeds [] (by simp) p hp hm
  intro before
  induction before using List.reverseRecOn with
  | nil => intro after _ q hq; simp at hq
  | append_singleton before r ih =>
    intro after hseeds q hq hmq
    rw [List.append_assoc, List.singleton_append] at hseeds
    rcases List.mem_append.mp hq with hq | hq
    · exact ih (r :: after) hseeds q hq hmq
    · obtain rfl : q = r := by simpa using hq
      have hneeds : Needs root before q := by
        by_contra hnot
        exact h ⟨before, q, after, hseeds, notFound_iff.mp hmq, hnot⟩
      rcases hneeds.of_existing with ⟨hbefore, -⟩ | hneeds
      · exact ih (q :: after) hseeds q hbefore hmq
      · refine hneeds.mono ?_
        intro s hs
        obtain ⟨hmem, hs⟩ := List.mem_filter.mp hs
        exact List.mem_filter.mpr ⟨by simp [hseeds, hmem], hs⟩

variable {ps ps' : List Path}

theorem needs_perm (h : ps'.Perm ps) :
    Needs root ps' p ↔ Needs root ps p :=
  ⟨Needs.mono h.subset, Needs.mono h.symm.subset⟩

theorem halts_perm (h : ps'.Perm ps) :
    Halts root allow ps' ↔ Halts root allow ps := by
  simp only [Halts, needs_perm h]

theorem coversDir_perm (h : ps'.Perm ps) :
    mode.CoversDir root dir ps' ↔ mode.CoversDir root dir ps := by
  cases mode <;> simp only [Mode.CoversDir, needs_perm h]

/-- The build dir is the first seed, so nothing can have led to it. -/
theorem first_exists (h : ¬ Unannounced root (mode.first dir ++ declared)) :
    ∀ p ∈ mode.first dir, notFound root p = false := by
  intro p hp
  by_contra hm
  have hfirst : mode.first dir = [p] := by
    cases mode with
    | walk =>
      by_cases hdir : dir = [""]
      · simp [Mode.first, hdir] at hp
      · obtain rfl : p = dir := by simpa [Mode.first, hdir] using hp
        simp [Mode.first, hdir]
    | walkClosure => simp [Mode.first] at hp
  refine h ⟨[], p, declared, by rw [hfirst]; rfl, ?_, not_needs_nil⟩
  exact notFound_iff.mp (by simpa using hm)

/-- A walk that succeeds with a missing declared path overlooks all of them. -/
theorem overlooked_of_succeeds (h : mode.Succeeds root dir declared allow)
    (hsome : ∃ p ∈ declared, notFound root p = true) : Overlooked mode root dir declared allow where
  some := hsome
  chased _ hp hm := announced h.told (List.mem_append_right _ hp) hm
  first := first_exists h.told
  runs := h.runs
  covers := h.covers

theorem Overlooked.perm (hperm : declared'.Perm declared)
    (h : Overlooked mode root dir declared allow) : Overlooked mode root dir declared' allow where
  some := by
    obtain ⟨p, hp, hm⟩ := h.some
    exact ⟨p, hperm.mem_iff.mpr hp, hm⟩
  chased p hp hm := by
    rw [existing, needs_perm ((hperm.append_left _).filter _)]
    exact h.chased p (hperm.mem_iff.mp hp) hm
  first := h.first
  runs := by
    rw [halts_perm (hperm.append_left _)]
    exact h.runs
  covers := (coversDir_perm (hperm.append_left _)).mpr h.covers

/-- What succeeds in one order and overlooks nothing succeeds in every order. -/
theorem Mode.Succeeds.perm (hperm : declared'.Perm declared)
    (h : mode.Succeeds root dir declared allow)
    (hno : ¬ Overlooked mode root dir declared allow) :
    mode.Succeeds root dir declared' allow where
  some := by
    intro hnil
    have hlen := (hperm.append_left (mode.first dir)).length_eq
    rw [hnil] at hlen
    exact h.some (List.length_eq_zero_iff.mp hlen.symm)
  runs := by
    rw [halts_perm (hperm.append_left _)]
    exact h.runs
  told := by
    rintro ⟨before, p, after, hseeds, hout, -⟩
    have hp : p ∈ mode.first dir ++ declared' := by simp [hseeds]
    rcases List.mem_append.mp hp with hp | hp
    · have := first_exists h.told p hp
      simp [notFound, hout] at this
    · exact hno (overlooked_of_succeeds h ⟨p, hperm.mem_iff.mp hp, notFound_iff.mpr hout⟩)
  covers := (coversDir_perm (hperm.append_left _)).mpr h.covers

/-- The walk and a system agree on the declared paths: in the target of a link on the way to
one, `..` comes only in front, and none of them is itself a link that dangles. -/
structure Agreed (root : Dir) (declared : List Path) : Prop where
  targets : ∀ p ∈ declared, Straight root [] (resolve root p).1
  links : ∀ p ∈ declared, Misses root.look [] p →
    ∀ loc target, (resolve root p).2 ≠ .found loc (.leaf (.link target))

/-- **What is missing is not found by the walk**, which goes on only then. -/
theorem Agreed.notFound (h : Agreed root declared) (hwf : root.WF) (hp : p ∈ declared)
    (hm : Misses root.look [] p) (hruns : ¬ Halts root allow (mode.first dir ++ declared)) :
    notFound root p = true := by
  rw [notFound_iff]
  cases hout : (resolve root p).2 with
  | missing => rfl
  | failed text =>
    exact absurd ⟨p, .seed (List.mem_append_right _ hp), .failed hout⟩ hruns
  | found loc node =>
    have hres := resolve_resolution root p
    obtain ⟨a, hget⟩ := hres.get hout
    have hlinks : ∀ ℓ ∈ (resolve root p).1, (root.entry ℓ).isSome = true := by
      intro ℓ hℓ
      obtain ⟨b, target, hlink⟩ := hres.get_link (by simp [hout]) hℓ
      exact Dir.entry_of_get hlink
    obtain ⟨hlands, -⟩ := hres.lands hwf (fun _ _ => id) hout (h.targets p hp) hlinks
      (Dir.entry_of_get hget)
    refine absurd hm.stripped (hlands.not_misses fun target hlook => ?_)
    refine h.links p hp hm loc target ?_
    obtain ⟨b, hlink⟩ := Dir.get_of_look_link hlook
    obtain ⟨-, rfl⟩ : a = b ∧ node = .leaf (.link target) := by simpa [hget] using hlink
    exact hout

end Order

/-- A directory with a link out of it to something that is not there. -/
def dangling : Dir :=
  .sub { name := "d", perm := 493 }
    (.leaf { name := "l", perm := 511 } (.link ["..", "m"]) .nil) .nil

/-- A link through another one and up again: `l` leads to `d/x`, as a string to `x`. -/
def shortcut : Dir :=
  .sub { name := "d", perm := 493 }
    (.sub { name := "e", perm := 493 } (.leaf { name := "f", perm := 420 } (.file [1]) .nil) .nil)
  (.leaf { name := "dl", perm := 511 } (.link ["d", "e"])
  (.leaf { name := "l", perm := 511 } (.link ["dl", "..", "x"])
  (.sub { name := "x", perm := 493 } (.leaf { name := "g", perm := 420 } (.file [1]) .nil) .nil)))

end JobsIroh.Cover
