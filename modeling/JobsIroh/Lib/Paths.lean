/-
Slash-separated paths and their resolution through symlinks.

A path is the list of its components.  It can be cleaned as a string, or resolved
component by component against what is found at each location: `Resolves` is the
resolution of a POSIX system, which enters directories, follows links from where they
lie, and steps up from where it is.  The two agree on a path whose `..` all come first
(`straight`), since then cleaning only takes components of the directory it starts in.

`Lands` is the same walk without following a link at the very end.  The main result,
`Resolves.restrict`, is about a restriction of the name space that keeps some locations
and drops others: a resolution goes through in the restricted one as well, provided the
target of every link that is kept can be walked there.
-/
import Mathlib.Data.List.Infix
import Mathlib.Data.String.Basic

namespace Paths

abbrev Path := List String

/-- A component that stays where it is. -/
def isSkip (s : String) : Bool := s = "" || s = "."

def isName (s : String) : Bool := !isSkip s && s ≠ ".."

/-- The path starts with a slash. -/
def isAbs : Path → Bool
  | "" :: _ :: _ => true
  | _ => false

def cleanStep (acc : Path) (s : String) : Path :=
  if isSkip s then acc
  else if s = ".." then
    (if acc = [] ∨ acc.getLast? = some ".." then acc ++ [".."] else acc.dropLast)
  else acc ++ [s]

/-- Clean a path that starts in a directory that is clean already. -/
def cleanFrom (acc p : Path) : Path := p.foldl cleanStep acc

/-- `path.Clean` of a relative path; the empty list is `"."`. -/
def cleanRel (p : Path) : Path := cleanFrom [] p

/-- A cleaned path that leaves the place it starts from. -/
def escapes (p : Path) : Bool := p.head? = some ".."

def strip (p : Path) : Path := p.filter fun s => !isSkip s

/-- No `..` comes after a name. -/
def straight (p : Path) : Bool := ((strip p).dropWhile (· = "..")).all isName

/-! ### Cleaning -/

theorem isName_iff {s : String} : isName s = true ↔ isSkip s = false ∧ s ≠ ".." := by
  simp [isName]

theorem names_snoc {p : Path} (hp : ∀ s ∈ p, isName s = true) {s : String}
    (hs : isName s = true) : ∀ r ∈ p ++ [s], isName r = true := by
  intro r hr
  rcases List.mem_append.mp hr with hr | hr
  · exact hp r hr
  · rw [List.mem_singleton.mp hr]
    exact hs

theorem strip_cons_skip {s : String} (h : isSkip s = true) (p : Path) :
    strip (s :: p) = strip p := by
  simp [strip, h]

theorem strip_cons_keep {s : String} (h : isSkip s = false) (p : Path) :
    strip (s :: p) = s :: strip p := by
  simp [strip, h]

/-- Wherever a path is cut in two, what is not skipped at its front is kept. -/
theorem strip_front {s : String} {p a q : Path} (hs : isSkip s = false) (h : s :: p = a ++ q) :
    ∃ a' q', p = a' ++ q' ∧ a ++ strip q = s :: (a' ++ strip q') := by
  cases a with
  | nil => exact ⟨[], p, rfl, by simp [← show s :: p = q from h, strip_cons_keep hs]⟩
  | cons x a =>
    obtain ⟨rfl, rfl⟩ : s = x ∧ p = a ++ q := by simpa using h
    exact ⟨a, q, rfl, rfl⟩

theorem strip_append (p q : Path) : strip (p ++ q) = strip p ++ strip q := by
  simp [strip]

theorem strip_eq_self {p : Path} (h : ∀ s ∈ p, isSkip s = false) : strip p = p :=
  List.filter_eq_self.mpr fun s hs => by simp [h s hs]

theorem not_isSkip_of_mem_strip {s : String} {p : Path} (h : s ∈ strip p) : isSkip s = false := by
  simpa using (List.mem_filter.mp h).2

theorem cleanFrom_strip (p : Path) : ∀ acc, cleanFrom acc p = cleanFrom acc (strip p) := by
  induction p with
  | nil => intro acc; simp [strip]
  | cons s p ih =>
    intro acc
    cases hs : isSkip s with
    | true =>
      rw [strip_cons_skip hs, cleanFrom, List.foldl_cons, cleanStep, if_pos hs]
      exact ih acc
    | false =>
      rw [strip_cons_keep hs, cleanFrom, cleanFrom, List.foldl_cons, List.foldl_cons]
      exact ih _

theorem cleanFrom_names {p : Path} (hp : ∀ s ∈ p, isName s = true) :
    ∀ acc, cleanFrom acc p = acc ++ p := by
  induction p with
  | nil => intro acc; simp [cleanFrom]
  | cons s p ih =>
    intro acc
    obtain ⟨hskip, hup⟩ := isName_iff.mp (hp s List.mem_cons_self)
    rw [cleanFrom, List.foldl_cons, cleanStep, if_neg (by simp [hskip]), if_neg hup]
    have := ih (fun r hr => hp r (List.mem_cons_of_mem _ hr)) (acc ++ [s])
    rw [cleanFrom] at this
    rw [this, List.append_assoc, List.singleton_append]

theorem cleanRel_append {cur : Path} (hcur : ∀ s ∈ cur, isName s = true) (p : Path) :
    cleanRel (cur ++ p) = cleanFrom cur p := by
  have hfold : cleanRel (cur ++ p) = cleanFrom (cleanFrom [] cur) p := by
    simp only [cleanRel, cleanFrom, List.foldl_append]
  rw [hfold, cleanFrom_names hcur, List.nil_append]

/-- Once a path has left the place it starts from, it stays out. -/
theorem escapes_cleanFrom (p : Path) :
    ∀ {acc : Path}, escapes acc = true → escapes (cleanFrom acc p) = true := by
  induction p with
  | nil => intro acc h; exact h
  | cons s p ih =>
    intro acc h
    refine ih ?_
    obtain ⟨rest, rfl⟩ : ∃ rest, acc = ".." :: rest := by
      cases acc with
      | nil => simp [escapes] at h
      | cons x rest =>
        obtain rfl : x = ".." := by simpa [escapes] using h
        exact ⟨rest, rfl⟩
    unfold cleanStep
    split
    · exact h
    split
    · split
      · simp [escapes]
      · rename_i hlast
        cases rest with
        | nil => simp at hlast
        | cons => simp [escapes, List.dropLast_cons_cons]
    · simp [escapes]

/-- Cleaning yields names only, for a path that does not leave the place it starts from. -/
theorem names_cleanFrom (p : Path) :
    ∀ {acc : Path}, (∀ s ∈ acc, isName s = true) → escapes (cleanFrom acc p) = false →
      ∀ s ∈ cleanFrom acc p, isName s = true := by
  induction p with
  | nil => intro acc hacc _; exact hacc
  | cons s p ih =>
    intro acc hacc hesc
    rw [cleanFrom, List.foldl_cons] at hesc ⊢
    refine ih ?_ hesc
    unfold cleanStep
    split
    · exact hacc
    rename_i hskip
    split
    · rename_i hup
      split
      · rename_i hlast
        -- Stepping up from nowhere leaves, and it stays out.
        have hnil : acc = [] := by
          rcases hlast with h | h
          · exact h
          · have hmem := List.mem_of_getLast? h
            exact absurd rfl (isName_iff.mp (hacc _ hmem)).2
        have hout : escapes (cleanStep acc s) = true := by
          rw [cleanStep, if_neg hskip, if_pos hup, if_pos hlast, hnil]
          simp [escapes]
        rw [show List.foldl cleanStep (cleanStep acc s) p = cleanFrom (cleanStep acc s) p
          from rfl, escapes_cleanFrom p hout] at hesc
        simp at hesc
      · intro r hr
        exact hacc r (List.dropLast_subset _ hr)
    · rename_i hup
      exact names_snoc hacc (isName_iff.mpr ⟨by simpa using hskip, hup⟩)

/-- Stepping up out of a directory one has named takes its name off. -/
theorem cleanFrom_up {cur : Path} {n : String} (hn : isName n = true) (p : Path) :
    cleanFrom (cur ++ [n]) (".." :: p) = cleanFrom cur p := by
  have hup := (isName_iff.mp hn).2
  rw [cleanFrom, List.foldl_cons, cleanStep, if_neg (by decide), if_pos rfl, if_neg]
  · rw [List.dropLast_concat]
    rfl
  · simp [hup]

/-- A straight path is a number of `..` and then names. -/
theorem straight_eq {t : Path} (h : straight t = true) :
    ∃ n ns, strip t = List.replicate n ".." ++ ns ∧ ∀ s ∈ ns, isName s = true := by
  refine ⟨((strip t).takeWhile (· = "..")).length, (strip t).dropWhile (· = ".."), ?_,
    fun s hs => List.all_eq_true.mp h s hs⟩
  have hups : (strip t).takeWhile (· = "..")
      = List.replicate ((strip t).takeWhile (· = "..")).length ".." := by
    refine List.eq_replicate_iff.mpr ⟨rfl, fun s hs => ?_⟩
    simpa using List.all_eq_true.mp List.all_takeWhile s hs
  rw [← hups, List.takeWhile_append_dropWhile]

theorem cleanFrom_ups {ns : Path} (hns : ∀ s ∈ ns, isName s = true) :
    ∀ (n : Nat) {cur : Path}, (∀ s ∈ cur, isName s = true) →
      escapes (cleanFrom cur (List.replicate n ".." ++ ns)) = false →
      ∃ base gone, cur = base ++ gone ∧ gone.length = n ∧
        cleanFrom cur (List.replicate n ".." ++ ns) = base ++ ns := by
  intro n
  induction n with
  | zero =>
    intro cur _ _
    exact ⟨cur, [], by simp, rfl, cleanFrom_names hns cur⟩
  | succ n ih =>
    intro cur hcur hesc
    rw [List.replicate_succ, List.cons_append] at hesc ⊢
    rcases List.eq_nil_or_concat' cur with rfl | ⟨cur, m, rfl⟩
    · have hout : escapes (cleanFrom [".."] (List.replicate n ".." ++ ns)) = true :=
        escapes_cleanFrom _ (by decide)
      exact absurd hesc (by simpa [cleanFrom, cleanStep, isSkip] using hout)
    · have hm : isName m = true := hcur m (by simp)
      rw [cleanFrom_up hm] at hesc ⊢
      obtain ⟨base, gone, rfl, hlen, heq⟩ :=
        ih (fun s hs => hcur s (List.mem_append_left _ hs)) hesc
      exact ⟨base, gone ++ [m], by simp, by simp [hlen], heq⟩

/-- Cleaning a straight path takes off as many components as it steps up. -/
theorem cleanFrom_straight {t cur : Path} (ht : straight t = true)
    (hcur : ∀ s ∈ cur, isName s = true) (hesc : escapes (cleanFrom cur t) = false) :
    ∃ base gone ns, cur = base ++ gone ∧ strip t = List.replicate gone.length ".." ++ ns ∧
      cleanFrom cur t = base ++ ns := by
  obtain ⟨n, ns, hstrip, hns⟩ := straight_eq ht
  rw [cleanFrom_strip, hstrip] at hesc
  obtain ⟨base, gone, hbase, hlen, heq⟩ := cleanFrom_ups hns n hcur hesc
  exact ⟨base, gone, ns, hbase, by rw [hstrip, hlen], by rw [cleanFrom_strip, hstrip, heq]⟩

/-! ### Resolution -/

inductive Kind where
  | dir
  | link (target : Path)
  | other
  deriving DecidableEq, Repr

/-- What is at each location. -/
abbrev Look := Path → Option Kind

/--
`Resolves look avoid k cur segs loc`: from the directory `cur` the components lead to
`loc`, following `k` links, none of them in `avoid`, and never above the root.
-/
inductive Resolves (look : Look) (avoid : List Path) : Nat → Path → List String → Path → Prop
  | done (cur : Path) : Resolves look avoid 0 cur [] cur
  | skip {k : Nat} {cur loc : Path} {s : String} {segs : List String} (hs : isSkip s = true)
      (h : Resolves look avoid k cur segs loc) : Resolves look avoid k cur (s :: segs) loc
  | up {k : Nat} {cur loc : Path} {segs : List String} (hcur : cur ≠ [])
      (h : Resolves look avoid k cur.dropLast segs loc) :
      Resolves look avoid k cur (".." :: segs) loc
  | enter {k : Nat} {cur loc : Path} {s : String} {segs : List String} (hs : isName s = true)
      (hdir : look (cur ++ [s]) = some .dir) (h : Resolves look avoid k (cur ++ [s]) segs loc) :
      Resolves look avoid k cur (s :: segs) loc
  | leaf {cur : Path} {s : String} (hs : isName s = true)
      (hleaf : look (cur ++ [s]) = some .other) : Resolves look avoid 0 cur [s] (cur ++ [s])
  | link {k : Nat} {cur loc target : Path} {s : String} {segs : List String}
      (hs : isName s = true) (hlink : look (cur ++ [s]) = some (.link target))
      (havoid : cur ++ [s] ∉ avoid) (habs : isAbs target = false)
      (h : Resolves look avoid k cur (target ++ segs) loc) :
      Resolves look avoid (k + 1) cur (s :: segs) loc

/-! One component decides the first rule of a resolution. -/

section Inversion

variable {look : Look} {avoid : List Path} {k : Nat} {cur loc : Path} {s : String}
  {segs : List String}

theorem Resolves.of_up (h : Resolves look avoid k cur (".." :: segs) loc) :
    cur ≠ [] ∧ Resolves look avoid k cur.dropLast segs loc := by
  cases h with
  | skip hs => simp [isSkip] at hs
  | up hcur h => exact ⟨hcur, h⟩
  | enter hname | leaf hname | link hname => simp [isName] at hname

/-- What a name stands for decides how it is resolved. -/
theorem Resolves.of_name (hs : isName s = true)
    (h : Resolves look avoid k cur (s :: segs) loc) :
    (look (cur ++ [s]) = some .dir ∧ Resolves look avoid k (cur ++ [s]) segs loc) ∨
      (look (cur ++ [s]) = some .other ∧ segs = [] ∧ k = 0 ∧ loc = cur ++ [s]) ∨
      ∃ target k', look (cur ++ [s]) = some (.link target) ∧ cur ++ [s] ∉ avoid ∧
        isAbs target = false ∧ k = k' + 1 ∧ Resolves look avoid k' cur (target ++ segs) loc := by
  cases h with
  | skip hskip => simp [isName, hskip] at hs
  | up => simp [isName] at hs
  | enter _ hdir h => exact Or.inl ⟨hdir, h⟩
  | leaf _ hleaf => exact Or.inr (Or.inl ⟨hleaf, rfl, rfl, rfl⟩)
  | link _ hlink havoid habs h => exact Or.inr (Or.inr ⟨_, _, hlink, havoid, habs, rfl, h⟩)

theorem Resolves.of_dir (hs : isName s = true) (hdir : look (cur ++ [s]) = some .dir)
    (h : Resolves look avoid k cur (s :: segs) loc) :
    Resolves look avoid k (cur ++ [s]) segs loc := by
  rcases h.of_name hs with ⟨_, h⟩ | ⟨hleaf, _⟩ | ⟨target, k', hlink, _⟩
  · exact h
  · simp [hdir] at hleaf
  · simp [hdir] at hlink

theorem Resolves.of_link (hs : isName s = true) {target : Path}
    (hlink : look (cur ++ [s]) = some (.link target))
    (h : Resolves look avoid k cur (s :: segs) loc) :
    ∃ k', cur ++ [s] ∉ avoid ∧ isAbs target = false ∧ k = k' + 1 ∧
      Resolves look avoid k' cur (target ++ segs) loc := by
  rcases h.of_name hs with ⟨hdir, _⟩ | ⟨hleaf, _⟩ | ⟨target', k', hlink', hrest⟩
  · simp [hlink] at hdir
  · simp [hlink] at hleaf
  · obtain rfl : target = target' := by simpa [hlink] using hlink'
    exact ⟨k', hrest⟩

end Inversion

/-- A path without `""` and `"."` resolves whenever the path with them does. -/
theorem Resolves.strip_suffix {look : Look} {avoid : List Path} {k : Nat} {cur loc : Path}
    {full : List String} (h : Resolves look avoid k cur full loc) :
    ∀ a segs, full = a ++ segs → Resolves look avoid k cur (a ++ strip segs) loc := by
  induction h with
  | done cur =>
    intro a segs hfull
    obtain ⟨rfl, rfl⟩ : a = [] ∧ segs = [] := by simpa using hfull.symm
    exact .done cur
  | @skip k cur loc s rest hs h ih =>
    intro a segs hfull
    cases a with
    | nil =>
      obtain rfl : s :: rest = segs := hfull
      rw [List.nil_append, strip_cons_skip hs]
      exact ih [] rest rfl
    | cons x a =>
      obtain ⟨rfl, rfl⟩ : s = x ∧ rest = a ++ segs := by simpa using hfull
      exact .skip hs (ih a segs rfl)
  | up hcur h ih =>
    intro a segs hfull
    obtain ⟨a', segs', rfl, heq⟩ := strip_front (by decide) hfull
    rw [heq]
    exact .up hcur (ih a' segs' rfl)
  | enter hs hdir h ih =>
    intro a segs hfull
    obtain ⟨a', segs', rfl, heq⟩ := strip_front (isName_iff.mp hs).1 hfull
    rw [heq]
    exact .enter hs hdir (ih a' segs' rfl)
  | leaf hs hleaf =>
    intro a segs hfull
    obtain ⟨a', segs', hnil, heq⟩ := strip_front (isName_iff.mp hs).1 hfull
    obtain ⟨rfl, rfl⟩ : a' = [] ∧ segs' = [] := by simpa using hnil.symm
    rw [heq]
    exact .leaf hs hleaf
  | @link k cur loc target s rest hs hlink havoid habs h ih =>
    intro a segs hfull
    obtain ⟨a', segs', rfl, heq⟩ := strip_front (isName_iff.mp hs).1 hfull
    rw [heq]
    refine .link hs hlink havoid habs ?_
    have := ih (target ++ a') segs' (by simp)
    rwa [List.append_assoc] at this

theorem Resolves.stripped {look : Look} {avoid : List Path} {k : Nat} {cur loc : Path}
    {segs : List String} (h : Resolves look avoid k cur segs loc) :
    Resolves look avoid k cur (strip segs) loc :=
  h.strip_suffix [] segs rfl

/-! ### Existence

A path exists when all of it but the last component resolves and there is an entry
under the last one, whatever it is.
-/

/--
`Lands look exempt cur segs loc`: from the directory `cur` the components lead to the
entry `loc`, a link at the very end not being followed.  The `""` and `"."` in a link's
target stand for nothing, since something comes after the link.  A link in `exempt` is
held to lead anywhere.
-/
inductive Lands (look : Look) (exempt : List Path) : Path → List String → Path → Prop
  | done (cur : Path) : Lands look exempt cur [] cur
  | skip {cur loc : Path} {s : String} {segs : List String} (hs : isSkip s = true)
      (h : Lands look exempt cur segs loc) : Lands look exempt cur (s :: segs) loc
  | up {cur loc : Path} {segs : List String} (hcur : cur ≠ [])
      (h : Lands look exempt cur.dropLast segs loc) : Lands look exempt cur (".." :: segs) loc
  | last {cur : Path} {s : String} (hs : isName s = true)
      (hlook : (look (cur ++ [s])).isSome = true) : Lands look exempt cur [s] (cur ++ [s])
  | enter {cur loc : Path} {s : String} {segs : List String} (hs : isName s = true)
      (hdir : look (cur ++ [s]) = some .dir) (h : Lands look exempt (cur ++ [s]) segs loc) :
      Lands look exempt cur (s :: segs) loc
  | link {cur loc target : Path} {s : String} {segs : List String} (hs : isName s = true)
      (hlink : look (cur ++ [s]) = some (.link target)) (hsegs : segs ≠ [])
      (h : Lands look exempt cur (strip target ++ segs) loc) :
      Lands look exempt cur (s :: segs) loc
  | exempt {cur target : Path} {s : String} {segs : List String} (hs : isName s = true)
      (hlink : look (cur ++ [s]) = some (.link target)) (hmem : cur ++ [s] ∈ exempt)
      (loc : Path) : Lands look exempt cur (s :: segs) loc

section Lands

variable {look : Look} {exempt : List Path} {cur loc : Path} {s : String} {segs : List String}

theorem Lands.of_up (h : Lands look exempt cur (".." :: segs) loc) :
    Lands look exempt cur.dropLast segs loc := by
  cases h with
  | skip hs => simp [isSkip] at hs
  | up _ h => exact h
  | last hs | enter hs | link hs | exempt hs => simp [isName] at hs

/-- What a name stands for decides how the walk goes on. -/
theorem Lands.of_name (hs : isName s = true) (h : Lands look exempt cur (s :: segs) loc) :
    (segs = [] ∧ loc = cur ++ [s] ∧ (look (cur ++ [s])).isSome = true) ∨
      (look (cur ++ [s]) = some .dir ∧ Lands look exempt (cur ++ [s]) segs loc) ∨
      ∃ target, look (cur ++ [s]) = some (.link target) ∧
        (cur ++ [s] ∈ exempt ∨ Lands look exempt cur (strip target ++ segs) loc) := by
  cases h with
  | skip hskip => simp [isName, hskip] at hs
  | up => simp [isName] at hs
  | last _ hlook => exact Or.inl ⟨rfl, rfl, hlook⟩
  | enter _ hdir h => exact Or.inr (Or.inl ⟨hdir, h⟩)
  | link _ hlink _ h => exact Or.inr (Or.inr ⟨_, hlink, Or.inr h⟩)
  | exempt _ hlink hmem _ => exact Or.inr (Or.inr ⟨_, hlink, Or.inl hmem⟩)

theorem Lands.isSome (hs : isName s = true) (h : Lands look exempt cur (s :: segs) loc) :
    (look (cur ++ [s])).isSome = true := by
  rcases h.of_name hs with ⟨_, _, hlook⟩ | ⟨hdir, _⟩ | ⟨target, hlink, _⟩
  · exact hlook
  · simp [hdir]
  · simp [hlink]

/-- From a directory on, after the names that lead to it. -/
theorem Lands.of_dir (hs : isName s = true) (hdir : look (cur ++ [s]) = some .dir)
    (h : Lands look exempt cur (s :: segs) loc) : Lands look exempt (cur ++ [s]) segs loc := by
  rcases h.of_name hs with ⟨rfl, rfl, _⟩ | ⟨_, h⟩ | ⟨target, hlink, _⟩
  · exact .done _
  · exact h
  · simp [hdir] at hlink

theorem Lands.exempt_nil (h : Lands look [] cur segs loc) (exempt : List Path) :
    Lands look exempt cur segs loc := by
  induction h with
  | done cur => exact .done cur
  | skip hs _ ih => exact .skip hs ih
  | up hcur _ ih => exact .up hcur ih
  | last hs hlook => exact .last hs hlook
  | enter hs hdir _ ih => exact .enter hs hdir ih
  | link hs hlink hsegs _ ih => exact .link hs hlink hsegs ih
  | exempt _ _ hmem => simp at hmem

/-- A path that exists does so without its `""` and `"."`, if only up to a last link. -/
theorem Lands.stripped (h : Lands look exempt cur segs loc) :
    ∃ loc', Lands look exempt cur (strip segs) loc' := by
  induction h with
  | done cur => exact ⟨cur, .done cur⟩
  | skip hs => rwa [strip_cons_skip hs]
  | up hcur _ ih =>
    obtain ⟨loc', h⟩ := ih
    exact ⟨loc', .up hcur h⟩
  | last hs hlook =>
    rw [strip_cons_keep (isName_iff.mp hs).1]
    exact ⟨_, .last hs hlook⟩
  | enter hs hdir _ ih =>
    obtain ⟨loc', h⟩ := ih
    rw [strip_cons_keep (isName_iff.mp hs).1]
    exact ⟨loc', .enter hs hdir h⟩
  | @link cur loc target s segs hs hlink hsegs _ ih =>
    obtain ⟨loc', h⟩ := ih
    rw [strip_cons_keep (isName_iff.mp hs).1]
    by_cases hnil : strip segs = []
    · rw [hnil]
      exact ⟨_, .last hs (by simp [hlink])⟩
    · rw [strip_append, strip_eq_self fun r hr => not_isSkip_of_mem_strip hr] at h
      exact ⟨loc', .link hs hlink hnil h⟩
  | exempt hs hlink hmem loc =>
    rw [strip_cons_keep (isName_iff.mp hs).1]
    exact ⟨loc, .exempt hs hlink hmem loc⟩

theorem Lands.up_all {base : Path} (h : Lands look exempt base segs loc) (gone : Path) :
    Lands look exempt (base ++ gone) (List.replicate gone.length ".." ++ segs) loc := by
  induction gone using List.reverseRecOn with
  | nil => simpa using h
  | append_singleton =>
    rw [List.length_append, List.length_singleton, List.replicate_succ, List.cons_append,
      ← List.append_assoc]
    refine .up (by simp) ?_
    rwa [List.dropLast_concat]

theorem Resolves.of_up_all {avoid : List Path} {k : Nat} {base : Path} (gone : Path)
    (h : Resolves look avoid k (base ++ gone) (List.replicate gone.length ".." ++ segs) loc) :
    Resolves look avoid k base segs loc := by
  induction gone using List.reverseRecOn with
  | nil => simpa using h
  | append_singleton gone m ih =>
    rw [List.length_append, List.length_singleton, List.replicate_succ, List.cons_append,
      ← List.append_assoc] at h
    have := h.of_up.2
    rw [List.dropLast_concat] at this
    exact ih this

/-- The path is made of names and leads through directories only. -/
structure Literal (look : Look) (p : Path) : Prop where
  names : ∀ s ∈ p, isName s = true
  dirs : ∀ q, q <+: p → q ≠ [] → look q = some .dir

theorem Literal.of_prefix {p q : Path} (h : Literal look p) (hq : q <+: p) : Literal look q where
  names s hs := h.names s (hq.subset hs)
  dirs r hr := h.dirs r (hr.trans hq)

/-- The names that lead to a directory can be walked first, by whatever enters directories. -/
theorem Literal.walk_iff {R : Path → List String → Prop} (p : Path)
    (hR : ∀ {cur s segs}, isName s = true → look (cur ++ [s]) = some .dir →
      (R cur (s :: segs) ↔ R (cur ++ [s]) segs)) :
    ∀ {base : Path}, Literal look (base ++ p) → (R base (p ++ segs) ↔ R (base ++ p) segs) := by
  induction p with
  | nil => intro base _; simp
  | cons s p ih =>
    intro base hlit
    have hs : isName s = true := hlit.names s (by simp)
    have hdir : look (base ++ [s]) = some .dir := hlit.dirs _ ⟨p, by simp⟩ (by simp)
    have happ : base ++ s :: p = (base ++ [s]) ++ p := by simp
    rw [happ] at hlit ⊢
    rw [← ih hlit, List.cons_append]
    exact hR hs hdir

theorem Lands.literal_iff (p : Path) {base : Path} (h : Literal look (base ++ p)) :
    Lands look exempt base (p ++ segs) loc ↔ Lands look exempt (base ++ p) segs loc :=
  Literal.walk_iff (R := fun cur segs => Lands look exempt cur segs loc) p
    (fun hs hdir => ⟨fun h => h.of_dir hs hdir, fun h => .enter hs hdir h⟩) h

theorem Resolves.literal_iff {avoid : List Path} {k : Nat} (p : Path) {base : Path}
    (h : Literal look (base ++ p)) :
    Resolves look avoid k base (p ++ segs) loc ↔ Resolves look avoid k (base ++ p) segs loc :=
  Literal.walk_iff (R := fun cur segs => Resolves look avoid k cur segs loc) p
    (fun hs hdir => ⟨fun h => h.of_dir hs hdir, fun h => .enter hs hdir h⟩) h

/-- **A straight target can be walked from where the link lies, if it can when cleaned.** -/
theorem Lands.of_clean {target : Path} (ht : straight target = true) (hcur : Literal look cur)
    (hesc : escapes (cleanFrom cur target) = false)
    (h : Lands look exempt [] (cleanFrom cur target ++ segs) loc) :
    Lands look exempt cur (strip target ++ segs) loc := by
  obtain ⟨base, gone, ns, rfl, hstrip, hclean⟩ := cleanFrom_straight ht hcur.names hesc
  have hbase : Literal look ([] ++ base) := hcur.of_prefix (List.prefix_append base gone)
  rw [hclean, List.append_assoc] at h
  have := ((Lands.literal_iff base hbase).mp h).up_all gone
  rwa [hstrip, List.append_assoc]

/-- Conversely, what a straight target resolves to is what it resolves to when cleaned. -/
theorem Resolves.clean {avoid : List Path} {k : Nat} {target : Path}
    (ht : straight target = true) (hcur : Literal look cur)
    (hesc : escapes (cleanFrom cur target) = false)
    (h : Resolves look avoid k cur (strip target ++ segs) loc) :
    Resolves look avoid k [] (cleanFrom cur target ++ segs) loc := by
  obtain ⟨base, gone, ns, rfl, hstrip, hclean⟩ := cleanFrom_straight ht hcur.names hesc
  have hbase : Literal look ([] ++ base) := hcur.of_prefix (List.prefix_append base gone)
  rw [hstrip, List.append_assoc] at h
  rw [hclean, List.append_assoc]
  exact (Resolves.literal_iff base hbase).mpr (h.of_up_all gone)

end Lands

/-! ### Missing entries -/

/--
`Misses look cur segs`: from the directory `cur` the components lead to a name under which
there is nothing.  As for `Lands`, the `""` and `"."` in a link's target stand for nothing.
-/
inductive Misses (look : Look) : Path → List String → Prop
  | skip {cur : Path} {s : String} {segs : List String} (hs : isSkip s = true)
      (h : Misses look cur segs) : Misses look cur (s :: segs)
  | up {cur : Path} {segs : List String} (hcur : cur ≠ [])
      (h : Misses look cur.dropLast segs) : Misses look cur (".." :: segs)
  | absent {cur : Path} {s : String} {segs : List String} (hs : isName s = true)
      (hnone : look (cur ++ [s]) = none) : Misses look cur (s :: segs)
  | enter {cur : Path} {s : String} {segs : List String} (hs : isName s = true)
      (hdir : look (cur ++ [s]) = some .dir) (h : Misses look (cur ++ [s]) segs) :
      Misses look cur (s :: segs)
  | link {cur target : Path} {s : String} {segs : List String} (hs : isName s = true)
      (hlink : look (cur ++ [s]) = some (.link target)) (habs : isAbs target = false)
      (h : Misses look cur (strip target ++ segs)) : Misses look cur (s :: segs)

section Misses

variable {look : Look} {cur loc : Path} {s : String} {segs : List String}

theorem Misses.stripped (h : Misses look cur segs) : Misses look cur (strip segs) := by
  induction h with
  | skip hs _ ih => rwa [strip_cons_skip hs]
  | up hcur _ ih => exact .up hcur ih
  | absent hs hnone =>
    rw [strip_cons_keep (isName_iff.mp hs).1]
    exact .absent hs hnone
  | enter hs hdir _ ih =>
    rw [strip_cons_keep (isName_iff.mp hs).1]
    exact .enter hs hdir ih
  | link hs hlink habs _ ih =>
    rw [strip_cons_keep (isName_iff.mp hs).1]
    rw [strip_append, strip_eq_self fun r hr => not_isSkip_of_mem_strip hr] at ih
    exact .link hs hlink habs ih

/-- What a name stands for decides where nothing is found. -/
theorem Misses.of_name (hs : isName s = true) (h : Misses look cur (s :: segs)) :
    look (cur ++ [s]) = none ∨ (look (cur ++ [s]) = some .dir ∧ Misses look (cur ++ [s]) segs) ∨
      ∃ target, look (cur ++ [s]) = some (.link target) ∧
        Misses look cur (strip target ++ segs) := by
  cases h with
  | skip hskip => simp [isName, hskip] at hs
  | up => simp [isName] at hs
  | absent _ hnone => exact Or.inl hnone
  | enter _ hdir h => exact Or.inr (Or.inl ⟨hdir, h⟩)
  | link _ hlink _ h => exact Or.inr (Or.inr ⟨_, hlink, h⟩)

/-- **A path that leads to an entry leads nowhere else**, if the entry is no link. -/
theorem Lands.not_misses (h : Lands look [] cur segs loc)
    (hloc : ∀ target, look loc ≠ some (.link target)) : ¬ Misses look cur segs := by
  induction h with
  | done => nofun
  | skip hs _ ih =>
    intro hm
    cases hm with
    | skip _ hm => exact ih hloc hm
    | up => simp [isSkip] at hs
    | absent hn | enter hn | link hn => simp [isName, hs] at hn
  | up _ _ ih =>
    intro hm
    cases hm with
    | skip hs => simp [isSkip] at hs
    | up _ hm => exact ih hloc hm
    | absent hn | enter hn | link hn => simp [isName] at hn
  | last hs hlook =>
    intro hm
    rcases hm.of_name hs with hnone | ⟨_, hm⟩ | ⟨target, hlink, _⟩
    · simp [hnone] at hlook
    · cases hm
    · exact hloc target hlink
  | enter hs hdir _ ih =>
    intro hm
    rcases hm.of_name hs with hnone | ⟨_, hm⟩ | ⟨target, hlink, _⟩
    · simp [hnone] at hdir
    · exact ih hloc hm
    · simp [hlink] at hdir
  | link hs hlink _ _ ih =>
    intro hm
    rcases hm.of_name hs with hnone | ⟨hdir, _⟩ | ⟨target', hlink', hm⟩
    · simp [hnone] at hlink
    · simp [hdir] at hlink
    · obtain rfl : _ = target' := by simpa [hlink] using hlink'
      exact ih hloc hm
  | exempt _ _ hmem => simp at hmem

end Misses

/-! ### Restriction -/

section Restrict

variable {look look' : Look} {avoid : List Path}

/-- What is kept of a name space is as it was. -/
def Within (look' look : Look) : Prop := ∀ q kind, look' q = some kind → look q = some kind

theorem Within.kept (hext : Within look' look) {q : Path} {kind : Kind}
    (h' : (look' q).isSome = true) (h : look q = some kind) : look' q = some kind := by
  obtain ⟨kind', hkind⟩ := Option.isSome_iff_exists.mp h'
  rw [hkind, ← h, hext q kind' hkind]

/--
**Resolution in a restricted name space.**  A path that resolves, and of which a
continuation exists after the restriction, resolves there as well, if the target of every
link that is kept exists there when it resolves at all.
-/
theorem Resolves.restrict (hext : Within look' look)
    (htargets : ∀ {cur : Path} {s : String} {target : Path} {k : Nat} {z : Path},
      isName s = true → look' (cur ++ [s]) = some (.link target) → cur ++ [s] ∉ avoid →
      Resolves look avoid k cur (strip target) z →
      ∃ rest loc, Lands look' avoid cur (strip target ++ rest) loc)
    {k : Nat} {cur z : Path} {segs : List String} (h : Resolves look avoid k cur segs z) :
    ∀ {rest : List String} {loc : Path}, Lands look' avoid cur (strip segs ++ rest) loc →
      Resolves look' [] k cur segs z := by
  induction h with
  | done cur => intro _ _ _; exact .done cur
  | @skip k cur z s segs hs _ ih =>
    intro rest loc hl
    rw [strip_cons_skip hs] at hl
    exact .skip hs (ih hl)
  | @up k cur z segs hcur _ ih =>
    intro rest loc hl
    exact .up hcur (ih hl.of_up)
  | @enter k cur z s segs hs hdir _ ih =>
    intro rest loc hl
    rw [strip_cons_keep (isName_iff.mp hs).1, List.cons_append] at hl
    have hkept := hext.kept (hl.isSome hs) hdir
    exact .enter hs hkept (ih (hl.of_dir hs hkept))
  | @leaf cur s hs hleaf =>
    intro rest loc hl
    rw [strip_cons_keep (isName_iff.mp hs).1, List.cons_append] at hl
    exact .leaf hs (hext.kept (hl.isSome hs) hleaf)
  | @link k cur z target s segs hs hlink havoid habs hnext ih =>
    intro rest loc hl
    rw [strip_cons_keep (isName_iff.mp hs).1, List.cons_append] at hl
    have hkept := hext.kept (hl.isSome hs) hlink
    rcases hl.of_name hs with ⟨hnil, _, _⟩ | ⟨hdir, _⟩ | ⟨target', hlink', hon⟩
    · -- The path ends at the link: only now does its own target have to be there.
      have hsegs : strip segs = [] := (List.append_eq_nil_iff.mp hnil).1
      have htarget : strip (target ++ segs) = strip target := by
        rw [strip_append, hsegs, List.append_nil]
      have hres := hnext.stripped
      rw [htarget] at hres
      obtain ⟨rest', loc', hl'⟩ := htargets hs hkept havoid hres
      rw [← htarget] at hl'
      exact .link hs hkept (by simp) habs (ih hl')
    · simp [hkept] at hdir
    · obtain rfl : target = target' := by simpa [hkept] using hlink'
      have hl' := hon.resolve_left havoid
      rw [← List.append_assoc, ← strip_append] at hl'
      exact .link hs hlink' (by simp) habs (ih hl')

/-- What a path resolves to is there, in a name space closed under taking prefixes. -/
theorem Resolves.isSome
    (hclosed : ∀ {q : Path} {s : String}, q ≠ [] → (look (q ++ [s])).isSome = true →
      look q = some .dir)
    {k : Nat} {cur z : Path} {segs : List String} (h : Resolves look avoid k cur segs z) :
    (cur = [] ∨ look cur = some .dir) → z = [] ∨ (look z).isSome = true := by
  induction h with
  | done =>
    intro hcur
    exact hcur.imp id fun h => by simp [h]
  | skip _ _ ih | link _ _ _ _ _ ih => exact ih
  | @up k cur z segs hne _ ih =>
    intro hcur
    refine ih ?_
    by_cases hnil : cur.dropLast = []
    · exact Or.inl hnil
    · refine Or.inr (hclosed (s := cur.getLast hne) hnil ?_)
      rw [List.dropLast_concat_getLast, hcur.resolve_left hne]
      rfl
  | enter _ hdir _ ih => intro _; exact ih (Or.inr hdir)
  | leaf _ hleaf => intro _; exact Or.inr (by simp [hleaf])

end Restrict

end Paths
