/-
Slash-separated paths as the `path/filepath` functions treat them.

A path is the list of the parts between its slashes, so `"/a"` is `["", "a"]` and the
empty string is `[""]`.  A cleaned path is a type of its own: it is absolute or not, and
its components are a number of `..` followed by names.
-/
import JobsIroh.Lib.Paths

namespace Paths

/-- A number of `..`, then names. -/
def Ordered (p : Path) : Prop :=
  ∃ (n : Nat) (ns : Path), p = List.replicate n ".." ++ ns ∧ ∀ s ∈ ns, isName s = true

theorem Ordered.nil : Ordered [] := ⟨0, [], by simp, by simp⟩

theorem Ordered.snoc_name {p : Path} (h : Ordered p) {s : String} (hs : isName s = true) :
    Ordered (p ++ [s]) := by
  obtain ⟨n, ns, rfl, hns⟩ := h
  exact ⟨n, ns ++ [s], by simp, names_snoc hns hs⟩

/-- What comes after a name in an ordered path is a name. -/
theorem Ordered.name_after {p q : Path} {s t : String} (h : Ordered (p ++ s :: q))
    (hs : isName s = true) (ht : t ∈ q) : isName t = true := by
  obtain ⟨n, ns, heq, hns⟩ := h
  rcases List.append_eq_append_iff.mp heq with ⟨m, hm, hsq⟩ | ⟨m, hm, hsq⟩
  · -- The name stands among the `..`, unless there are no more of them.
    cases m with
    | nil =>
      rw [List.nil_append] at hsq
      exact hns t (by rw [← hsq]; exact List.mem_cons_of_mem _ ht)
    | cons r =>
      rw [List.cons_append, List.cons.injEq] at hsq
      have hup : r ∈ List.replicate n ".." := by rw [hm]; simp
      rw [hsq.1, (List.mem_replicate.mp hup).2] at hs
      exact absurd hs (by decide)
  · exact hns t (by rw [hsq]; exact List.mem_append_right _ (List.mem_cons_of_mem _ ht))

theorem Ordered.of_append {p q : Path} (h : Ordered (p ++ q)) : Ordered p := by
  obtain ⟨n, ns, heq, hns⟩ := h
  rcases List.append_eq_append_iff.mp heq with ⟨m, hm, -⟩ | ⟨m, hm, hns'⟩
  · refine ⟨p.length, [], ?_, by simp⟩
    rw [List.append_nil]
    refine List.eq_replicate_iff.mpr ⟨rfl, fun s hs => ?_⟩
    have hmem : s ∈ List.replicate n ".." := by rw [hm]; exact List.mem_append_left _ hs
    exact (List.mem_replicate.mp hmem).2
  · exact ⟨n, m, hm, fun s hs => hns s (by rw [hns']; exact List.mem_append_left _ hs)⟩

theorem Ordered.dropLast {p : Path} (h : Ordered p) : Ordered p.dropLast := by
  rcases List.eq_nil_or_concat' p with rfl | ⟨q, s, rfl⟩
  · exact h
  · rw [List.dropLast_concat]
    exact h.of_append

/-- Every component of an ordered path is `..` or a name. -/
theorem Ordered.not_skip {p : Path} (h : Ordered p) {s : String} (hs : s ∈ p) :
    isSkip s = false := by
  obtain ⟨n, ns, rfl, hns⟩ := h
  rcases List.mem_append.mp hs with hs | hs
  · rw [(List.mem_replicate.mp hs).2]
    decide
  · exact (isName_iff.mp (hns s hs)).1

/-! ### Cleaning -/

/-- One component of an absolute path: there is nothing above the root. -/
def rootedStep (acc : Path) (s : String) : Path :=
  if isSkip s then acc else if s = ".." then acc.dropLast else acc ++ [s]

theorem isName_of_steps {s : String} (hskip : ¬isSkip s = true) (hup : ¬s = "..") :
    isName s = true :=
  isName_iff.mpr ⟨by simpa using hskip, hup⟩

theorem names_rooted (p : Path) :
    ∀ {acc : Path}, (∀ s ∈ acc, isName s = true) →
      ∀ s ∈ p.foldl rootedStep acc, isName s = true := by
  induction p with
  | nil => intro acc hacc; exact hacc
  | cons s p ih =>
    intro acc hacc
    refine ih ?_
    unfold rootedStep
    split
    · exact hacc
    rename_i hskip
    split
    · exact fun r hr => hacc r (List.dropLast_subset _ hr)
    · rename_i hup
      exact names_snoc hacc (isName_of_steps hskip hup)

theorem foldl_names {p : Path} (hp : ∀ s ∈ p, isName s = true) (rooted : Bool) :
    ∀ acc, p.foldl (if rooted then rootedStep else cleanStep) acc = acc ++ p := by
  cases rooted with
  | false => exact cleanFrom_names hp
  | true =>
    induction p with
    | nil => simp
    | cons s p ih =>
      intro acc
      obtain ⟨hskip, hup⟩ := isName_iff.mp (hp s List.mem_cons_self)
      have := ih (fun r hr => hp r (List.mem_cons_of_mem _ hr)) (acc ++ [s])
      simpa [rootedStep, hskip, hup] using this

theorem ordered_step {acc : Path} (h : Ordered acc) (s : String) : Ordered (cleanStep acc s) := by
  unfold cleanStep
  split
  · exact h
  rename_i hskip
  split
  · split
    · rename_i hlast
      obtain ⟨n, ns, rfl, hns⟩ := h
      -- Either nothing has been named, or the last component would be a name.
      have hnil : ns = [] := by
        rcases List.eq_nil_or_concat' ns with rfl | ⟨ms, m, rfl⟩
        · rfl
        · obtain rfl : m = ".." := by simpa using hlast
          exact absurd (hns ".." (by simp)) (by decide)
      subst hnil
      exact ⟨n + 1, [], by rw [List.replicate_succ']; simp, by simp⟩
    · exact h.dropLast
  · rename_i hup
    exact h.snoc_name (isName_of_steps hskip hup)

theorem ordered_clean (p : Path) : ∀ {acc : Path}, Ordered acc → Ordered (cleanFrom acc p) := by
  induction p with
  | nil => intro acc h; exact h
  | cons s p ih =>
    intro acc h
    exact ih (ordered_step h s)

/-- A path as `filepath.Clean` leaves it. -/
@[ext]
structure Clean where
  abs : Bool
  comps : Path
  ordered : Ordered comps
  deriving DecidableEq

/-- `filepath.Clean`. -/
def clean (p : Path) : Clean :=
  if isAbs p then
    { abs := true, comps := p.foldl rootedStep [],
      ordered := ⟨0, _, rfl, names_rooted p (by simp)⟩ }
  else { abs := false, comps := cleanRel p, ordered := ordered_clean p Ordered.nil }

@[simp] theorem clean_abs (p : Path) : (clean p).abs = isAbs p := by
  unfold clean
  split <;> simp [*]

theorem clean_comps (p : Path) :
    (clean p).comps = p.foldl (if isAbs p then rootedStep else cleanStep) [] := by
  unfold clean
  split <;> rfl

/-- The parts of a cleaned path written out. -/
def Clean.parts (c : Clean) : Path :=
  match c.abs, c.comps with
  | true, [] => ["", ""]
  | true, comps => "" :: comps
  | false, [] => ["."]
  | false, comps => comps

/-- `filepath.Dir` of a cleaned path. -/
def Clean.dir (c : Clean) : Clean where
  abs := c.abs
  comps := c.comps.dropLast
  ordered := c.ordered.dropLast

/-- `filepath.Join` of two elements; an empty one is left out. -/
def join (a b : Path) : Clean := if a = [""] then clean b else clean (a ++ b)

/-- What is left of two lists after their common beginning. -/
def dropCommon : Path → Path → Path × Path
  | a :: as, b :: bs => if a = b then dropCommon as bs else (a :: as, b :: bs)
  | as, bs => (as, bs)

/--
`filepath.Rel` of cleaned paths, as components.  A base that steps up where the target
does not cannot be undone; nor can an absolute path be reached from a relative one.
-/
def rel (base targ : Clean) : Option Path :=
  if base.abs = targ.abs then
    match dropCommon base.comps targ.comps with
    | (b, t) =>
      if b.head? = some ".." then none else some (List.replicate b.length ".." ++ t)
  else none

end Paths
