/-
A POSIX file system as its callers see it.

A location is the names from the root down to an entry, so it is the physical place of
what lies there; every entry lies in a directory (`Fs.parents`).  A path is walked to a
location component by component (`walk`): links are followed from the directory they lie
in, at most `maxLinks` of them, and `..` steps up from where the walk is.

Each call logs the locations it changes.  The rules at the end are about calls with paths
below a directory `root`: as long as no link lies on the way, a path leads to the location
that its names spell (`Below.place_eq`), and the call changes that location only (`Below`).
-/
import JobsIroh.Lib.Assoc
import JobsIroh.Lib.Filepath

namespace Posix

open Paths

abbrev Loc := List String

inductive Entry where
  | dir
  | file (mode : Nat) (data : List UInt8)
  | link (target : Path)
  deriving DecidableEq, Repr

/-- What a walk sees of an entry. -/
def Entry.kind : Entry → Kind
  | .dir => .dir
  | .file _ _ => .other
  | .link t => .link t

def lookIn (entries : List (Loc × Entry)) (l : Loc) : Option Entry :=
  if l = [] then some .dir else entries.lookup l

structure Fs where
  entries : List (Loc × Entry)
  /-- What lies somewhere lies in a directory. -/
  parents : ∀ l n, lookIn entries (l ++ [n]) ≠ none → lookIn entries l = some .dir

namespace Fs

def look (fs : Fs) (l : Loc) : Option Entry := lookIn fs.entries l

def kind (fs : Fs) (l : Loc) : Option Kind := (fs.look l).map Entry.kind

@[simp] theorem look_root (fs : Fs) : fs.look [] = some .dir := by simp [look, lookIn]

theorem look_parent {fs : Fs} {l : Loc} {n : String} (h : fs.look (l ++ [n]) ≠ none) :
    fs.look l = some .dir :=
  fs.parents l n h

theorem look_dropLast {fs : Fs} {l : Loc} (h : fs.look l ≠ none) :
    fs.look l.dropLast = some .dir := by
  rcases List.eq_nil_or_concat' l with rfl | ⟨k, n, rfl⟩
  · simp
  · rw [List.dropLast_concat]
    exact look_parent h

theorem kind_dir {fs : Fs} {l : Loc} : fs.kind l = some .dir ↔ fs.look l = some .dir := by
  unfold kind
  cases h : fs.look l with
  | none => simp
  | some e => cases e <;> simp [Entry.kind]

theorem kind_none {fs : Fs} {l : Loc} : fs.kind l = none ↔ fs.look l = none := by
  simp [kind]

/-- The location can hold something that is not a directory yet. -/
def Free (fs : Fs) (l : Loc) : Prop :=
  l ≠ [] ∧ fs.look l.dropLast = some .dir ∧ fs.look l ≠ some .dir

instance (fs : Fs) (l : Loc) : Decidable (fs.Free l) :=
  inferInstanceAs (Decidable (l ≠ [] ∧ fs.look l.dropLast = some .dir ∧ fs.look l ≠ some .dir))

theorem lookIn_put (es : List (Loc × Entry)) {l : Loc} (hl : l ≠ []) (e : Entry) (k : Loc) :
    lookIn ((l, e) :: es.filter (fun p => p.1 ≠ l)) k = if k = l then some e else lookIn es k := by
  unfold lookIn
  by_cases hk : k = []
  · rw [if_pos hk, if_pos hk, if_neg (by rw [hk]; exact fun h => hl h.symm)]
  · rw [if_neg hk, if_neg hk, Assoc.lookup_put]

/-- Put an entry where there is none, or in the place of one that is no directory. -/
def put (fs : Fs) (l : Loc) (e : Entry) (h : fs.Free l) : Fs where
  entries := (l, e) :: fs.entries.filter fun p => p.1 ≠ l
  parents := by
    intro k n hk
    rw [lookIn_put _ h.1] at hk ⊢
    by_cases hkl : k = l
    · -- Nothing lies in what is no directory.
      subst hkl
      rw [if_neg (by simp)] at hk
      exact absurd (fs.parents k n hk) h.2.2
    · rw [if_neg hkl]
      split at hk
      · rename_i heq
        have := h.2.1
        rwa [← heq, List.dropLast_concat] at this
      · exact fs.parents k n hk

@[simp] theorem look_put (fs : Fs) {l : Loc} (e : Entry) (h : fs.Free l) (k : Loc) :
    (fs.put l e h).look k = if k = l then some e else fs.look k :=
  lookIn_put _ h.1 e k

def isEmpty (fs : Fs) (l : Loc) : Bool :=
  fs.entries.all fun p => decide (p.1 = [] ∨ p.1.dropLast ≠ l)

theorem look_of_isEmpty {fs : Fs} {l : Loc} (h : fs.isEmpty l = true) (n : String) :
    fs.look (l ++ [n]) = none := by
  cases hlook : fs.look (l ++ [n]) with
  | none => rfl
  | some e =>
    have hmem : (l ++ [n], e) ∈ fs.entries :=
      Assoc.mem_of_lookup (by simpa [look, lookIn] using hlook)
    have := List.all_eq_true.mp h _ hmem
    simp at this

theorem lookIn_filter (es : List (Loc × Entry)) {l : Loc} (hl : l ≠ []) (k : Loc) :
    lookIn (es.filter (fun p => p.1 ≠ l)) k = if k = l then none else lookIn es k := by
  unfold lookIn
  by_cases hk : k = []
  · rw [if_pos hk, if_pos hk, if_neg (by rw [hk]; exact fun h => hl h.symm)]
  · rw [if_neg hk, if_neg hk, Assoc.lookup_filter es (fun n => decide (n ≠ l)) k]
    by_cases hkl : k = l
    · simp [hkl]
    · simp [hkl]

/-- Take out an entry in which nothing lies. -/
def erase (fs : Fs) (l : Loc) (hl : l ≠ []) (h : ∀ n, fs.look (l ++ [n]) = none) : Fs where
  entries := fs.entries.filter fun p => p.1 ≠ l
  parents := by
    intro k n hk
    rw [lookIn_filter _ hl] at hk ⊢
    split at hk
    · simp at hk
    · by_cases hkl : k = l
      · subst hkl
        exact absurd (h n) hk
      · rw [if_neg hkl]
        exact fs.parents k n hk

@[simp] theorem look_erase (fs : Fs) {l : Loc} (hl : l ≠ [])
    (h : ∀ n, fs.look (l ++ [n]) = none) (k : Loc) :
    (fs.erase l hl h).look k = if k = l then none else fs.look k :=
  lookIn_filter _ hl k

end Fs

/-! ### Walking a path -/

/--
Walk from a directory; a link that is met is left to `onLink`, with the directory and the
path to go on from.  The last component may be missing, and may be a link unless `follow`.
-/
def pass (fs : Fs) (follow : Bool) (onLink : Loc → Path → Option Loc) : Loc → Path → Option Loc
  | cur, [] => some cur
  | cur, s :: rest =>
    if isSkip s then pass fs follow onLink cur rest
    else if s = ".." then pass fs follow onLink cur.dropLast rest
    else
      match fs.kind (cur ++ [s]) with
      | some .dir => pass fs follow onLink (cur ++ [s]) rest
      | some (.link t) =>
        if rest = [] ∧ follow = false then some (cur ++ [s])
        else onLink (if isAbs t then [] else cur) (t ++ rest)
      | some .other | none => if rest = [] then some (cur ++ [s]) else none

/-- The location a path leads to, following so many links at most. -/
def walk (fs : Fs) (follow : Bool) : Nat → Loc → Path → Option Loc
  | 0 => pass fs follow fun _ _ => none
  | n + 1 => pass fs follow (walk fs follow n)

section Walk

variable {fs : Fs} {follow : Bool} {f g : Loc → Path → Option Loc} {cur l root : Loc}
  {s : String} {ns : Path}

theorem pass_skip (hs : isSkip s = true) (rest : Path) :
    pass fs follow f cur (s :: rest) = pass fs follow f cur rest := by
  rw [pass, if_pos hs]

theorem pass_name (hs : isName s = true) (rest : Path) :
    pass fs follow f cur (s :: rest) =
      match fs.kind (cur ++ [s]) with
      | some .dir => pass fs follow f (cur ++ [s]) rest
      | some (.link t) =>
        if rest = [] ∧ follow = false then some (cur ++ [s])
        else f (if isAbs t then [] else cur) (t ++ rest)
      | some .other | none => if rest = [] then some (cur ++ [s]) else none := by
  obtain ⟨hskip, hup⟩ := isName_iff.mp hs
  rw [pass, if_neg (by simp [hskip]), if_neg hup]

/-- The three ways a component is walked. -/
theorem component_cases (s : String) : isSkip s = true ∨ s = ".." ∨ isName s = true := by
  by_cases hskip : isSkip s = true
  · exact Or.inl hskip
  · by_cases hup : s = ".."
    · exact Or.inr (Or.inl hup)
    · exact Or.inr (Or.inr (isName_of_steps hskip hup))

/-- Names lead to the location they spell, if no link lies on the way. -/
theorem pass_names (ns : Path) : ∀ {root : Loc}, (∀ s ∈ ns, isName s = true) →
    (∀ ms, ms <+: ns → ms ≠ [] → (ms = ns → follow = true) →
      ∀ t, fs.kind (root ++ ms) ≠ some (.link t)) →
    pass fs follow f root ns = some l → l = root ++ ns := by
  induction ns with
  | nil => intro root _ _ h; simpa [pass] using h.symm
  | cons s ns ih =>
    intro root hns hfree h
    rw [pass_name (hns s List.mem_cons_self)] at h
    have hlast : (if ns = [] then some (root ++ [s]) else none) = some l →
        l = root ++ s :: ns := by
      intro hend
      obtain ⟨rfl, rfl⟩ : ns = [] ∧ root ++ [s] = l := by simpa using hend
      rfl
    cases hk : fs.kind (root ++ [s]) with
    | none => exact hlast (by simpa [hk] using h)
    | some k =>
      rw [hk] at h
      cases k with
      | other => exact hlast h
      | dir =>
        have hrest := ih (fun r hr => hns r (List.mem_cons_of_mem _ hr)) ?_ h
        · simpa using hrest
        · intro ms hms hne hend t
          have := hfree (s :: ms) (by simpa using hms) (by simp) (by simpa using hend) t
          simpa using this
      | link t =>
        by_cases hend : ns = [] ∧ follow = false
        · exact hlast (by simpa [hend] using h)
        · refine absurd hk (hfree [s] (by simp) (by simp) ?_ t)
          intro hs
          have hnil : ns = [] := by simpa using hs.symm
          simpa [hnil] using hend

/-- Names after a path that leads to a directory. -/
theorem pass_below (hroot : fs.look root = some .dir) (hne : ns ≠ [])
    (hnames : ∀ g, pass fs follow g root ns = some l → l = root ++ ns)
    (hfg : ∀ d p, f d p = some root → g d (p ++ ns) = some l → l = root ++ ns) (a : Path) :
    ∀ {cur : Loc}, pass fs true f cur a = some root →
      pass fs follow g cur (a ++ ns) = some l → l = root ++ ns := by
  induction a with
  | nil =>
    intro cur h h'
    obtain rfl : cur = root := by simpa [pass] using h
    exact hnames g h'
  | cons c a ih =>
    intro cur h h'
    rw [List.cons_append] at h'
    rcases component_cases c with hskip | rfl | hname
    · rw [pass_skip hskip] at h h'
      exact ih h h'
    · exact ih h h'
    · rw [pass_name hname] at h h'
      -- What is no directory and no link could only be the end of the path.
      have hend : (if a = [] then some (cur ++ [c]) else none) = some root →
          fs.kind (cur ++ [c]) = some .dir := by
        intro hlast
        obtain ⟨-, hl⟩ : a = [] ∧ cur ++ [c] = root := by simpa using hlast
        rw [hl]
        exact Fs.kind_dir.mpr hroot
      cases hk : fs.kind (cur ++ [c]) with
      | none =>
        rw [hk] at h hend
        exact absurd (hend h) (by simp)
      | some k =>
        rw [hk] at h h' hend
        cases k with
        | dir => exact ih h h'
        | other => exact absurd (hend h) (by simp)
        | link t =>
          refine hfg _ _ (by simpa using h) ?_
          simpa [hne] using h'

theorem walk_below (hroot : fs.look root = some .dir) (hne : ns ≠ [])
    (hnames : ∀ g, pass fs follow g root ns = some l → l = root ++ ns) (n : Nat) :
    ∀ {cur : Loc} (a : Path), walk fs true n cur a = some root →
      walk fs follow n cur (a ++ ns) = some l → l = root ++ ns := by
  induction n with
  | zero => intro cur a; exact pass_below hroot hne hnames (by simp) a
  | succ n ih =>
    intro cur a
    exact pass_below (f := walk fs true n) (g := walk fs follow n) hroot hne hnames
      (fun _ p => ih p) a

/-- Whatever a walk finds in a directory, it finds by way of that directory. -/
theorem pass_enters (hfg : ∀ d p, fs.look d = some .dir → f d (p ++ [s]) ≠ none →
      ∃ e, g d p = some e ∧ fs.look e = some .dir) (a : Path) :
    ∀ {cur : Loc}, fs.look cur = some .dir → pass fs follow f cur (a ++ [s]) ≠ none →
      ∃ e, pass fs true g cur a = some e ∧ fs.look e = some .dir := by
  induction a with
  | nil => intro cur hcur _; exact ⟨cur, by rw [pass], hcur⟩
  | cons c a ih =>
    intro cur hcur h
    rw [List.cons_append] at h
    rcases component_cases c with hskip | rfl | hname
    · rw [pass_skip hskip] at h ⊢
      exact ih hcur h
    · exact ih (Fs.look_dropLast (by simp [hcur])) h
    · rw [pass_name hname] at h ⊢
      cases hk : fs.kind (cur ++ [c]) with
      | none => simp [hk] at h
      | some k =>
        rw [hk] at h
        cases k with
        | dir => exact ih (Fs.kind_dir.mp hk) h
        | link t =>
          have := hfg (if isAbs t then [] else cur) (t ++ a) (by split <;> simp [hcur])
          simpa using this (by simpa using h)
        | other => simp at h

theorem walk_enters (n : Nat) : ∀ {cur : Loc}, fs.look cur = some .dir → ∀ a : Path,
    walk fs follow n cur (a ++ [s]) ≠ none →
    ∃ e, walk fs true n cur a = some e ∧ fs.look e = some .dir := by
  induction n with
  | zero => intro cur hcur a h; exact pass_enters (by simp) a hcur h
  | succ n ih => intro cur hcur a h; exact pass_enters (fun d p hd => ih hd p) a hcur h

/-- What is no link is found by following too, also when more has come to lie around it. -/
theorem pass_within {fs' : Fs} (hw : ∀ m k, fs.kind m = some k → fs'.kind m = some k)
    (hl : ∀ t, fs'.kind l ≠ some (.link t)) (hfg : ∀ d p, f d p = some l → g d p = some l)
    (a : Path) :
    ∀ {cur : Loc}, pass fs follow f cur a = some l → pass fs' true g cur a = some l := by
  induction a with
  | nil => intro cur h; exact h
  | cons c a ih =>
    intro cur h
    rcases component_cases c with hskip | rfl | hname
    · rw [pass_skip hskip] at h ⊢
      exact ih h
    · exact ih h
    · rw [pass_name hname] at h ⊢
      cases hk : fs.kind (cur ++ [c]) with
      | none =>
        rw [hk] at h
        obtain ⟨rfl, rfl⟩ : a = [] ∧ cur ++ [c] = l := by simpa using h
        cases hk' : fs'.kind (cur ++ [c]) with
        | none => rfl
        | some k =>
          cases k with
          | dir | other => rfl
          | link t => exact absurd hk' (hl t)
      | some k =>
        rw [hk] at h
        rw [hw _ _ hk]
        cases k with
        | dir => exact ih h
        | link t =>
          by_cases hlast : a = [] ∧ follow = false
          · obtain rfl : cur ++ [c] = l := by simpa [hlast] using h
            exact absurd (hw _ _ hk) (hl t)
          · simpa using hfg _ _ (by simpa [hlast] using h)
        | other => exact h

theorem walk_within {fs' : Fs} (hw : ∀ m k, fs.kind m = some k → fs'.kind m = some k)
    (hl : ∀ t, fs'.kind l ≠ some (.link t)) (n : Nat) : ∀ {cur : Loc} (a : Path),
      walk fs follow n cur a = some l → walk fs' true n cur a = some l := by
  induction n with
  | zero => intro cur a h; exact pass_within hw hl (by simp) a h
  | succ n ih => intro cur a h; exact pass_within hw hl (fun d p => ih p) a h

end Walk

/-! ### The place a path names -/

/-- What a process brings to its calls. -/
structure Proc where
  cwd : Loc
  maxLinks : Nat

def Proc.origin (pr : Proc) (p : Clean) : Loc := if p.abs then [] else pr.cwd

/-- The location a path names: the last component may be missing there. -/
def place (pr : Proc) (fs : Fs) (follow : Bool) (p : Clean) : Option Loc :=
  if fs.look (pr.origin p) = some .dir then walk fs follow pr.maxLinks (pr.origin p) p.comps
  else none

/-! ### The calls -/

inductive Errno where
  | noent
  | exist
  | isdir
  | notdir
  | loop
  | notempty
  deriving DecidableEq, Repr

inductive Effect where
  | create (l : Loc)
  | truncate (l : Loc)
  | write (l : Loc)
  | chmod (l : Loc)
  | remove (l : Loc)
  deriving DecidableEq, Repr

def Effect.loc : Effect → Loc
  | .create l | .truncate l | .write l | .chmod l | .remove l => l

/-- A file system, and the changes made to it so far. -/
structure Disk where
  fs : Fs
  log : List Effect

/-- Put an entry and log it; nothing happens where an entry cannot be put. -/
def Disk.set (d : Disk) (l : Loc) (e : Entry) (eff : Effect) : Disk :=
  if h : d.fs.Free l then { fs := d.fs.put l e h, log := d.log ++ [eff] } else d

variable (pr : Proc)

def stat (d : Disk) (p : Clean) : Option Entry := (place pr d.fs true p).bind d.fs.look

def lstat (d : Disk) (p : Clean) : Option Entry := (place pr d.fs false p).bind d.fs.look

/-- Make an entry at a place where there is none. -/
def make (e : Entry) (p : Clean) (d : Disk) : Option Errno × Disk :=
  match place pr d.fs false p with
  | none => (some .noent, d)
  | some l =>
    match d.fs.look l with
    | none => (none, d.set l e (.create l))
    | some _ => (some .exist, d)

def mkdir (p : Clean) (d : Disk) : Option Errno × Disk := make pr .dir p d

/-- An empty target is not a path. -/
def symlink (target : Path) (p : Clean) (d : Disk) : Option Errno × Disk :=
  if target = [""] then (some .noent, d) else make pr (.link target) p d

/-- `open` for writing, with `O_CREAT` and `O_TRUNC`, and `O_NOFOLLOW` unless `follow`. -/
def openFile (follow : Bool) (perm : Nat) (p : Clean) (d : Disk) : Except Errno Loc × Disk :=
  match place pr d.fs follow p with
  | none => (.error .noent, d)
  | some l =>
    match d.fs.look l with
    | none => (.ok l, d.set l (.file perm []) (.create l))
    | some (.file mode _) => (.ok l, d.set l (.file mode []) (.truncate l))
    | some .dir => (.error .isdir, d)
    | some (.link _) => (.error .loop, d)

/-- Write to a file that was opened. -/
def writeFile (l : Loc) (data : List UInt8) (d : Disk) : Disk :=
  match d.fs.look l with
  | some (.file mode _) => d.set l (.file mode data) (.write l)
  | _ => d

/-- Directories have no mode here. -/
def chmod (mode : Nat) (p : Clean) (d : Disk) : Option Errno × Disk :=
  match place pr d.fs true p with
  | none => (some .noent, d)
  | some l =>
    match d.fs.look l with
    | some (.file _ data) => (none, d.set l (.file mode data) (.chmod l))
    | some .dir => (none, { d with log := d.log ++ [.chmod l] })
    | _ => (some .noent, d)

/-- `os.Remove`: a file, a link or an empty directory. -/
def remove (p : Clean) (d : Disk) : Option Errno × Disk :=
  match place pr d.fs false p with
  | none => (some .noent, d)
  | some l =>
    match d.fs.look l with
    | none => (some .noent, d)
    | some _ =>
      if h : l ≠ [] ∧ d.fs.isEmpty l = true then
        (none, { fs := d.fs.erase l h.1 (Fs.look_of_isEmpty h.2),
                 log := d.log ++ [.remove l] })
      else (some .notempty, d)

/-- `os.MkdirAll` of a path with so many components. -/
def mkdirUpTo : Nat → Clean → Disk → Option Errno × Disk
  | 0, _, d => (none, d)
  | n + 1, p, d =>
    match stat pr d p with
    | some .dir => (none, d)
    | some _ => (some .notdir, d)
    | none =>
      match mkdirUpTo n p.dir d with
      | (some e, d') => (some e, d')
      | (none, d') =>
        match mkdir pr p d' with
        | (none, d'') => (none, d'')
        | (some e, d'') =>
          if lstat pr d'' p = some .dir then (none, d'') else (some e, d'')

def mkdirAll (p : Clean) (d : Disk) : Option Errno × Disk := mkdirUpTo pr p.comps.length p d

/-- Go on unless a call failed. -/
def andThen {ε : Type} (r : Option Errno × Disk) (err : Errno → ε)
    (act : Disk → Option ε × Disk) : Option ε × Disk :=
  match r with
  | (some e, d) => (some (err e), d)
  | (none, d) => act d

theorem andThen_ind {ε : Type} {r : Option Errno × Disk} {act : Disk → Option ε × Disk}
    {err : Errno → ε} {P : Disk → Prop} (hr : P r.2) (hact : P (act r.2).2) :
    P (andThen r err act).2 := by
  rcases r with ⟨e, d⟩
  cases e with
  | none => exact hact
  | some => exact hr

/-! ### Calls below a directory -/

/-- Everything logged so far has the property. -/
def Kept (P : Loc → Prop) (d : Disk) : Prop := ∀ e ∈ d.log, P e.loc

/-- The place lies in the directory, at any depth. -/
def Inside (root l : Loc) : Prop := root <+: l ∧ l ≠ root

instance (root l : Loc) : Decidable (Inside root l) :=
  inferInstanceAs (Decidable (root <+: l ∧ l ≠ root))

theorem inside_append {root : Loc} {ns : Path} (h : ns ≠ []) : Inside root (root ++ ns) :=
  ⟨List.prefix_append _ _, by simpa using h⟩

/-- The path names the directory `root`, in which nothing lies. -/
structure Named (pr : Proc) (fs : Fs) (base : Clean) (root : Loc) : Prop where
  place : place pr fs true base = some root
  dir : fs.look root = some .dir
  empty : fs.isEmpty root = true

theorem Named.vacant {pr : Proc} {fs : Fs} {base : Clean} {root l : Loc}
    (h : Named pr fs base root) (hl : Inside root l) : fs.look l = none := by
  obtain ⟨⟨ns, rfl⟩, hne⟩ := hl
  induction ns using List.reverseRecOn with
  | nil => simp at hne
  | append_singleton ns s ih =>
    rw [← List.append_assoc]
    by_cases hns : ns = []
    · rw [hns, List.append_nil]
      exact Fs.look_of_isEmpty h.empty s
    · -- Nothing lies in what is not there.
      by_contra hlook
      have := Fs.look_parent hlook
      rw [ih (by simpa using hns)] at this
      cases this

/-- No link lies on the way from `root` along the names; at its end, only if `whole`. -/
def LinkFree (fs : Fs) (root : Loc) (whole : Bool) (ns : Path) : Prop :=
  ∀ ms, ms <+: ns → (ms = ns → whole = true) → ∀ t, fs.kind (root ++ ms) ≠ some (.link t)

instance (k : Option Kind) : Decidable (∀ t, k ≠ some (.link t)) :=
  match k with
  | some (.link t) => isFalse fun h => h t rfl
  | some .dir | some .other | none => isTrue (by simp)

instance (fs : Fs) (root : Loc) (whole : Bool) (ns : Path) :
    Decidable (LinkFree fs root whole ns) :=
  decidable_of_iff (∀ ms ∈ ns.inits, (ms = ns → whole = true) →
    ∀ t, fs.kind (root ++ ms) ≠ some (.link t)) (by simp only [List.mem_inits, LinkFree])

/-- Since `fs₀`, changes were made inside `root` only. -/
structure Confined (fs₀ : Fs) (root : Loc) (d : Disk) : Prop where
  kept : Kept (Inside root) d
  look : ∀ l, ¬Inside root l → d.fs.look l = fs₀.look l

/-- Moreover no link lies on the way along some names. -/
structure Below (fs₀ : Fs) (root : Loc) (whole : Bool) (ns : Path) (d : Disk) : Prop
    extends Confined fs₀ root d where
  free : LinkFree d.fs root whole ns
  names : ∀ s ∈ ns, isName s = true

section Rules

variable {pr : Proc} {fs₀ : Fs} {root l : Loc} {base p : Clean} {ms ns : Path} {d : Disk}
  {e : Entry} {eff : Effect} {b whole : Bool}

/-- The path goes on from `base` with these names. -/
def Extends (base p : Clean) (ns : Path) : Prop := p.abs = base.abs ∧ p.comps = base.comps ++ ns

theorem Extends.dir (h : Extends base p ns) (hne : ns ≠ []) :
    Extends base p.dir ns.dropLast := by
  refine ⟨h.1, ?_⟩
  rw [show p.dir.comps = p.comps.dropLast from rfl, h.2, List.dropLast_append_of_ne_nil hne]

namespace Below

variable (h : Below fs₀ root whole ns d)

include h

/-- A change of one location below `root`. -/
theorem change {d' : Disk} (effs : List Effect) (hms : ms <+: ns) (hne : ms ≠ [])
    (hlog : d'.log = d.log ++ effs) (heffs : ∀ e ∈ effs, e.loc = root ++ ms)
    (hlook : ∀ k, k ≠ root ++ ms → d'.fs.look k = d.fs.look k)
    (hnew : (ms = ns → whole = true) → ∀ t, d'.fs.kind (root ++ ms) ≠ some (.link t)) :
    Below fs₀ root whole ns d' where
  kept := by
    intro e he
    rw [hlog] at he
    rcases List.mem_append.mp he with he | he
    · exact h.kept e he
    · rw [heffs e he]
      exact inside_append hne
  look := by
    intro k hk
    rw [hlook k fun heq => hk (heq ▸ inside_append hne)]
    exact h.look k hk
  free := by
    intro ms' hms' hwhole t
    by_cases heq : ms' = ms
    · subst heq
      exact hnew hwhole t
    · rw [Fs.kind, hlook _ (by simpa using heq)]
      exact h.free ms' hms' hwhole t
  names := h.names

theorem set (hms : ms <+: ns) (hne : ms ≠ []) (heff : eff.loc = root ++ ms)
    (he : (ms = ns → whole = true) → ∀ t, e.kind ≠ .link t) :
    Below fs₀ root whole ns (d.set (root ++ ms) e eff) := by
  by_cases hf : d.fs.Free (root ++ ms)
  · refine h.change [eff] hms hne (by simp [Disk.set, hf]) (by simpa using heff) ?_ ?_
    · intro k hk
      simp [Disk.set, hf, hk]
    · intro hwhole t
      simpa [Disk.set, hf, Fs.kind] using he hwhole t
  · rw [Disk.set, dif_neg hf]
    exact h

/-- No link lies at the end either. -/
theorem no_link (hlast : ∀ t, d.fs.kind (root ++ ns) ≠ some (.link t)) :
    Below fs₀ root true ns d := by
  refine { h with free := fun ms hms _ t => ?_ }
  by_cases heq : ms = ns
  · rw [heq]
    exact hlast t
  · exact h.free ms hms (fun hms => absurd hms heq) t

variable (hb : Named pr fs₀ base root)

include hb

/-- The directory is still named by its path. -/
theorem place_base : place pr d.fs true base = some root ∧ d.fs.look root = some .dir := by
  have hout : ∀ {m}, fs₀.look m ≠ none → d.fs.look m = fs₀.look m := fun hm =>
    h.look _ fun hin => hm (hb.vacant hin)
  have hdir : ∀ {m}, fs₀.look m = some .dir → d.fs.look m = some .dir := fun hm => by
    rw [hout (by simp [hm]), hm]
  have hpl := hb.place
  unfold place at hpl ⊢
  split at hpl
  · rename_i hstart
    rw [if_pos (hdir hstart)]
    refine ⟨walk_within (fun m k hk => ?_) ?_ pr.maxLinks _ hpl, hdir hb.dir⟩
    · rw [Fs.kind, hout fun hn => by simp [Fs.kind, hn] at hk]
      exact hk
    · simp [Fs.kind_dir.mpr (hdir hb.dir)]
  · cases hpl

/-- So is the directory it lies in. -/
theorem stat_dir : stat pr d base.dir = some .dir := by
  obtain ⟨hpl, hdir⟩ := h.place_base hb
  rw [place] at hpl
  split at hpl
  · rename_i hstart
    have hup : d.fs.look (pr.origin base.dir) = some .dir := hstart
    rw [stat, place, if_pos hup]
    rcases List.eq_nil_or_concat' base.comps with hnil | ⟨a, s, ha⟩
    · have hwalk : ∀ n cur, walk d.fs true n cur base.dir.comps = some cur := by
        intro n cur
        rw [show base.dir.comps = [] by simp [Clean.dir, hnil]]
        cases n <;> simp [walk, pass]
      rw [hwalk, Option.bind_some, hup]
    · rw [ha] at hpl
      obtain ⟨e, he, hdir'⟩ := walk_enters pr.maxLinks hstart a (by rw [hpl]; simp)
      rw [show base.dir.comps = a by simp [Clean.dir, ha]]
      simp only [show pr.origin base.dir = pr.origin base from rfl, he, Option.bind_some, hdir']
  · cases hpl

/-- **A path below the directory leads where its names say.** -/
theorem place_eq (hms : ms <+: ns) (hne : ms ≠ []) (hp : Extends base p ms)
    (hlast : b = true → ms = ns → whole = true) (hl : place pr d.fs b p = some l) :
    l = root ++ ms := by
  obtain ⟨hbase, hdir⟩ := h.place_base hb
  have horigin : pr.origin p = pr.origin base := by rw [Proc.origin, Proc.origin, hp.1]
  unfold place at hbase hl
  rw [horigin, hp.2] at hl
  split at hbase
  · rename_i hstart
    rw [if_pos hstart] at hl
    refine walk_below hdir hne (fun g hg => ?_) pr.maxLinks _ hbase hl
    refine pass_names ms (fun s hs => h.names s (hms.subset hs)) ?_ hg
    intro ks hks _ hend t
    refine h.free ks (hks.trans hms) (fun hk => ?_) t
    have heq : ks = ms := hks.eq_of_length_le (by rw [hk]; exact hms.length_le)
    exact hlast (hend heq) (heq ▸ hk)
  · cases hbase

theorem make (hms : ms <+: ns) (hp : Extends base p ms)
    (he : (ms = ns → whole = true) → ∀ t, e.kind ≠ .link t) :
    Below fs₀ root whole ns (make pr e p d).2 := by
  unfold Posix.make
  cases hpl : place pr d.fs false p with
  | none => exact h
  | some l =>
    dsimp only
    cases hl : d.fs.look l with
    | some => exact h
    | none =>
      by_cases hne : ms = []
      · -- The directory itself is there, so its path does not name a vacant place.
        obtain rfl : p = base := Clean.ext hp.1 (by simpa [hne] using hp.2)
        obtain ⟨hbase, hdir⟩ := h.place_base hb
        unfold place at hpl hbase
        split at hpl
        · rename_i hstart
          rw [if_pos hstart] at hbase
          have := walk_within (fun _ _ => id) (by simp [Fs.kind, hl]) pr.maxLinks _ hpl
          rw [hbase] at this
          simp [← Option.some.inj this, hdir] at hl
        · cases hpl
      · obtain rfl := h.place_eq hb hms hne hp (by simp) hpl
        exact h.set hms hne rfl he

theorem mkdirUpTo (n : Nat) : ∀ {p : Clean} {ms : Path}, ms <+: ns → Extends base p ms →
    Below fs₀ root whole ns (mkdirUpTo pr n p d).2 := by
  induction n with
  | zero => intro p ms _ _; exact h
  | succ n ih =>
    intro p ms hms hp
    unfold Posix.mkdirUpTo
    cases hstat : stat pr d p with
    | some f => cases f <;> exact h
    | none =>
      -- The directory itself is there, so something lies between.
      have hne : ms ≠ [] := by
        rintro rfl
        obtain rfl : p = base := Clean.ext hp.1 (by simpa using hp.2)
        obtain ⟨hpl, hdir⟩ := h.place_base hb
        simp [stat, hpl, hdir] at hstat
      have hup := ih ((List.dropLast_prefix ms).trans hms) (hp.dir hne)
      rcases hr : Posix.mkdirUpTo pr n p.dir d with ⟨err, d'⟩
      rw [hr] at hup
      cases err with
      | some => exact hup
      | none =>
        have hmade := hup.make hb hms hp (e := .dir) (by simp [Entry.kind])
        simp only [mkdir]
        rcases hr : Posix.make pr .dir p d' with ⟨err, d''⟩
        rw [hr] at hmade
        cases err with
        | none => exact hmade
        | some =>
          dsimp only
          split <;> exact hmade

variable (hp : Extends base p ns)

include hp

theorem mkdirAll : Below fs₀ root whole ns (mkdirAll pr p d).2 :=
  h.mkdirUpTo hb _ (List.prefix_refl ns) hp

theorem mkdirAll_dir : Below fs₀ root whole ns (Posix.mkdirAll pr p.dir d).2 := by
  by_cases hne : ns = []
  · obtain rfl : p = base := Clean.ext hp.1 (by simpa [hne] using hp.2)
    rw [Posix.mkdirAll]
    cases p.dir.comps.length with
    | zero => exact h
    | succ n =>
      rw [Posix.mkdirUpTo, h.stat_dir hb]
      exact h
  · exact h.mkdirUpTo hb _ (List.dropLast_prefix ns) (hp.dir hne)

theorem symlink (target : Path) (hwhole : whole = false) :
    Below fs₀ root whole ns (symlink pr target p d).2 := by
  unfold Posix.symlink
  split
  · exact h
  · exact h.make hb (List.prefix_refl ns) hp (by simp [hwhole])

/-- What is opened is the file below the directory, and no link. -/
theorem openFile (perm : Nat) (hlast : b = true → whole = true) (hne : ns = [] → b = true) :
    (∃ e, openFile pr b perm p d = (.error e, d)) ∨
      ∃ d', openFile pr b perm p d = (.ok (root ++ ns), d') ∧ ns ≠ [] ∧
        Below fs₀ root true ns d' := by
  unfold Posix.openFile
  by_cases hns : ns = []
  · obtain rfl : p = base := Clean.ext hp.1 (by simpa [hns] using hp.2)
    obtain ⟨hpl, hdir⟩ := h.place_base hb
    simp [hne hns, hpl, hdir]
  · cases hpl : place pr d.fs b p with
    | none => exact Or.inl ⟨_, rfl⟩
    | some l =>
      obtain rfl := h.place_eq hb (List.prefix_refl ns) hns hp (fun hb _ => hlast hb) hpl
      dsimp only
      -- A file that is new, or that was there before.
      have hopened : ∀ {mode eff}, eff.loc = root ++ ns →
          (∀ t, d.fs.kind (root ++ ns) ≠ some (.link t)) →
          Below fs₀ root true ns (d.set (root ++ ns) (.file mode []) eff) := fun heff hno =>
        (h.no_link hno).set (List.prefix_refl ns) hns heff (by simp [Entry.kind])
      cases hl : d.fs.look (root ++ ns) with
      | none => exact Or.inr ⟨_, rfl, hns, hopened rfl (by simp [Fs.kind, hl])⟩
      | some f =>
        cases f with
        | dir | link => exact Or.inl ⟨_, rfl⟩
        | file => exact Or.inr ⟨_, rfl, hns, hopened rfl (by simp [Fs.kind, hl, Entry.kind])⟩

variable (hne : ns ≠ [])

include hne

omit hb hp in
theorem writeFile (data : List UInt8) :
    Below fs₀ root whole ns (writeFile (root ++ ns) data d) := by
  unfold Posix.writeFile
  split
  · exact h.set (List.prefix_refl ns) hne rfl (by simp [Entry.kind])
  · exact h

theorem chmod (mode : Nat) (hwhole : whole = true) :
    Below fs₀ root whole ns (chmod pr mode p d).2 := by
  unfold Posix.chmod
  cases hpl : place pr d.fs true p with
  | none => exact h
  | some l =>
    obtain rfl := h.place_eq hb (List.prefix_refl ns) hne hp (fun _ _ => hwhole) hpl
    dsimp only
    split
    · exact h.set (List.prefix_refl ns) hne rfl (by simp [Entry.kind])
    · exact h.change [.chmod (root ++ ns)] (List.prefix_refl ns) hne rfl
        (by simp [Effect.loc]) (fun _ _ => rfl)
        (fun hw => h.free ns (List.prefix_refl ns) hw)
    · exact h

theorem remove : Below fs₀ root whole ns (remove pr p d).2 := by
  unfold Posix.remove
  cases hpl : place pr d.fs false p with
  | none => exact h
  | some l =>
    obtain rfl := h.place_eq hb (List.prefix_refl ns) hne hp (by simp) hpl
    dsimp only
    split
    · exact h
    · split
      · refine h.change [.remove (root ++ ns)] (List.prefix_refl ns) hne rfl
          (by simp [Effect.loc]) (fun k hk => ?_) ?_
        · simp [hk]
        · simp [Fs.kind]
      · exact h

end Below

end Rules

end Posix
