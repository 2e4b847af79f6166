/-
What a closure walk leaves behind.

Resolving a path is described by where it ends and by the links it met on the way; both
are entries of the context tree, reached through real directories.  The walk marks a
path as visited before it looks at it, so a path met again is not done yet.  `Grows`
says what holds between the states before and after a piece of the walk: nothing is lost,
and every path that is newly visited was needed and has been dealt with.
-/
import JobsIroh.Cover.Walk
import JobsIroh.Proofs.Prune

namespace JobsIroh.Tree

/-! ### Trees as name spaces -/

/-- How path resolution sees an entry. -/
def pathKind : Option Leaf → Paths.Kind
  | none => .dir
  | some (.link target) => .link target
  | some _ => .other

/-- What a tree has at each location. -/
def Dir.look (d : Dir) : Paths.Look := fun q => (d.entry q).map fun e => pathKind e.2

namespace Dir

variable {d : Dir} {p : Path}

@[simp] theorem look_isSome : (d.look p).isSome = (d.entry p).isSome := by
  simp [look]

variable {a : Attr}

theorem look_of_get {node : Node} (h : d.get p = some (a, node)) :
    d.look p = some (pathKind node.kind) := by
  simp [look, entry, h]

theorem get_of_look_link {target : Path} (h : d.look p = some (.link target)) :
    ∃ a, d.get p = some (a, .leaf (.link target)) := by
  simp only [look, entry, Option.map_map, Option.map_eq_some_iff] at h
  obtain ⟨⟨a, node⟩, hget, hkind⟩ := h
  refine ⟨a, ?_⟩
  rw [hget]
  cases node with
  | sub => simp [Node.kind, pathKind] at hkind
  | leaf l =>
    cases l with
    | link => simpa [Node.kind, pathKind] using hkind
    | file | special => simp [Node.kind, pathKind] at hkind

theorem ne_nil_of_get {e : Attr × Node} (h : d.get p = some e) : p ≠ [] := by
  intro hnil
  rw [hnil] at h
  simp at h

theorem entry_of_get {e : Attr × Node} (h : d.get p = some e) : (d.entry p).isSome = true := by
  rw [entry, h]
  rfl

/-- Nothing is below a leaf. -/
theorem nil_of_leaf {l : Leaf} {q : Path} (h : d.get p = some (a, .leaf l))
    (hq : (d.entry (p ++ q)).isSome = true) : q = [] := by
  by_contra hne
  obtain ⟨b, d', hdir, -⟩ := entry_dir_of_append (ne_nil_of_get h) hne hq
  rw [h] at hdir
  simp at hdir

variable {n : String}

theorem WF.find {d' : Dir} (hwf : d.WF) (h : d.find n = some (a, .sub d')) :
    d'.WF := by
  induction d with
  | nil => simp [Dir.find] at h
  | leaf b l rest ih =>
    rw [Dir.find] at h
    split at h
    · simp at h
    · exact ih hwf.2.2 h
  | sub b s rest _ ih =>
    rw [Dir.find] at h
    split at h
    · obtain ⟨-, rfl⟩ : b = a ∧ s = d' := by simpa using h
      exact hwf.2.2.1
    · exact ih hwf.2.2.2 h

theorem WF.get {d' : Dir} :
    ∀ {d : Dir}, d.WF → d.get p = some (a, .sub d') → d'.WF := by
  induction p with
  | nil => intro d _ h; simp at h
  | cons n p ih =>
    intro d hwf h
    rw [get_cons] at h
    cases hf : d.find n with
    | none => rw [hf] at h; simp at h
    | some e =>
      obtain ⟨b, node⟩ := e
      rw [hf] at h
      cases p with
      | nil =>
        obtain ⟨rfl, rfl⟩ : b = a ∧ node = .sub d' := by simpa using h
        exact hwf.find hf
      | cons =>
        cases node with
        | leaf => simp at h
        | sub => exact ih (hwf.find hf) h

/-- The path of an entry is made of names. -/
theorem WF.names_of_entry : ∀ {d : Dir}, d.WF → (d.entry p).isSome = true →
    ∀ s ∈ p, Paths.isName s = true := by
  induction p with
  | nil => intro d _ h; simp at h
  | cons n p ih =>
    intro d hwf h s hs
    have hn : Paths.isName n = true := by
      obtain ⟨h₁, h₂, h₃⟩ := hwf.validNames n (mem_names_of_entry d h)
      simp [Paths.isName, Paths.isSkip, h₁, h₂, h₃]
    rcases List.mem_cons.mp hs with rfl | hs
    · exact hn
    · have hp : p ≠ [] := List.ne_nil_of_mem hs
      obtain ⟨a, d', hget, hentry⟩ := entry_dir_of_append (p := [n]) (by simp) hp h
      rw [List.singleton_append] at hentry
      rw [hentry] at h
      exact ih (hwf.get hget) h s hs

/-- The path of an entry leads through directories. -/
theorem WF.literal {q : Path} (hwf : d.WF) (hq : q ≠ []) (h : (d.entry (p ++ q)).isSome = true) :
    Paths.Literal d.look p where
  names s hs := hwf.names_of_entry h s (List.mem_append_left _ hs)
  dirs r hr hne := by
    obtain ⟨s, rfl⟩ := hr
    rw [List.append_assoc] at h
    obtain ⟨a, d', hget, -⟩ := entry_dir_of_append hne (by simp [hq]) h
    exact look_of_get hget

/-- A name before all of them is not there. -/
theorem get_none_of_lt {rest : Dir} (h : ∀ m ∈ rest.names, n < m) :
    rest.get (n :: p) = none := by
  have hnone := entry_none_of_not_mem (p := p) fun hc => lt_irrefl n (h n hc)
  simpa [entry] using hnone

theorem get_leaf_iff {l : Leaf} {rest : Dir} (hwf : (Dir.leaf a l rest).WF)
    {e : Attr × Node} :
    (Dir.leaf a l rest).get p = some e ↔
      (p = [a.name] ∧ e = (a, .leaf l)) ∨ rest.get p = some e := by
  cases p with
  | nil => simp
  | cons n p =>
    rw [get_cons, find]
    by_cases hn : a.name = n
    · rw [if_pos hn, get_none_of_lt (hn ▸ hwf.2.1)]
      cases p <;> simp [hn, eq_comm]
    · have hn' : n ≠ a.name := fun h => hn h.symm
      rw [if_neg hn, ← get_cons]
      simp [hn']

theorem get_sub_iff {s rest : Dir} (hwf : (Dir.sub a s rest).WF) {e : Attr × Node} :
    (Dir.sub a s rest).get p = some e ↔ (p = [a.name] ∧ e = (a, .sub s)) ∨
      (∃ q, p = a.name :: q ∧ s.get q = some e) ∨ rest.get p = some e := by
  cases p with
  | nil => simp
  | cons n p =>
    rw [get_cons, find]
    by_cases hn : a.name = n
    · rw [if_pos hn, get_none_of_lt (hn ▸ hwf.2.1)]
      cases p <;> simp [hn, eq_comm]
    · have hn' : n ≠ a.name := fun h => hn h.symm
      rw [if_neg hn, ← get_cons]
      simp [hn']

end Dir

/-- There is a link with the target at the path below the node. -/
def Node.LinkAt : Node → Path → Path → Prop
  | .leaf l, x, target => x = [] ∧ l = .link target
  | .sub d, x, target => ∃ a, d.get x = some (a, .leaf (.link target))

end JobsIroh.Tree

namespace JobsIroh.Cover

open JobsIroh.Tree
open Paths (isAbs cleanRel escapes strip isName isSkip)

/-! ### One stretch of a resolution -/

variable {s : String}

theorem isSkip_iff : isSkip s = true ↔ s = "" ∨ s = "." := by
  simp [isSkip]

theorem hop_skip {cur : Path} {dir : Dir} {segs : List String} (hs : isSkip s = true) :
    hop cur dir (s :: segs) = hop cur dir segs := by
  rw [hop, if_pos (isSkip_iff.mp hs)]

theorem hop_keep {cur : Path} {dir : Dir} {segs : List String}
    (hs : isSkip s = false) :
    hop cur dir (s :: segs) = match dir.find s with
      | none => .missing
      | some (_, node) =>
        if segs = [] then .found (cur ++ [s]) node
        else
          match node with
          | .leaf (.link target) => .through cur s target segs
          | .leaf _ => .blocked (cur ++ [s])
          | .sub d => hop (cur ++ [s]) d segs := by
  have hne : ¬ (s = "" ∨ s = ".") := fun h => by simp [isSkip_iff.mpr h] at hs
  exact if_neg hne

/-- What is below a directory that was entered. -/
theorem get_under {dir d : Dir} {a : Attr} (hf : dir.find s = some (a, .sub d))
    {x : Path} (hx : x ≠ []) : dir.get (s :: x) = d.get x := by
  obtain ⟨m, y, rfl⟩ := List.exists_cons_of_ne_nil hx
  rw [Dir.get_cons, hf]

theorem get_below {dir : Dir} {x : Path} (hx : x ≠ []) : ∀ {loc : Path} {d : Dir} {a : Attr},
    d.get loc = some (a, .sub dir) → d.get (loc ++ x) = dir.get x := by
  intro loc
  induction loc with
  | nil => intro d a h; simp at h
  | cons s loc ih =>
    intro d a h
    cases hf : d.find s with
    | none => simp [Dir.get_cons, hf] at h
    | some e =>
      obtain ⟨b, node⟩ := e
      by_cases hloc : loc = []
      · subst hloc
        obtain ⟨rfl, rfl⟩ : b = a ∧ node = .sub dir := by simpa [Dir.get_cons, hf] using h
        exact get_under hf hx
      · cases node with
        | leaf =>
          obtain ⟨m, y, rfl⟩ := List.exists_cons_of_ne_nil hloc
          simp [Dir.get_cons, hf] at h
        | sub =>
          rw [get_under hf hloc] at h
          rw [List.cons_append, get_under hf (by simp [hloc])]
          exact ih h

/-- A stretch that ends at its last component went through directories only. -/
theorem hop_found {segs : List String} :
    ∀ {cur : Path} {dir : Dir} {loc : Path} {node : Node}, hop cur dir segs = .found loc node →
      strip segs ≠ [] ∧ loc = cur ++ strip segs ∧ (∃ a, dir.get (strip segs) = some (a, node)) ∧
        ∃ init s, segs = init ++ [s] ∧ isSkip s = false := by
  induction segs with
  | nil => intro cur dir loc node h; simp [hop] at h
  | cons s segs ih =>
    intro cur dir loc node h
    cases hs : isSkip s with
    | true =>
      rw [hop_skip hs] at h
      obtain ⟨hne, hloc, hget, init, r, hsegs, hr⟩ := ih h
      rw [Paths.strip_cons_skip hs]
      exact ⟨hne, hloc, hget, s :: init, r, by rw [hsegs, List.cons_append], hr⟩
    | false =>
      rw [hop_keep hs] at h
      rw [Paths.strip_cons_keep hs]
      cases hf : dir.find s with
      | none => rw [hf] at h; simp at h
      | some e =>
        obtain ⟨a, n⟩ := e
        rw [hf] at h
        dsimp only at h
        by_cases hsegs : segs = []
        · subst hsegs
          obtain ⟨rfl, rfl⟩ : cur ++ [s] = loc ∧ n = node := by simpa using h
          refine ⟨by simp, by simp [strip], ⟨a, ?_⟩, [], s, rfl, hs⟩
          simp [strip, Dir.get_cons, hf]
        · rw [if_neg hsegs] at h
          cases n with
          | leaf l => cases l <;> simp at h
          | sub =>
            obtain ⟨hne, hloc, ⟨b, hget⟩, init, r, hinit, hr⟩ := ih h
            refine ⟨by simp, by simp [hloc], ⟨b, ?_⟩, s :: init, r, ?_, hr⟩
            · rw [get_under hf hne, hget]
            · rw [hinit, List.cons_append]

/-- A stretch that ends at a link went through directories only, and something follows. -/
theorem hop_through {segs : List String} :
    ∀ {cur : Path} {dir : Dir} {cur' target : Path} {name : String} {rest : List String},
      hop cur dir segs = .through cur' name target rest →
      ∃ x pre, cur' = cur ++ x ∧ segs = pre ++ name :: rest ∧ rest ≠ [] ∧ strip pre = x ∧
        isSkip name = false ∧ ∃ a, dir.get (x ++ [name]) = some (a, .leaf (.link target)) := by
  induction segs with
  | nil => intro cur dir cur' target name rest h; simp [hop] at h
  | cons s segs ih =>
    intro cur dir cur' target name rest h
    cases hs : isSkip s with
    | true =>
      rw [hop_skip hs] at h
      obtain ⟨x, pre, hcur, hsegs, hrest, hpre, hname⟩ := ih h
      exact ⟨x, s :: pre, hcur, by rw [hsegs, List.cons_append], hrest,
        by rw [Paths.strip_cons_skip hs, hpre], hname⟩
    | false =>
      rw [hop_keep hs] at h
      cases hf : dir.find s with
      | none => rw [hf] at h; simp at h
      | some e =>
        obtain ⟨a, n⟩ := e
        rw [hf] at h
        dsimp only at h
        by_cases hsegs : segs = []
        · rw [if_pos hsegs] at h
          simp at h
        · rw [if_neg hsegs] at h
          cases n with
          | leaf l =>
            cases l with
            | file | special => simp at h
            | link t =>
              obtain ⟨rfl, rfl, rfl, rfl⟩ :
                  cur = cur' ∧ s = name ∧ t = target ∧ segs = rest := by simpa using h
              refine ⟨[], [], by simp, rfl, hsegs, rfl, hs, a, ?_⟩
              simp [Dir.get_cons, hf]
          | sub =>
            obtain ⟨x, pre, hcur, hpre, hrest, hstrip, hname, b, hget⟩ := ih h
            refine ⟨s :: x, s :: pre, by simp [hcur], by rw [hpre, List.cons_append], hrest,
              by rw [Paths.strip_cons_keep hs, hstrip], hname, b, ?_⟩
            rw [List.cons_append, get_under hf (by simp), hget]

theorem hop_literal {x : Path} (hx : ∀ s ∈ x, isSkip s = false) :
    ∀ (cur : Path) {dir : Dir} {a : Attr} {node : Node}, dir.get x = some (a, node) →
      hop cur dir x = .found (cur ++ x) node := by
  induction x with
  | nil => intro cur dir a node h; simp at h
  | cons s x ih =>
    intro cur dir a node h
    rw [hop_keep (hx s List.mem_cons_self)]
    rw [Dir.get_cons] at h
    cases hf : dir.find s with
    | none => rw [hf] at h; simp at h
    | some e =>
      obtain ⟨b, n⟩ := e
      rw [hf] at h
      cases x with
      | nil =>
        obtain ⟨-, rfl⟩ : b = a ∧ n = node := by simpa using h
        rfl
      | cons =>
        cases n with
        | leaf => simp at h
        | sub =>
          have hrest := ih (fun q hq => hx q (List.mem_cons_of_mem _ hq)) (cur ++ [s]) h
          rw [List.append_assoc, List.singleton_append] at hrest
          exact hrest

/-! ### A whole resolution -/

/-- A resolution, stretch by stretch: the links it meets and how it ends. -/
inductive Resolution (root : Dir) : List String → List Path → Outcome → Prop
  | missing {segs : List String} (h : hop [] root segs = .missing) :
      Resolution root segs [] .missing
  | failed {segs : List String} {links : List Path} (text : String) :
      Resolution root segs links (.failed text)
  | found {segs : List String} {links : List Path} {loc : Path} {node : Node}
      (h : hop [] root segs = .found loc node)
      (hlinks : links = [] ∨ links = [loc] ∧ ∃ target, node = .leaf (.link target)) :
      Resolution root segs links (.found loc node)
  | through {segs rest : List String} {cur target : Path} {name : String} {links : List Path}
      {out : Outcome} (h : hop [] root segs = .through cur name target rest)
      (habs : isAbs target = false) (hesc : escapes (cleanRel (cur ++ target)) = false)
      (hnext : Resolution root (cleanRel (cur ++ target) ++ rest) links out) :
      Resolution root segs ((cur ++ [name]) :: links) out

theorem resolution (root : Dir) (p : Path) (budget : Nat) (segs : List String) :
    Resolution root segs (resolveFrom root p budget segs).1
      (resolveFrom root p budget segs).2 := by
  rw [resolveFrom.eq_def]
  cases hh : hop [] root segs with
  | missing => exact .missing hh
  | atRoot | blocked => exact .failed _
  | found loc node =>
    cases node with
    | sub => exact .found hh (Or.inl rfl)
    | leaf l =>
      cases l with
      | file | special => exact .found hh (Or.inl rfl)
      | link target =>
        cases budget with
        | zero => exact .failed _
        | succ => exact .found hh (Or.inr ⟨rfl, target, rfl⟩)
  | through =>
    cases budget with
    | zero => exact .failed _
    | succ budget =>
      dsimp only
      split
      · exact .failed _
      · rename_i habs
        split
        · exact .failed _
        · rename_i hesc
          exact .through hh (by simpa using habs) (by simpa using hesc)
            (resolution root p budget _)

theorem resolve_resolution (root : Dir) (p : Path) :
    Resolution root p (resolve root p).1 (resolve root p).2 :=
  resolution root p linkBudget p

/-- A location of the context resolves to itself. -/
theorem resolve_literal {root : Dir} {loc : Path} {a : Attr} {node : Node} (hwf : root.WF)
    (h : root.get loc = some (a, node)) : (resolve root loc).2 = .found loc node := by
  have hnames := hwf.names_of_entry (by rw [Dir.entry, h]; rfl)
  have hhop : hop [] root loc = .found loc node :=
    hop_literal (fun s hs => (Paths.isName_iff.mp (hnames s hs)).1) [] h
  unfold resolve
  rw [linkBudget, resolveFrom.eq_def, hhop]
  cases node with
  | sub => rfl
  | leaf l => cases l <;> rfl

section Resolution

variable {root : Dir} {segs : List String} {links : List Path} {out : Outcome}
  {loc : Path} {node : Node}

theorem Resolution.get (h : Resolution root segs links out) (hout : out = .found loc node) :
    ∃ a, root.get loc = some (a, node) := by
  induction h with
  | missing | failed => simp at hout
  | found hh _ =>
    obtain ⟨rfl, rfl⟩ : _ = loc ∧ _ = node := by simpa using hout
    obtain ⟨-, hloc, hget, -⟩ := hop_found hh
    rw [hloc, List.nil_append]
    exact hget
  | through _ _ _ _ ih => exact ih hout

/-- The links met are links of the context. -/
theorem Resolution.get_link (h : Resolution root segs links out)
    (hout : ∀ text, out ≠ .failed text) {ℓ : Path} (hℓ : ℓ ∈ links) :
    ∃ a target, root.get ℓ = some (a, .leaf (.link target)) := by
  induction h with
  | missing => simp at hℓ
  | failed text => exact absurd rfl (hout text)
  | found hh hlinks =>
    rcases hlinks with rfl | ⟨rfl, target, rfl⟩
    · simp at hℓ
    · obtain ⟨-, hloc, ⟨a, hget⟩, -⟩ := hop_found hh
      rw [List.mem_singleton.mp hℓ, hloc, List.nil_append]
      exact ⟨a, target, hget⟩
  | through hh _ _ _ ih =>
    rcases List.mem_cons.mp hℓ with rfl | hℓ
    · obtain ⟨x, pre, hcur, -, -, -, -, a, hget⟩ := hop_through hh
      exact ⟨a, _, by rw [hcur]; exact hget⟩
    · exact ih hout hℓ

/-- What follows a link is not nothing, if the whole ends in a name. -/
theorem strip_ne_nil_of_last {a rest init : List String} {s : String} (hrest : rest ≠ [])
    (h : a ++ rest = init ++ [s]) (hs : isSkip s = false) :
    strip rest ≠ [] ∧ ∃ init', rest = init' ++ [s] := by
  rcases List.eq_nil_or_concat' rest with rfl | ⟨rest, r, rfl⟩
  · exact absurd rfl hrest
  · rw [← List.append_assoc] at h
    obtain ⟨-, rfl⟩ : _ ∧ r = s := by simpa using List.append_inj' h rfl
    rw [Paths.strip_append, Paths.strip_cons_keep hs]
    exact ⟨by simp, rest, rfl⟩

/-- A path that was found ends in a name. -/
theorem Resolution.last (h : Resolution root segs links out) (hout : out = .found loc node) :
    ∃ init s, segs = init ++ [s] ∧ isSkip s = false := by
  induction h with
  | missing | failed => simp at hout
  | found hh => exact (hop_found hh).2.2.2
  | @through segs rest cur target name links out hh _ _ _ ih =>
    obtain ⟨x, pre, -, hsegs, hrest, -⟩ := hop_through hh
    obtain ⟨init, s, hlast, hs⟩ := ih hout
    obtain ⟨-, init', hinit⟩ := strip_ne_nil_of_last hrest hlast hs
    exact ⟨pre ++ name :: init', s, by rw [hsegs, hinit]; simp, hs⟩

/-- A path that was found has no `..`: no directory has an entry of that name. -/
theorem Resolution.no_up (hwf : root.WF) (h : Resolution root segs links out)
    (hout : out = .found loc node) : ".." ∉ segs := by
  have hkeep : ∀ {p : Path}, ".." ∈ p → ".." ∈ strip p := fun hp =>
    List.mem_filter.mpr ⟨hp, by decide⟩
  induction h with
  | missing | failed => simp at hout
  | @found segs links loc node hh _ =>
    intro hmem
    obtain ⟨-, -, ⟨a, hget⟩, -⟩ := hop_found hh
    have := hwf.names_of_entry (by rw [Dir.entry, hget]; rfl) _ (hkeep hmem)
    simp [isName] at this
  | @through segs rest cur target name links out hh _ _ _ ih =>
    intro hmem
    obtain ⟨x, pre, -, hsegs, -, hpre, -, a, hget⟩ := hop_through hh
    have hnames := hwf.names_of_entry (by rw [Dir.entry, hget]; rfl)
    rw [hsegs, List.mem_append, List.mem_cons] at hmem
    rcases hmem with hmem | hmem | hmem
    · have := hnames ".." (List.mem_append_left _ (hpre ▸ hkeep hmem))
      simp [isName] at this
    · have := hnames name (by simp)
      rw [← hmem] at this
      simp [isName] at this
    · exact ih hout (List.mem_append_right _ hmem)

/-- A path at which the context has an entry is found there. -/
theorem Resolution.of_literal (h : Resolution root segs links out)
    (hout : out = .found loc node) (hentry : (root.entry (strip segs)).isSome = true) :
    loc = strip segs := by
  induction h with
  | missing | failed => simp at hout
  | found hh _ =>
    obtain ⟨rfl, rfl⟩ : _ = loc ∧ _ = node := by simpa using hout
    exact (hop_found hh).2.1
  | @through segs rest cur target name links out hh _ _ hnext _ =>
    obtain ⟨x, pre, -, hsegs, hrest, rfl, hname, a, hget⟩ := hop_through hh
    obtain ⟨init, s, hlast, hs⟩ := hnext.last hout
    -- Something follows the link, and nothing is below a link.
    obtain ⟨hmore, -⟩ := strip_ne_nil_of_last hrest hlast hs
    have hsplit : strip segs = (strip pre ++ [name]) ++ strip rest := by
      rw [hsegs, Paths.strip_append, Paths.strip_cons_keep hname]
      simp
    rw [hsplit] at hentry
    exact absurd (Dir.nil_of_leaf hget hentry) hmore

end Resolution

/-! ### What the walk has to look at -/

/-- The paths that have to be covered, starting from the seeds. -/
inductive Needs (root : Dir) (seeds : List Path) : Path → Prop
  | seed {p : Path} (hp : p ∈ seeds) : Needs root seeds p
  /-- The place where a needed path ends. -/
  | located {p loc : Path} {node : Node} (hp : Needs root seeds p)
      (hfound : (resolve root p).2 = .found loc node) : Needs root seeds loc
  /-- The target of a link that is found there, or in a directory found there. -/
  | target {p loc x target : Path} {node : Node} (hp : Needs root seeds p)
      (hfound : (resolve root p).2 = .found loc node) (hlink : node.LinkAt x target)
      (habs : isAbs target = false)
      (hesc : escapes (cleanRel ((loc ++ x).dropLast ++ target)) = false) :
      Needs root seeds (cleanRel ((loc ++ x).dropLast ++ target))

/-- A link has been chased: its target was covered, or it may stay dangling. -/
structure Chased (allow : List Path) (w : Walker) (ℓ target : Path) : Prop where
  allowed : isAbs target = true ∨ escapes (cleanRel (ℓ.dropLast ++ target)) = true → ℓ ∈ allow
  visited : isAbs target = false → escapes (cleanRel (ℓ.dropLast ++ target)) = false →
    cleanRel (ℓ.dropLast ++ target) ∈ w.visited

/-- A path has been dealt with. -/
structure Done (root : Dir) (allow : List Path) (w : Walker) (p : Path) : Prop where
  ok : ∀ text, (resolve root p).2 ≠ .failed text
  links : (resolve root p).1 ⊆ w.covered
  found : ∀ {loc node}, (resolve root p).2 = .found loc node → p ∈ w.covered ∧ loc ∈ w.visited ∧
    ∀ x target, node.LinkAt x target → Chased allow w (loc ++ x) target

/-- A covered path was found, or is a link that was met. -/
def Traced (root : Dir) (q c : Path) : Prop :=
  c ∈ (resolve root q).1 ∨ c = q ∧ ∃ loc node, (resolve root q).2 = .found loc node

structure Grows (root : Dir) (allow seeds : List Path) (w w' : Walker) : Prop where
  visited : w.visited ⊆ w'.visited
  covered : w.covered ⊆ w'.covered
  fresh : ∀ q ∈ w'.visited, q ∉ w.visited → Needs root seeds q ∧ Done root allow w' q
  traced : ∀ c ∈ w'.covered, c ∈ w.covered ∨ ∃ q ∈ w'.visited, Traced root q c

section Walk

variable {root : Dir} {allow seeds : List Path} {w w' w'' : Walker}

theorem Chased.mono {ℓ target : Path} (h : Chased allow w ℓ target)
    (hv : w.visited ⊆ w'.visited) : Chased allow w' ℓ target where
  allowed := h.allowed
  visited habs hesc := hv (h.visited habs hesc)

theorem Done.mono {p : Path} (h : Done root allow w p) (hv : w.visited ⊆ w'.visited)
    (hc : w.covered ⊆ w'.covered) : Done root allow w' p where
  ok := h.ok
  links := List.Subset.trans h.links hc
  found hfound := by
    obtain ⟨hp, hloc, hlinks⟩ := h.found hfound
    exact ⟨hc hp, hv hloc, fun x target hx => (hlinks x target hx).mono hv⟩

theorem Grows.refl (w : Walker) : Grows root allow seeds w w where
  visited := List.Subset.refl _
  covered := List.Subset.refl _
  fresh _ hq hnew := absurd hq hnew
  traced _ hc := Or.inl hc

theorem Grows.trans (h : Grows root allow seeds w w') (h' : Grows root allow seeds w' w'') :
    Grows root allow seeds w w'' where
  visited := List.Subset.trans h.visited h'.visited
  covered := List.Subset.trans h.covered h'.covered
  fresh q hq hnew := by
    by_cases hmid : q ∈ w'.visited
    · obtain ⟨hneeds, hdone⟩ := h.fresh q hmid hnew
      exact ⟨hneeds, hdone.mono h'.visited h'.covered⟩
    · exact h'.fresh q hq hmid
  traced c hc := by
    rcases h'.traced c hc with hc | hc
    · exact (h.traced c hc).imp id fun ⟨q, hq, htr⟩ => ⟨q, h'.visited hq, htr⟩
    · exact Or.inr hc

/-- What covering one path, with the given fuel or less, does. -/
def Covering (root : Dir) (allow seeds : List Path)
    (next : Path → Walker → Except CoverError Walker) : Prop :=
  ∀ {q : Path} {w w' : Walker}, Needs root seeds q → next q w = .ok w' →
    Grows root allow seeds w w' ∧ q ∈ w'.visited

variable {next : Path → Walker → Except CoverError Walker}

theorem chaseLink_spec (hnext : Covering root allow seeds next) {ℓ target : Path}
    (hneeds : isAbs target = false → escapes (cleanRel (ℓ.dropLast ++ target)) = false →
      Needs root seeds (cleanRel (ℓ.dropLast ++ target)))
    (h : chaseLink next allow ℓ target w = .ok w') :
    Grows root allow seeds w w' ∧ Chased allow w' ℓ target := by
  unfold chaseLink at h
  split at h
  · rename_i habs
    split at h
    · rename_i hallow
      obtain rfl : w = w' := by simpa using h
      exact ⟨.refl w, fun _ => hallow, fun hrel => by simp [habs] at hrel⟩
    · simp at h
  · rename_i habs
    split at h
    · rename_i hesc
      split at h
      · rename_i hallow
        obtain rfl : w = w' := by simpa using h
        exact ⟨.refl w, fun _ => hallow, fun _ hin => by simp [hesc] at hin⟩
      · simp at h
    · rename_i hesc
      obtain ⟨hgrows, hq⟩ := hnext (hneeds (by simpa using habs) (by simpa using hesc)) h
      refine ⟨hgrows, fun hout => ?_, fun _ _ => hq⟩
      rcases hout with hout | hout
      · exact absurd hout habs
      · exact absurd hout hesc

variable {a : Attr}

theorem linkAt_leaf_rest {l : Leaf} {rest : Dir} (hwf : (Dir.leaf a l rest).WF)
    {target : Path} (h : (Node.sub rest).LinkAt x target) :
    (Node.sub (.leaf a l rest)).LinkAt x target := by
  obtain ⟨b, hget⟩ := h
  exact ⟨b, (Dir.get_leaf_iff hwf).mpr (Or.inr hget)⟩

theorem linkAt_sub_rest {s rest : Dir} (hwf : (Dir.sub a s rest).WF) {target : Path}
    (h : (Node.sub rest).LinkAt x target) : (Node.sub (.sub a s rest)).LinkAt x target := by
  obtain ⟨b, hget⟩ := h
  exact ⟨b, (Dir.get_sub_iff hwf).mpr (Or.inr (Or.inr hget))⟩

theorem linkAt_sub_inner {s rest : Dir} (hwf : (Dir.sub a s rest).WF) {target : Path}
    (h : (Node.sub s).LinkAt x target) :
    (Node.sub (.sub a s rest)).LinkAt ([a.name] ++ x) target := by
  obtain ⟨b, hget⟩ := h
  exact ⟨b, (Dir.get_sub_iff hwf).mpr (Or.inr (Or.inl ⟨x, rfl, hget⟩))⟩

/-- The targets of the links at a node have to be covered. -/
def Needed (root : Dir) (seeds : List Path) (loc : Path) (node : Node) : Prop :=
  ∀ {x target}, node.LinkAt x target → isAbs target = false →
    escapes (cleanRel ((loc ++ x).dropLast ++ target)) = false →
    Needs root seeds (cleanRel ((loc ++ x).dropLast ++ target))

theorem Needed.inner {loc : Path} {s rest : Dir} (h : Needed root seeds loc (.sub (.sub a s rest)))
    (hwf : (Dir.sub a s rest).WF) : Needed root seeds (loc ++ [a.name]) (.sub s) := by
  intro x target hx
  rw [List.append_assoc]
  exact h (linkAt_sub_inner hwf hx)

/-- Every link of a directory and of those below it is chased. -/
theorem scanDir_spec (hnext : Covering root allow seeds next) (d : Dir) :
    ∀ {loc : Path} {w w' : Walker}, d.WF →
      Needed root seeds loc (.sub d) →
      scanDir (chaseLink next allow) loc d w = .ok w' →
      Grows root allow seeds w w' ∧
        ∀ x target, (Node.sub d).LinkAt x target → Chased allow w' (loc ++ x) target := by
  induction d with
  | nil =>
    intro loc w w' _ _ h
    obtain rfl : w = w' := by simpa [scanDir] using h
    refine ⟨.refl w, ?_⟩
    rintro x target ⟨a, hget⟩
    cases x <;> simp [Dir.get_cons, Dir.find] at hget
  | leaf a l rest ih =>
    intro loc w w' hwf hneeds h
    cases l with
    | link t =>
      rw [scanDir] at h
      cases hc : chaseLink next allow (loc ++ [a.name]) t w with
      | error => rw [hc] at h; simp at h
      | ok =>
        rw [hc] at h
        have hself : (Node.sub (.leaf a (.link t) rest)).LinkAt [a.name] t :=
          ⟨a, (Dir.get_leaf_iff hwf).mpr (Or.inl ⟨rfl, rfl⟩)⟩
        obtain ⟨hgrows, hchased⟩ := chaseLink_spec hnext (hneeds hself) hc
        obtain ⟨hgrows', hall⟩ := ih hwf.2.2 (fun hx => hneeds (linkAt_leaf_rest hwf hx)) h
        refine ⟨hgrows.trans hgrows', ?_⟩
        rintro x target ⟨b, hget⟩
        rcases (Dir.get_leaf_iff hwf).mp hget with ⟨rfl, he⟩ | hget
        · obtain rfl : target = t := by simpa using (congrArg Prod.snd he)
          exact hchased.mono hgrows'.visited
        · exact hall x target ⟨b, hget⟩
    | file | special =>
      rw [scanDir] at h
      · obtain ⟨hgrows, hall⟩ := ih hwf.2.2 (fun hx => hneeds (linkAt_leaf_rest hwf hx)) h
        refine ⟨hgrows, ?_⟩
        rintro x target ⟨b, hget⟩
        rcases (Dir.get_leaf_iff hwf).mp hget with ⟨rfl, he⟩ | hget
        · simp at he
        · exact hall x target ⟨b, hget⟩
      · simp
  | sub a s rest ihs ih =>
    intro loc w w' hwf hneeds h
    rw [scanDir] at h
    cases hc : scanDir (chaseLink next allow) (loc ++ [a.name]) s w with
    | error => rw [hc] at h; simp at h
    | ok =>
      rw [hc] at h
      obtain ⟨hgrows, hsub⟩ := ihs hwf.2.2.1 (hneeds.inner hwf) hc
      obtain ⟨hgrows', hall⟩ := ih hwf.2.2.2 (fun hx => hneeds (linkAt_sub_rest hwf hx)) h
      refine ⟨hgrows.trans hgrows', ?_⟩
      rintro x target ⟨b, hget⟩
      rcases (Dir.get_sub_iff hwf).mp hget with ⟨rfl, he⟩ | ⟨y, rfl, hy⟩ | hrest
      · simp at he
      · have hchased := (hsub y target ⟨b, hy⟩).mono hgrows'.visited
        rwa [List.append_assoc] at hchased
      · exact hall x target ⟨b, hrest⟩

theorem follow_spec (hnext : Covering root allow seeds next) {loc : Path} {node : Node}
    (hwf : ∀ d, node = .sub d → d.WF)
    (hneeds : Needed root seeds loc node)
    (h : follow next allow loc node w = .ok w') :
    Grows root allow seeds w w' ∧
      ∀ x target, node.LinkAt x target → Chased allow w' (loc ++ x) target := by
  cases node with
  | sub d => exact scanDir_spec hnext d (hwf d rfl) hneeds h
  | leaf l =>
    cases l with
    | link t =>
      have hself : (Node.leaf (.link t)).LinkAt [] t := ⟨rfl, rfl⟩
      have hn := hneeds hself
      rw [List.append_nil] at hn
      obtain ⟨hgrows, hchased⟩ := chaseLink_spec hnext hn h
      refine ⟨hgrows, ?_⟩
      rintro x target ⟨rfl, hl⟩
      obtain rfl : t = target := by simpa using hl
      rw [List.append_nil]
      exact hchased
    | file | special =>
      obtain rfl : w = w' := by simpa [follow] using h
      exact ⟨.refl w, fun x target hx => by simp [Node.LinkAt] at hx⟩

/-- What a step of `cover` does with a path. -/
inductive CoverStep (root : Dir) (allow : List Path) (fuel : Nat) (p : Path) (w w' : Walker) : Prop
  | seen (hp : p ∈ w.visited) (hw : w = w')
  | missing (hp : p ∉ w.visited) (hout : (resolve root p).2 = .missing)
      (hv : w'.visited = p :: w.visited) (hc : w'.covered = (resolve root p).1 ++ w.covered)
  | found {loc : Path} {node : Node} (w₁ w₂ : Walker) (hp : p ∉ w.visited)
      (hout : (resolve root p).2 = .found loc node) (hv : w₁.visited = p :: w.visited)
      (hc : w₁.covered = p :: ((resolve root p).1 ++ w.covered))
      (hloc : loc = p ∧ w₁ = w₂ ∨ cover root allow fuel loc false w₁ = .ok w₂)
      (hfollow : follow (fun q => cover root allow fuel q false) allow loc node w₂ = .ok w')

variable {fuel : Nat}

theorem cover_succ {p : Path} {declared : Bool}
    (h : cover root allow (fuel + 1) p declared w = .ok w') :
    CoverStep root allow fuel p w w' := by
  rw [cover] at h
  split at h
  · rename_i hp
    exact .seen hp (by simpa using h)
  rename_i hp
  rcases hres : resolve root p with ⟨links, out⟩
  rw [hres] at h
  cases out with
  | failed => simp at h
  | missing =>
    dsimp only at h
    split at h
    · simp at h
    · obtain rfl : _ = w' := by simpa using h
      exact .missing hp (by rw [hres]) rfl (by rw [hres])
  | found =>
    dsimp only at h
    split at h
    · simp at h
    · rename_i w₂ hw₂
      refine .found ⟨p :: (links ++ w.covered), p :: w.visited, w.warnings⟩ w₂ hp
        (by rw [hres]) rfl (by rw [hres]) ?_ h
      split at hw₂
      · rename_i hloc
        exact Or.inl ⟨hloc, by simpa using hw₂⟩
      · exact Or.inr hw₂

/-- A path that is new, once it has been dealt with. -/
theorem Grows.of_visit {p : Path} {w₁ : Walker} (hneeds : Needs root seeds p)
    (hv : w₁.visited = p :: w.visited) (hsub : w.covered ⊆ w₁.covered)
    (hc : ∀ c ∈ w₁.covered, c ∈ w.covered ∨ Traced root p c)
    (hgrows : Grows root allow seeds w₁ w') (hdone : Done root allow w' p) :
    Grows root allow seeds w w' ∧ p ∈ w'.visited := by
  have hp : p ∈ w'.visited := hgrows.visited (by simp [hv])
  refine ⟨⟨?_, List.Subset.trans hsub hgrows.covered, ?_, ?_⟩, hp⟩
  · intro q hq
    exact hgrows.visited (by simp [hv, hq])
  · intro q hq hnew
    by_cases hqp : q = p
    · rw [hqp]
      exact ⟨hneeds, hdone⟩
    · exact hgrows.fresh q hq (by simp [hv, hqp, hnew])
  · intro c hcov
    rcases hgrows.traced c hcov with hcov | hcov
    · exact (hc c hcov).imp id fun htr => ⟨p, hp, htr⟩
    · exact Or.inr hcov

/-- **Covering a path** deals with it and with everything it makes necessary. -/
theorem cover_spec (hwf : root.WF) (fuel : Nat) :
    ∀ {p : Path} {declared : Bool} {w w' : Walker}, Needs root seeds p →
      cover root allow fuel p declared w = .ok w' →
      Grows root allow seeds w w' ∧ p ∈ w'.visited := by
  induction fuel with
  | zero => intro p declared w w' _ h; simp [cover] at h
  | succ fuel ih =>
    intro p declared w w' hneeds h
    have hnext : Covering root allow seeds (fun q => cover root allow fuel q false) :=
      fun hq hc => ih hq hc
    cases cover_succ h with
    | seen hp hw =>
      subst hw
      exact ⟨.refl w, hp⟩
    | missing hp hout hv hc =>
      refine Grows.of_visit hneeds hv (by simp [hc]) ?_ (.refl w')
        ⟨by simp [hout], by simp [hc], ?_⟩
      · intro c hcov
        rw [hc, List.mem_append] at hcov
        exact hcov.symm.imp id Or.inl
      · intro loc node hfound
        rw [hout] at hfound
        simp at hfound
    | @found loc node w₁ w₂ hp hout hv hc hloc hfollow =>
      have hmid : Grows root allow seeds w₁ w₂ ∧ loc ∈ w₂.visited := by
        rcases hloc with ⟨rfl, rfl⟩ | hcover
        · exact ⟨.refl w₁, by simp [hv]⟩
        · exact ih (.located hneeds hout) hcover
      obtain ⟨a, hget⟩ := (resolve_resolution root p).get hout
      obtain ⟨hrest, hchased⟩ := follow_spec hnext
        (fun d hd => hwf.get (by rw [hget, hd])) (fun hx => .target hneeds hout hx) hfollow
      have hgrows := hmid.1.trans hrest
      refine Grows.of_visit hneeds hv ?_ ?_ hgrows ⟨by simp [hout], ?_, ?_⟩
      · intro c hcov
        simp [hc, hcov]
      · intro c hcov
        rw [hc, List.mem_cons, List.mem_append] at hcov
        rcases hcov with rfl | hcov | hcov
        · exact Or.inr (Or.inr ⟨rfl, loc, node, hout⟩)
        · exact Or.inr (Or.inl hcov)
        · exact Or.inl hcov
      · intro c hlink
        exact hgrows.covered (by simp [hc, hlink])
      · intro loc' node' hfound
        obtain ⟨rfl, rfl⟩ : loc = loc' ∧ node = node' := by simpa [hout] using hfound
        exact ⟨hgrows.covered (by simp [hc]), hrest.visited hmid.2, hchased⟩

theorem coverAll_spec (hwf : root.WF) :
    ∀ {ps : List Path} {w w' : Walker}, ps ⊆ seeds →
      coverAll root allow fuel ps w = .ok w' →
      Grows root allow seeds w w' ∧ ∀ p ∈ ps, p ∈ w'.visited := by
  intro ps
  induction ps with
  | nil =>
    intro w w' _ h
    obtain rfl : w = w' := by simpa [coverAll] using h
    exact ⟨.refl w, by simp⟩
  | cons p ps ih =>
    intro w w' hsub h
    rw [coverAll] at h
    cases hc : cover root allow fuel p true w with
    | error => rw [hc] at h; simp at h
    | ok =>
      rw [hc] at h
      obtain ⟨hgrows, hp⟩ := cover_spec hwf fuel (.seed (hsub List.mem_cons_self)) hc
      obtain ⟨hgrows', hall⟩ := ih (fun q hq => hsub (List.mem_cons_of_mem _ hq)) h
      refine ⟨hgrows.trans hgrows', ?_⟩
      intro q hq
      rcases List.mem_cons.mp hq with rfl | hq
      · exact hgrows'.visited hp
      · exact hall q hq

/-- The state of a walk that has succeeded. -/
structure Complete (root : Dir) (allow seeds : List Path) (w : Walker) : Prop where
  done : ∀ q ∈ w.visited, Needs root seeds q ∧ Done root allow w q
  traced : ∀ c ∈ w.covered, ∃ q ∈ w.visited, Traced root q c
  needed : ∀ q, Needs root seeds q → q ∈ w.visited

/-- **A walk that succeeds has dealt with exactly the paths that are needed.** -/
theorem coverAll_complete (hwf : root.WF)
    (h : coverAll root allow fuel seeds {} = .ok w) : Complete root allow seeds w := by
  obtain ⟨hgrows, hseeds⟩ := coverAll_spec hwf (List.Subset.refl seeds) h
  have hdone : ∀ q ∈ w.visited, Needs root seeds q ∧ Done root allow w q :=
    fun q hq => hgrows.fresh q hq (by simp)
  refine ⟨hdone, fun c hc => (hgrows.traced c hc).resolve_left (by simp), ?_⟩
  intro q hq
  induction hq with
  | seed hp => exact hseeds _ hp
  | located _ hfound ih => exact ((hdone _ ih).2.found hfound).2.1
  | target _ hfound hlink habs hesc ih =>
    exact (((hdone _ ih).2.found hfound).2.2 _ _ hlink).visited habs hesc

end Walk

end JobsIroh.Cover
