/-
The pruned tree keeps what its symlinks lead to.

The walk computes the target of a link as a string: the link's directory and the target,
joined and cleaned.  A system resolves it component by component.  The two part where a
`..` comes after a name: the name may be a link to somewhere else, and even where it is a
directory the pruned tree may lack it.  The walk also keeps the links a path passes, but
chases them only through what comes after them: when that is missing, a link is kept and
its own target is not.

On a context where neither is reached (`Plain`) a path that exists in the pruned tree
resolves there as it does in the context.
-/
import JobsIroh.Proofs.CoverWalk

namespace JobsIroh.Cover

open JobsIroh.Tree
open Paths (isAbs cleanRel escapes strip straight isName isSkip Resolves Lands Literal Within)

/-! ### What the walk reaches -/

/-- The walk follows the link, as the end of a path, below it or with what comes after. -/
def Backed (root : Dir) (seeds : List Path) (ℓ : Path) : Prop :=
  ∃ p loc node, Needs root seeds p ∧ (resolve root p).2 = .found loc node ∧
    (ℓ ∈ (resolve root p).1 ∨ ∃ x target, ℓ = loc ++ x ∧ node.LinkAt x target)

/-- The walk comes across the link. -/
def Reached (root : Dir) (seeds : List Path) (ℓ : Path) : Prop :=
  (∃ p, Needs root seeds p ∧ ℓ ∈ (resolve root p).1) ∨ Backed root seeds ℓ

/-- Neither of the two ways in which the walk loses a target is reached. -/
structure Plain (root : Dir) (allow seeds : List Path) : Prop where
  /-- In the target of a link, `..` comes only in front. -/
  targets : ∀ {ℓ a target}, Reached root seeds ℓ → ℓ ∉ allow →
    root.get ℓ = some (a, .leaf (.link target)) → straight target = true
  /-- A link on the way to something missing is followed for another reason. -/
  present : ∀ {p ℓ}, Needs root seeds p → (resolve root p).2 = .missing →
    ℓ ∈ (resolve root p).1 → ℓ ∉ allow → Backed root seeds ℓ

/-- The links of a resolution that may not stay dangling have straight targets. -/
def Straight (root : Dir) (allow links : List Path) : Prop :=
  ∀ {ℓ a target}, ℓ ∈ links → ℓ ∉ allow → root.get ℓ = some (a, .leaf (.link target)) →
    straight target = true

variable {p : Path}

theorem Plain.links {root : Dir} {allow seeds : List Path} (h : Plain root allow seeds)
    (hneeds : Needs root seeds p) : Straight root allow (resolve root p).1 :=
  fun hℓ hallow hget => h.targets (Or.inl ⟨p, hneeds, hℓ⟩) hallow hget

/-! ### Paths of the context -/

theorem cleanRooted_eq_strip (h : ".." ∉ p) : cleanRooted p = strip p := by
  have hfold : ∀ acc : Path, p.foldl (fun acc s => if s = "" ∨ s = "." then acc
      else if s = ".." then acc.dropLast else acc ++ [s]) acc = acc ++ strip p := by
    induction p with
    | nil => intro acc; simp [strip]
    | cons s p ih =>
      intro acc
      rw [List.mem_cons, not_or] at h
      rw [List.foldl_cons, ih h.2]
      cases hs : isSkip s with
      | true => rw [if_pos (isSkip_iff.mp hs), Paths.strip_cons_skip hs]
      | false =>
        rw [if_neg fun hc => by simp [isSkip_iff.mpr hc] at hs, if_neg fun hc => h.1 hc.symm,
          Paths.strip_cons_keep hs]
        simp
  simpa [cleanRooted] using hfold []

theorem strip_names (h : ∀ s ∈ p, isName s = true) : strip p = p :=
  Paths.strip_eq_self fun s hs => (Paths.isName_iff.mp (h s hs)).1

theorem cleanRooted_names (h : ∀ s ∈ p, isName s = true) : cleanRooted p = p := by
  rw [cleanRooted_eq_strip fun hup => (Paths.isName_iff.mp (h _ hup)).2 rfl, strip_names h]

/-- A link below a node of the context is a link of the node. -/
theorem linkAt_of_get {root : Dir} {loc x target : Path} {a b : Attr} {node : Node}
    (hloc : root.get loc = some (a, node))
    (h : root.get (loc ++ x) = some (b, .leaf (.link target))) :
    node.LinkAt x target := by
  cases node with
  | leaf =>
    obtain rfl := Dir.nil_of_leaf hloc (Dir.entry_of_get h)
    rw [List.append_nil, hloc] at h
    obtain ⟨-, rfl⟩ : a = b ∧ _ = Leaf.link target := by simpa using h
    exact ⟨rfl, rfl⟩
  | sub =>
    have hx : x ≠ [] := by
      rintro rfl
      simp [hloc] at h
    exact ⟨b, by rw [← get_below hx hloc]; exact h⟩

theorem names_of_get {root : Dir} (hwf : root.WF) {e : Attr × Node}
    (h : root.get p = some e) : ∀ s ∈ p, isName s = true :=
  hwf.names_of_entry (Dir.entry_of_get h)

/-! ### Resolution by stretches and resolution by components -/

variable {segs : List String}

/-- A stretch that meets something missing: the path does not resolve. -/
theorem not_resolves_of_hop {root : Dir} {avoid : List Path} {k : Nat} {z : Path}
    (hsegs : ∀ s ∈ segs, isName s = true) :
    ∀ {cur : Path} {dir : Dir}, (∀ x, x ≠ [] → root.get (cur ++ x) = dir.get x) →
      hop cur dir segs = .missing → ¬ Resolves root.look avoid k cur segs z := by
  induction segs with
  | nil => intro cur dir _ h; simp [hop] at h
  | cons s segs ih =>
    intro cur dir hdir h hres
    have hs := hsegs s List.mem_cons_self
    rw [hop_keep (Paths.isName_iff.mp hs).1] at h
    have hget : root.get (cur ++ [s]) = dir.find s := by
      rw [hdir [s] (by simp), Dir.get]
    cases hf : dir.find s with
    | none =>
      have hlook : root.look (cur ++ [s]) = none := by simp [Dir.look, Dir.entry, hget, hf]
      rcases hres.of_name hs with ⟨h', _⟩ | ⟨h', _⟩ | ⟨_, _, h', _⟩ <;> simp [hlook] at h'
    | some e =>
      obtain ⟨a, n⟩ := e
      rw [hf] at h
      dsimp only at h
      split at h
      · simp at h
      · cases n with
        | leaf l => cases l <;> simp at h
        | sub =>
          rw [hf] at hget
          refine ih (fun r hr => hsegs r (List.mem_cons_of_mem _ hr)) ?_ h
            (hres.of_dir hs (Dir.look_of_get hget))
          intro x hx
          rw [List.append_assoc, List.singleton_append, hdir _ (by simp), get_under hf hx]

theorem names_clean {cur target : Path} (hcur : ∀ s ∈ cur, isName s = true)
    (hesc : escapes (cleanRel (cur ++ target)) = false) :
    ∀ s ∈ cleanRel (cur ++ target), isName s = true := by
  rw [Paths.cleanRel_append hcur] at hesc ⊢
  exact Paths.names_cleanFrom target hcur hesc

/-- **What the walk finds missing does not resolve.** -/
theorem Resolution.not_resolves {root : Dir} {allow : List Path} (hwf : root.WF)
    {links : List Path} {out : Outcome} (h : Resolution root segs links out)
    (hout : out = .missing) (hstraight : Straight root allow links)
    (hsegs : ∀ s ∈ segs, isName s = true) {k : Nat} {z : Path} :
    ¬ Resolves root.look allow k [] segs z := by
  induction h generalizing k with
  | missing hh => exact not_resolves_of_hop hsegs (by simp) hh
  | failed | found => simp at hout
  | @through segs rest cur target name links out hh habs hesc hnext ih =>
    intro hres
    obtain ⟨x, pre, hcur, rfl, -, hpre, -, a, hget⟩ := hop_through hh
    rw [strip_names fun s hs => hsegs s (List.mem_append_left _ hs)] at hpre
    subst hcur hpre
    have hrest : ∀ s ∈ rest, isName s = true := fun s hs => hsegs s (by simp [hs])
    have hlit : Literal root.look ([] ++ pre) := hwf.literal (by simp) (Dir.entry_of_get hget)
    rw [Resolves.literal_iff pre hlit, List.nil_append] at hres
    obtain ⟨k', hallow, -, -, hon⟩ := hres.of_link (hsegs name (by simp)) (Dir.look_of_get hget)
    have hstr := hstraight List.mem_cons_self hallow hget
    have hon := hon.stripped
    rw [Paths.strip_append, strip_names hrest] at hon
    have hclean := hon.clean hstr hlit (by rw [← Paths.cleanRel_append hlit.names]; exact hesc)
    rw [← Paths.cleanRel_append hlit.names] at hclean
    refine ih hout (fun hℓ => hstraight (List.mem_cons_of_mem _ hℓ)) ?_ hclean
    intro s hs
    rcases List.mem_append.mp hs with hs | hs
    · exact names_clean hlit.names hesc s hs
    · exact hrest s hs

/--
**What the walk finds can be walked to in the pruned tree**, if the links it met and the
place it ended at are kept; and so can the target of every link it met.
-/
theorem Resolution.lands {root tree : Dir} {allow : List Path} (htree : tree.WF)
    (hext : Within tree.look root.look) {links : List Path} {out : Outcome}
    {loc : Path} {node : Node} (h : Resolution root segs links out) (hout : out = .found loc node)
    (hstraight : Straight root allow links)
    (hlinks : ∀ ℓ ∈ links, (tree.entry ℓ).isSome = true) (hloc : (tree.entry loc).isSome = true) :
    Lands tree.look allow [] (strip segs) loc ∧
      ∀ ℓ ∈ links, ℓ ∉ allow → ℓ = loc ∨ ∃ a target rest,
        root.get ℓ = some (a, .leaf (.link target)) ∧
        Lands tree.look allow ℓ.dropLast (strip target ++ rest) loc := by
  induction h with
  | missing | failed => simp at hout
  | @found segs links loc' node' hh hl =>
    obtain ⟨rfl, rfl⟩ : loc' = loc ∧ node' = node := by simpa using hout
    obtain ⟨hne, hloc', -, -⟩ := hop_found hh
    rw [List.nil_append] at hloc'
    refine ⟨?_, ?_⟩
    · rw [← hloc'] at hne ⊢
      obtain ⟨init, s, rfl⟩ := List.eq_nil_or_concat' loc' |>.resolve_left hne
      have hlit : Literal tree.look ([] ++ init) := htree.literal (by simp) hloc
      rw [Lands.literal_iff init hlit]
      exact .last (htree.names_of_entry hloc s (by simp)) (by simpa using hloc)
    · intro ℓ hℓ _
      rcases hl with rfl | ⟨rfl, -⟩
      · simp at hℓ
      · exact Or.inl (List.mem_singleton.mp hℓ)
  | @through segs rest cur target name links out hh habs hesc hnext ih =>
    obtain ⟨x, pre, hcur, hsegs, hrest, hpre, hname, a, hget⟩ := hop_through hh
    subst hcur
    obtain ⟨init, s, hlast, hs⟩ := hnext.last hout
    obtain ⟨hmore, -⟩ := strip_ne_nil_of_last hrest hlast hs
    have hkept := hlinks (cur ++ [name]) List.mem_cons_self
    have hlit : Literal tree.look cur := htree.literal (by simp) hkept
    have hisName : isName name = true := htree.names_of_entry hkept name (by simp)
    have hlook : tree.look (cur ++ [name]) = some (.link target) :=
      hext.kept (by simpa using hkept) (Dir.look_of_get hget)
    obtain ⟨hlands, hmet⟩ := ih hout (fun hℓ => hstraight (List.mem_cons_of_mem _ hℓ))
      fun ℓ hℓ => hlinks ℓ (List.mem_cons_of_mem _ hℓ)
    rw [Paths.strip_append, strip_names (names_clean hlit.names hesc),
      Paths.cleanRel_append hlit.names] at hlands
    rw [Paths.cleanRel_append hlit.names] at hesc
    have hon : cur ++ [name] ∉ allow →
        Lands tree.look allow cur (strip target ++ strip rest) loc := fun hallow =>
      Lands.of_clean (hstraight List.mem_cons_self hallow hget) hlit hesc hlands
    refine ⟨?_, ?_⟩
    · have hsplit : strip segs = cur ++ name :: strip rest := by
        rw [hsegs, Paths.strip_append, Paths.strip_cons_keep hname, hpre]
      have hlit' : Literal tree.look ([] ++ cur) := hlit
      rw [hsplit, Lands.literal_iff cur hlit', List.nil_append]
      by_cases hallow : cur ++ [name] ∈ allow
      · exact .exempt hisName hlook hallow loc
      · exact .link hisName hlook hmore (hon hallow)
    · intro ℓ hℓ hallow
      rcases List.mem_cons.mp hℓ with rfl | hℓ
      · refine Or.inr ⟨a, target, strip rest, hget, ?_⟩
        rw [List.dropLast_concat]
        exact hon hallow
      · exact hmet ℓ hℓ hallow

/-! ### The pruned tree -/

section Pruned

variable {root tree : Dir} {allow seeds keep : List Path} {w : Walker}

theorem within_pruneTree (h : pruneTree root keep = .ok tree) : Within tree.look root.look := by
  intro q kind hq
  obtain ⟨hkept, hnot⟩ := entry_pruneTree h q
  by_cases hcov : Covers keep q ∨ Leads keep q
  · rw [Dir.look, hkept hcov, Option.map_map] at hq
    exact hq
  · rw [Dir.look, hnot hcov] at hq
    simp at hq

/-- What is kept and is no directory is covered. -/
theorem covers_of_leaf (hwf : root.WF) (h : pruneTree root keep = .ok tree) {q : Path} {a : Attr}
    {l : Leaf} (hget : root.get q = some (a, .leaf l)) (hq : (tree.entry q).isSome = true) :
    Covers keep q := by
  by_contra hno
  have hleads : Leads keep q := by
    by_contra hnot
    rw [(entry_pruneTree h q).2 (by simp [hno, hnot])] at hq
    simp at hq
  obtain ⟨k, hk, hqk⟩ := hleads
  obtain ⟨-, -, hexist⟩ := (pruneTree_isOk_iff hwf).mp ⟨tree, h⟩
  obtain ⟨k', hk', hpre, hin⟩ := hexist k hk
  -- Both lead to the same path; the covered one is not above, and not below a leaf.
  rcases List.prefix_or_prefix_of_prefix hpre hqk with hle | ⟨s, hs⟩
  · exact hno ⟨k', hk', hle⟩
  · rw [← hs] at hin
    rw [Dir.nil_of_leaf hget hin, List.append_nil] at hs
    exact hno ⟨k', hk', by rw [hs]⟩

/-- The covered paths of a walk that succeeded are those the tree was pruned to. -/
structure Pruned (root tree : Dir) (allow seeds : List Path) (w : Walker) (keep : List Path) :
    Prop where
  wf : root.WF
  complete : Complete root allow seeds w
  mem_keep : ∀ c, c ∈ keep ↔ c ∈ w.covered
  ok : pruneTree root keep = .ok tree

namespace Pruned

variable (hp : Pruned root tree allow seeds w keep)

include hp

theorem entry_of_covered {q : Path} {e : Attr × Node} (hq : q ∈ w.covered)
    (hget : root.get q = some e) : (tree.entry q).isSome = true := by
  have hcov : Covers keep q := by
    refine ⟨q, (hp.mem_keep q).mpr hq, ?_⟩
    rw [cleanRooted_names (names_of_get hp.wf hget)]
  rw [(entry_pruneTree hp.ok q).1 (Or.inl hcov)]
  simpa using Dir.entry_of_get hget

variable {p : Path}

/-- The place where a needed path ends is kept. -/
theorem entry_of_found {loc : Path} {node : Node} (hneeds : Needs root seeds p)
    (hfound : (resolve root p).2 = .found loc node) : (tree.entry loc).isSome = true := by
  obtain ⟨a, hget⟩ := (resolve_resolution root p).get hfound
  obtain ⟨-, hdone⟩ := hp.complete.done loc
    (hp.complete.needed loc (.located hneeds hfound))
  exact hp.entry_of_covered (hdone.found (resolve_literal hp.wf hget)).1 hget

variable {ℓ : Path}

/-- Every link a needed path meets is kept. -/
theorem entry_of_link (hneeds : Needs root seeds p) (hℓ : ℓ ∈ (resolve root p).1) :
    (tree.entry ℓ).isSome = true := by
  obtain ⟨-, hdone⟩ := hp.complete.done p (hp.complete.needed p hneeds)
  obtain ⟨a, target, hget⟩ := (resolve_resolution root p).get_link hdone.ok hℓ
  exact hp.entry_of_covered (hdone.links hℓ) hget

variable {a : Attr}

/-- A link that is kept was met or found by the walk. -/
theorem reached {target : Path} (hget : root.get ℓ = some (a, .leaf (.link target)))
    (hkept : (tree.entry ℓ).isSome = true) :
    (∃ p, Needs root seeds p ∧ (resolve root p).2 = .missing ∧ ℓ ∈ (resolve root p).1) ∨
      Backed root seeds ℓ := by
  obtain ⟨k, hk, hpre⟩ := covers_of_leaf hp.wf hp.ok hget hkept
  obtain ⟨q, hq, htraced⟩ := hp.complete.traced k ((hp.mem_keep k).mp hk)
  obtain ⟨hneeds, hdone⟩ := hp.complete.done q hq
  have hentry := Dir.entry_of_get hget
  rcases htraced with hlink | ⟨rfl, loc, node, hfound⟩
  · -- Nothing is below a link that was met, so it is this one.
    obtain ⟨b, t, hlget⟩ := (resolve_resolution root q).get_link hdone.ok hlink
    rw [cleanRooted_names (names_of_get hp.wf hlget)] at hpre
    obtain ⟨s, rfl⟩ := hpre
    rw [Dir.nil_of_leaf hlget hentry, List.append_nil]
    cases hout : (resolve root q).2 with
    | failed text => exact absurd hout (hdone.ok text)
    | missing => exact Or.inl ⟨q, hneeds, hout, hlink⟩
    | found loc node => exact Or.inr ⟨q, loc, node, hneeds, hout, Or.inl hlink⟩
  · have hres := resolve_resolution root k
    rw [cleanRooted_eq_strip (hres.no_up hp.wf hfound)] at hpre
    obtain ⟨init, s, hlast, hs⟩ := hres.last hfound
    have hne : strip k ≠ [] := by
      rw [hlast, Paths.strip_append, Paths.strip_cons_keep hs]
      simp
    have hloc := hres.of_literal hfound (Dir.entry_isSome_of_prefix hpre hne hentry)
    obtain ⟨b, hlget⟩ := hres.get hfound
    rw [← hloc] at hpre
    obtain ⟨x, rfl⟩ := hpre
    exact Or.inr ⟨k, loc, node, hneeds, hfound, Or.inr ⟨x, target, rfl, linkAt_of_get hlget hget⟩⟩

variable (hplain : Plain root allow seeds)

include hplain

variable {k : Nat} {z : Path}

/-- The target of a link that the walk chased exists in the pruned tree, if it resolves. -/
theorem target_lands {loc x target : Path} {node : Node}
    (hneeds : Needs root seeds p) (hfound : (resolve root p).2 = .found loc node)
    (hlink : node.LinkAt x target) (hget : root.get (loc ++ x) = some (a, .leaf (.link target)))
    (hallow : loc ++ x ∉ allow)
    (hres : Resolves root.look allow k (loc ++ x).dropLast (strip target) z)
    (hkept : (tree.entry (loc ++ x)).isSome = true) :
    ∃ rest end', Lands tree.look allow (loc ++ x).dropLast (strip target ++ rest) end' := by
  obtain ⟨-, hdone⟩ := hp.complete.done p (hp.complete.needed p hneeds)
  have hchased := (hdone.found hfound).2.2 x target hlink
  have habs : isAbs target = false := by
    by_contra hc
    exact hallow (hchased.allowed (Or.inl (by simpa using hc)))
  have hesc : escapes (cleanRel ((loc ++ x).dropLast ++ target)) = false := by
    by_contra hc
    exact hallow (hchased.allowed (Or.inr (by simpa using hc)))
  have hstr : straight target = true :=
    hplain.targets (Or.inr ⟨p, loc, node, hneeds, hfound, Or.inr ⟨x, target, rfl, hlink⟩⟩) hallow
      hget
  -- The link lies in a directory of both trees.
  obtain ⟨cur, s, hsplit⟩ :=
    List.eq_nil_or_concat' (loc ++ x) |>.resolve_left (Dir.ne_nil_of_get hget)
  rw [hsplit, List.dropLast_concat] at hres hesc ⊢
  rw [hsplit] at hget hkept
  have hroot : Literal root.look cur := hp.wf.literal (by simp) (Dir.entry_of_get hget)
  have htree : Literal tree.look cur := (wf_pruneTree hp.wf hp.ok).literal (by simp) hkept
  have hnames := names_clean hroot.names hesc
  have hneeds' : Needs root seeds (cleanRel (cur ++ target)) := by
    have := Needs.target hneeds hfound hlink habs
    rw [hsplit, List.dropLast_concat] at this
    exact this hesc
  obtain ⟨-, hdone'⟩ := hp.complete.done _ (hp.complete.needed _ hneeds')
  have hresolution := resolve_resolution root (cleanRel (cur ++ target))
  have hclean := hesc
  rw [Paths.cleanRel_append hroot.names] at hclean
  cases hout : (resolve root (cleanRel (cur ++ target))).2 with
  | failed text => exact absurd hout (hdone'.ok text)
  | missing =>
    have hres' : Resolves root.look allow k [] (Paths.cleanFrom cur target ++ []) z :=
      Resolves.clean hstr hroot hclean (by simpa using hres)
    rw [List.append_nil, ← Paths.cleanRel_append hroot.names] at hres'
    exact absurd hres' (hresolution.not_resolves hp.wf hout (hplain.links hneeds')
      hnames)
  | found end' =>
    obtain ⟨hlands, -⟩ := hresolution.lands (wf_pruneTree hp.wf hp.ok) (within_pruneTree hp.ok)
      hout (hplain.links hneeds') (fun ℓ hℓ => hp.entry_of_link hneeds' hℓ)
      (hp.entry_of_found hneeds' hout)
    rw [strip_names hnames, Paths.cleanRel_append hroot.names] at hlands
    refine ⟨[], end', Lands.of_clean hstr htree hclean ?_⟩
    rwa [List.append_nil]

/-- The target of every link that is kept exists in the pruned tree, if it resolves. -/
theorem link_lands {target : Path}
    (hget : root.get ℓ = some (a, .leaf (.link target))) (hkept : (tree.entry ℓ).isSome = true)
    (hallow : ℓ ∉ allow) (hres : Resolves root.look allow k ℓ.dropLast (strip target) z) :
    ∃ rest end', Lands tree.look allow ℓ.dropLast (strip target ++ rest) end' := by
  have hbacked : Backed root seeds ℓ := by
    rcases hp.reached hget hkept with ⟨p, hneeds, hout, hℓ⟩ | hbacked
    · exact hplain.present hneeds hout hℓ hallow
    · exact hbacked
  obtain ⟨p, loc, node, hneeds, hfound, hhow⟩ := hbacked
  obtain ⟨b, hloc⟩ := (resolve_resolution root p).get hfound
  rcases hhow with hℓ | ⟨x, t, rfl, -⟩
  · obtain ⟨-, hmet⟩ := (resolve_resolution root p).lands (wf_pruneTree hp.wf hp.ok)
      (within_pruneTree hp.ok) hfound (hplain.links hneeds)
      (fun ℓ hℓ => hp.entry_of_link hneeds hℓ) (hp.entry_of_found hneeds hfound)
    rcases hmet ℓ hℓ hallow with rfl | ⟨c, t, rest, hget', hlands⟩
    · have hself := List.append_nil ℓ
      rw [← hself] at hget hkept hallow hres ⊢
      exact hp.target_lands hplain hneeds hfound (linkAt_of_get hloc hget) hget hallow hres hkept
    · rw [hget] at hget'
      obtain ⟨-, rfl⟩ : a = c ∧ target = t := by simpa using hget'
      exact ⟨rest, loc, hlands⟩
  · exact hp.target_lands hplain hneeds hfound (linkAt_of_get hloc hget) hget hallow hres hkept

/-- A path that exists in the pruned tree resolves there as in the context. -/
theorem resolves {loc : Path} (hexists : Lands tree.look [] [] p loc)
    (hres : Resolves root.look allow k [] p z) : Resolves tree.look [] k [] p z := by
  obtain ⟨loc', hlands⟩ := (hexists.exempt_nil allow).stripped
  rw [← List.append_nil (strip p)] at hlands
  refine hres.restrict (within_pruneTree hp.ok) ?_ hlands
  intro cur s target k z hs hlook hallow htarget
  have hkept : (tree.entry (cur ++ [s])).isSome = true := by
    rw [← Dir.look_isSome, hlook]
    rfl
  obtain ⟨a, hget⟩ := Dir.get_of_look_link (within_pruneTree hp.ok _ _ hlook)
  have := hp.link_lands hplain hget hkept hallow (by simpa using htarget)
  simpa using this

end Pruned

/-- What a path of a tree resolves to is the root or an entry of the tree. -/
theorem entry_of_resolves {d : Dir} {avoid : List Path} {k : Nat} {p z : Path}
    (h : Resolves d.look avoid k [] p z) : z = [] ∨ (d.entry z).isSome = true := by
  have := h.isSome (fun {q s} hq hin => ?_) (Or.inl rfl)
  · simpa using this
  · rw [Dir.look_isSome] at hin
    obtain ⟨a, d', hget, -⟩ := Dir.entry_dir_of_append hq (by simp) hin
    exact Dir.look_of_get hget

end Pruned

/-- The walks of a build: with the build dir as a seed, or from a complete closure. -/
inductive Walked (root : Dir) (dir : Path) (declared allow : List Path) (fuel : Nat) :
    List Path → WalkResult → Prop
  | ofDir {r : WalkResult} (h : walk root dir declared allow fuel = .ok r) :
      Walked root dir declared allow fuel (seeds dir declared) r
  | ofClosure {r : WalkResult} (h : walkClosure root dir declared allow fuel = .ok r) :
      Walked root dir declared allow fuel declared r

theorem Walked.complete {root : Dir} {dir : Path} {declared allow start : List Path} {fuel : Nat}
    {r : WalkResult} (hwf : root.WF) (h : Walked root dir declared allow fuel start r) :
    ∃ w, Complete root allow start w ∧ ∀ c, c ∈ r.paths ↔ c ∈ w.covered := by
  have hresult : ∀ w : Walker, ∀ c, c ∈ w.result.paths ↔ c ∈ w.covered := by
    intro w c
    simp [Walker.result, List.mem_insertionSort]
  cases h with
  | ofDir h =>
    unfold walk at h
    split at h
    · simp at h
    · cases hc : coverAll root allow fuel (seeds dir declared) {} with
      | error => rw [hc] at h; simp [Except.map] at h
      | ok w =>
        rw [hc] at h
        obtain rfl : w.result = r := by simpa [Except.map] using h
        exact ⟨w, coverAll_complete hwf hc, hresult w⟩
  | ofClosure h =>
    unfold walkClosure at h
    split at h
    · simp at h
    · cases hc : coverAll root allow fuel declared {} with
      | error => rw [hc] at h; simp at h
      | ok w =>
        rw [hc] at h
        dsimp only at h
        split at h
        · simp at h
        · obtain rfl : w.result = r := by simpa using h
          exact ⟨w, coverAll_complete hwf hc, hresult w⟩

/--
**Symlink closure.**  After a walk that succeeds on a plain context, every path that
exists in the pruned tree and resolves in the context, without a link that may dangle,
resolves in the pruned tree through as many links, to the same place and to an entry of
the same type, content and link target.
-/
theorem closure_sound {root tree : Dir} {dir p loc z : Path} {declared allow start : List Path}
    {fuel k : Nat} {r : WalkResult} (hwf : root.WF)
    (hwalk : Walked root dir declared allow fuel start r) (hplain : Plain root allow start)
    (hprune : pruneTree root r.paths = .ok tree) (hexists : Lands tree.look [] [] p loc)
    (hres : Resolves root.look allow k [] p z) :
    Resolves tree.look [] k [] p z ∧
      (z = [] ∨ ∃ a b what, root.entry z = some (a, what) ∧ tree.entry z = some (b, what)) := by
  obtain ⟨w, hcomplete, hpaths⟩ := hwalk.complete hwf
  have hp : Pruned root tree allow start w r.paths := ⟨hwf, hcomplete, hpaths, hprune⟩
  have htree := hp.resolves hplain hexists hres
  refine ⟨htree, (entry_of_resolves htree).imp id fun hz => ?_⟩
  obtain ⟨⟨b, what⟩, hb⟩ := Option.isSome_iff_exists.mp hz
  have hkept : tree.entry z = (root.entry z).map normalEntry := by
    by_cases hcov : Covers r.paths z ∨ Leads r.paths z
    · exact (entry_pruneTree hprune z).1 hcov
    · rw [(entry_pruneTree hprune z).2 hcov] at hb
      simp at hb
  rw [hkept, Option.map_eq_some_iff] at hb
  obtain ⟨⟨a, what'⟩, ha, heq⟩ := hb
  exact ⟨a, a.normal, what', ha, by rw [hkept, ha]; rfl⟩

/-- A file `d/x`, and a link to it in the directory `a`. -/
def sibling : Dir :=
  .sub { name := "a", perm := 493 }
    (.leaf { name := "l", perm := 511 } (.link ["..", "d", "x"]) .nil)
    (.sub { name := "d", perm := 493 } (.leaf { name := "x", perm := 420 } (.file [1]) .nil) .nil)

theorem resolve_sibling_link : (resolve sibling ["a", "l"]).2
    = .found ["a", "l"] (.leaf (.link ["..", "d", "x"])) := by
  decide +kernel

theorem resolve_sibling_file :
    (resolve sibling ["d", "x"]).2 = .found ["d", "x"] (.leaf (.file [1])) := by
  decide +kernel

theorem needs_sibling (h : Needs sibling [["a", "l"]] p) :
    p = ["a", "l"] ∨ p = ["d", "x"] := by
  induction h with
  | seed hp => exact Or.inl (by simpa using hp)
  | located _ hfound ih =>
    rcases ih with rfl | rfl
    · rw [resolve_sibling_link, Outcome.found.injEq] at hfound
      exact Or.inl hfound.1.symm
    · rw [resolve_sibling_file, Outcome.found.injEq] at hfound
      exact Or.inr hfound.1.symm
  | @target p loc x target node _ hfound hlink _ _ ih =>
    rcases ih with rfl | rfl
    · obtain ⟨rfl, rfl⟩ := hfound
      obtain ⟨rfl, ht⟩ := hlink
      obtain rfl : target = ["..", "d", "x"] := by simpa using ht.symm
      exact Or.inr (by decide)
    · obtain ⟨rfl, rfl⟩ := hfound
      simp [Node.LinkAt] at hlink

theorem plain_sibling : Plain sibling [] [["a", "l"]] where
  targets {ℓ a target} _ _ hget := by
    have hwf : sibling.WF := by decide
    rcases (Dir.get_sub_iff hwf).mp hget with ⟨-, he⟩ | ⟨q, rfl, hq⟩ | hrest
    · simp at he
    · rcases (Dir.get_leaf_iff hwf.2.2.1).mp hq with ⟨-, he⟩ | hq
      · obtain ⟨-, rfl⟩ : a = _ ∧ target = ["..", "d", "x"] := by simpa using he
        decide
      · cases q <;> simp [Dir.get_cons, Dir.find] at hq
    · rcases (Dir.get_sub_iff hwf.2.2.2).mp hrest with ⟨-, he⟩ | ⟨q, rfl, hq⟩ | hrest
      · simp at he
      · rcases (Dir.get_leaf_iff hwf.2.2.2.2.2.1).mp hq with ⟨-, he⟩ | hq
        · simp at he
        · cases q <;> simp [Dir.get_cons, Dir.find] at hq
      · cases ℓ <;> simp [Dir.get_cons, Dir.find] at hrest
  present {p ℓ} hneeds hout _ _ := by
    rcases needs_sibling hneeds with rfl | rfl
    · simp [resolve_sibling_link] at hout
    · simp [resolve_sibling_file] at hout

/-- The link leads up out of its directory, and the file it leads to is kept. -/
theorem closure_sound_sibling :
    ∃ r tree, walk sibling [""] [["a", "l"]] [] 5 = .ok r ∧ pruneTree sibling r.paths = .ok tree ∧
      Resolves tree.look [] 1 [] ["a", "l"] ["d", "x"] := by
  have hwalk : walk sibling [""] [["a", "l"]] [] 5 = .ok ⟨[["a", "l"], ["d", "x"]], []⟩ := by
    decide +kernel
  obtain ⟨tree, hprune⟩ : ∃ tree, pruneTree sibling [["a", "l"], ["d", "x"]] = .ok tree := ⟨_, rfl⟩
  refine ⟨_, tree, hwalk, hprune, ?_⟩
  have htree : tree.look ["a"] = some .dir ∧ (tree.look ["a", "l"]).isSome = true := by
    have := Except.ok.inj hprune
    subst this
    decide
  have hexists : Lands tree.look [] [] ["a", "l"] ["a", "l"] :=
    .enter (by decide) htree.1 (.last (by decide) htree.2)
  have hres : Resolves sibling.look [] 1 [] ["a", "l"] ["d", "x"] := by
    refine .enter (by decide) (by decide) (.link (by decide) rfl (by simp) (by decide) ?_)
    exact .up (by simp) (.enter (by decide) (by decide) (.leaf (by decide) (by decide)))
  exact (closure_sound (by decide) (.ofDir hwalk) plain_sibling hprune hexists hres).1

/-- A file `d/x` and another `x`, a link `dl` to the directory `d/e`, and a link `l` that goes
through `dl` and up again. -/
def detour : Dir :=
  .sub { name := "d", perm := 493 }
    (.sub { name := "e", perm := 493 } (.leaf { name := "f", perm := 420 } (.file [2]) .nil)
      (.leaf { name := "x", perm := 420 } (.file [1]) .nil))
    (.leaf { name := "dl", perm := 511 } (.link ["d", "e"])
      (.leaf { name := "l", perm := 511 } (.link ["dl", "..", "x"])
        (.leaf { name := "x", perm := 420 } (.file [3]) .nil)))

/-- A directory, a link `dl` to it and a link `l` through `dl` to nothing. -/
def deadEnd : Dir :=
  .sub { name := "d", perm := 493 } (.leaf { name := "f", perm := 420 } (.file [1]) .nil)
    (.leaf { name := "dl", perm := 511 } (.link ["d"])
      (.leaf { name := "l", perm := 511 } (.link ["dl", "m"]) .nil))

/--
Two contexts in which a walk of the declared path `l` succeeds and a link that is kept
resolves in the context but not in the pruned tree: `l` itself, which was taken to lead to
the other `x`, and `dl`, which was kept on the way to something missing.
-/
theorem closure_loses_targets :
    (∃ r tree, walk detour [""] [["l"]] [] 5 = .ok r ∧ pruneTree detour r.paths = .ok tree ∧
      Lands tree.look [] [] ["l"] ["l"] ∧ Resolves detour.look [] 2 [] ["l"] ["d", "x"] ∧
      ∀ k z, ¬ Resolves tree.look [] k [] ["l"] z) ∧
    ∃ r tree, walk deadEnd [""] [["l"]] [] 5 = .ok r ∧ pruneTree deadEnd r.paths = .ok tree ∧
      Lands tree.look [] [] ["dl"] ["dl"] ∧ Resolves deadEnd.look [] 1 [] ["dl"] ["d"] ∧
      ∀ k z, ¬ Resolves tree.look [] k [] ["dl"] z := by
  have hnone : ∀ {look : Paths.Look} {s : String} {segs : List String} {k : Nat} {z : Path},
      isName s = true → look [s] = none → ¬ Resolves look [] k [] (s :: segs) z := by
    intro look s segs k z hs hlook h
    rcases h.of_name hs with ⟨h', _⟩ | ⟨h', _⟩ | ⟨_, _, h', _⟩ <;> simp [hlook] at h'
  refine ⟨⟨⟨[["l"], ["x"]], []⟩, _, by decide +kernel, rfl, ?_, ?_, ?_⟩,
    ⟨⟨[["dl"], ["l"]], [(["dl", "m"],
      "chased symlink target does not exist in the context; link kept dangling")]⟩, _,
      by decide +kernel, rfl, ?_, ?_, ?_⟩⟩
  · exact .last (by decide) (by decide)
  · refine .link (by decide) rfl (by simp) (by decide) ?_
    refine .link (by decide) rfl (by simp) (by decide) ?_
    refine .enter (by decide) (by decide) (.enter (by decide) (by decide) ?_)
    exact .up (by simp) (.leaf (by decide) (by decide))
  · intro k z h
    obtain ⟨k', -, -, -, h'⟩ := h.of_link (by decide) rfl
    exact hnone (by decide) (by decide) h'
  · exact .last (by decide) (by decide)
  · exact .link (by decide) rfl (by simp) (by decide) (.enter (by decide) (by decide) (.done _))
  · intro k z h
    obtain ⟨k', -, -, -, h'⟩ := h.of_link (by decide) rfl
    exact hnone (by decide) (by decide) h'

end JobsIroh.Cover
