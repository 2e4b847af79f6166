/-
What pruning keeps, and what its key depends on.

`pruneEntries` is inverted once for each kind of entry.  From that come the entry at
every path of a pruned tree, and when pruning succeeds.  The rest is about sets of
paths: a pruned tree is determined by its entries, its entries by those of the context
at the kept paths, and a key by the tree.
-/
import JobsIroh.Amber.Prune

namespace JobsIroh.Tree

open PrefixTrie

variable {κ : Type} {loc : Path} {t : PrefixTrie String} {d r : Dir}

/-! ### One entry -/

theorem checkMatched_ok {r' : Dir} :
    checkMatched loc t d r = .ok r' ↔ (∀ n ∈ t.names, n ∈ d.names) ∧ r = r' := by
  unfold checkMatched
  cases hu : unmatched t d with
  | nil =>
    have hall : ∀ n ∈ t.names, n ∈ d.names := by
      intro n hn
      have := List.filter_eq_nil_iff.mp hu n hn
      simpa using this
    simp only [Except.ok.injEq]
    exact ⟨fun h => ⟨hall, h⟩, fun h => h.2⟩
  | cons n =>
    have hn : n ∈ unmatched t d := by rw [hu]; exact List.mem_cons_self
    obtain ⟨hmem, hnot⟩ := List.mem_filter.mp hn
    simp only [reduceCtorEq, false_iff, not_and]
    intro hall
    exact absurd (hall n hmem) (of_decide_eq_true hnot)

variable {a : Attr}

theorem pruneEntries_leaf_ok {l : Leaf} {rest : Dir} :
    pruneEntries loc (.leaf a l rest) t = .ok r ↔
      (t.child a.name = none ∧ pruneEntries loc rest t = .ok r) ∨
      ∃ r', t.child a.name = some .full ∧ pruneEntries loc rest t = .ok r' ∧
        r = .leaf a.normal l r' := by
  rw [pruneEntries]
  cases hc : t.child a.name with
  | none => simp
  | some c =>
    dsimp only
    by_cases hfull : c.isFull = true
    · rw [if_pos hfull, isFull_iff.mp hfull]
      cases hr : pruneEntries loc rest t with
      | error => simp [Except.map]
      | ok => simp [Except.map, eq_comm]
    · rw [if_neg hfull]
      simp only [reduceCtorEq, false_and, Option.some.injEq, false_or, false_iff, not_exists,
        not_and]
      intro _ hc'
      exact absurd (isFull_iff.mpr hc') hfull

theorem pruneEntries_sub_ok {d' rest : Dir} :
    pruneEntries loc (.sub a d' rest) t = .ok r ↔
      (t.child a.name = none ∧ pruneEntries loc rest t = .ok r) ∨
      ∃ c s r', t.child a.name = some c ∧ pruneEntries (loc ++ [a.name]) d' c = .ok s ∧
        (∀ n ∈ c.names, n ∈ d'.names) ∧ pruneEntries loc rest t = .ok r' ∧
        r = .sub a.normal s r' := by
  rw [pruneEntries]
  cases hc : t.child a.name with
  | none => simp
  | some c =>
    dsimp only
    cases hs : pruneEntries (loc ++ [a.name]) d' c with
    | error => simp [hs]
    | ok s =>
      dsimp only
      cases hm : checkMatched (loc ++ [a.name]) c d' s with
      | error =>
        have hnot : ¬ ∀ n ∈ c.names, n ∈ d'.names := by
          intro hall
          have hok : checkMatched (loc ++ [a.name]) c d' s = .ok s :=
            checkMatched_ok.2 ⟨hall, rfl⟩
          rw [hm] at hok
          simp at hok
        simp [hnot]
      | ok s' =>
        obtain ⟨hall, rfl⟩ := checkMatched_ok.1 hm
        cases hr : pruneEntries loc rest t with
        | error => simp [Except.map]
        | ok r' =>
          simp only [Except.map, Except.ok.injEq, reduceCtorEq, false_and, false_or,
            Option.some.injEq]
          constructor
          · intro h
            exact ⟨c, s, r', rfl, hs, hall, rfl, h.symm⟩
          · rintro ⟨c', s', r'', rfl, hs', -, rfl, rfl⟩
            rw [hs] at hs'
            obtain rfl : s = s' := by simpa using hs'
            rfl

/-! ### The entries of a pruned tree -/

/-- An entry as a covered tree has it. -/
def normalEntry (e : Attr × Option Leaf) : Attr × Option Leaf := (e.1.normal, e.2)

/-- **The entry at every path**: there where the walk down the trie goes on, normalised. -/
theorem entry_pruneEntries (d : Dir) :
    ∀ {loc : Path} {t : PrefixTrie String} {r : Dir}, pruneEntries loc d t = .ok r →
      ∀ p, r.entry p = if (t.descend p).isSome = true then (d.entry p).map normalEntry
        else none := by
  induction d with
  | nil =>
    intro loc t r h p
    obtain rfl : Dir.nil = r := by simpa using h
    simp
  | leaf a l rest ih =>
    intro loc t r h p
    cases p with
    | nil => simp
    | cons n p =>
      rcases pruneEntries_leaf_ok.1 h with ⟨hc, hr⟩ | ⟨r', hc, hr, rfl⟩
      · rw [ih hr, Dir.entry_leaf]
        by_cases hn : a.name = n
        · subst hn
          rw [descend_cons_none hc]
          simp
        · rw [if_neg hn]
      · rw [Dir.entry_leaf, Dir.entry_leaf, ih hr]
        by_cases hn : a.name = n
        · subst hn
          rw [descend_cons hc, descend_full]
          cases p <;> simp [Attr.normal, normalEntry]
        · have hn' : ¬ a.normal.name = n := hn
          rw [if_neg hn, if_neg hn']
  | sub a d rest ihd ih =>
    intro loc t r h p
    cases p with
    | nil => simp
    | cons n p =>
      rcases pruneEntries_sub_ok.1 h with ⟨hc, hr⟩ | ⟨c, s, r', hc, hs, -, hr, rfl⟩
      · rw [ih hr, Dir.entry_sub]
        by_cases hn : a.name = n
        · subst hn
          rw [descend_cons_none hc]
          simp
        · rw [if_neg hn]
      · rw [Dir.entry_sub, Dir.entry_sub, ih hr]
        by_cases hn : a.name = n
        · subst hn
          rw [descend_cons hc]
          have hname : a.normal.name = a.name := rfl
          rw [if_pos hname, if_pos rfl]
          cases p with
          | nil => simp [normalEntry]
          | cons m p =>
            exact ihd hs (m :: p)
        · have hn' : ¬ a.normal.name = n := hn
          rw [if_neg hn, if_neg hn']

/-- Pruning takes entries out, and leaves a well-formed directory so. -/
theorem sublist_pruneEntries (d : Dir) :
    ∀ {loc : Path} {t : PrefixTrie String} {r : Dir}, pruneEntries loc d t = .ok r →
      r.names.Sublist d.names ∧ (d.WF → r.WF) := by
  induction d with
  | nil =>
    intro loc t r h
    obtain rfl : Dir.nil = r := by simpa using h
    exact ⟨List.Sublist.refl _, id⟩
  | leaf a l rest ih =>
    intro loc t r h
    rcases pruneEntries_leaf_ok.1 h with ⟨-, hr⟩ | ⟨r', -, hr, rfl⟩
    all_goals obtain ⟨hnames, hwf⟩ := ih hr
    · exact ⟨hnames.cons _, fun h => hwf h.2.2⟩
    · exact ⟨hnames.cons_cons _, fun h => ⟨h.1, fun n hn => h.2.1 n (hnames.subset hn), hwf h.2.2⟩⟩
  | sub a d rest ihd ih =>
    intro loc t r h
    rcases pruneEntries_sub_ok.1 h with ⟨-, hr⟩ | ⟨c, s, r', -, hs, -, hr, rfl⟩
    all_goals obtain ⟨hnames, hwf⟩ := ih hr
    · exact ⟨hnames.cons _, fun h => hwf h.2.2.2⟩
    · exact ⟨hnames.cons_cons _, fun h => ⟨h.1, fun n hn => h.2.1 n (hnames.subset hn),
        (ihd hs).2 h.2.2.1, hwf h.2.2.2⟩⟩

/-! ### When pruning succeeds -/

/-- Whatever a trie keeps lies at or below something kept that is in the directory. -/
def Fits (d : Dir) (t : PrefixTrie String) : Prop :=
  ∀ p, t.descend p = some .full →
    ∃ q, q <+: p ∧ t.descend q = some .full ∧ (q = [] ∨ (d.entry q).isSome = true)

/-- Every node of a trie leads to something kept. -/
def Live (t : PrefixTrie String) : Prop :=
  ∀ p, (t.descend p).isSome = true → ∃ s, t.descend (p ++ s) = some .full

variable {c : PrefixTrie String} {n : String}

theorem Live.child (h : Live t) (hc : t.child n = some c) :
    Live c := by
  intro p hp
  obtain ⟨s, hs⟩ := h (n :: p) (by rw [descend_cons hc]; exact hp)
  rw [List.cons_append, descend_cons hc] at hs
  exact ⟨s, hs⟩

variable {p : Path}

/-- What a trie keeps below one of its names, a directory must have below that name. -/
theorem Fits.child (h : Fits d t) (hfull : t.isFull = false)
    (hc : t.child n = some c) (hp : c.descend p = some .full) :
    ∃ q, q <+: p ∧ c.descend q = some .full ∧ (d.entry (n :: q)).isSome = true := by
  obtain ⟨q, hq, hkept, hin⟩ := h (n :: p) (by rw [descend_cons hc]; exact hp)
  cases q with
  | nil =>
    obtain rfl : t = .full := by simpa using hkept
    simp at hfull
  | cons m q =>
    obtain ⟨rfl, hpre⟩ := List.cons_prefix_cons.mp hq
    rw [descend_cons hc] at hkept
    exact ⟨q, hpre, hkept, hin.resolve_left (by simp)⟩

/-- A directory serves a trie: whatever it keeps below one of the names is there. -/
def Serves (d : Dir) (t : PrefixTrie String) : Prop :=
  ∀ n c, n ∈ d.names → t.child n = some c → Live c ∧
    ∀ p, c.descend p = some .full →
      ∃ q, q <+: p ∧ c.descend q = some .full ∧ (d.entry (n :: q)).isSome = true

theorem Serves.rest {rest : Dir} (h : Serves d t)
    (hnames : d.names = a.name :: rest.names) (hlt : ∀ n ∈ rest.names, a.name < n)
    (hentry : ∀ n q, a.name ≠ n → d.entry (n :: q) = rest.entry (n :: q)) : Serves rest t := by
  intro n c hn hc
  obtain ⟨hlive, hfits⟩ := h n c (by rw [hnames]; exact List.mem_cons_of_mem _ hn) hc
  refine ⟨hlive, fun p hp => ?_⟩
  obtain ⟨q, hq, hkept, hin⟩ := hfits p hp
  rw [hentry n q (hlt n hn).ne] at hin
  exact ⟨q, hq, hkept, hin⟩

theorem Fits.serves (h : Fits d t) (hlive : Live t) : Serves d t := by
  intro n c hn hc
  refine ⟨hlive.child hc, fun p hp => ?_⟩
  cases t with
  | full =>
    obtain rfl : PrefixTrie.full = c := by simpa using hc
    refine ⟨[], List.nil_prefix, by simp, ?_⟩
    exact Dir.entry_isSome_of_mem_names d hn
  | node => exact h.child rfl hc hp

/-- A trie that fits a directory has no name the directory lacks. -/
theorem Fits.names (h : Fits d t) (hlive : Live t) : ∀ n ∈ t.names, n ∈ d.names := by
  intro n hn
  obtain ⟨c, hc⟩ := child_isSome_of_mem_names hn
  obtain ⟨s, hs⟩ := hlive [n] (by simp [descend_cons hc])
  have hfull : t.isFull = false := by
    cases t with
    | full => simp at hn
    | node => simp
  rw [List.singleton_append, descend_cons hc] at hs
  obtain ⟨q, -, -, hin⟩ := h.child hfull hc hs
  exact Dir.mem_names_of_entry d hin

theorem pruneEntries_isOk (d : Dir) :
    ∀ (loc : Path) {t : PrefixTrie String}, Serves d t → d.WF →
      ∃ r, pruneEntries loc d t = .ok r := by
  induction d with
  | nil => intro loc t _ _; exact ⟨.nil, by simp⟩
  | leaf a l rest ih =>
    intro loc t h hwf
    obtain ⟨r, hr⟩ := ih loc (h.rest rfl hwf.2.1 fun n q hne => by
      rw [Dir.entry_leaf, if_neg hne]) hwf.2.2
    cases hc : t.child a.name with
    | none => exact ⟨r, pruneEntries_leaf_ok.2 (Or.inl ⟨hc, hr⟩)⟩
    | some c =>
      obtain ⟨hlive, hfits⟩ := h a.name c List.mem_cons_self hc
      -- A leaf has nothing below it, so the trie must keep the leaf itself.
      obtain ⟨s, hs⟩ := hlive [] (by simp)
      obtain ⟨q, -, hkept, hin⟩ := hfits _ hs
      rw [Dir.entry_leaf, if_pos rfl] at hin
      have hq : q = [] := by
        by_contra hq
        rw [if_neg hq] at hin
        simp at hin
      subst hq
      have hfull : c = .full := by simpa using hkept
      subst hfull
      exact ⟨_, pruneEntries_leaf_ok.2 (Or.inr ⟨r, hc, hr, rfl⟩)⟩
  | sub a d rest ihd ih =>
    intro loc t h hwf
    obtain ⟨r, hr⟩ := ih loc (h.rest rfl hwf.2.1 fun n q hne => by
      rw [Dir.entry_sub, if_neg hne]) hwf.2.2.2
    cases hc : t.child a.name with
    | none => exact ⟨r, pruneEntries_sub_ok.2 (Or.inl ⟨hc, hr⟩)⟩
    | some c =>
      obtain ⟨hlive, hfits⟩ := h a.name c List.mem_cons_self hc
      have hbelow : Fits d c := by
        intro p hp
        obtain ⟨q, hq, hkept, hin⟩ := hfits p hp
        rw [Dir.entry_sub, if_pos rfl] at hin
        refine ⟨q, hq, hkept, ?_⟩
        by_cases hnil : q = []
        · exact Or.inl hnil
        · rw [if_neg hnil] at hin
          exact Or.inr hin
      obtain ⟨s, hs⟩ := ihd (loc ++ [a.name]) (hbelow.serves hlive) hwf.2.2.1
      exact ⟨_, pruneEntries_sub_ok.2
        (Or.inr ⟨c, s, r, hc, hs, hbelow.names hlive, hr, rfl⟩)⟩

/-- What pruning did with one entry of the directory. -/
theorem pruneEntries_find (hc : t.child n = some c) (d : Dir) :
    ∀ {loc : Path} {r : Dir}, pruneEntries loc d t = .ok r → ∀ {a node}, d.find n = some (a, node) →
      match node with
      | .leaf _ => c = .full
      | .sub d' => ∃ loc' s, pruneEntries loc' d' c = .ok s ∧ ∀ m ∈ c.names, m ∈ d'.names := by
  induction d with
  | nil => intro loc r _ a node hf; simp [Dir.find] at hf
  | leaf a l rest ih =>
    intro loc r h a' node hf
    rw [Dir.find] at hf
    by_cases hn : a.name = n
    · rw [if_pos hn] at hf
      obtain ⟨rfl, rfl⟩ : a = a' ∧ Node.leaf l = node := by simpa using hf
      rcases pruneEntries_leaf_ok.1 h with ⟨hnone, -⟩ | ⟨r', hfull, -, -⟩
      · rw [hn, hc] at hnone
        simp at hnone
      · rw [hn, hc] at hfull
        simpa using hfull
    · rw [if_neg hn] at hf
      rcases pruneEntries_leaf_ok.1 h with ⟨-, hr⟩ | ⟨r', -, hr, -⟩
      · exact ih hr hf
      · exact ih hr hf
  | sub a d rest _ ih =>
    intro loc r h a' node hf
    rw [Dir.find] at hf
    by_cases hn : a.name = n
    · rw [if_pos hn] at hf
      obtain ⟨rfl, rfl⟩ : a = a' ∧ Node.sub d = node := by simpa using hf
      rcases pruneEntries_sub_ok.1 h with ⟨hnone, -⟩ | ⟨c', s, r', hc', hs, hnames, -, -⟩
      · rw [hn, hc] at hnone
        simp at hnone
      · rw [hn, hc] at hc'
        obtain rfl : c = c' := by simpa using hc'
        exact ⟨_, s, hs, hnames⟩
    · rw [if_neg hn] at hf
      rcases pruneEntries_sub_ok.1 h with ⟨-, hr⟩ | ⟨c', s, r', -, -, -, hr, -⟩
      · exact ih hr hf
      · exact ih hr hf

/-- Pruning succeeds only with a trie that fits the directory. -/
theorem fits_of_pruneEntries :
    ∀ (p : Path) {loc : Path} {d r : Dir} {t : PrefixTrie String}, pruneEntries loc d t = .ok r →
      (∀ n ∈ t.names, n ∈ d.names) → t.descend p = some .full →
      ∃ q, q <+: p ∧ t.descend q = some .full ∧ (q = [] ∨ (d.entry q).isSome = true) := by
  intro p
  induction p with
  | nil => intro loc d r t _ _ hp; exact ⟨[], List.nil_prefix, hp, Or.inl rfl⟩
  | cons n p ih =>
    intro loc d r t h hnames hp
    cases hc : t.child n with
    | none => simp [descend_cons_none hc] at hp
    | some c =>
      rw [descend_cons hc] at hp
      by_cases hfull : t.isFull = true
      · rw [isFull_iff.mp hfull]
        exact ⟨[], List.nil_prefix, by simp, Or.inl rfl⟩
      have hn := hnames n (mem_names_of_child (by simpa using hfull) hc)
      have hsome := Dir.entry_isSome_of_mem_names d hn
      cases hf : d.find n with
      | none => simp [Dir.entry, Dir.get, hf] at hsome
      | some e =>
        obtain ⟨a, node⟩ := e
        have hfind := pruneEntries_find hc d h hf
        cases node with
        | leaf =>
          have hcfull : c = .full := hfind
          refine ⟨[n], ?_, ?_, Or.inr hsome⟩
          · simp [List.cons_prefix_cons]
          · rw [descend_cons hc, hcfull, descend_nil]
        | sub =>
          obtain ⟨loc', s, hs, hsub⟩ := hfind
          obtain ⟨q, hq, hkept, hin⟩ := ih hs hsub hp
          refine ⟨n :: q, List.cons_prefix_cons.mpr ⟨rfl, hq⟩, ?_, Or.inr ?_⟩
          · rw [descend_cons hc]
            exact hkept
          · cases q with
            | nil => exact hsome
            | cons =>
              have hin' := hin.resolve_left (by simp)
              rw [Dir.entry] at hin' ⊢
              rw [Dir.get_cons, hf]
              exact hin'

/-! ### Sets of paths -/

/-- The path lies at or below one of the paths to keep. -/
def Covers (keep : List Path) (p : Path) : Prop := ∃ k ∈ keep, cleanRooted k <+: p

/-- The path lies on the way to one of the paths to keep. -/
def Leads (keep : List Path) (p : Path) : Prop := ∃ k ∈ keep, p <+: cleanRooted k

theorem live_ofList {words : List Path} (hne : words ≠ []) : Live (ofList words) := by
  intro p hp
  obtain ⟨w, hw, hpre | ⟨s, rfl⟩⟩ := (descend_ofList_isSome hne p).mp hp
  · refine ⟨[], ?_⟩
    rw [List.append_nil]
    exact (descend_ofList_full words p).mpr ⟨w, hw, hpre⟩
  · exact ⟨s, (descend_ofList_full words _).mpr ⟨_, hw, List.prefix_refl _⟩⟩

variable {keep : List Path}

theorem pruneTree_ok_iff :
    pruneTree d keep = .ok r ↔ (∀ k ∈ keep, cleanRooted k ≠ []) ∧ keep ≠ [] ∧
      pruneEntries [] d (ofList (keep.map cleanRooted)) = .ok r ∧
      ∀ n ∈ (ofList (keep.map cleanRooted)).names, n ∈ d.names := by
  have hroot : [] ∈ keep.map cleanRooted ↔ ¬ ∀ k ∈ keep, cleanRooted k ≠ [] := by
    simp
  unfold pruneTree
  by_cases h₁ : [] ∈ keep.map cleanRooted
  · rw [if_pos h₁]
    simp [hroot.mp h₁]
  by_cases h₂ : keep = []
  · simp [h₂]
  rw [if_neg h₁, if_neg (by simpa using h₂), pruneDir]
  have h₁' : ∀ k ∈ keep, cleanRooted k ≠ [] := by
    by_contra hc
    exact h₁ (hroot.mpr hc)
  cases hp : pruneEntries [] d (ofList (keep.map cleanRooted)) with
  | error => simp
  | ok =>
    rw [checkMatched_ok]
    constructor
    · rintro ⟨hnames, rfl⟩
      exact ⟨h₁', h₂, rfl, hnames⟩
    · rintro ⟨-, -, hr, hnames⟩
      exact ⟨hnames, by simpa using hr⟩

/-- What a pruned tree has at the paths that are kept or lead to one. -/
theorem entry_pruneTree (h : pruneTree d keep = .ok r) (p : Path) :
    ((Covers keep p ∨ Leads keep p) → r.entry p = (d.entry p).map normalEntry) ∧
      (¬ (Covers keep p ∨ Leads keep p) → r.entry p = none) := by
  obtain ⟨-, hne, hr, -⟩ := pruneTree_ok_iff.1 h
  have hsome : ((ofList (keep.map cleanRooted)).descend p).isSome = true ↔
      Covers keep p ∨ Leads keep p := by
    rw [descend_ofList_isSome (by simpa using hne)]
    simp only [List.mem_map, exists_exists_and_eq_and, Covers, Leads]
    constructor
    · rintro ⟨k, hk, hpre | hpre⟩
      · exact Or.inl ⟨k, hk, hpre⟩
      · exact Or.inr ⟨k, hk, hpre⟩
    · rintro (⟨k, hk, hpre⟩ | ⟨k, hk, hpre⟩)
      · exact ⟨k, hk, Or.inl hpre⟩
      · exact ⟨k, hk, Or.inr hpre⟩
  have hentry := entry_pruneEntries d hr p
  constructor
  · intro hp
    rw [hentry, if_pos (hsome.mpr hp)]
  · intro hp
    rw [hentry, if_neg fun hc => hp (hsome.mp hc)]

theorem wf_pruneTree (hwf : d.WF) (h : pruneTree d keep = .ok r) : r.WF :=
  (sublist_pruneEntries d (pruneTree_ok_iff.1 h).2.2.1).2 hwf

/-- **Pruning succeeds exactly when every path to keep is covered by one that exists.** -/
theorem pruneTree_isOk_iff (hwf : d.WF) :
    (∃ r, pruneTree d keep = .ok r) ↔ keep ≠ [] ∧ (∀ k ∈ keep, cleanRooted k ≠ []) ∧
      ∀ k ∈ keep, ∃ k' ∈ keep, cleanRooted k' <+: cleanRooted k ∧
        (d.entry (cleanRooted k')).isSome = true := by
  constructor
  · rintro ⟨r, h⟩
    obtain ⟨hroot, hne, hr, hnames⟩ := pruneTree_ok_iff.1 h
    refine ⟨hne, hroot, ?_⟩
    intro k hk
    have hkept := (descend_ofList_full (keep.map cleanRooted) (cleanRooted k)).mpr
      ⟨_, List.mem_map_of_mem hk, List.prefix_refl _⟩
    obtain ⟨q, hq, hfull, hin⟩ := fits_of_pruneEntries _ hr hnames hkept
    obtain ⟨w, hw, hwq⟩ := (descend_ofList_full _ _).mp hfull
    obtain ⟨k', hk', rfl⟩ := List.mem_map.mp hw
    refine ⟨k', hk', hwq.trans hq, ?_⟩
    have hqne : q ≠ [] := by
      rintro rfl
      exact hroot k' hk' (List.prefix_nil.mp hwq)
    exact Dir.entry_isSome_of_prefix hwq (hroot k' hk') (hin.resolve_left hqne)
  · rintro ⟨hne, hroot, hexist⟩
    have hlive : Live (ofList (keep.map cleanRooted)) := live_ofList (by simpa using hne)
    have hfits : Fits d (ofList (keep.map cleanRooted)) := by
      intro p hp
      obtain ⟨w, hw, hpre⟩ := (descend_ofList_full _ _).mp hp
      obtain ⟨k, hk, rfl⟩ := List.mem_map.mp hw
      obtain ⟨k', hk', hpre', hin⟩ := hexist k hk
      refine ⟨cleanRooted k', hpre'.trans hpre, ?_, Or.inr hin⟩
      exact (descend_ofList_full _ _).mpr ⟨_, List.mem_map_of_mem hk', List.prefix_refl _⟩
    obtain ⟨r, hr⟩ := pruneEntries_isOk d [] (hfits.serves hlive) hwf
    exact ⟨r, pruneTree_ok_iff.2 ⟨hroot, hne, hr, hfits.names hlive⟩⟩

/-! ### Two trees -/

theorem Covers.mono {q : Path} (h : Covers keep p) (hpq : p <+: q) :
    Covers keep q := by
  obtain ⟨k, hk, hpre⟩ := h
  exact ⟨k, hk, hpre.trans hpq⟩

/-- Every path to keep is covered by an existing one, which is covered itself. -/
theorem exists_covered (hwf : d.WF) (h : pruneTree d keep = .ok r) {k : Path}
    (hk : k ∈ keep) :
    ∃ q, q <+: cleanRooted k ∧ Covers keep q ∧ (d.entry q).isSome = true := by
  obtain ⟨-, -, hexist⟩ := (pruneTree_isOk_iff hwf).mp ⟨r, h⟩
  obtain ⟨k', hk', hpre, hin⟩ := hexist k hk
  exact ⟨cleanRooted k', hpre, ⟨k', hk', List.prefix_refl _⟩, hin⟩

/-- Two keep lists that cover the same existing paths also lead to the same ones. -/
theorem kept_of_kept {d₁ d₂ r₁ : Dir} {keep₁ keep₂ : List Path} (h₁ : d₁.WF)
    (hr₁ : pruneTree d₁ keep₁ = .ok r₁)
    (hsame : ∀ p, Covers keep₁ p ∧ (d₁.entry p).isSome = true →
      Covers keep₂ p ∧ (d₂.entry p).isSome = true)
    (hp : Covers keep₁ p ∨ Leads keep₁ p) : Covers keep₂ p ∨ Leads keep₂ p := by
  rcases hp with ⟨k, hk, hpre⟩ | ⟨k, hk, hpre⟩
  · obtain ⟨q, hq, hcov, hin⟩ := exists_covered h₁ hr₁ hk
    exact Or.inl ((hsame q ⟨hcov, hin⟩).1.mono (hq.trans hpre))
  · obtain ⟨q, hq, hcov, hin⟩ := exists_covered h₁ hr₁ hk
    obtain ⟨k₂, hk₂, hpre₂⟩ := (hsame q ⟨hcov, hin⟩).1
    rcases List.prefix_or_prefix_of_prefix (hpre₂.trans hq) hpre with h | h
    · exact Or.inl ⟨k₂, hk₂, h⟩
    · exact Or.inr ⟨k₂, hk₂, h⟩

/-- Pruning one tree does not depend on how the covered set is written down. -/
theorem pruneTree_congr {keep' : List Path} (hwf : d.WF) (h : pruneTree d keep = .ok r)
    (hsame : ∀ p, Covers keep p ↔ Covers keep' p) : pruneTree d keep' = .ok r := by
  obtain ⟨hne, hroot, -⟩ := (pruneTree_isOk_iff hwf).mp ⟨r, h⟩
  have hroot' : ∀ k' ∈ keep', cleanRooted k' ≠ [] := by
    intro k' hk' hnil
    have hcov : Covers keep [] := (hsame []).mpr ⟨k', hk', by rw [hnil]⟩
    obtain ⟨k, hk, hpre⟩ := hcov
    exact hroot k hk (List.prefix_nil.mp hpre)
  have hok : ∃ r', pruneTree d keep' = .ok r' := by
    rw [pruneTree_isOk_iff hwf]
    refine ⟨?_, hroot', ?_⟩
    · rintro rfl
      obtain ⟨k, hk⟩ := List.exists_mem_of_ne_nil keep hne
      obtain ⟨k', hk', -⟩ := (hsame (cleanRooted k)).mp ⟨k, hk, List.prefix_refl _⟩
      simp at hk'
    · intro k' hk'
      obtain ⟨k, hk, hpre⟩ := (hsame _).mpr ⟨k', hk', List.prefix_refl (cleanRooted k')⟩
      obtain ⟨q, hq, hcov, hin⟩ := exists_covered hwf h hk
      obtain ⟨k'', hk'', hpre''⟩ := (hsame q).mp hcov
      refine ⟨k'', hk'', hpre''.trans (hq.trans hpre), ?_⟩
      exact Dir.entry_isSome_of_prefix hpre'' (hroot' k'' hk'') hin
  obtain ⟨r', hr'⟩ := hok
  have hkept : ∀ p, Covers keep p ∨ Leads keep p ↔ Covers keep' p ∨ Leads keep' p := by
    intro p
    constructor
    · exact kept_of_kept hwf h fun q hq => ⟨(hsame q).mp hq.1, hq.2⟩
    · exact kept_of_kept hwf hr' fun q hq => ⟨(hsame q).mpr hq.1, hq.2⟩
  rw [hr']
  refine congrArg Except.ok (Dir.ext_entry r' (wf_pruneTree hwf hr') (wf_pruneTree hwf h) ?_)
  intro p
  by_cases hp : Covers keep p ∨ Leads keep p
  · rw [(entry_pruneTree h p).1 hp, (entry_pruneTree hr' p).1 ((hkept p).mp hp)]
  · rw [(entry_pruneTree h p).2 hp, (entry_pruneTree hr' p).2 fun hc => hp ((hkept p).mpr hc)]

/-- Normalising a tree is pruning it to all of its entries. -/
theorem normalizeTree_eq (hwf : d.WF) (hne : d ≠ .nil) (hvalid : ∀ n ∈ d.names, Dir.validName n) :
    ∃ r, normalizeTree d = .ok r ∧ pruneTree d (d.names.map fun n => [n]) = .ok r := by
  have hserves : Serves d .full := by
    intro n c hn hc
    obtain rfl : PrefixTrie.full = c := by simpa using hc
    refine ⟨fun p _ => ⟨[], descend_full _⟩, fun p _ => ⟨[], List.nil_prefix, rfl, ?_⟩⟩
    exact Dir.entry_isSome_of_mem_names d hn
  obtain ⟨r, hr⟩ := pruneEntries_isOk d [] hserves hwf
  have hclean : ∀ n ∈ d.names, cleanRooted [n] = [n] := by
    intro n hn
    obtain ⟨h₁, h₂, h₃⟩ := hvalid n hn
    simp [cleanRooted, h₁, h₂, h₃]
  have hok : ∃ r', pruneTree d (d.names.map fun n => [n]) = .ok r' := by
    rw [pruneTree_isOk_iff hwf]
    refine ⟨?_, ?_, ?_⟩
    · cases d with
      | nil => exact absurd rfl hne
      | leaf | sub => simp [Dir.names]
    · intro k hk
      obtain ⟨n, hn, rfl⟩ := List.mem_map.mp hk
      rw [hclean n hn]
      simp
    · intro k hk
      obtain ⟨n, hn, rfl⟩ := List.mem_map.mp hk
      refine ⟨[n], hk, List.prefix_refl _, ?_⟩
      rw [hclean n hn]
      exact Dir.entry_isSome_of_mem_names d hn
  obtain ⟨r', hr'⟩ := hok
  have hsame : r' = r := by
    refine Dir.ext_entry r' (wf_pruneTree hwf hr') ((sublist_pruneEntries d hr).2 hwf) ?_
    intro p
    rw [entry_pruneEntries d hr p, descend_full, Option.isSome_some, if_pos rfl]
    by_cases hp : Covers (d.names.map fun n => [n]) p ∨ Leads (d.names.map fun n => [n]) p
    · exact (entry_pruneTree hr' p).1 hp
    · -- A path that is not kept starts with no name of the directory.
      have hnone : d.entry p = none := by
        cases p with
        | nil => simp
        | cons n =>
          refine Dir.entry_none_of_not_mem fun hn => hp (Or.inl ⟨[n], ?_, ?_⟩)
          · exact List.mem_map_of_mem hn
          · rw [hclean n hn]
            simp [List.cons_prefix_cons]
      rw [(entry_pruneTree hr' p).2 hp, hnone]
      rfl
  refine ⟨r, ?_, by rw [hr', hsame]⟩
  rw [normalizeTree, pruneDir, hr]
  exact checkMatched_ok.2 ⟨by simp, rfl⟩

theorem Dir.WF.validNames : ∀ {d : Dir}, d.WF → ∀ n ∈ d.names, Dir.validName n := by
  intro d
  induction d with
  | nil => intro _ n hn; simp [Dir.names] at hn
  | leaf a l rest ih =>
    intro hwf n hn
    rcases List.mem_cons.mp hn with rfl | hn
    · exact hwf.1
    · exact ih hwf.2.2 n hn
  | sub a d rest _ ih =>
    intro hwf n hn
    rcases List.mem_cons.mp hn with rfl | hn
    · exact hwf.1
    · exact ih hwf.2.2.2 n hn

/--
**What a pruned tree's key says.**  Of two trees pruned to the same covered paths, the
keys agree exactly when the trees agree, owner, group and time aside, on every covered
path and on the directories that lead to one.  A pruned tree has these entries and no
others, whichever keep list describes the covered set; and normalising a tree that has
entries is pruning it to all of them.
-/
theorem prune_noninterference (K : Keys κ) (d₁ d₂ r₁ r₂ : Dir) (keep₁ keep₂ : List Path)
    (h₁ : d₁.WF) (h₂ : d₂.WF) (hr₁ : pruneTree d₁ keep₁ = .ok r₁)
    (hr₂ : pruneTree d₂ keep₂ = .ok r₂)
    (hsame : ∀ p, (Covers keep₁ p ∧ (d₁.entry p).isSome = true) ↔
      (Covers keep₂ p ∧ (d₂.entry p).isSome = true)) :
    (r₁.key K = r₂.key K ↔ ∀ p, Covers keep₁ p ∨ Leads keep₁ p →
      (d₁.entry p).map normalEntry = (d₂.entry p).map normalEntry) ∧
    (∀ p, (r₁.entry p).isSome = true ↔
      (Covers keep₁ p ∨ Leads keep₁ p) ∧ (d₁.entry p).isSome = true) ∧
    (∀ keep, (∀ p, Covers keep₁ p ↔ Covers keep p) → pruneTree d₁ keep = .ok r₁) ∧
    (d₁ ≠ .nil → ∃ r, normalizeTree d₁ = .ok r ∧
      pruneTree d₁ (d₁.names.map fun n => [n]) = .ok r) := by
  have hkept : ∀ p, Covers keep₁ p ∨ Leads keep₁ p ↔ Covers keep₂ p ∨ Leads keep₂ p := by
    intro p
    constructor
    · exact kept_of_kept h₁ hr₁ fun q hq => (hsame q).mp hq
    · exact kept_of_kept h₂ hr₂ fun q hq => (hsame q).mpr hq
  refine ⟨?_, ?_, fun keep h => pruneTree_congr h₁ hr₁ h,
    fun hne => normalizeTree_eq h₁ hne h₁.validNames⟩
  · rw [Dir.key_inj]
    constructor
    · intro heq p hp
      rw [← (entry_pruneTree hr₁ p).1 hp, heq, (entry_pruneTree hr₂ p).1 ((hkept p).mp hp)]
    · intro hagree
      refine Dir.ext_entry r₁ (wf_pruneTree h₁ hr₁) (wf_pruneTree h₂ hr₂) ?_
      intro p
      by_cases hp : Covers keep₁ p ∨ Leads keep₁ p
      · rw [(entry_pruneTree hr₁ p).1 hp, (entry_pruneTree hr₂ p).1 ((hkept p).mp hp)]
        exact hagree p hp
      · rw [(entry_pruneTree hr₁ p).2 hp,
          (entry_pruneTree hr₂ p).2 fun hc => hp ((hkept p).mpr hc)]
  · intro p
    by_cases hp : Covers keep₁ p ∨ Leads keep₁ p
    · rw [(entry_pruneTree hr₁ p).1 hp, Option.isSome_map]
      exact ⟨fun h => ⟨hp, h⟩, fun h => h.2⟩
    · rw [(entry_pruneTree hr₁ p).2 hp]
      simp [hp]

/-! ### A directory above a covered path -/

/-- Keys without any hashing: the object itself. -/
inductive FreeKey where
  | file (data : Bytes)
  | dir (entries : List (Stored FreeKey))

def freeKeys : Keys FreeKey where
  fileKey := .file
  dirKey := .dir
  fileKey_inj h := by injection h
  dirKey_inj h := by injection h

/-- One file in a directory with the given permissions and owner. -/
def filed (perm uid : Nat) : Dir :=
  .sub { name := "a", perm := perm, uid := uid }
    (.leaf { name := "b", perm := 420 } (.file [1]) .nil) .nil

theorem pruneTree_filed (perm uid : Nat) :
    pruneTree (filed perm uid) [["a", "b"]]
      = .ok (.sub { name := "a", perm := perm, mtime := coverEpochNano }
          (.leaf { name := "b", perm := 420, mtime := coverEpochNano } (.file [1]) .nil) .nil) := by
  rfl

theorem filed_entry (h : Covers [["a", "b"]] p) (perm uid : Nat) :
    (filed perm uid).entry p
      = if p = ["a", "b"] then some ({ name := "b", perm := 420 }, some (.file [1])) else none := by
  obtain ⟨k, hk, hpre⟩ := h
  obtain rfl : k = ["a", "b"] := by simpa using hk
  obtain ⟨s, rfl⟩ : ∃ s, ["a", "b"] ++ s = p := hpre
  cases s with
  | nil | cons => simp [filed, Dir.entry_sub, Dir.entry_leaf]

theorem filed_same (perm perm' uid uid' : Nat) (p : Path) :
    (Covers [["a", "b"]] p ∧ ((filed perm uid).entry p).isSome = true) ↔
      (Covers [["a", "b"]] p ∧ ((filed perm' uid').entry p).isSome = true) := by
  refine and_congr_right fun hp => ?_
  rw [filed_entry hp, filed_entry hp]

/-- The owner of a directory above the covered path makes no difference. -/
theorem prune_noninterference_owner :
    ∃ r₁ r₂, pruneTree (filed 493 0) [["a", "b"]] = .ok r₁ ∧
      pruneTree (filed 493 7) [["a", "b"]] = .ok r₂ ∧
      (r₁.key freeKeys = r₂.key freeKeys ↔ ∀ p, Covers [["a", "b"]] p ∨ Leads [["a", "b"]] p →
        ((filed 493 0).entry p).map normalEntry = ((filed 493 7).entry p).map normalEntry) :=
  ⟨_, _, pruneTree_filed 493 0, pruneTree_filed 493 7,
    (prune_noninterference freeKeys _ _ _ _ _ _ (by decide) (by decide) (pruneTree_filed 493 0)
      (pruneTree_filed 493 7) (filed_same 493 493 0 7)).1⟩

/-- Its permissions do, though the trees agree on everything that is covered. -/
theorem prune_ancestor_mode :
    ∃ r₁ r₂, pruneTree (filed 493 0) [["a", "b"]] = .ok r₁ ∧
      pruneTree (filed 448 0) [["a", "b"]] = .ok r₂ ∧
      (∀ p, (Covers [["a", "b"]] p ∧ ((filed 493 0).entry p).isSome = true) ↔
        (Covers [["a", "b"]] p ∧ ((filed 448 0).entry p).isSome = true)) ∧
      (∀ p, Covers [["a", "b"]] p → (filed 493 0).entry p = (filed 448 0).entry p) ∧
      r₁.key freeKeys ≠ r₂.key freeKeys := by
  refine ⟨_, _, pruneTree_filed 493 0, pruneTree_filed 448 0, filed_same 493 448 0 0, ?_, ?_⟩
  · intro p hp
    rw [filed_entry hp, filed_entry hp]
  · rw [ne_eq, Dir.key_inj]
    simp

end JobsIroh.Tree
