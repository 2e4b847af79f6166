/-
Ref names as text and as structure.

The gate compares names as text while the store is keyed by `RefName`.  The two
views agree: a parsed name renders to the text it came from, so different texts are
different entries of the store, and the text of a family parses back to the family.
What makes the second true is that no family's prefix extends another's.  A name in
one of the push namespaces, or of a cache, belongs to no family, so deleting a push
ref never touches a ref the scheduler works with.
-/
import JobsIroh.Sched.Gate

namespace JobsIroh

variable {κ : Type} [DecidableEq κ]

namespace RefName

variable (W : KeyPkg κ)

variable {p : String} {mk : κ → RefName κ}

omit [DecidableEq κ] in
/-- The text of a family member is the family's prefix and the key. -/
theorem render_family (h : (p, mk) ∈ families κ) (k : κ) :
    (mk k).render W = p ++ W.string k := by
  simp only [families, List.mem_cons, Prod.mk.injEq, List.not_mem_nil, or_false] at h
  rcases h with h | h | h | h | h | h | h | h | h | h | h
  all_goals
    obtain ⟨rfl, rfl⟩ := h
    rfl

theorem render_parseFamilies (s : String) :
    ∀ fams : List (String × (κ → RefName κ)), (∀ e ∈ fams, e ∈ families κ) →
      (parseFamilies W s fams).render W = s := by
  intro fams
  induction fams with
  | nil => intro _; rfl
  | cons e rest ih =>
    intro hsub
    rw [parseFamilies]
    split
    · rename_i k hk
      obtain ⟨t, ht, hkey⟩ := Option.bind_eq_some_iff.mp hk
      rw [render_family W (hsub _ List.mem_cons_self), W.string_of_parseCanonical hkey]
      exact (Text.cutPrefix_eq_some_iff.mp ht).symm
    · exact ih fun e he => hsub e (List.mem_cons_of_mem _ he)

/-- **A parsed name renders to the text it came from.** -/
@[simp]
theorem render_parse (s : String) : (parse W s).render W = s :=
  render_parseFamilies W s (families κ) fun _ h => h

theorem parse_injective : Function.Injective (parse W) := by
  intro s t h
  rw [← render_parse W s, h, render_parse]

omit [DecidableEq κ] in
/-- No family's prefix extends another's. -/
theorem families_incomparable :
    (families κ).Pairwise (fun a b => Text.Incomparable a.1 b.1) := by
  have h : ((families κ).map Prod.fst).Pairwise Text.Incomparable := by
    show List.Pairwise Text.Incomparable
      ["import-output:", "build-from:", "build-from-tree:", "build-plugin-resolved:",
       "build-pinned:", "build-output:", "build-output-deps:", "f-tree/", "kp-tree/",
       "pin-cover/2:", "build:"]
    decide
  exact List.pairwise_map.mp h

theorem parseFamilies_of_mem (k : κ) :
    ∀ {fams : List (String × (κ → RefName κ))},
      fams.Pairwise (fun a b => Text.Incomparable a.1 b.1) → (p, mk) ∈ fams →
      parseFamilies W (p ++ W.string k) fams = mk k := by
  intro fams
  induction fams with
  | nil => intro _ h; cases h
  | cons e rest ih =>
    intro hpw hmem
    obtain ⟨hhead, htail⟩ := List.pairwise_cons.mp hpw
    rw [parseFamilies]
    rcases List.mem_cons.mp hmem with he | hrest
    · subst he
      simp
    · have hinc := hhead _ hrest
      rw [Text.cutPrefix_of_incomparable hinc]
      exact ih htail hrest

/-- **The text of a family member parses back to it.** -/
theorem parse_family (h : (p, mk) ∈ families κ) (k : κ) :
    parse W (p ++ W.string k) = mk k :=
  parseFamilies_of_mem W k families_incomparable h

theorem parseFamilies_raw {q : String} (t : String) :
    ∀ {fams : List (String × (κ → RefName κ))}, (∀ e ∈ fams, Text.Incomparable e.1 q) →
      parseFamilies W (q ++ t) fams = raw (q ++ t) := by
  intro fams
  induction fams with
  | nil => intro _; rfl
  | cons e rest ih =>
    intro hinc
    rw [parseFamilies, Text.cutPrefix_of_incomparable (hinc e List.mem_cons_self)]
    exact ih fun e he => hinc e (List.mem_cons_of_mem _ he)

/-- A prefix that is incomparable with every family's. -/
def Foreign (q : String) : Prop :=
  ∀ p ∈ ["import-output:", "build-from:", "build-from-tree:", "build-plugin-resolved:",
    "build-pinned:", "build-output:", "build-output-deps:", "f-tree/", "kp-tree/",
    "pin-cover/2:", "build:"], Text.Incomparable p q

instance (q : String) : Decidable (Foreign q) := inferInstanceAs (Decidable (∀ p ∈ _, _))

/-- A name in a foreign namespace belongs to no family. -/
theorem parse_foreign {q : String} (hq : Foreign q) (t : String) :
    parse W (q ++ t) = raw (q ++ t) := by
  refine parseFamilies_raw W t fun e he => hq e.1 ?_
  exact List.mem_map_of_mem he

end RefName

end JobsIroh
