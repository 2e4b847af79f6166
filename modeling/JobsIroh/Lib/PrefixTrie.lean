/-
Tries of prefixes.

A trie stands for a set of words, each of which keeps everything that extends it.  A
word that extends another is absorbed by it, in whichever order the two are added.
Walking down a word ends at a `full` node when some word of the set is a prefix of it,
at another node when it is a proper prefix of one, and nowhere otherwise: the two
lemmas about `add` say so for one more word, `descend_ofList_full` and
`descend_ofList_isSome` for a whole set.
-/
import JobsIroh.Lib.Assoc
import Mathlib.Data.List.Infix

inductive PrefixTrie (α : Type) where
  | full
  | node (children : List (α × PrefixTrie α))

namespace PrefixTrie

variable {α : Type} [DecidableEq α]

def empty : PrefixTrie α := .node []

/-- The names that lead on from a node; a full node has none of its own. -/
def names : PrefixTrie α → List α
  | .full => []
  | .node children => children.map (·.1)

def isFull : PrefixTrie α → Bool
  | .full => true
  | .node _ => false

/-- Below a full node everything is kept. -/
def child (t : PrefixTrie α) (s : α) : Option (PrefixTrie α) :=
  match t with
  | .full => some .full
  | .node children => children.lookup s

def add : List α → PrefixTrie α → PrefixTrie α
  | _, .full => .full
  | [], .node _ => .full
  | s :: word, .node children =>
    .node ((s, add word ((children.lookup s).getD empty)) :: children.filter (fun p => p.1 ≠ s))

def descend (t : PrefixTrie α) : List α → Option (PrefixTrie α)
  | [] => some t
  | s :: word =>
    match t.child s with
    | none => none
    | some c => c.descend word

def ofList (words : List (List α)) : PrefixTrie α := words.foldl (fun t w => t.add w) empty

/-! ### Walking down -/

omit [DecidableEq α] in
@[simp] theorem names_full : (full : PrefixTrie α).names = [] := rfl

omit [DecidableEq α] in
@[simp] theorem isFull_full : (full : PrefixTrie α).isFull = true := rfl

omit [DecidableEq α] in
@[simp] theorem isFull_node (cs : List (α × PrefixTrie α)) : (node cs).isFull = false := rfl

@[simp] theorem child_full (s : α) : (full : PrefixTrie α).child s = some .full := rfl

@[simp] theorem descend_nil (t : PrefixTrie α) : t.descend [] = some t := rfl

theorem descend_full (word : List α) : (full : PrefixTrie α).descend word = some .full := by
  induction word with
  | nil => simp
  | cons s word ih => simp [descend, ih]

variable {t : PrefixTrie α} {s : α}

theorem descend_cons {c : PrefixTrie α} (h : t.child s = some c) (word : List α) :
    t.descend (s :: word) = c.descend word := by
  rw [descend, h]

theorem descend_cons_none (h : t.child s = none) (word : List α) :
    t.descend (s :: word) = none := by
  rw [descend, h]

omit [DecidableEq α] in
theorem isFull_iff : t.isFull = true ↔ t = .full := by
  cases t with
  | full | node => simp

theorem child_isSome_of_mem_names (h : s ∈ t.names) :
    ∃ c, t.child s = some c := by
  cases t with
  | full => exact ⟨.full, rfl⟩
  | node children =>
    cases hl : children.lookup s with
    | some c => exact ⟨c, hl⟩
    | none =>
      obtain ⟨p, hp, rfl⟩ := List.mem_map.mp h
      rw [List.lookup_eq_none_iff] at hl
      simpa using hl p hp

theorem mem_names_of_child (ht : t.isFull = false) {c : PrefixTrie α}
    (h : t.child s = some c) : s ∈ t.names := by
  cases t with
  | full => simp at ht
  | node => exact Assoc.mem_keys_of_lookup h

/-! ### One more word -/

theorem child_add_self (children : List (α × PrefixTrie α)) (s : α) (word : List α) :
    (add (s :: word) (.node children)).child s
      = some (add word ((children.lookup s).getD empty)) := by
  rw [add, child, Assoc.lookup_put, if_pos rfl]

theorem descend_empty_cons (s : α) (word : List α) :
    (empty : PrefixTrie α).descend (s :: word) = none := by
  simp [empty, descend, child]

/-- A walk by another first letter does not meet the new word. -/
theorem descend_add_ne {children : List (α × PrefixTrie α)} {n : α} (h : n ≠ s)
    (w p : List α) :
    (add (s :: w) (.node children)).descend (n :: p) = (node children).descend (n :: p) := by
  rw [descend, descend, add, child, Assoc.lookup_put, if_neg h]
  rfl

/-- The words kept after one more is added: its extensions, and those kept before. -/
theorem descend_add_full (w : List α) :
    ∀ {t : PrefixTrie α} {p : List α},
      (t.add w).descend p = some .full ↔ w <+: p ∨ t.descend p = some .full := by
  induction w with
  | nil =>
    intro t p
    cases t with
    | full | node => simp [add, descend_full]
  | cons s w ih =>
    intro t p
    cases t with
    | full => simp [add, descend_full]
    | node children =>
      cases p with
      | nil => simp [add]
      | cons n p =>
        by_cases hn : n = s
        · subst hn
          rw [descend_cons (child_add_self children n w), ih, List.cons_prefix_cons]
          cases hl : children.lookup n with
          | none =>
            rw [descend_cons_none (t := .node children) hl]
            cases p with
            | nil => simp [empty]
            | cons => simp [descend_empty_cons]
          | some => simp [descend_cons (t := .node children) hl]
        · simp [descend_add_ne hn, List.cons_prefix_cons, Ne.symm hn]

/-- The words a walk can follow after one more is added. -/
theorem descend_add_isSome (w : List α) :
    ∀ {t : PrefixTrie α} {p : List α},
      ((t.add w).descend p).isSome = true ↔
        w <+: p ∨ p <+: w ∨ (t.descend p).isSome = true := by
  induction w with
  | nil =>
    intro t p
    cases t with
    | full | node => simp [add, descend_full]
  | cons s w ih =>
    intro t p
    cases t with
    | full => simp [add, descend_full]
    | node children =>
      cases p with
      | nil => simp
      | cons n p =>
        by_cases hn : n = s
        · subst hn
          rw [descend_cons (child_add_self children n w), ih, List.cons_prefix_cons,
            List.cons_prefix_cons]
          cases hl : children.lookup n with
          | none =>
            rw [descend_cons_none (t := .node children) hl]
            cases p with
            | nil => simp
            | cons => simp [descend_empty_cons]
          | some => simp [descend_cons (t := .node children) hl]
        · simp [descend_add_ne hn, List.cons_prefix_cons, hn, Ne.symm hn]

/-! ### A set of words -/

theorem descend_foldl_add_full (ws : List (List α)) :
    ∀ {t : PrefixTrie α} {p : List α},
      (ws.foldl (fun t w => t.add w) t).descend p = some .full ↔
        (∃ w ∈ ws, w <+: p) ∨ t.descend p = some .full := by
  induction ws with
  | nil => intro t p; simp
  | cons w ws ih =>
    intro t p
    rw [List.foldl_cons, ih, descend_add_full]
    simp only [List.mem_cons, exists_eq_or_imp]
    rw [or_left_comm, or_assoc]

theorem descend_foldl_add_isSome (ws : List (List α)) :
    ∀ {t : PrefixTrie α} {p : List α},
      ((ws.foldl (fun t w => t.add w) t).descend p).isSome = true ↔
        (∃ w ∈ ws, w <+: p ∨ p <+: w) ∨ (t.descend p).isSome = true := by
  induction ws with
  | nil => intro t p; simp
  | cons w ws ih =>
    intro t p
    rw [List.foldl_cons, ih, descend_add_isSome]
    simp only [List.mem_cons, exists_eq_or_imp]
    rw [← or_assoc (a := w <+: p), or_left_comm, or_assoc (a := w <+: p ∨ p <+: w)]

/-- **What a set of words keeps is what extends one of them.** -/
theorem descend_ofList_full (words : List (List α)) (p : List α) :
    (ofList words).descend p = some .full ↔ ∃ w ∈ words, w <+: p := by
  rw [ofList, descend_foldl_add_full]
  cases p with
  | nil => simp [empty]
  | cons => simp [descend_empty_cons]

/-- A walk can follow a word exactly when it is kept, or leads to something kept. -/
theorem descend_ofList_isSome {words : List (List α)} (hwords : words ≠ []) (p : List α) :
    ((ofList words).descend p).isSome = true ↔ ∃ w ∈ words, w <+: p ∨ p <+: w := by
  rw [ofList, descend_foldl_add_isSome]
  cases p with
  | nil =>
    obtain ⟨w, hw⟩ := List.exists_mem_of_ne_nil words hwords
    simp only [descend, Option.isSome_some, or_true, true_iff]
    exact ⟨w, hw, Or.inr List.nil_prefix⟩
  | cons => simp [descend_empty_cons]

end PrefixTrie
