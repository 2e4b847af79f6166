/-
Depth-first search over a successor function.

The search threads one list of visited nodes through every branch, so a node is
expanded once.  It stops at the first node that satisfies `hit` and then hands
back the chain from that node to the start, which is how a cycle report is
usually printed.  With `hit` constantly false it is a plain walk, and what it
returns is the set of nodes the start reaches.

Recursion is on a `Nat` fuel.  Each expansion marks a node that was not marked
before, so one unit of fuel for every node of a finite universe, plus one, is
enough: `dfs_none` carries that count as `unseen`.
-/
import Mathlib.Logic.Relation
import Mathlib.Data.List.Basic

namespace Search

variable {α : Type}

/-- Visit a list of nodes in order, stopping at the first chain. -/
def visit (g : α → List α → List α × Option (List α)) :
    List α → List α → List α × Option (List α)
  | [], seen => (seen, none)
  | d :: ds, seen =>
    match g d seen with
    | (seen', some chain) => (seen', some chain)
    | (seen', none) => visit g ds seen'

/-- Depth-first search from `n`: the nodes seen, and the chain from a hit back to `n`. -/
def dfs [DecidableEq α] (next : α → List α) (hit : α → Bool) :
    Nat → α → List α → List α × Option (List α)
  | 0, _, seen => (seen, none)
  | fuel + 1, n, seen =>
    if n ∈ seen then (seen, none)
    else if hit n then (n :: seen, some [n])
    else
      match visit (dfs next hit fuel) (next n) (n :: seen) with
      | (seen', some chain) => (seen', some (chain ++ [n]))
      | (seen', none) => (seen', none)

/-- The nodes a walk from `n` meets. -/
def reachable [DecidableEq α] (next : α → List α) (fuel : Nat) (n : α) : List α :=
  (dfs next (fun _ => false) fuel n []).1

/-- One step along a successor list. -/
def Edge (next : α → List α) (a b : α) : Prop := b ∈ next a

/-- `b` can be reached from `a` along successor lists. -/
abbrev Reach (next : α → List α) : α → α → Prop := Relation.ReflTransGen (Edge next)

variable {next : α → List α} {hit : α → Bool}

/-! ### What the search marks is reachable -/

theorem visit_sound {g : α → List α → List α × Option (List α)} {P : α → Prop} :
    ∀ (ds seen : List α), (∀ d ∈ ds, ∀ sn m, m ∈ (g d sn).1 → m ∈ sn ∨ P m) →
      ∀ m ∈ (visit g ds seen).1, m ∈ seen ∨ P m := by
  intro ds
  induction ds with
  | nil => intro seen _ m hm; exact Or.inl hm
  | cons d ds ih =>
    intro seen hsub m hm
    have hd := hsub d (by simp) seen
    rw [visit] at hm
    rcases hg : g d seen with ⟨seen', _ | chain⟩
    · rw [hg] at hm hd
      rcases ih seen' (fun e he => hsub e (by simp [he])) m hm with h | h
      · exact hd m h
      · exact Or.inr h
    · rw [hg] at hm hd
      exact hd m hm

theorem dfs_sound [DecidableEq α] :
    ∀ (fuel : Nat) (n : α) (seen : List α), ∀ m ∈ (dfs next hit fuel n seen).1,
      m ∈ seen ∨ Reach next n m := by
  intro fuel
  induction fuel with
  | zero => intro n seen m hm; exact Or.inl hm
  | succ fuel ih =>
    intro n seen m hm
    rw [dfs] at hm
    split at hm
    · exact Or.inl hm
    split at hm
    · rcases List.mem_cons.mp hm with rfl | h
      · exact Or.inr Relation.ReflTransGen.refl
      · exact Or.inl h
    have key := visit_sound (next n) (n :: seen)
      (fun d hd sn e he => (ih d sn e he).imp id fun hr => Relation.ReflTransGen.head hd hr) m
    have hmem : m ∈ (visit (dfs next hit fuel) (next n) (n :: seen)).1 := by
      rcases hv : visit (dfs next hit fuel) (next n) (n :: seen) with ⟨seen', _ | chain⟩
      · rw [hv] at hm; exact hm
      · rw [hv] at hm; exact hm
    rcases key hmem with h | h
    · rcases List.mem_cons.mp h with rfl | h
      · exact Or.inr Relation.ReflTransGen.refl
      · exact Or.inl h
    · exact Or.inr h

/-! ### A chain ends in a hit -/

theorem visit_some {g : α → List α → List α × Option (List α)} {P : α → Prop} :
    ∀ (ds seen : List α) {seen' chain : List α}, visit g ds seen = (seen', some chain) →
      (∀ d ∈ ds, ∀ sn sn' ch, g d sn = (sn', some ch) → P d) → ∃ d ∈ ds, P d := by
  intro ds
  induction ds with
  | nil => intro seen seen' chain h; simp [visit] at h
  | cons d ds ih =>
    intro seen seen' chain h hsub
    rw [visit] at h
    rcases hg : g d seen with ⟨sn, _ | ch⟩
    · rw [hg] at h
      obtain ⟨e, he, hp⟩ := ih sn h fun e he => hsub e (by simp [he])
      exact ⟨e, by simp [he], hp⟩
    · exact ⟨d, by simp, hsub d (by simp) seen sn ch hg⟩

theorem dfs_some [DecidableEq α] :
    ∀ (fuel : Nat) (n : α) (seen : List α) {seen' chain : List α},
      dfs next hit fuel n seen = (seen', some chain) → ∃ m, hit m = true ∧ Reach next n m := by
  intro fuel
  induction fuel with
  | zero => intro n seen seen' chain h; simp [dfs] at h
  | succ fuel ih =>
    intro n seen seen' chain h
    rw [dfs] at h
    split at h
    · simp at h
    split at h
    · rename_i hhit
      exact ⟨n, hhit, Relation.ReflTransGen.refl⟩
    rcases hv : visit (dfs next hit fuel) (next n) (n :: seen) with ⟨sn, _ | ch⟩
    · rw [hv] at h; simp at h
    · obtain ⟨d, hd, m, hm, hr⟩ := visit_some
        (next n) (n :: seen) hv (fun d _ sn sn' ch' hg => ih d sn hg)
      exact ⟨m, hm, Relation.ReflTransGen.head hd hr⟩

/-! ### With enough fuel the marked set is closed -/

/-- What a search that found nothing has marked: only misses, with their successors. -/
structure Marked (next : α → List α) (hit : α → Bool) (seen seen' : List α) : Prop where
  grows : seen ⊆ seen'
  miss : ∀ m ∈ seen', m ∈ seen ∨ hit m = false
  closed : ∀ m ∈ seen', m ∈ seen ∨ ∀ d ∈ next m, d ∈ seen'

theorem Marked.refl (seen : List α) : Marked next hit seen seen :=
  ⟨fun _ h => h, fun _ h => Or.inl h, fun _ h => Or.inl h⟩

theorem Marked.trans {a b c : List α} (hab : Marked next hit a b) (hbc : Marked next hit b c) :
    Marked next hit a c := by
  refine ⟨fun _ h => hbc.grows (hab.grows h), ?_, ?_⟩
  · intro m hm
    rcases hbc.miss m hm with h | h
    · exact hab.miss m h
    · exact Or.inr h
  · intro m hm
    rcases hbc.closed m hm with h | h
    · rcases hab.closed m h with h' | h'
      · exact Or.inl h'
      · exact Or.inr fun d hd => hbc.grows (h' d hd)
    · exact Or.inr h

section Fuel

variable [DecidableEq α]

/-- How many entries of the universe are still unmarked. -/
def unseen (univ seen : List α) : Nat := (univ.filter (fun m => m ∉ seen)).length

variable {univ : List α}

theorem unseen_mono {seen seen' : List α} (h : seen ⊆ seen') :
    unseen univ seen' ≤ unseen univ seen := by
  unfold unseen
  rw [← List.countP_eq_length_filter, ← List.countP_eq_length_filter]
  refine List.countP_mono_left fun m _ hm => ?_
  simp only [decide_eq_true_eq] at hm ⊢
  exact fun hc => hm (h hc)

variable {n : α}

theorem unseen_cons_lt {seen : List α} (hn : n ∈ univ) (hs : n ∉ seen) :
    unseen univ (n :: seen) < unseen univ seen := by
  unfold unseen
  have hmem : n ∈ univ.filter (fun m => m ∉ seen) := by simp [hn, hs]
  have hsub : univ.filter (fun m => m ∉ n :: seen)
      = (univ.filter (fun m => m ∉ seen)).filter (fun m => m ≠ n) := by
    rw [List.filter_filter]
    refine List.filter_congr fun m _ => ?_
    simp [List.mem_cons, not_or]
  rw [hsub]
  exact List.length_filter_lt_length_iff_exists.mpr ⟨n, hmem, by simp⟩

variable {fuel : Nat}

theorem visit_none
    (ih : ∀ (n : α) (seen : List α) {seen' : List α}, n ∈ univ → unseen univ seen < fuel →
      dfs next hit fuel n seen = (seen', none) → Marked next hit seen seen' ∧ n ∈ seen') :
    ∀ (ds seen : List α) {seen' : List α}, (∀ d ∈ ds, d ∈ univ) → unseen univ seen < fuel →
      visit (dfs next hit fuel) ds seen = (seen', none) →
      Marked next hit seen seen' ∧ ∀ d ∈ ds, d ∈ seen' := by
  intro ds
  induction ds with
  | nil =>
    intro seen seen' _ _ h
    simp only [visit, Prod.mk.injEq, and_true] at h
    subst h
    exact ⟨Marked.refl _, by simp⟩
  | cons d ds ihd =>
    intro seen seen' huniv hfuel h
    rw [visit] at h
    rcases hg : dfs next hit fuel d seen with ⟨sn, _ | ch⟩
    · rw [hg] at h
      obtain ⟨hm, hd⟩ := ih d seen (huniv d (by simp)) hfuel hg
      obtain ⟨hm', hds⟩ := ihd sn (fun e he => huniv e (by simp [he]))
        (Nat.lt_of_le_of_lt (unseen_mono hm.grows) hfuel) h
      refine ⟨hm.trans hm', ?_⟩
      intro e he
      rcases List.mem_cons.mp he with rfl | he
      · exact hm'.grows hd
      · exact hds e he
    · rw [hg] at h; simp at h

theorem dfs_none (hclosed : ∀ n ∈ univ, ∀ d ∈ next n, d ∈ univ) :
    ∀ (fuel : Nat) (n : α) (seen : List α) {seen' : List α}, n ∈ univ →
      unseen univ seen < fuel → dfs next hit fuel n seen = (seen', none) →
      Marked next hit seen seen' ∧ n ∈ seen' := by
  intro fuel
  induction fuel with
  | zero => intro n seen seen' _ hlt; omega
  | succ fuel ih =>
    intro n seen seen' hn hlt h
    rw [dfs] at h
    split at h
    · rename_i hmem
      simp only [Prod.mk.injEq, and_true] at h
      subst h
      exact ⟨Marked.refl _, hmem⟩
    rename_i hmem
    split at h
    · simp at h
    rename_i hhit
    rcases hv : visit (dfs next hit fuel) (next n) (n :: seen) with ⟨sn, _ | ch⟩
    · rw [hv] at h
      simp only [Prod.mk.injEq, and_true] at h
      subst h
      have hdec := unseen_cons_lt hn hmem
      obtain ⟨hm, hds⟩ := visit_none ih (next n) (n :: seen) (hclosed n hn) (by omega) hv
      refine ⟨⟨fun m hm' => hm.grows (by simp [hm']), ?_, ?_⟩, hm.grows (by simp)⟩
      · intro m hm'
        rcases hm.miss m hm' with h | h
        · rcases List.mem_cons.mp h with rfl | h
          · exact Or.inr (by simpa using hhit)
          · exact Or.inl h
        · exact Or.inr h
      · intro m hm'
        rcases hm.closed m hm' with h | h
        · rcases List.mem_cons.mp h with rfl | h
          · exact Or.inr hds
          · exact Or.inl h
        · exact Or.inr h
    · rw [hv] at h; simp at h

theorem unseen_nil (univ : List α) : unseen univ [] = univ.length := by
  unfold unseen
  simp

/-! ### The two readings of a search -/

section

variable (hclosed : ∀ n ∈ univ, ∀ d ∈ next n, d ∈ univ) (hfuel : univ.length < fuel) (hn : n ∈ univ)
include hclosed hfuel hn

/-- **A search reports a chain exactly when some hit is reachable.** -/
theorem dfs_isSome_iff :
    (dfs next hit fuel n []).2.isSome = true ↔ ∃ m, hit m = true ∧ Reach next n m := by
  constructor
  · intro h
    obtain ⟨chain, hc⟩ := Option.isSome_iff_exists.mp h
    exact dfs_some fuel n [] (Prod.ext rfl hc)
  · rintro ⟨m, hm, hr⟩
    by_contra hc
    have hnone : (dfs next hit fuel n []).2 = none := by simpa using hc
    obtain ⟨hmk, hin⟩ := dfs_none hclosed fuel n [] hn (by rw [unseen_nil]; exact hfuel)
      (Prod.ext rfl hnone)
    -- The marked set holds the start and is closed, so it holds every reachable node.
    have hall : ∀ x, Reach next n x → x ∈ (dfs next hit fuel n []).1 := by
      intro x hx
      induction hx with
      | refl => exact hin
      | tail _ hstep ihx => exact (hmk.closed _ ihx).resolve_left (by simp) _ hstep
    have := (hmk.miss m (hall m hr)).resolve_left (by simp)
    rw [hm] at this
    exact Bool.noConfusion this

/-- **A walk returns exactly the nodes the start reaches.** -/
theorem mem_reachable_iff (m : α) :
    m ∈ reachable next fuel n ↔ Reach next n m := by
  constructor
  · intro h
    exact (dfs_sound fuel n [] m h).resolve_left (by simp)
  · intro hr
    have hnone : (dfs next (fun _ => false) fuel n []).2 = none := by
      by_contra hc
      have hsome : (dfs next (fun _ => false) fuel n []).2.isSome = true :=
        Option.isSome_iff_ne_none.mpr hc
      obtain ⟨x, hx, -⟩ := (dfs_isSome_iff hclosed hfuel hn).mp hsome
      exact Bool.noConfusion hx
    obtain ⟨hmk, hin⟩ := dfs_none hclosed fuel n [] hn (by rw [unseen_nil]; exact hfuel)
      (Prod.ext (x := dfs next (fun _ => false) fuel n []) rfl hnone)
    induction hr with
    | refl => exact hin
    | tail _ hstep ih => exact (hmk.closed _ ih).resolve_left (by simp) _ hstep

end

end Fuel

end Search
