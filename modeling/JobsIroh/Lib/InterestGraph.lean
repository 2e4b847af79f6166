/-
A shared dependency graph kept alive by interest.

Nodes are found through a table keyed by an identity; a second request for the
same identity joins the node that is there.  Each node carries the set of
watchers that want it.  Adding a watcher walks down the dependency edges and
stops early at a node that already has it; removing one walks the whole subtree
of the watcher's target, and a node nobody wants leaves the table and is
unlinked from what it depended on.

The recursion of the downward walk is kept as a list of pending visits, so that
a state in the middle of a walk is a state like any other.  `Inv` is what such a
state satisfies, whatever has been done so far; a graph with nothing pending
then has the exact reading `interest_iff_of_settled`: a watcher is interested in
exactly the nodes its target reaches.
-/
import JobsIroh.Lib.Search

namespace InterestGraph

open Search (Reach Edge)

/-- A node table with edges, watchers, and the visits a downward walk still owes. -/
structure Graph (ι ρ : Type) where
  nodes : ι → Option Nat
  next : Nat
  id : Nat → ι
  deps : Nat → List Nat
  dependents : Nat → List Nat
  interest : Nat → List ρ
  pending : List (Nat × List ρ)

namespace Graph

variable {ι ρ : Type}

/-! ### Operations -/

section

variable [DecidableEq ι] [DecidableEq ρ]

def empty [Inhabited ι] : Graph ι ρ where
  nodes := fun _ => none
  next := 0
  id := fun _ => default
  deps := fun _ => []
  dependents := fun _ => []
  interest := fun _ => []
  pending := []

/-- The node for an identity, or the one that would be made for it. -/
def occupant (g : Graph ι ρ) (i : ι) : Nat := (g.nodes i).getD g.next

/-- A new node for `i`: no edges and no watchers. -/
def alloc (g : Graph ι ρ) (i : ι) : Graph ι ρ :=
  { g with
    nodes := Function.update g.nodes i (some g.next)
    next := g.next + 1
    id := Function.update g.id g.next i
    deps := Function.update g.deps g.next []
    dependents := Function.update g.dependents g.next []
    interest := Function.update g.interest g.next [] }

def getOrCreate (g : Graph ι ρ) (i : ι) : Graph ι ρ :=
  match g.nodes i with
  | some _ => g
  | none => g.alloc i

/-- Make `n` a dependency of `p`, once. -/
def link (g : Graph ι ρ) (p n : Nat) : Graph ι ρ :=
  if n ∈ g.deps p then g
  else { g with
    deps := Function.update g.deps p (n :: g.deps p)
    dependents := Function.update g.dependents n (p :: g.dependents n) }

/-- Ask for a visit of `n` with the watchers `ids`. -/
def owe (g : Graph ι ρ) (n : Nat) (ids : List ρ) : Graph ι ρ :=
  { g with pending := (n, ids) :: g.pending }

/-- Make the first pending visit: stop if nothing is new, else add and go on to the deps. -/
def visitNext (g : Graph ι ρ) : Graph ι ρ :=
  match g.pending with
  | [] => g
  | (n, ids) :: rest =>
    if ∀ r ∈ ids, r ∈ g.interest n then { g with pending := rest }
    else { g with
      interest := Function.update g.interest n
        (g.interest n ++ ids.filter (fun r => r ∉ g.interest n))
      pending := (g.deps n).map (fun d => (d, ids)) ++ rest }

/-- Get or create the node for `i` and make it a dependency of `p`, watched by whoever
watches `p`. -/
def require (g : Graph ι ρ) (i : ι) (p : Nat) : Graph ι ρ :=
  let n := g.occupant i
  let g := g.getOrCreate i
  ((g.link p n).owe n (g.interest p)).visitNext

/-- Get or create the node for `i` as the target of the watcher `r`. -/
def requireTarget (g : Graph ι ρ) (i : ι) (r : ρ) : Graph ι ρ :=
  ((g.getOrCreate i).owe (g.occupant i) [r]).visitNext

/-- Everything `t` depends on, with `t`. -/
def subtree (g : Graph ι ρ) (t : Nat) : List Nat := Search.reachable g.deps (g.next + 1) t

/-- Take `n` out of the table if nobody wants it and it is still the occupant. -/
def evict (g : Graph ι ρ) (n : Nat) : Graph ι ρ :=
  if g.interest n = [] ∧ g.nodes (g.id n) = some n then
    { g with
      nodes := Function.update g.nodes (g.id n) none
      dependents := fun d =>
        if d ∈ g.deps n then (g.dependents d).filter (fun p => p ≠ n) else g.dependents d }
  else g

/-- Remove the watcher `r` from the subtree of `t`, then evict what is left unwatched. -/
def drop (g : Graph ι ρ) (r : ρ) (t : Nat) : Graph ι ρ :=
  let seen := g.subtree t
  let g := { g with
    interest := fun p =>
      if p ∈ seen then (g.interest p).filter (fun x => x ≠ r) else g.interest p }
  seen.foldl evict g

end

/-! ### The invariant -/

/-- The node is the table's entry for its identity. -/
def Alive (g : Graph ι ρ) (p : Nat) : Prop := g.nodes (g.id p) = some p

instance (g : Graph ι ρ) (p : Nat) : Decidable (g.Alive p) :=
  inferInstanceAs (Decidable (_ = _))

/-- A visit of `p` that would bring the watcher `r` is pending. -/
def Owed (g : Graph ι ρ) (p : Nat) (r : ρ) : Prop := ∃ ids, (p, ids) ∈ g.pending ∧ r ∈ ids

/-- What holds at every moment, also in the middle of a walk; `target` gives the live
watchers. -/
structure Inv (g : Graph ι ρ) (target : ρ → Option Nat) : Prop where
  /-- The table is keyed by the node's own identity. -/
  occ : ∀ i p, g.nodes i = some p → g.id p = i ∧ p < g.next
  freshInterest : ∀ p, g.next ≤ p → g.interest p = []
  /-- Edges stay among the nodes made so far. -/
  depsLt : ∀ p d, d ∈ g.deps p → p < g.next ∧ d < g.next
  interestedIn : ∀ p, g.interest p ≠ [] → g.Alive p
  depsIn : ∀ p d, g.Alive p → d ∈ g.deps p → g.Alive d
  dependentsIff : ∀ p d, p ∈ g.dependents d ↔ g.Alive p ∧ d ∈ g.deps p
  /-- A watcher of a node watches its deps, or is on the way to them. -/
  closed : ∀ p d r, g.Alive p → d ∈ g.deps p → r ∈ g.interest p → r ∈ g.interest d ∨ g.Owed d r
  /-- Nobody watches what their target does not reach. -/
  sound : ∀ p r, r ∈ g.interest p → ∃ t, target r = some t ∧ Reach g.deps t p
  pendingSound : ∀ p ids, (p, ids) ∈ g.pending →
    g.Alive p ∧ ∀ r ∈ ids, ∃ t, target r = some t ∧ Reach g.deps t p
  targetIn : ∀ r t, target r = some t → r ∈ g.interest t ∨ g.Owed t r

/-- Every table node is wanted, or about to be. -/
def Watched (g : Graph ι ρ) : Prop := ∀ p, g.Alive p → g.interest p ≠ [] ∨ ∃ r, g.Owed p r

variable {g g' : Graph ι ρ} {target : ρ → Option Nat} {i : ι} {p q n t : Nat} {r : ρ}

theorem Inv.alive_lt (h : Inv g target) (hp : g.Alive p) : p < g.next := (h.occ _ _ hp).2

theorem Inv.interest_lt (h : Inv g target) (hr : r ∈ g.interest p) : p < g.next :=
  h.alive_lt (h.interestedIn p (List.ne_nil_of_mem hr))

/-- Two nodes of the table have different identities. -/
theorem Alive.id_ne (hp : g.Alive p) (hq : g.Alive q) (hne : p ≠ q) : g.id p ≠ g.id q := by
  intro he
  rw [Alive, he, show g.nodes (g.id q) = some q from hq] at hp
  exact hne (Option.some.inj hp).symm

theorem occupant_of_some (h : g.nodes i = some n) : g.occupant i = n := by simp [occupant, h]

theorem occupant_of_none (h : g.nodes i = none) : g.occupant i = g.next := by simp [occupant, h]

section

variable (h : Inv g target)
include h

/-- An identity whose next occupant is a new pointer is not in the table. -/
theorem Inv.absent_of_occupant (hnew : g.next ≤ g.occupant i) :
    g.nodes i = none := by
  rcases hn : g.nodes i with _ | m
  · rfl
  · rw [occupant_of_some hn] at hnew
    have := (h.occ _ m hn).2
    omega

/-- A new node is not in the table yet. -/
theorem Inv.not_alive_occupant (hi : g.nodes i = none) :
    ¬ g.Alive (g.occupant i) := by
  intro hc
  rw [occupant_of_none hi] at hc
  have := h.alive_lt hc
  omega

/-- The occupant of an identity is in the table, or new. -/
theorem Inv.alive_or_new (hq : q = g.occupant i ∨ g.Alive q) :
    g.Alive q ∨ g.next ≤ q := by
  rcases hq with rfl | hq
  · rcases hi : g.nodes i with _ | m
    · rw [occupant_of_none hi]
      exact Or.inr (Nat.le_refl _)
    · rw [occupant_of_some hi]
      exact Or.inl (by rw [Alive, (h.occ i m hi).1, hi])
  · exact Or.inl hq

/-- A new node has no deps. -/
theorem Inv.alive_of_dep (hq : q = g.occupant i ∨ g.Alive q)
    (hd : d ∈ g.deps q) : g.Alive q := by
  refine (h.alive_or_new hq).resolve_right fun hnew => ?_
  have := (h.depsLt q d hd).1
  omega

end

/-- No pointer comes back: a node of `g'` is one of `g` under the same identity, or new. Edges
stay with the node they start from. -/
structure Extends (g g' : Graph ι ρ) : Prop where
  next : g.next ≤ g'.next
  deps : ∀ q d, d ∈ g.deps q → d ∈ g'.deps q
  alive : ∀ q, g'.Alive q → g.Alive q ∧ g'.id q = g.id q ∨ g.next ≤ q

theorem Extends.refl (g : Graph ι ρ) : Extends g g :=
  ⟨Nat.le_refl _, fun _ _ hd => hd, fun _ hq => Or.inl ⟨hq, rfl⟩⟩

theorem Extends.trans {g'' : Graph ι ρ} (h : Extends g g') (h' : Extends g' g'') :
    Extends g g'' := by
  refine ⟨Nat.le_trans h.next h'.next, fun q d hd => h'.deps q d (h.deps q d hd), fun q hq => ?_⟩
  rcases h'.alive q hq with ⟨hq', hid'⟩ | hnew
  · rcases h.alive q hq' with ⟨hold, hid⟩ | hnew
    · exact Or.inl ⟨hold, hid'.trans hid⟩
    · exact Or.inr hnew
  · exact Or.inr (Nat.le_trans h.next hnew)

/-- A pointer that is still in the table has the identity it had. -/
theorem Extends.id_eq (h : Extends g g') (hq : g'.Alive q) (hlt : q < g.next) :
    g'.id q = g.id q := by
  rcases h.alive q hq with ⟨-, hid⟩ | hnew
  · exact hid
  · exact absurd hlt (by omega)

/-! ### Making a node -/

section

variable [DecidableEq ι]

/-- A new node has no edges and no watchers already, so only the table changes. -/
theorem Inv.alloc_same (h : Inv g target) (i : ι) :
    (g.alloc i).deps = g.deps ∧ (g.alloc i).dependents = g.dependents ∧
      (g.alloc i).interest = g.interest := by
  have hdeps : g.deps g.next = [] := by
    refine List.eq_nil_iff_forall_not_mem.mpr fun d hd => ?_
    have := (h.depsLt _ _ hd).1
    omega
  have hdependents : g.dependents g.next = [] := by
    refine List.eq_nil_iff_forall_not_mem.mpr fun q hq => ?_
    have := (h.depsLt _ _ ((h.dependentsIff q g.next).mp hq).2).2
    omega
  refine ⟨?_, ?_, ?_⟩
  · exact Function.update_eq_self_iff.mpr hdeps.symm
  · exact Function.update_eq_self_iff.mpr hdependents.symm
  · exact Function.update_eq_self_iff.mpr (h.freshInterest _ (Nat.le_refl _)).symm

theorem alloc_alive (hi : g.nodes i = none) (q : Nat) :
    (g.alloc i).Alive q ↔ q = g.next ∨ g.Alive q := by
  by_cases hq : q = g.next
  · subst hq
    simp [Alive, alloc]
  · unfold Alive
    by_cases hqi : g.id q = i
    · simp [alloc, hqi, hi, hq, Ne.symm hq]
    · simp [alloc, hqi, hq]

theorem Inv.alloc (h : Inv g target) (hi : g.nodes i = none) : Inv (g.alloc i) target := by
  obtain ⟨hdeps, hdependents, hinterest⟩ := h.alloc_same i
  have halive := alloc_alive hi
  have hnext : (g.alloc i).next = g.next + 1 := rfl
  constructor
  · intro j q hj
    by_cases hji : j = i
    · subst hji
      have hq : q = g.next := by simpa [Graph.alloc, eq_comm] using hj
      subst hq
      exact ⟨by simp [Graph.alloc], by omega⟩
    · have hj' : g.nodes j = some q := by simpa [Graph.alloc, hji] using hj
      have ho := h.occ j q hj'
      have hne : q ≠ g.next := by omega
      exact ⟨by simpa [Graph.alloc, hne] using ho.1, by omega⟩
  · intro q hq
    rw [hinterest]
    exact h.freshInterest q (by omega)
  · intro q d hd
    rw [hdeps] at hd
    have := h.depsLt q d hd
    omega
  · intro q hq
    rw [hinterest] at hq
    exact (halive q).mpr (Or.inr (h.interestedIn q hq))
  · intro q d hq hd
    rw [hdeps] at hd
    have hlt := (h.depsLt q d hd).1
    have hq' : g.Alive q := ((halive q).mp hq).resolve_left (by omega)
    exact (halive d).mpr (Or.inr (h.depsIn q d hq' hd))
  · intro q d
    rw [hdependents, hdeps, h.dependentsIff, halive]
    constructor
    · rintro ⟨hq, hd⟩
      exact ⟨Or.inr hq, hd⟩
    · rintro ⟨hq, hd⟩
      have hlt := (h.depsLt q d hd).1
      exact ⟨hq.resolve_left (by omega), hd⟩
  · intro q d r hq hd hr
    rw [hdeps] at hd
    rw [hinterest] at hr ⊢
    have hlt := (h.depsLt q d hd).1
    exact h.closed q d r (((halive q).mp hq).resolve_left (by omega)) hd hr
  · intro q r hr
    rw [hinterest] at hr
    rw [hdeps]
    exact h.sound q r hr
  · intro q ids hq
    rw [hdeps]
    obtain ⟨ha, hs⟩ := h.pendingSound q ids hq
    exact ⟨(halive q).mpr (Or.inr ha), hs⟩
  · intro r t ht
    rw [hinterest]
    exact h.targetIn r t ht

theorem Inv.getOrCreate (h : Inv g target) (i : ι) : Inv (g.getOrCreate i) target := by
  unfold Graph.getOrCreate
  split
  · exact h
  · rename_i hi
    exact h.alloc hi

/-- After the table lookup the occupant is in the table. -/
theorem Inv.getOrCreate_alive (h : Inv g target) (i : ι) (q : Nat) :
    (g.getOrCreate i).Alive q ↔ q = g.occupant i ∨ g.Alive q := by
  rcases hi : g.nodes i with _ | m
  · rw [occupant_of_none hi, Graph.getOrCreate, hi]
    exact alloc_alive hi q
  · rw [occupant_of_some hi, Graph.getOrCreate, hi]
    refine ⟨Or.inr, ?_⟩
    rintro (rfl | hq)
    · unfold Alive
      rw [(h.occ i _ hi).1, hi]
    · exact hq

theorem Inv.getOrCreate_same (h : Inv g target) (i : ι) :
    (g.getOrCreate i).deps = g.deps ∧ (g.getOrCreate i).dependents = g.dependents ∧
      (g.getOrCreate i).interest = g.interest := by
  unfold Graph.getOrCreate
  split
  · exact ⟨rfl, rfl, rfl⟩
  · exact h.alloc_same i

theorem Inv.getOrCreate_id (h : Inv g target) (i : ι) :
    (g.getOrCreate i).id (g.occupant i) = i := by
  rcases hi : g.nodes i with _ | m
  · rw [occupant_of_none hi, Graph.getOrCreate, hi]
    simp [Graph.alloc]
  · rw [occupant_of_some hi, Graph.getOrCreate, hi]
    exact (h.occ i m hi).1

/-- Nodes of the table keep their identity. -/
theorem Inv.getOrCreate_id_of_alive (h : Inv g target) (i : ι) (hq : g.Alive q) :
    (g.getOrCreate i).id q = g.id q := by
  unfold Graph.getOrCreate
  split
  · rfl
  · have hlt := h.alive_lt hq
    have hne : q ≠ g.next := by omega
    simp [Graph.alloc, hne]

theorem getOrCreate_next_le (i : ι) : g.next ≤ (g.getOrCreate i).next := by
  unfold Graph.getOrCreate
  split
  · exact Nat.le_refl _
  · simp [Graph.alloc]

@[simp]
theorem getOrCreate_pending (g : Graph ι ρ) (i : ι) : (g.getOrCreate i).pending = g.pending := by
  unfold Graph.getOrCreate
  split <;> rfl

end

/-! ### Linking -/

section

variable (g : Graph ι ρ) (p n : Nat)

@[simp]
theorem link_nodes : (g.link p n).nodes = g.nodes := by
  unfold link; split <;> rfl

@[simp]
theorem link_id : (g.link p n).id = g.id := by
  unfold link; split <;> rfl

@[simp]
theorem link_next : (g.link p n).next = g.next := by
  unfold link; split <;> rfl

@[simp]
theorem link_interest : (g.link p n).interest = g.interest := by
  unfold link; split <;> rfl

@[simp]
theorem link_pending : (g.link p n).pending = g.pending := by
  unfold link; split <;> rfl

end

theorem link_alive (g : Graph ι ρ) (p n q : Nat) : (g.link p n).Alive q ↔ g.Alive q := by
  unfold Alive
  rw [link_nodes, link_id]

theorem mem_link_deps (g : Graph ι ρ) (p n q d : Nat) :
    d ∈ (g.link p n).deps q ↔ d ∈ g.deps q ∨ (q = p ∧ d = n) := by
  unfold link
  split
  · rename_i hmem
    refine ⟨Or.inl, ?_⟩
    rintro (h | ⟨rfl, rfl⟩)
    · exact h
    · exact hmem
  · by_cases hq : q = p
    · subst hq
      simp [or_comm]
    · simp [hq]

theorem Inv.mem_link_dependents (h : Inv g target) (hp : g.Alive p) (q d : Nat) :
    q ∈ (g.link p n).dependents d ↔ q ∈ g.dependents d ∨ (q = p ∧ d = n) := by
  unfold link
  split
  · rename_i hmem
    refine ⟨Or.inl, ?_⟩
    rintro (hq | ⟨rfl, rfl⟩)
    · exact hq
    · exact (h.dependentsIff _ _).mpr ⟨hp, hmem⟩
  · by_cases hd : d = n
    · subst hd
      simp [or_comm]
    · simp [hd]

theorem reach_link {a b : Nat} (g : Graph ι ρ) (p n : Nat) (hr : Reach g.deps a b) :
    Reach (g.link p n).deps a b :=
  Relation.ReflTransGen.mono (fun q d hd => (mem_link_deps g p n q d).mpr (Or.inl hd)) _ _ hr

/-- A new edge, with the visit it owes to its lower end. -/
theorem Inv.link_owe (h : Inv g target) (hp : g.Alive p) (hn : g.Alive n) :
    Inv ((g.link p n).owe n (g.interest p)) target := by
  have halive : ∀ q, ((g.link p n).owe n (g.interest p)).Alive q ↔ g.Alive q :=
    fun q => link_alive g p n q
  have hdeps : ∀ q d, d ∈ ((g.link p n).owe n (g.interest p)).deps q ↔
      d ∈ g.deps q ∨ (q = p ∧ d = n) := fun q d => mem_link_deps g p n q d
  have hint : ((g.link p n).owe n (g.interest p)).interest = g.interest := link_interest g p n
  have hpend : ((g.link p n).owe n (g.interest p)).pending = (n, g.interest p) :: g.pending := by
    simp [owe]
  have howed : ∀ q r, g.Owed q r → ((g.link p n).owe n (g.interest p)).Owed q r := by
    rintro q r ⟨ids, hq, hr⟩
    exact ⟨ids, by rw [hpend]; exact List.mem_cons_of_mem _ hq, hr⟩
  constructor
  · intro j q hj
    have hj' : g.nodes j = some q := by simpa [owe] using hj
    simpa [owe] using h.occ j q hj'
  · intro q hq
    rw [hint]
    exact h.freshInterest q (by simpa [owe] using hq)
  · intro q d hd
    have hnext : ((g.link p n).owe n (g.interest p)).next = g.next := link_next g p n
    rw [hnext]
    rcases (hdeps q d).mp hd with hd | ⟨rfl, rfl⟩
    · exact h.depsLt q d hd
    · exact ⟨h.alive_lt hp, h.alive_lt hn⟩
  · intro q hq
    rw [hint] at hq
    exact (halive q).mpr (h.interestedIn q hq)
  · intro q d hq hd
    rw [halive] at hq ⊢
    rcases (hdeps q d).mp hd with hd | ⟨rfl, rfl⟩
    · exact h.depsIn q d hq hd
    · exact hn
  · intro q d
    rw [halive, hdeps]
    show q ∈ (g.link p n).dependents d ↔ _
    rw [h.mem_link_dependents hp, h.dependentsIff]
    constructor
    · rintro (⟨hq, hd⟩ | ⟨rfl, rfl⟩)
      · exact ⟨hq, Or.inl hd⟩
      · exact ⟨hp, Or.inr ⟨rfl, rfl⟩⟩
    · rintro ⟨hq, hd | ⟨rfl, rfl⟩⟩
      · exact Or.inl ⟨hq, hd⟩
      · exact Or.inr ⟨rfl, rfl⟩
  · intro q d r hq hd hr
    rw [hint] at hr ⊢
    rw [halive] at hq
    rcases (hdeps q d).mp hd with hd | ⟨rfl, rfl⟩
    · exact (h.closed q d r hq hd hr).imp (fun hx => hx) (howed d r)
    · exact Or.inr ⟨g.interest q, by rw [hpend]; exact List.mem_cons_self, hr⟩
  · intro q r hr
    rw [hint] at hr
    obtain ⟨t, ht, hreach⟩ := h.sound q r hr
    exact ⟨t, ht, reach_link g p n hreach⟩
  · intro q ids hq
    rw [hpend] at hq
    rcases List.mem_cons.mp hq with he | hq
    · obtain ⟨rfl, rfl⟩ := Prod.mk.inj he
      refine ⟨(halive _).mpr hn, fun r hr => ?_⟩
      obtain ⟨t, ht, hreach⟩ := h.sound p r hr
      exact ⟨t, ht, (reach_link g p _ hreach).tail ((hdeps p _).mpr (Or.inr ⟨rfl, rfl⟩))⟩
    · obtain ⟨ha, hs⟩ := h.pendingSound q ids hq
      refine ⟨(halive q).mpr ha, fun r hr => ?_⟩
      obtain ⟨t, ht, hreach⟩ := hs r hr
      exact ⟨t, ht, reach_link g p n hreach⟩
  · intro r t ht
    rw [hint]
    exact (h.targetIn r t ht).imp (fun hx => hx) (howed t r)

/-- A table node other than the occupant was watched before; the occupant is owed a visit. -/
theorem Watched.owe_occupant (hw : Watched g) {ids : List ρ}
    (hne : ids ≠ []) (halive : ∀ q, g'.Alive q ↔ q = g.occupant i ∨ g.Alive q)
    (hint : g'.interest = g.interest) (hpend : g'.pending = g.pending) :
    Watched (g'.owe (g.occupant i) ids) := by
  intro q hq
  rcases (halive q).mp hq with rfl | hq
  · obtain ⟨r, hr⟩ := List.exists_mem_of_ne_nil _ hne
    exact Or.inr ⟨r, ids, List.mem_cons_self, hr⟩
  · rcases hw q hq with hne' | ⟨r, ids', hq', hr⟩
    · left
      show g'.interest q ≠ []
      rwa [hint]
    · refine Or.inr ⟨r, ids', ?_, hr⟩
      show _ ∈ _ :: g'.pending
      rw [hpend]
      exact List.mem_cons_of_mem _ hq'

/-! ### The downward walk -/

section

variable [DecidableEq ρ]

/-- A new watcher, with the visit it owes to its target. -/
theorem Inv.owe_target (h : Inv g target) (ht : g.Alive t) (hr : target r = none) :
    Inv (g.owe t [r]) (Function.update target r (some t)) := by
  have hold : ∀ r' t', target r' = some t' →
      Function.update target r (some t) r' = some t' := by
    intro r' t' h'
    have hne : r' ≠ r := by
      rintro rfl
      rw [hr] at h'
      cases h'
    rwa [Function.update_of_ne hne]
  have howed : ∀ q r', g.Owed q r' → (g.owe t [r]).Owed q r' := by
    rintro q r' ⟨ids, hq, hr'⟩
    exact ⟨ids, List.mem_cons_of_mem _ hq, hr'⟩
  refine ⟨h.occ, h.freshInterest, h.depsLt, h.interestedIn, h.depsIn, h.dependentsIff,
    ?_, ?_, ?_, ?_⟩
  · intro q d r' hq hd hr'
    exact (h.closed q d r' hq hd hr').imp (fun hx => hx) (howed d r')
  · intro q r' hr'
    obtain ⟨t', ht', hreach⟩ := h.sound q r' hr'
    exact ⟨t', hold r' t' ht', hreach⟩
  · intro q ids hq
    rcases List.mem_cons.mp hq with he | hq
    · obtain ⟨rfl, rfl⟩ := Prod.mk.inj he
      refine ⟨ht, fun r' hr' => ?_⟩
      rw [List.mem_singleton.mp hr']
      exact ⟨_, Function.update_self .., Relation.ReflTransGen.refl⟩
    · obtain ⟨ha, hs⟩ := h.pendingSound q ids hq
      refine ⟨ha, fun r' hr' => ?_⟩
      obtain ⟨t', ht', hreach⟩ := hs r' hr'
      exact ⟨t', hold r' t' ht', hreach⟩
  · intro r' t' ht'
    by_cases hne : r' = r
    · subst hne
      rw [Function.update_self] at ht'
      obtain rfl := Option.some.inj ht'
      exact Or.inr ⟨[r'], List.mem_cons_self, by simp⟩
    · rw [Function.update_of_ne hne] at ht'
      exact (h.targetIn r' t' ht').imp (fun hx => hx) (howed t' r')

section

variable (g : Graph ι ρ)

@[simp]
theorem visitNext_nodes : g.visitNext.nodes = g.nodes := by
  unfold visitNext; split
  · rfl
  · split <;> rfl

@[simp]
theorem visitNext_id : g.visitNext.id = g.id := by
  unfold visitNext; split
  · rfl
  · split <;> rfl

@[simp]
theorem visitNext_next : g.visitNext.next = g.next := by
  unfold visitNext; split
  · rfl
  · split <;> rfl

@[simp]
theorem visitNext_deps : g.visitNext.deps = g.deps := by
  unfold visitNext; split
  · rfl
  · split <;> rfl

@[simp]
theorem visitNext_dependents : g.visitNext.dependents = g.dependents := by
  unfold visitNext; split
  · rfl
  · split <;> rfl

theorem visitNext_alive (q : Nat) : g.visitNext.Alive q ↔ g.Alive q := by
  unfold Alive
  rw [visitNext_nodes, visitNext_id]

end

/-- Both branches of a visit in one: the visitors are added and the deps are covered. -/
theorem visitNext_cons {rest : List (Nat × List ρ)} {ids : List ρ}
    (hp : g.pending = (n, ids) :: rest) :
    (∀ q r, r ∈ g.visitNext.interest q ↔ r ∈ g.interest q ∨ (q = n ∧ r ∈ ids)) ∧
      (g.visitNext.pending = rest ∧ (∀ r ∈ ids, r ∈ g.interest n) ∨
        g.visitNext.pending = (g.deps n).map (fun d => (d, ids)) ++ rest) := by
  unfold visitNext
  rw [hp]
  dsimp only
  by_cases hall : ∀ r ∈ ids, r ∈ g.interest n
  · rw [if_pos hall]
    refine ⟨fun q r => ⟨Or.inl, ?_⟩, Or.inl ⟨rfl, hall⟩⟩
    rintro (hr | ⟨rfl, hr⟩)
    · exact hr
    · exact hall r hr
  · rw [if_neg hall]
    refine ⟨fun q r => ?_, Or.inr rfl⟩
    by_cases hq : q = n
    · subst hq
      by_cases hr : r ∈ g.interest q
      · simp [hr]
      · simp [hr]
    · simp [hq]

theorem Inv.visitNext (h : Inv g target) : Inv g.visitNext target := by
  rcases hp : g.pending with _ | ⟨⟨n, ids⟩, rest⟩
  · unfold Graph.visitNext
    rw [hp]
    exact h
  obtain ⟨hint, hpend⟩ := visitNext_cons hp
  have halive := visitNext_alive g
  obtain ⟨hn, hids⟩ := h.pendingSound n ids (by rw [hp]; exact List.mem_cons_self)
  have hrest : ∀ e ∈ rest, e ∈ g.visitNext.pending := by
    intro e he
    rcases hpend with ⟨hpend, -⟩ | hpend
    · rwa [hpend]
    · rw [hpend]
      exact List.mem_append_right _ he
  -- What was owed before the visit is owed after it, or has just been delivered.
  have howed : ∀ q r, g.Owed q r → r ∈ g.visitNext.interest q ∨ g.visitNext.Owed q r := by
    rintro q r ⟨ids', hq, hr⟩
    rw [hp] at hq
    rcases List.mem_cons.mp hq with he | hq
    · obtain ⟨rfl, rfl⟩ := Prod.mk.inj he
      exact Or.inl ((hint _ r).mpr (Or.inr ⟨rfl, hr⟩))
    · exact Or.inr ⟨ids', hrest _ hq, hr⟩
  have hcover : ∀ q r, r ∈ g.interest q ∨ g.Owed q r →
      r ∈ g.visitNext.interest q ∨ g.visitNext.Owed q r := by
    rintro q r (hr | ho)
    · exact Or.inl ((hint q r).mpr (Or.inl hr))
    · exact howed q r ho
  constructor
  · intro j q hj
    rw [visitNext_nodes] at hj
    rw [visitNext_id, visitNext_next]
    exact h.occ j q hj
  · intro q hq
    rw [visitNext_next] at hq
    refine List.eq_nil_iff_forall_not_mem.mpr fun r hr => ?_
    rcases (hint q r).mp hr with hr | ⟨rfl, -⟩
    · have := h.interest_lt hr
      omega
    · have := h.alive_lt hn
      omega
  · rw [visitNext_deps, visitNext_next]
    exact h.depsLt
  · intro q hq
    obtain ⟨r, hr⟩ := List.exists_mem_of_ne_nil _ hq
    rw [halive]
    rcases (hint q r).mp hr with hr | ⟨rfl, -⟩
    · exact h.interestedIn q (List.ne_nil_of_mem hr)
    · exact hn
  · intro q d hq hd
    rw [halive] at hq ⊢
    rw [visitNext_deps] at hd
    exact h.depsIn q d hq hd
  · intro q d
    rw [visitNext_dependents, halive, visitNext_deps]
    exact h.dependentsIff q d
  · intro q d r hq hd hr
    rw [halive] at hq
    rw [visitNext_deps] at hd
    rcases (hint q r).mp hr with hr | ⟨rfl, hr⟩
    · exact hcover d r (h.closed q d r hq hd hr)
    · rcases hpend with ⟨-, hall⟩ | hpend
      · exact hcover d r (h.closed q d r hq hd (hall r hr))
      · refine Or.inr ⟨ids, ?_, hr⟩
        rw [hpend]
        exact List.mem_append_left _ (List.mem_map.mpr ⟨d, hd, rfl⟩)
  · intro q r hr
    rw [visitNext_deps]
    rcases (hint q r).mp hr with hr | ⟨rfl, hr⟩
    · exact h.sound q r hr
    · exact hids r hr
  · intro q ids' hq
    rw [halive, visitNext_deps]
    have hold : (q, ids') ∈ rest → g.Alive q ∧
        ∀ r ∈ ids', ∃ t, target r = some t ∧ Reach g.deps t q :=
      fun hq => h.pendingSound q ids' (by rw [hp]; exact List.mem_cons_of_mem _ hq)
    rcases hpend with ⟨hpend, -⟩ | hpend
    · rw [hpend] at hq
      exact hold hq
    · rw [hpend] at hq
      rcases List.mem_append.mp hq with hq | hq
      · obtain ⟨d, hd, he⟩ := List.mem_map.mp hq
        obtain ⟨rfl, rfl⟩ := Prod.mk.inj he
        refine ⟨h.depsIn n _ hn hd, fun r hr => ?_⟩
        obtain ⟨t, ht, hreach⟩ := hids r hr
        exact ⟨t, ht, hreach.tail hd⟩
      · exact hold hq
  · intro r t ht
    exact hcover t r (h.targetIn r t ht)

theorem Watched.visitNext (h : Watched g) : Watched g.visitNext := by
  rcases hp : g.pending with _ | ⟨⟨n, ids⟩, rest⟩
  · unfold Graph.visitNext
    rw [hp]
    exact h
  obtain ⟨hint, hpend⟩ := visitNext_cons hp
  intro q hq
  rw [visitNext_alive] at hq
  rcases h q hq with hne | ⟨r, ids', hq', hr⟩
  · obtain ⟨r, hr⟩ := List.exists_mem_of_ne_nil _ hne
    exact Or.inl (List.ne_nil_of_mem ((hint q r).mpr (Or.inl hr)))
  · rw [hp] at hq'
    rcases List.mem_cons.mp hq' with he | hq'
    · obtain ⟨rfl, rfl⟩ := Prod.mk.inj he
      exact Or.inl (List.ne_nil_of_mem ((hint _ r).mpr (Or.inr ⟨rfl, hr⟩)))
    · refine Or.inr ⟨r, ids', ?_, hr⟩
      rcases hpend with ⟨hpend, -⟩ | hpend
      · rwa [hpend]
      · rw [hpend]
        exact List.mem_append_right _ hq'

end

/-! ### Requiring a node -/

section

variable [DecidableEq ι] [DecidableEq ρ]

theorem Inv.require_id (h : Inv g target) (i : ι) (p : Nat) :
    (g.require i p).id (g.occupant i) = i := by
  simp only [Graph.require, visitNext_id]
  show ((g.getOrCreate i).link p (g.occupant i)).id (g.occupant i) = i
  rw [link_id, h.getOrCreate_id]

theorem Inv.requireTarget_id (h : Inv g target) (i : ι) (r : ρ) :
    (g.requireTarget i r).id (g.occupant i) = i := by
  simp only [Graph.requireTarget, visitNext_id]
  exact h.getOrCreate_id i

section

variable (h : Inv g target)
include h

theorem Inv.require_id_of_alive (i : ι) (p : Nat)
    (hq : g.Alive q) : (g.require i p).id q = g.id q := by
  simp only [Graph.require, visitNext_id]
  show ((g.getOrCreate i).link p (g.occupant i)).id q = g.id q
  rw [link_id, h.getOrCreate_id_of_alive i hq]

theorem Inv.require_alive (i : ι) (p q : Nat) :
    (g.require i p).Alive q ↔ q = g.occupant i ∨ g.Alive q := by
  simp only [Graph.require, visitNext_alive]
  show ((g.getOrCreate i).link p (g.occupant i)).Alive q ↔ _
  rw [link_alive, h.getOrCreate_alive]

theorem Inv.mem_require_deps (i : ι) (p q d : Nat) :
    d ∈ (g.require i p).deps q ↔ d ∈ g.deps q ∨ (q = p ∧ d = g.occupant i) := by
  simp only [Graph.require, visitNext_deps]
  show d ∈ ((g.getOrCreate i).link p (g.occupant i)).deps q ↔ _
  rw [mem_link_deps, (h.getOrCreate_same i).1]

theorem Inv.requireTarget_id_of_alive (i : ι) (r : ρ)
    (hq : g.Alive q) : (g.requireTarget i r).id q = g.id q := by
  simp only [Graph.requireTarget, visitNext_id]
  exact h.getOrCreate_id_of_alive i hq

theorem Inv.requireTarget_alive (i : ι) (r : ρ) (q : Nat) :
    (g.requireTarget i r).Alive q ↔ q = g.occupant i ∨ g.Alive q := by
  simp only [Graph.requireTarget, visitNext_alive]
  exact h.getOrCreate_alive i q

theorem Inv.requireTarget_deps (i : ι) (r : ρ) :
    (g.requireTarget i r).deps = g.deps := by
  simp only [Graph.requireTarget, visitNext_deps]
  exact (h.getOrCreate_same i).1

end

theorem Inv.require_extends (h : Inv g target) (i : ι) (p : Nat) :
    Extends g (g.require i p) := by
  refine ⟨?_, fun q d hd => (h.mem_require_deps i p q d).mpr (Or.inl hd), fun q hq => ?_⟩
  · simp only [Graph.require, visitNext_next]
    show g.next ≤ ((g.getOrCreate i).link p (g.occupant i)).next
    rw [link_next]
    exact getOrCreate_next_le i
  · exact (h.alive_or_new ((h.require_alive i p q).mp hq)).imp_left
      fun hold => ⟨hold, h.require_id_of_alive i p hold⟩

theorem Inv.requireTarget_extends (h : Inv g target) (i : ι) (r : ρ) :
    Extends g (g.requireTarget i r) := by
  refine ⟨?_, fun q d hd => by rwa [h.requireTarget_deps i r], fun q hq => ?_⟩
  · simp only [Graph.requireTarget, visitNext_next]
    exact getOrCreate_next_le i
  · exact (h.alive_or_new ((h.requireTarget_alive i r q).mp hq)).imp_left
      fun hold => ⟨hold, h.requireTarget_id_of_alive i r hold⟩

/-- **Requiring a dependency keeps the invariant.** -/
theorem Inv.require (h : Inv g target) (hp : g.Alive p) (i : ι) :
    Inv (g.require i p) target := by
  have h' := h.getOrCreate i
  have halive := h.getOrCreate_alive i
  exact (h'.link_owe ((halive p).mpr (Or.inr hp)) ((halive _).mpr (Or.inl rfl))).visitNext

/-- A node that has just been made has no deps to go on to. -/
theorem Inv.require_pending (h : Inv g target) (hp : g.Alive p) (hi : g.nodes i = none)
    (hpend : g.pending = []) : (g.require i p).pending = [] := by
  have hne : g.next ≠ p := by
    have := h.alive_lt hp
    omega
  have hdeps : ((g.alloc i).link p g.next).deps g.next = [] := by
    refine List.eq_nil_iff_forall_not_mem.mpr fun d hd => ?_
    rcases (mem_link_deps _ p g.next g.next d).mp hd with hd | ⟨heq, -⟩
    · simp [Graph.alloc] at hd
    · exact hne heq
  unfold Graph.require
  rw [occupant_of_none hi]
  unfold Graph.getOrCreate
  rw [hi]
  have hpend' : ((g.alloc i).link p g.next).pending = [] := by
    rw [link_pending]
    exact hpend
  unfold Graph.visitNext Graph.owe
  dsimp only
  split
  · exact hpend'
  · rw [hdeps, hpend']
    rfl

/-- **Registering a watcher keeps the invariant, for the targets with that watcher added.** -/
theorem Inv.requireTarget (h : Inv g target) (hr : target r = none) (i : ι) :
    Inv (g.requireTarget i r) (Function.update target r (some (g.occupant i))) := by
  have halive := (h.getOrCreate_alive i (g.occupant i)).mpr (Or.inl rfl)
  exact ((h.getOrCreate i).owe_target halive hr).visitNext

theorem Watched.require (hw : Watched g) (h : Inv g target) (hp : g.interest p ≠ []) (i : ι) :
    Watched (g.require i p) := by
  have hint := (h.getOrCreate_same i).2.2
  refine Watched.visitNext (hw.owe_occupant ?_ (fun q => ?_) ?_ ?_)
  · rwa [hint]
  · rw [link_alive, h.getOrCreate_alive]
  · rw [link_interest, hint]
  · rw [link_pending, getOrCreate_pending]

theorem Watched.requireTarget (hw : Watched g) (h : Inv g target) (i : ι) (r : ρ) :
    Watched (g.requireTarget i r) :=
  Watched.visitNext (hw.owe_occupant (by simp) (h.getOrCreate_alive i)
    (h.getOrCreate_same i).2.2 (getOrCreate_pending g i))

end

/-! ### Dropping a watcher -/

/-- What eviction leaves alone. -/
structure SameEdges (g g' : Graph ι ρ) : Prop where
  next : g'.next = g.next
  id : g'.id = g.id
  deps : g'.deps = g.deps
  interest : g'.interest = g.interest
  pending : g'.pending = g.pending

section

variable [DecidableEq ι]

theorem evict_same (g : Graph ι ρ) (n : Nat) : SameEdges g (g.evict n) := by
  unfold evict
  split
  · exact ⟨rfl, rfl, rfl, rfl, rfl⟩
  · exact ⟨rfl, rfl, rfl, rfl, rfl⟩

theorem evict_nodes_iff (hocc : ∀ i p, g.nodes i = some p → g.id p = i) (j : ι) (q : Nat) :
    (g.evict n).nodes j = some q ↔ g.nodes j = some q ∧ ¬ (q = n ∧ g.interest n = []) := by
  unfold evict
  split
  · rename_i hc
    obtain ⟨hempty, halive⟩ := hc
    by_cases hj : j = g.id n
    · subst hj
      simp only [Function.update_self, halive, Option.some.injEq, hempty, and_true]
      constructor
      · intro h
        cases h
      · rintro ⟨rfl, hne⟩
        exact absurd rfl hne
    · simp only [ne_eq, hj, not_false_eq_true, Function.update_of_ne]
      refine ⟨fun h => ⟨h, ?_⟩, fun h => h.1⟩
      rintro ⟨rfl, -⟩
      exact hj (hocc j q h).symm
  · rename_i hc
    refine ⟨fun h => ⟨h, ?_⟩, fun h => h.1⟩
    rintro ⟨rfl, hempty⟩
    exact hc ⟨hempty, by rw [hocc j q h]; exact h⟩

theorem evict_dependents_iff (q d : Nat) :
    q ∈ (g.evict n).dependents d ↔
      q ∈ g.dependents d ∧ ¬ (q = n ∧ g.interest n = [] ∧ g.Alive n ∧ d ∈ g.deps n) := by
  unfold evict
  split
  · rename_i hc
    obtain ⟨hempty, halive⟩ := hc
    by_cases hd : d ∈ g.deps n
    · simp [hd, hempty, show g.Alive n from halive]
    · simp [hd]
  · rename_i hc
    refine ⟨fun h => ⟨h, ?_⟩, fun h => h.1⟩
    rintro ⟨-, hempty, halive, -⟩
    exact hc ⟨hempty, halive⟩

theorem foldl_evict (l : List Nat) :
    ∀ g : Graph ι ρ, (∀ i p, g.nodes i = some p → g.id p = i) →
      SameEdges g (l.foldl evict g) ∧
      (∀ j q, (l.foldl evict g).nodes j = some q ↔
        g.nodes j = some q ∧ ¬ (q ∈ l ∧ g.interest q = [])) ∧
      (∀ q d, q ∈ (l.foldl evict g).dependents d ↔
        q ∈ g.dependents d ∧ ¬ (q ∈ l ∧ g.interest q = [] ∧ g.Alive q ∧ d ∈ g.deps q)) := by
  induction l with
  | nil => intro g _; exact ⟨⟨rfl, rfl, rfl, rfl, rfl⟩, by simp, by simp⟩
  | cons n l ih =>
    intro g hocc
    have hs := evict_same g n
    have hn := evict_nodes_iff (n := n) hocc
    have hd := evict_dependents_iff (g := g) (n := n)
    have hocc' : ∀ i p, (g.evict n).nodes i = some p → (g.evict n).id p = i := by
      intro i p h
      rw [hs.id]
      exact hocc i p ((hn i p).mp h).1
    obtain ⟨hs', hn', hd'⟩ := ih (g.evict n) hocc'
    have halive : ∀ q, q ≠ n → ((g.evict n).Alive q ↔ g.Alive q) := by
      intro q hq
      unfold Alive
      rw [hs.id, hn]
      exact ⟨fun h => h.1, fun h => ⟨h, fun hc => hq hc.1⟩⟩
    refine ⟨⟨hs'.next.trans hs.next, hs'.id.trans hs.id, hs'.deps.trans hs.deps,
      hs'.interest.trans hs.interest, hs'.pending.trans hs.pending⟩, ?_, ?_⟩
    · intro j q
      show (l.foldl evict (g.evict n)).nodes j = some q ↔ _
      rw [hn' j q, hn j q, hs.interest, List.mem_cons]
      constructor
      · rintro ⟨⟨h, h1⟩, h2⟩
        refine ⟨h, ?_⟩
        rintro ⟨rfl | hl, hempty⟩
        · exact h1 ⟨rfl, hempty⟩
        · exact h2 ⟨hl, hempty⟩
      · rintro ⟨h, h1⟩
        refine ⟨⟨h, ?_⟩, fun hc => h1 ⟨Or.inr hc.1, hc.2⟩⟩
        rintro ⟨rfl, hempty⟩
        exact h1 ⟨Or.inl rfl, hempty⟩
    · intro q d
      show q ∈ (l.foldl evict (g.evict n)).dependents d ↔ _
      rw [hd' q d, hd q d, hs.interest, hs.deps, List.mem_cons]
      by_cases hq : q = n
      · subst hq
        constructor
        · rintro ⟨⟨h, h1⟩, -⟩
          exact ⟨h, fun hc => h1 ⟨rfl, hc.2⟩⟩
        · rintro ⟨h, h1⟩
          refine ⟨⟨h, fun hc => h1 ⟨Or.inl rfl, hc.2⟩⟩, ?_⟩
          rintro ⟨hl, hempty, ha, hdd⟩
          unfold Alive at ha
          rw [hs.id, hn] at ha
          exact h1 ⟨Or.inr hl, hempty, ha.1, hdd⟩
      · rw [halive q hq]
        simp [hq]

end

/-- Every node that had the watcher is in the subtree of its target. -/
theorem Inv.mem_subtree (h : Inv g target) (hpend : g.pending = [])
    (ht : target r = some t ∨ target r = none) (hr : r ∈ g.interest p) : p ∈ g.subtree t := by
  obtain ⟨t', ht', hreach⟩ := h.sound p r hr
  rcases ht with ht | ht
  · obtain rfl : t = t' := Option.mem_unique ht ht'
    have hint : r ∈ g.interest t := by
      refine (h.targetIn r t ht).resolve_right ?_
      rintro ⟨ids, hmem, -⟩
      rw [hpend] at hmem
      cases hmem
    have hclosed : ∀ n ∈ List.range g.next, ∀ d ∈ g.deps n, d ∈ List.range g.next :=
      fun n _ d hd => List.mem_range.mpr (h.depsLt n d hd).2
    exact (Search.mem_reachable_iff hclosed (by simp)
      (List.mem_range.mpr (h.interest_lt hint)) p).mpr hreach
  · rw [ht] at ht'
    cases ht'

/-- What dropping a watcher does, read off the two loops. -/
structure Dropped (g g' : Graph ι ρ) (r : ρ) : Prop where
  next : g'.next = g.next
  id : g'.id = g.id
  deps : g'.deps = g.deps
  pending : g'.pending = g.pending
  interestIff : ∀ p x, x ∈ g'.interest p ↔ x ∈ g.interest p ∧ x ≠ r
  nodesIff : ∀ i p, g'.nodes i = some p ↔ g.nodes i = some p ∧ g'.interest p ≠ []
  dependentsIff : ∀ p d, p ∈ g'.dependents d ↔ p ∈ g.dependents d ∧ g'.interest p ≠ []

theorem Dropped.alive_iff (hd : Dropped g g' r) (p : Nat) :
    g'.Alive p ↔ g.Alive p ∧ g'.interest p ≠ [] := by
  unfold Alive
  rw [hd.id, hd.nodesIff]

theorem Dropped.extends (hd : Dropped g g' r) : Extends g g' := by
  refine ⟨Nat.le_of_eq hd.next.symm, fun q d h => by rwa [hd.deps], fun q hq => ?_⟩
  exact Or.inl ⟨((hd.alive_iff q).mp hq).1, by rw [hd.id]⟩

/-- A watcher that is left anywhere watches the deps too, so no dep of a kept node goes. -/
theorem Dropped.inv [DecidableEq ρ] (hd : Dropped g g' r) (h : Inv g target)
    (hpend : g.pending = []) : Inv g' (Function.update target r none) := by
  have hnone : ∀ q x, ¬ g.Owed q x := by
    rintro q x ⟨ids, hmem, -⟩
    rw [hpend] at hmem
    cases hmem
  have htarget : ∀ x t, x ≠ r → target x = some t →
      Function.update target r none x = some t := by
    intro x t hx ht
    rwa [Function.update_of_ne hx]
  have hclosed : ∀ p d x, g.Alive p → d ∈ g.deps p → x ∈ g'.interest p → x ∈ g'.interest d := by
    intro p d x hp hdep hx
    obtain ⟨hx, hxr⟩ := (hd.interestIff p x).mp hx
    have := (h.closed p d x hp hdep hx).resolve_right (hnone d x)
    exact (hd.interestIff d x).mpr ⟨this, hxr⟩
  have hin : ∀ p, g'.interest p ≠ [] → g.interest p ≠ [] := by
    intro p hp
    obtain ⟨x, hx⟩ := List.exists_mem_of_ne_nil _ hp
    exact List.ne_nil_of_mem ((hd.interestIff p x).mp hx).1
  constructor
  · intro i p hi
    rw [hd.id, hd.next]
    exact h.occ i p ((hd.nodesIff i p).mp hi).1
  · intro p hp
    rw [hd.next] at hp
    refine List.eq_nil_iff_forall_not_mem.mpr fun x hx => ?_
    have := h.interest_lt ((hd.interestIff p x).mp hx).1
    omega
  · rw [hd.deps, hd.next]
    exact h.depsLt
  · intro p hp
    exact (hd.alive_iff p).mpr ⟨h.interestedIn p (hin p hp), hp⟩
  · intro p d hp hdep
    rw [hd.deps] at hdep
    obtain ⟨hp, hne⟩ := (hd.alive_iff p).mp hp
    obtain ⟨x, hx⟩ := List.exists_mem_of_ne_nil _ hne
    exact (hd.alive_iff d).mpr
      ⟨h.depsIn p d hp hdep, List.ne_nil_of_mem (hclosed p d x hp hdep hx)⟩
  · intro p d
    rw [hd.dependentsIff, h.dependentsIff, hd.alive_iff, hd.deps]
    constructor
    · rintro ⟨⟨hp, hdep⟩, hne⟩
      exact ⟨⟨hp, hne⟩, hdep⟩
    · rintro ⟨⟨hp, hne⟩, hdep⟩
      exact ⟨⟨hp, hdep⟩, hne⟩
  · intro p d x hp hdep hx
    rw [hd.deps] at hdep
    exact Or.inl (hclosed p d x ((hd.alive_iff p).mp hp).1 hdep hx)
  · intro p x hx
    obtain ⟨hx, hxr⟩ := (hd.interestIff p x).mp hx
    obtain ⟨t, ht, hreach⟩ := h.sound p x hx
    rw [hd.deps]
    exact ⟨t, htarget x t hxr ht, hreach⟩
  · intro p ids hmem
    rw [hd.pending, hpend] at hmem
    cases hmem
  · intro x t ht
    have hxr : x ≠ r := by
      rintro rfl
      rw [Function.update_self] at ht
      cases ht
    rw [Function.update_of_ne hxr] at ht
    exact Or.inl ((hd.interestIff t x).mpr ⟨(h.targetIn x t ht).resolve_right (hnone t x), hxr⟩)

section

variable [DecidableEq ι] [DecidableEq ρ]

theorem Inv.drop_dropped (h : Inv g target) (hw : Watched g) (hpend : g.pending = [])
    (ht : target r = some t ∨ target r = none) : Dropped g (g.drop r t) r := by
  have hwatched : ∀ p, g.Alive p → g.interest p ≠ [] := by
    intro p hp
    refine (hw p hp).resolve_right ?_
    rintro ⟨x, ids, hmem, -⟩
    rw [hpend] at hmem
    cases hmem
  obtain ⟨hs, hn, hd⟩ := foldl_evict (g.subtree t)
    { g with interest := fun p =>
        if p ∈ g.subtree t then (g.interest p).filter (fun x => x ≠ r) else g.interest p }
    (fun i p hi => (h.occ i p hi).1)
  have hint : ∀ p x, x ∈ (g.drop r t).interest p ↔ x ∈ g.interest p ∧ x ≠ r := by
    intro p x
    unfold Graph.drop
    rw [hs.interest]
    by_cases hp : p ∈ g.subtree t
    · simp [hp]
    · simp only [hp, if_false]
      refine ⟨fun hx => ⟨hx, ?_⟩, fun hx => hx.1⟩
      rintro rfl
      exact hp (h.mem_subtree hpend ht hx)
  -- Outside the subtree nothing was removed, so a table node there is still watched.
  have hkeep : ∀ p, g.Alive p → ((g.drop r t).interest p ≠ [] ↔
      ¬ (p ∈ g.subtree t ∧ (g.drop r t).interest p = [])) := by
    intro p hp
    refine ⟨fun hne hc => hne hc.2, fun hc hempty => ?_⟩
    by_cases hps : p ∈ g.subtree t
    · exact hc ⟨hps, hempty⟩
    · obtain ⟨x, hx⟩ := List.exists_mem_of_ne_nil _ (hwatched p hp)
      have hxr : x ≠ r := by
        rintro rfl
        exact hps (h.mem_subtree hpend ht hx)
      have := (hint p x).mpr ⟨hx, hxr⟩
      rw [hempty] at this
      cases this
  have hsame : (g.drop r t).interest = fun p =>
      if p ∈ g.subtree t then (g.interest p).filter (fun x => x ≠ r) else g.interest p := by
    exact hs.interest
  have hn' : ∀ i p, (g.drop r t).nodes i = some p ↔
      g.nodes i = some p ∧ ¬ (p ∈ g.subtree t ∧ (g.drop r t).interest p = []) := by
    intro i p
    rw [hsame]
    exact hn i p
  have hd' : ∀ p d, p ∈ (g.drop r t).dependents d ↔ p ∈ g.dependents d ∧
      ¬ (p ∈ g.subtree t ∧ (g.drop r t).interest p = [] ∧ g.Alive p ∧ d ∈ g.deps p) := by
    intro p d
    rw [hsame]
    exact hd p d
  refine ⟨hs.next, hs.id, hs.deps, hs.pending, hint, ?_, ?_⟩
  · intro i p
    rw [hn']
    refine and_congr_right fun hi => ?_
    have hp : g.Alive p := by
      unfold Alive
      rw [(h.occ i p hi).1, hi]
    exact (hkeep p hp).symm
  · intro p d
    rw [hd']
    refine and_congr_right fun hmem => ?_
    obtain ⟨hp, hdeps⟩ := (h.dependentsIff p d).mp hmem
    rw [hkeep p hp]
    simp [hp, hdeps]

/-- **Dropping a watcher keeps the invariant, for the targets without that watcher.** -/
theorem Inv.drop (h : Inv g target) (hw : Watched g) (hpend : g.pending = [])
    (ht : target r = some t ∨ target r = none) :
    Inv (g.drop r t) (Function.update target r none) :=
  (h.drop_dropped hw hpend ht).inv h hpend

theorem Watched.drop (hw : Watched g) (h : Inv g target) (hpend : g.pending = [])
    (ht : target r = some t ∨ target r = none) : Watched (g.drop r t) := by
  intro p hp
  exact Or.inl (((h.drop_dropped hw hpend ht).alive_iff p).mp hp).2

end

/-! ### Nothing pending -/

/-- A table node is exactly a watched node. -/
theorem Inv.alive_iff_of_settled (h : Inv g target) (hw : Watched g) (hpend : g.pending = [])
    (p : Nat) : g.Alive p ↔ g.interest p ≠ [] := by
  refine ⟨fun hp => (hw p hp).resolve_right ?_, h.interestedIn p⟩
  rintro ⟨x, ids, hmem, -⟩
  rw [hpend] at hmem
  cases hmem

/-- **A watcher is interested in exactly the nodes its target reaches.** -/
theorem Inv.interest_iff_of_settled (h : Inv g target) (hpend : g.pending = []) (p : Nat)
    (r : ρ) : r ∈ g.interest p ↔ ∃ t, target r = some t ∧ Reach g.deps t p := by
  have hnone : ∀ q x, ¬ g.Owed q x := by
    rintro q x ⟨ids, hmem, -⟩
    rw [hpend] at hmem
    cases hmem
  refine ⟨h.sound p r, ?_⟩
  rintro ⟨t, ht, hreach⟩
  -- Down the path from the target, each node hands its watcher to the next.
  induction hreach with
  | refl => exact (h.targetIn r t ht).resolve_right (hnone t r)
  | @tail q d _ hedge ih =>
    have hq := h.interestedIn q (List.ne_nil_of_mem ih)
    exact (h.closed q d r hq hedge ih).resolve_right (hnone d r)

/-! ### Cycles -/

/-- No table node depends on itself through the edges. -/
def Acyclic (g : Graph ι ρ) : Prop :=
  ∀ p, g.Alive p → ¬ Relation.TransGen (Edge g.deps) p p

/-- A path with one more edge uses the old edges, or runs through the new one. -/
theorem transGen_add {deps deps' : Nat → List Nat} {p n a b : Nat}
    (hedge : ∀ q d, d ∈ deps' q → d ∈ deps q ∨ (q = p ∧ d = n))
    (h : Relation.TransGen (Edge deps') a b) :
    Relation.TransGen (Edge deps) a b ∨ (Reach deps a p ∧ Reach deps n b) := by
  induction h with
  | single hab =>
    rcases hedge _ _ hab with hab | ⟨rfl, rfl⟩
    · exact Or.inl (Relation.TransGen.single hab)
    · exact Or.inr ⟨Relation.ReflTransGen.refl, Relation.ReflTransGen.refl⟩
  | tail _ hbc ih =>
    rcases hedge _ _ hbc with hbc | ⟨rfl, rfl⟩
    · rcases ih with ih | ⟨h1, h2⟩
      · exact Or.inl (ih.tail hbc)
      · exact Or.inr ⟨h1, h2.tail hbc⟩
    · rcases ih with ih | ⟨h1, -⟩
      · exact Or.inr ⟨ih.to_reflTransGen, Relation.ReflTransGen.refl⟩
      · exact Or.inr ⟨h1, Relation.ReflTransGen.refl⟩

/-- Without a new edge there is no new cycle: a node that has just come has none. -/
theorem Inv.acyclic_extends (h : Inv g target) (ha : Acyclic g)
    (hext : g.Extends g') (hdeps : g'.deps = g.deps) : Acyclic g' := by
  intro p hp hcycle
  rw [hdeps] at hcycle
  rcases hext.alive p hp with ⟨hold, -⟩ | hnew
  · exact ha p hold hcycle
  · obtain ⟨d, hd, -⟩ := Relation.TransGen.head'_iff.mp hcycle
    have := (h.depsLt p d hd).1
    omega

/-- An edge closes a cycle exactly when its lower end already reaches its upper end. -/
theorem Inv.acyclic_require [DecidableEq ι] [DecidableEq ρ] (h : Inv g target)
    (ha : Acyclic g) {i : ι} {p : Nat} (hr : ¬ Reach g.deps (g.occupant i) p) : Acyclic (g.require i p) := by
  intro q hq hcycle
  rcases transGen_add (fun q d hd => (h.mem_require_deps i p q d).mp hd) hcycle with hc | ⟨h1, h2⟩
  · rcases (h.require_alive i p q).mp hq with rfl | hold
    · -- a node that is new has no edges
      obtain ⟨d, hd, -⟩ := Relation.TransGen.head'_iff.mp hc
      have hlt := (h.depsLt _ d hd).1
      rcases hn : g.nodes i with _ | m
      · rw [occupant_of_none hn] at hlt
        omega
      · rw [occupant_of_some hn] at hc
        refine ha m ?_ hc
        rw [Alive, (h.occ i m hn).1]
        exact hn
    · exact ha q hold hc
  · exact hr (h2.trans h1)

/-- Among table nodes the dependents are the dependency edges read backwards. -/
theorem Inv.reach_dependents_iff (h : Inv g target) (hp : g.Alive p) (a : Nat) :
    Reach g.dependents p a ↔ g.Alive a ∧ Reach g.deps a p := by
  constructor
  · intro hr
    induction hr with
    | refl => exact ⟨hp, Relation.ReflTransGen.refl⟩
    | tail _ hbc ih =>
      obtain ⟨hc, hdep⟩ := (h.dependentsIff _ _).mp hbc
      exact ⟨hc, Relation.ReflTransGen.head hdep ih.2⟩
  · rintro ⟨ha, hr⟩
    induction hr using Relation.ReflTransGen.head_induction_on with
    | refl => exact Relation.ReflTransGen.refl
    | head hab _ ih =>
      have hb := h.depsIn _ _ ha hab
      exact (ih hb).tail ((h.dependentsIff _ _).mpr ⟨ha, hab⟩)

end Graph

end InterestGraph
