/-
Graphs of content-addressed objects.

An object names its children, and a store holds some of the objects.  `Whole` says
that everything from a key downwards is fine, for whatever "fine" is at hand: held,
held and readable, held with the right content.  A set that is closed under children
and fine throughout makes every key of it whole, which is how a transfer that stops
proves that it is done.

Below a root without cycles every key has a finite `weight`: one, and the weights of
its children with their repetitions.  Replacing keys of a list by their children makes
the list lighter by one for each key replaced, also where the same key turns up again
later on.  That is the measure of a walk that revisits what it has seen.
-/
import JobsIroh.Lib.Search
import Mathlib.Data.List.Nodup
import Mathlib.Algebra.BigOperators.Group.List.Basic
import Mathlib.Algebra.GroupWithZero.Nat

namespace ObjectGraph

open Search

variable {κ : Type} {kids kids' : κ → List κ} {ok ok' : κ → Prop}

/-- Everything from `k` downwards satisfies `ok`. -/
def Whole (kids : κ → List κ) (ok : κ → Prop) (k : κ) : Prop :=
  ∀ m, Reach kids k m → ok m

theorem whole_of_closed {Z : κ → Prop} (hok : ∀ k, Z k → ok k)
    (hkids : ∀ k, Z k → ∀ c ∈ kids k, Z c) {k : κ} (hk : Z k) : Whole kids ok k := by
  intro m hm
  have hz : Z m := by
    induction hm with
    | refl => exact hk
    | tail _ hstep ih => exact hkids _ ih _ hstep
  exact hok m hz

theorem Whole.self {k : κ} (h : Whole kids ok k) : ok k := h k Relation.ReflTransGen.refl

theorem Whole.below {k m : κ} (h : Whole kids ok k) (hm : Reach kids k m) : Whole kids ok m :=
  fun n hn => h n (hm.trans hn)

/-- What is whole stays whole while the keys that are fine keep their children. -/
theorem Whole.mono {k : κ} (h : Whole kids ok k)
    (hext : ∀ m, ok m → ok' m ∧ kids' m = kids m) : Whole kids' ok' k := by
  refine whole_of_closed (fun m hm => (hext m hm.self).1) ?_ h
  intro m hm c hc
  rw [(hext m hm.self).2] at hc
  exact hm.below (Relation.ReflTransGen.single hc)

/-! ### Below a root without cycles -/

/-- `c` is a child of `k`, which is below `root`. -/
def ChildBelow (kids : κ → List κ) (root c k : κ) : Prop := Reach kids root k ∧ c ∈ kids k

/-- No object below `root` is below itself. -/
def AcyclicBelow (kids : κ → List κ) (root : κ) : Prop :=
  ∀ k, Reach kids root k → ¬ Relation.TransGen (Edge kids) k k

section Acyclic

variable {univ : List κ} {root : κ}

section

variable (hfin : ∀ k, kids k ≠ [] → k ∈ univ) (hac : AcyclicBelow kids root)
include hfin hac

/--
A walk down a path cannot go on for ever: the objects passed are different ones with
children, and there are only so many of those.  The induction is on how many are left.
-/
theorem acc_of_acyclic :
    ∀ (n : Nat) (path : List κ) (k : κ), univ.length < path.length + n →
      path.Nodup → path ⊆ univ → (∀ p ∈ path, Relation.TransGen (Edge kids) p k) →
      Acc (ChildBelow kids root) k := by
  intro n
  induction n with
  | zero =>
    intro path k hlen hnd hsub _
    have hle : path.length ≤ univ.length := (List.subperm_of_subset hnd hsub).length_le
    omega
  | succ n ih =>
    intro path k hlen hnd hsub hpath
    refine Acc.intro k ?_
    rintro c ⟨hreach, hc⟩
    have hnot : k ∉ path := fun hmem => hac k hreach (hpath k hmem)
    have huniv : k ∈ univ := hfin k (List.ne_nil_of_mem hc)
    refine ih (k :: path) c ?_ (List.nodup_cons.mpr ⟨hnot, hnd⟩) ?_ ?_
    · simp only [List.length_cons]
      omega
    · intro p hp
      rcases List.mem_cons.mp hp with rfl | hp
      · exact huniv
      · exact hsub hp
    · intro p hp
      rcases List.mem_cons.mp hp with rfl | hp
      · exact Relation.TransGen.single hc
      · exact (hpath p hp).tail hc

theorem wellFounded_of_acyclic : WellFounded (ChildBelow kids root) :=
  ⟨fun k => acc_of_acyclic hfin hac (univ.length + 1) [] k (by simp) List.nodup_nil
    (by simp) (by simp)⟩

end

/-- How many paths lead down from `k`. -/
noncomputable def weight (hwf : WellFounded (ChildBelow kids root)) : κ → Nat :=
  hwf.fix fun k below => by
    classical
    exact if h : Reach kids root k then 1 + ((kids k).attach.map fun c => below c.1 ⟨h, c.2⟩).sum
      else 1

variable (hwf : WellFounded (ChildBelow kids root))

theorem weight_eq {k : κ} (hk : Reach kids root k) :
    weight hwf k = 1 + ((kids k).map (weight hwf)).sum := by
  rw [weight, WellFounded.fix_eq, dif_pos hk]
  have hmap : (kids k).attach.map (fun c => weight hwf c.1) = (kids k).map (weight hwf) := by
    simp
  exact congrArg (fun l : List Nat => 1 + l.sum) hmap

/-- **Opening keys makes a list lighter, by one for each key opened.** -/
theorem sum_weight_open {l : List κ} (hl : ∀ k ∈ l, Reach kids root k) :
    ((l.flatMap kids).map (weight hwf)).sum + l.length = (l.map (weight hwf)).sum := by
  induction l with
  | nil => simp
  | cons k l ih =>
    have hk := weight_eq hwf (hl k List.mem_cons_self)
    have hrest := ih fun m hm => hl m (List.mem_cons_of_mem _ hm)
    simp only [List.flatMap_cons, List.map_append, List.sum_append, List.map_cons,
      List.sum_cons, List.length_cons]
    omega

end Acyclic

end ObjectGraph
