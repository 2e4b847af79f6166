/-
Labelled transition systems given by a partial step function.

A run is a list of labels; it is cut short at a label the state does not admit.
`Steps P` is the set of states some run reaches all of whose steps satisfy `P`,
a condition on the state a step is taken in and on its label.  An invariant is
proved once for one step and holds in every such state.
-/
import Mathlib.Logic.Basic

namespace Run

variable {σ α : Type} (step : σ → α → Option σ)

/-- Take the labels one after the other. -/
def run : σ → List α → Option σ
  | s, [] => some s
  | s, a :: rest =>
    match step s a with
    | some s' => run s' rest
    | none => none

/-- The states reached from `s₀` by steps that satisfy `P`. -/
inductive Steps (P : σ → α → Prop) (s₀ : σ) : σ → Prop
  | refl : Steps P s₀ s₀
  | tail {s s' : σ} {a : α} (h : Steps P s₀ s) (hp : P s a) (hs : step s a = some s') :
    Steps P s₀ s'

/-- No condition on the steps. -/
def Always (_ : σ) (_ : α) : Prop := True

/-- Take the labels one after the other, as long as each passes a check. -/
def runIf (check : σ → α → Bool) : σ → List α → Option σ
  | s, [] => some s
  | s, a :: rest =>
    if check s a then
      match step s a with
      | some s' => runIf check s' rest
      | none => none
    else none

variable {step} {P Q : σ → α → Prop} {s₀ s s' : σ}

/-- **An invariant of one step is an invariant of every run.** -/
theorem Steps.inv {I : σ → Prop} (h : Steps step P s₀ s) (h₀ : I s₀)
    (hstep : ∀ s a s', I s → P s a → step s a = some s' → I s') : I s := by
  induction h with
  | refl => exact h₀
  | tail _ hp hs ih => exact hstep _ _ _ ih hp hs

theorem Steps.mono (h : Steps step P s₀ s) (hpq : ∀ s a, P s a → Q s a) : Steps step Q s₀ s := by
  induction h with
  | refl => exact Steps.refl
  | tail _ hp hs ih => exact Steps.tail ih (hpq _ _ hp) hs

theorem Steps.trans (h : Steps step P s₀ s) (h' : Steps step P s s') : Steps step P s₀ s' := by
  induction h' with
  | refl => exact h
  | tail _ hp hs ih => exact Steps.tail ih hp hs

/-- Without a condition every run counts. -/
theorem Steps.of_run : ∀ (l : List α) {s₀ : σ}, run step s₀ l = some s →
    Steps step Always s₀ s := by
  intro l
  induction l with
  | nil =>
    intro s₀ h
    rw [Option.some.inj h]
    exact Steps.refl
  | cons a rest ih =>
    intro s₀ h
    rw [run] at h
    split at h
    · rename_i s₁ hs
      exact (Steps.tail Steps.refl trivial hs).trans (ih h)
    · cases h

/-- A checked run, where the check implies the condition in the states that matter. -/
theorem Steps.of_runIf {check : σ → α → Bool} {I : σ → Prop}
    (hstep : ∀ s a s', I s → step s a = some s' → I s')
    (hcheck : ∀ s a, I s → check s a = true → P s a) :
    ∀ (l : List α) {s₀ : σ}, I s₀ → runIf step check s₀ l = some s → Steps step P s₀ s := by
  intro l
  induction l with
  | nil =>
    intro s₀ _ h
    rw [Option.some.inj h]
    exact Steps.refl
  | cons a rest ih =>
    intro s₀ hI h
    rw [runIf] at h
    split at h
    · rename_i hc
      split at h
      · rename_i s₁ hs
        have hone : Steps step P s₀ s₁ := Steps.tail Steps.refl (hcheck _ _ hI hc) hs
        exact hone.trans (ih (hstep _ _ _ hI hs) h)
      · cases h
    · cases h

theorem Steps.of_checked {check : σ → α → Bool} {l : List α}
    (h : runIf step check s₀ l = some s) : Steps step (fun s a => check s a = true) s₀ s :=
  of_runIf (I := fun _ => True) (fun _ _ _ _ _ => trivial) (fun _ _ _ h => h) l trivial h

/-- Putting an element with the same image in the place of the `i`th keeps the images. -/
theorem map_set_eq {β : Type*} {l : List α} {i : Nat} {a b : α} {f : α → β} (ha : l[i]? = some a)
    (hf : f b = f a) : (l.set i b).map f = l.map f := by
  obtain ⟨hlt, rfl⟩ := List.getElem?_eq_some_iff.mp ha
  rw [List.map_set, hf, ← List.getElem_map f (h := by simpa), List.set_getElem_self]

/-- What is not the `i`th of a list is still there when the `i`th has been taken out. -/
theorem mem_eraseIdx_of_ne {l : List α} {i : Nat} {a b : α} (hb : l[i]? = some b) (ha : a ∈ l)
    (hne : a ≠ b) : a ∈ l.eraseIdx i := by
  obtain ⟨j, hj⟩ := List.mem_iff_getElem?.mp ha
  refine List.mem_eraseIdx_iff_getElem?.mpr ⟨j, fun hji => hne ?_, hj⟩
  rw [hji, hb] at hj
  exact (Option.some.inj hj).symm

end Run
