/-
A register with conditional writes.

A write may name the value it expects to find, `none` standing for an empty register.
A list of writes is legal from an initial value when each write that expects something
finds it, the value found being the one of the write before it.
-/
import Mathlib.Data.List.Basic

namespace Register

/-- A write, with the value it expects to find if it expects one. -/
structure Write (α : Type) where
  expected : Option (Option α)
  value : α
  deriving DecidableEq, Repr

variable {α : Type} {init : Option α} {ws : List (Write α)} {w : Write α}

/-- What the register holds after the writes. -/
def valueAfter (init : Option α) (ws : List (Write α)) : Option α :=
  (ws.getLast?.map Write.value).or init

/-- The write may be made where the register holds this value. -/
def Write.Allowed (w : Write α) (found : Option α) : Prop := ∀ e, w.expected = some e → found = e

/-- Every write finds what it expects. -/
def Legal (init : Option α) (ws : List (Write α)) : Prop :=
  ∀ before w after, ws = before ++ w :: after → w.Allowed (valueAfter init before)

theorem legal_nil : Legal init [] := by
  intro before w after h
  simp at h

@[simp]
theorem valueAfter_concat : valueAfter init (ws ++ [w]) = some w.value := by
  simp [valueAfter]

/-- One more write keeps the list legal if it finds what it expects. -/
theorem Legal.concat (h : Legal init ws) (hw : w.Allowed (valueAfter init ws)) :
    Legal init (ws ++ [w]) := by
  intro before w' after heq
  rcases List.eq_nil_or_concat after with hnil | ⟨after', last, hafter⟩
  · subst hnil
    obtain ⟨hws, hlast⟩ := List.append_inj' heq rfl
    obtain rfl : w = w' := by simpa using hlast
    rw [← hws]
    exact hw
  · subst hafter
    refine h before w' after' ?_
    have heq' : ws ++ [w] = (before ++ w' :: after') ++ [last] := by simpa using heq
    exact (List.append_inj' heq' rfl).1

end Register
