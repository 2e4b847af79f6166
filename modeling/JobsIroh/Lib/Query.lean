/-
Computations that look things up.

A computation asks one question after another, each of which may depend on the answers so
far, and ends in a result or an error.  What it returns is fixed by an oracle that answers
every question.
-/
import Mathlib.Tactic.Common

/-- A computation that asks questions of type `Q`, the question `q` being answered in `A q`. -/
inductive Query {Q : Type} (A : Q → Type) (ε α : Type) where
  | done (r : Except ε α)
  | ask (q : Q) (k : A q → Query A ε α)

namespace Query

variable {Q : Type} {A : Q → Type} {ε α β : Type}

def bind : Query A ε α → (α → Query A ε β) → Query A ε β
  | done (.ok x), f => f x
  | done (.error e), _ => done (.error e)
  | ask q k, f => ask q fun a => (k a).bind f

instance : Monad (Query A ε) where
  pure x := done (.ok x)
  bind := Query.bind

def fail (e : ε) : Query A ε α := done (.error e)

def lookup (q : Q) : Query A ε (A q) := ask q fun a => done (.ok a)

/-- An answer to every question. -/
abbrev Oracle (A : Q → Type) := (q : Q) → A q

def run (o : Oracle A) : Query A ε α → Except ε α
  | done r => r
  | ask q k => run o (k (o q))

variable {o : Oracle A} {p : Query A ε α} {f : α → Query A ε β}

/-! ### Results -/

@[simp]
theorem run_pure (x : α) : run o (pure x : Query A ε α) = .ok x := rfl

@[simp]
theorem run_fail (e : ε) : run o (fail e : Query A ε α) = .error e := rfl

@[simp]
theorem run_lookup (q : Q) : run o (lookup q : Query A ε (A q)) = .ok (o q) := rfl

@[simp]
theorem run_lookup_bind {q : Q} {f : A q → Query A ε β} :
    run o (lookup q >>= f) = run o (f (o q)) := rfl

theorem run_bind : run o (p >>= f) = (run o p).bind fun x => run o (f x) := by
  show run o (p.bind f) = _
  induction p with
  | done r => cases r <;> rfl
  | ask q k ih => exact ih (o q)

theorem run_bind_of_ok {x : α} (h : run o p = .ok x) : run o (p >>= f) = run o (f x) := by
  rw [run_bind, h]
  rfl

theorem run_bind_eq_ok {y : β} :
    run o (p >>= f) = .ok y ↔ ∃ x, run o p = .ok x ∧ run o (f x) = .ok y := by
  rw [run_bind]
  cases run o p with
  | error | ok => simp [Except.bind]

end Query
