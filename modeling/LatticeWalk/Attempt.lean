import LatticeWalk.Failure

/-! # Attempts

A change of a state that may fail. What had been changed before the failure stays changed, so an
attempt ends in a state whether it succeeds or not.

* `Attempt σ α`: such a change of a `σ`, with a result of type `α`.
* `Attempt.outcome`: the result and the state in which it ends.
* `Attempt.within`: an attempt on a part as an attempt on the whole. -/

namespace LatticeWalk

/-- A change of a state `σ` that gives an `α` or fails. -/
abbrev Attempt (σ α : Type) := ExceptT Failure (StateM σ) α

namespace Attempt

variable {σ τ α : Type}

/-- Result and final state of an attempt that starts in `s`. -/
def outcome (x : Attempt σ α) (s : σ) : Except Failure α × σ := (x.run.run s)

/-- The attempt with a given result and final state. -/
def of (f : σ → Except Failure α × σ) : Attempt σ α := ExceptT.mk (fun s => f s)

/-- A check or computation that looks at nothing and changes nothing. -/
def check (result : Except Failure α) : Attempt σ α := of fun s => (result, s)

/-- An attempt on the part that `get` shows and `set` replaces. -/
def within (get : τ → σ) (set : σ → τ → τ) (x : Attempt σ α) : Attempt τ α :=
  of fun t => let (result, s) := x.outcome (get t); (result, set s t)

/-- An attempt on the first component of a pair. -/
def first (x : Attempt σ α) : Attempt (σ × τ) α := within Prod.fst (fun s t => (s, t.2)) x

/-- An attempt on the second component of a pair. -/
def second (x : Attempt τ α) : Attempt (σ × τ) α := within Prod.snd (fun s t => (t.1, s)) x

@[simp] theorem outcome_of (f : σ → Except Failure α × σ) (s : σ) : (of f).outcome s = f s := rfl

@[simp] theorem outcome_pure (a : α) (s : σ) :
    (pure a : Attempt σ α).outcome s = (.ok a, s) := rfl

@[simp] theorem outcome_check (result : Except Failure α) (s : σ) :
    (check result).outcome s = (result, s) := rfl

theorem outcome_bind (x : Attempt σ α) {β : Type} (f : α → Attempt σ β) (s : σ) :
    (x >>= f).outcome s =
      match x.outcome s with
      | (.ok a, s') => (f a).outcome s'
      | (.error e, s') => (.error e, s') := by
  simp only [outcome, ExceptT.run_bind, StateT.run_bind]
  cases h : StateT.run x.run s with
  | mk r s' => cases r <;> rfl

end Attempt

end LatticeWalk
