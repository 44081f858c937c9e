import LatticeWalk.Circuit
import LatticeWalk.Histogram

/-! # Backends

A backend executes circuits and measures all wires. It may keep a state of its own, and may fail.

* `Backend`: what a device can do, over the type of its states.
* `Backend.replay`: a device whose answers are prepared in advance. -/

namespace LatticeWalk

/-- A device that executes a circuit so many times and counts the outcomes. -/
structure Backend (R σ : Type) where
  execute : Circuit R → (shots : Nat) → Attempt σ Histogram

/-- The device that gives the prepared answers in order, whatever it is asked. -/
def Backend.replay (R : Type) : Backend R (List (Except Failure Histogram)) where
  execute _ _ := .of fun
    | [] => (mistrust (.reported "script exhausted"), [])
    | answer :: answers => (answer, answers)

end LatticeWalk
