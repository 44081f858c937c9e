import LatticeWalk.Backend
import LatticeWalk.Displacement.Decoder
import LatticeWalk.Displacement.Statistics
import LatticeWalk.Walk

/-! # Results of walks

A backend executes the program of a walk, and what it measured is decoded, checked and kept.

* `Walk.execute`: the outcomes as they were measured.
* `Walk.getResults`: the displacement, which the walk keeps. If anything fails the walk is left as
  it was.
* `Walk.runExperiment`: the same for a program begun anew and taken through a number of steps.
* `Walk.statistics`, `Walk.covariance`: moments of what was measured last. -/

namespace LatticeWalk

namespace Walk

variable {R σ : Type} [Scalar R]

/-- The decoder of the walk's layout. -/
def decoder (w : Walk R) : Decoder := .ofLayout w.plan.layout

/-- Executes the program. -/
def execute (backend : Backend R σ) (shots : Nat) : Attempt (Walk R × σ) Histogram := do
  let s ← get
  (backend.execute s.1.program shots).second

/-- How far the density of a result may be from one. -/
def resultTolerance : R := 1e-9

/-- The displacement that a histogram stands for, if it can be one of the walk. -/
def read (w : Walk R) (h : Histogram) (shots : Nat) : Except Failure (Displacement R) := do
  let t ← w.decoder.decode h shots
  t.check w.plan.widths (some resultTolerance)
  return t

/-- Executes the program, and keeps the displacement. -/
def getResults (backend : Backend R σ) (shots : Nat) :
    Attempt (Walk R × σ) (Displacement R) := do
  let h ← execute backend shots
  let s ← get
  let t ← Attempt.check (s.1.read h shots)
  modify fun s => ({ s.1 with results := some t }, s.2)
  return t

/-- Begins the program anew, adds steps and measures. -/
def runExperiment (backend : Backend R σ) (steps shots : Nat) :
    Attempt (Walk R × σ) (Displacement R) := do
  resetCircuit.first
  (addSteps steps).first
  getResults backend shots

/-- What was measured last; measured now if nothing was, or if `force` asks for it. -/
def current (backend : Backend R σ) (shots : Nat) (force : Bool) :
    Attempt (Walk R × σ) (Displacement R) := do
  let s ← get
  match s.1.results, force with
  | some t, false => return t
  | _, _ => getResults backend shots

/-- The moments of what was measured last. -/
def statistics (backend : Backend R σ) (shots : Nat) (force : Bool) :
    Attempt (Walk R × σ) (Statistics R) := do
  let t ← current backend shots force
  return t.statistics

/-- The covariance of what was measured last. -/
def covariance (backend : Backend R σ) (shots : Nat) (force : Bool) :
    Attempt (Walk R × σ) (List (List (Option R))) := do
  let moments ← statistics backend shots force
  return moments.covariance

end Walk

end LatticeWalk
