import LatticeWalk.Artifact
import LatticeWalk.Job.Queue
import LatticeWalk.Walk.Results

/-! # Experiments

An experiment measures a walk after one step, and again after every so many more, and leaves the
results in a folder.

* `Experiment.make`: an experiment, refused if it would never get on.
* `Experiment.run`: the iterations in order, with what was recorded of each.
* `submitWalk`: a walk handed to a job queue, its job noted in a log. -/

namespace LatticeWalk

/-- How far and how finely a walk is to be followed. -/
structure Experiment where
  maxSteps : Nat
  stepSize : Nat
  shots : Nat
  deriving Repr, DecidableEq

/-- What was recorded of one iteration. -/
structure IterationRecord (R : Type) where
  steps : Nat
  /-- The name of the table. -/
  file : String
  statistics : Statistics R

/-- A walk, the device that measures it and the folder for the results. -/
structure Bench (R σ : Type) where
  walk : Walk R
  device : σ
  folder : Folder

namespace Bench

variable {R σ α : Type}

/-- Does something with the walk. -/
def onWalk (x : Attempt (Walk R) α) : Attempt (Bench R σ) α :=
  x.within Bench.walk fun w b => { b with walk := w }

/-- Does something with the walk and the device. -/
def onDevice (x : Attempt (Walk R × σ) α) : Attempt (Bench R σ) α :=
  x.within (fun b => (b.walk, b.device)) fun s b => { b with walk := s.1, device := s.2 }

/-- Does something with the folder. -/
def onFolder (x : Attempt Folder α) : Attempt (Bench R σ) α :=
  x.within Bench.folder fun f b => { b with folder := f }

end Bench

namespace Experiment

variable {R σ : Type} [Scalar R]

/-- An experiment that measures up to `maxSteps` steps, `stepSize` apart. -/
def make (maxSteps stepSize shots : Nat) : Except Failure Experiment :=
  if stepSize = 0 then refuse .noStepSize else .ok ⟨maxSteps, stepSize, shots⟩

/-- The log of covariance matrices. -/
def covarianceLog : String := "debug.log"

/-- The table of an iteration of a walk. -/
def fileName (w : Walk R) (steps : Nat) : String :=
  iterationFileName w.plan.widths.length (w.plan.widths.headD 0) steps w.plan.coin.name

/-- Measures the walk as it stands, and leaves table and covariance in the folder. -/
def record (e : Experiment) (backend : Backend R σ) (steps : Nat) :
    Attempt (Bench R σ) (IterationRecord R) := do
  let statistics ← Bench.onDevice (Walk.statistics backend e.shots true)
  let b ← get
  let file := fileName b.walk steps
  match b.walk.results with
  | some t => Bench.onFolder (writeDisplacement file t)
  | none => pure ()
  Bench.onFolder (logCovariance covarianceLog steps statistics.covariance)
  return ⟨steps, file, statistics⟩

/-- The iterations from one on, `count` of them. -/
def iterate (e : Experiment) (backend : Backend R σ) :
    (count steps : Nat) → Attempt (Bench R σ) (List (IterationRecord R))
  | 0, _ => pure []
  | count + 1, steps => do
    let entry ← e.record backend steps
    Bench.onWalk (Walk.addSteps e.stepSize)
    let rest ← iterate e backend count (steps + e.stepSize)
    return entry :: rest

/-- The number of iterations: those after `1, 1 + stepSize, …` steps, up to `maxSteps`. -/
def iterations (e : Experiment) : Nat := (e.maxSteps + e.stepSize - 1) / e.stepSize

/-- The experiment on a walk that is begun anew. -/
def run (e : Experiment) (backend : Backend R σ) :
    Attempt (Bench R σ) (List (IterationRecord R)) := do
  Bench.onWalk Walk.resetCircuit
  Bench.onWalk Walk.step
  e.iterate backend e.iterations 1

end Experiment

/-- Submits the program of a walk and notes the job in a log. A job stays submitted even if the log
cannot be written. -/
def submitWalk {R σ : Type} (w : Walk R) (shots : Nat) (log : String) :
    Attempt (JobQueue R σ × Folder) JobId := do
  let s ← get
  let (id, queue) := s.1.submit w.program shots
  modify fun s => (queue, s.2)
  (logJob log id).second
  return id

end LatticeWalk
