import LatticeWalk.Attempt
import LatticeWalk.Displacement.Statistics
import LatticeWalk.Folder

/-! # Artifacts

The files of an experiment: a table of the displacement for each recorded iteration, a log of the
covariance matrices, and a log of the jobs that were submitted.

* `Displacement.csv`, `writeDisplacement`: the table of a displacement.
* `iterationFileName`: the name of an iteration's table.
* `covarianceEntry`, `logCovariance`: one entry of the log of covariance matrices.
* `logJob`, `readJobLog`: the log of jobs, written line by line and read back. -/

namespace LatticeWalk

/-- A line of values with commas between them. -/
def csvLine (cells : List String) : String := ",".intercalate cells ++ "\n"

namespace Displacement

variable {R : Type} [Scalar R]

/-- The names of the columns. -/
def csvHeader (t : Displacement R) : List String :=
  (List.range t.dimensions).map (fun d => "dimension_" ++ toString d) ++ ["probability_density"]

/-- The values of a row. -/
def csvCells (row : DensityRow R) : List String :=
  row.point.map toString ++ [Numeral.spell row.density]

/-- The displacement as a table: coordinates and density, a point a line. -/
def csv (t : Displacement R) : String :=
  csvLine t.csvHeader ++ String.join (t.rows.map fun row => csvLine (csvCells row))

end Displacement

/-- Writes the table of a displacement. -/
def writeDisplacement {R : Type} [Scalar R] (path : String) (t : Displacement R) :
    Attempt Folder Unit :=
  .of fun f => match f.update? path fun _ => t.csv with
    | some f => (.ok (), f)
    | none => (.error .table, f)

/-- The name of the table of an iteration. -/
def iterationFileName (dimensions width steps : Nat) (coin : String) : String :=
  let sites := Nat.pow 2 (min width 63)
  s!"{dimensions}D_Walk_{sites}_bit_iteration_{steps}_{coin}_results.csv"

/-- Adds text to a log, which is made with the folders on its path if it is missing. -/
def appendLog (path text : String) : Attempt Folder Unit :=
  .of fun f =>
    let f := f.withParents path
    match f.update? path fun before => before.getD "" ++ text with
    | some f => (.ok (), f)
    | none => (.error .file, f)

/-- A covariance matrix in the log. -/
def covarianceEntry {R : Type} [Scalar R] (steps : Nat) (covariance : List (List (Option R))) :
    String :=
  s!"covariance after {steps} steps\n" ++ String.join (covariance.map fun row =>
    "[" ++ ", ".intercalate (row.map (Statistics.spellMoment 6)) ++ "]\n")

/-- Adds a covariance matrix to a log. -/
def logCovariance {R : Type} [Scalar R] (path : String) (steps : Nat)
    (covariance : List (List (Option R))) : Attempt Folder Unit :=
  appendLog path (covarianceEntry steps covariance)

/-- Adds a job to a log. -/
def logJob (path : String) (id : JobId) : Attempt Folder Unit := appendLog path (id.spell ++ "\n")

/-- The lines of a log that are not blank, without the blanks at their ends. -/
def logLines (text : String) : List String :=
  ((Text.split '\n' text).map Text.trim).filter fun line => !line.isEmpty

/-- The job of a line. -/
def readJobLine (path line : String) : Except Failure JobId :=
  match JobId.read? line with
  | some id => .ok id
  | none => refuse (.notJobId line path)

/-- The jobs of a log, in the order in which they were submitted. A log that was never written has
none. -/
def readJobLog (f : Folder) (path : String) : Except Failure (List JobId) :=
  match f.destination path with
  | .file _ text => (logLines text).mapM (readJobLine path)
  | .free _ | .missing => .ok []
  | .folder _ | .barred => .error .file

end LatticeWalk
