import LatticeWalk.Displacement
import LatticeWalk.Text.Cut

/-! # Statistics of displacements

Mean, variance, covariance and correlation of the coordinates, as of a sample in which each point
occurs as often as it was measured. Each point has the weight `density · shots`, rounded to a whole
number, and the denominator of the second moments is one less than the sum of the weights.

* `Displacement.statistics`: the moments; what a sample is too small for, or a correlation with a
  constant, is undefined (`none`). -/

namespace LatticeWalk

/-- Moments of the coordinates; `none` where one is undefined. -/
structure Statistics (R : Type) where
  mean : List (Option R)
  variance : List (Option R)
  covariance : List (List (Option R))
  correlation : List (List (Option R))
  deriving Repr, DecidableEq

namespace Displacement

variable {R : Type} [Scalar R]

/-- How often each row was measured. -/
def weights (t : Displacement R) : List R :=
  t.rows.map fun row => Scalar.round (row.density * (t.shots : R))

/-- A coordinate of a row as a scalar. -/
def coordinate (dimension : Nat) (row : DensityRow R) : R :=
  ((row.point.getD dimension 0 : Nat) : R)

/-- Rows with their weights. -/
def weighted (t : Displacement R) : List (DensityRow R × R) := t.rows.zip t.weights

/-- The mean along a dimension. -/
def meanOf (t : Displacement R) (dimension : Nat) : Option R :=
  let n := Scalar.sum t.weights
  if 0 < n then
    some (Scalar.sum (t.weighted.map fun r => coordinate dimension r.1 * r.2) / n)
  else none

/-- The covariance along two dimensions, the first not behind the second. -/
def covarianceOfOrdered (t : Displacement R) (i j : Nat) : Option R :=
  let n := Scalar.sum t.weights
  if 2.0 ≤ n then
    match t.meanOf i, t.meanOf j with
    | some mi, some mj =>
      some (Scalar.sum (t.weighted.map fun r =>
        r.2 * (coordinate i r.1 - mi) * (coordinate j r.1 - mj)) / (n - 1))
    | _, _ => none
  else none

/-- The covariance along two dimensions. -/
def covarianceOf (t : Displacement R) (i j : Nat) : Option R :=
  t.covarianceOfOrdered (min i j) (max i j)

/-- The correlation along two dimensions. -/
def correlationOf (t : Displacement R) (i j : Nat) : Option R :=
  match t.covarianceOf i i, t.covarianceOf j j, t.covarianceOf i j with
  | some vi, some vj, some c =>
    let scale := Scalar.sqrt (vi * vj)
    if 0 < scale then some (c / scale) else none
  | _, _, _ => none

/-- A square table of so many rows. -/
def table {α : Type} (n : Nat) (f : Nat → Nat → α) : List (List α) :=
  (List.range n).map fun i => (List.range n).map (f i)

/-- All moments. -/
def statistics (t : Displacement R) : Statistics R where
  mean := (List.range t.dimensions).map t.meanOf
  variance := (List.range t.dimensions).map fun i => t.covarianceOf i i
  covariance := table t.dimensions t.covarianceOf
  correlation := table t.dimensions t.correlationOf

end Displacement

namespace Statistics

variable {R : Type} [Scalar R]

/-- A moment with so many decimal places. -/
def spellMoment (places : Nat) : Option R → String
  | some x => Numeral.spellTo places x
  | none => "NaN"

/-- Moments in columns of ten characters. -/
def spellRow (moments : List (Option R)) : String :=
  " ".intercalate (moments.map fun x => Text.padLeft 10 ' ' (spellMoment 4 x))

/-- The rows of a table, each in brackets on a line of its own. -/
def spellTable (rows : List (List (Option R))) : String :=
  String.join (rows.map fun row => "  [" ++ spellRow row ++ "]\n")

/-- The moments as a text. -/
def spell (s : Statistics R) : String :=
  "mean:     " ++ spellRow s.mean ++ "\nvariance: " ++ spellRow s.variance ++
    "\ncovariance:\n" ++ spellTable s.covariance ++ "correlation:\n" ++ spellTable s.correlation

end Statistics

end LatticeWalk
