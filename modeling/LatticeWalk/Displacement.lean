import LatticeWalk.Failure
import LatticeWalk.Scalar
import LatticeWalk.Word

/-! # Displacements

What a measured walk tells of its position: the lattice points that were observed, each with the
share of the shots that ended there.

* `Displacement`: points and densities, row by row.
* `Displacement.columns`: the coordinates of one dimension after the other.
* `Displacement.densityAt`, `Displacement.total`: the density of a point and of all points.
* `Displacement.check`: whether coordinates fit their registers and the density adds up to one. -/

namespace LatticeWalk

/-- A lattice point and its density. -/
structure DensityRow (R : Type) where
  point : List Nat
  density : R
  deriving Repr, DecidableEq

/-- The observed points of a walk in so many dimensions. -/
structure Displacement (R : Type) where
  dimensions : Nat
  rows : List (DensityRow R)
  shots : Nat
  deriving Repr, DecidableEq

namespace Displacement

variable {R : Type}

/-- The coordinates of all rows along a dimension. -/
def column (t : Displacement R) (dimension : Nat) : List Nat :=
  t.rows.map fun row => row.point.getD dimension 0

/-- The coordinates, dimension by dimension. -/
def columns (t : Displacement R) : List (List Nat) := (List.range t.dimensions).map t.column

/-- The coordinates along a dimension, if the walk has it. -/
def column? (t : Displacement R) (dimension : Nat) : Option (List Nat) := t.columns[dimension]?

/-- The densities of all rows. -/
def density (t : Displacement R) : List R := t.rows.map DensityRow.density

/-- The number of observed points. -/
def size (t : Displacement R) : Nat := t.rows.length

/-- The point of a row. Without dimensions every row has the point without coordinates. -/
def point? (t : Displacement R) (row : Nat) : Option (List Nat) :=
  if t.dimensions = 0 then some [] else t.rows[row]?.map DensityRow.point

variable [Scalar R]

/-- The density of a point, zero if it was not observed. -/
def densityAt (t : Displacement R) (point : List Nat) : R :=
  match t.rows.find? fun row => row.point == point with
  | some row => row.density
  | none => 0

/-- The sum of all densities. -/
def total (t : Displacement R) : R := Scalar.sum t.density

/-- The largest value of a register, as far as a word can hold it. -/
def largest (width : Nat) : Nat := if 64 ≤ width then Word.limit - 1 else Nat.pow 2 width - 1

/-- Refuses a coordinate above the largest value of its register. -/
def checkColumn (dimension width : Nat) (column : List Nat) : Except Failure Unit :=
  match column.find? fun x => largest width < x with
  | some x => mistrust (.coordinateOutside dimension x width)
  | none => .ok ()

/-- How far the density may be from one if the caller does not say. -/
def defaultTolerance : R := 1e-9

/-- Refuses coordinates outside the registers of the given widths, and a density that does not add
up to one. -/
def check (t : Displacement R) (widths : List Nat) (tolerance : Option R) :
    Except Failure Unit := do
  t.columns.zipIdx.forM fun c => checkColumn c.2 (widths.getD c.2 0) c.1
  let allowed := tolerance.getD defaultTolerance
  if !t.rows.isEmpty && allowed < Scalar.abs (t.total - 1) then
    mistrust (.densitySum (Numeral.spell t.total))
  else return ()

end Displacement

end LatticeWalk
