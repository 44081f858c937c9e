import LatticeWalk.Pattern

/-! # Edges of the lattice

The values at the ends of a dimension, where boundaries are most often placed, each moved inward by
a number of sites.

* `Geometry.read`: which ends are meant.
* `Geometry.patterns`: their values. -/

namespace LatticeWalk

/-- The ends of a dimension that get a boundary. -/
inductive Geometry where
  /-- The lowest and the highest value. -/
  | edges
  | leftEdge
  | rightEdge
  deriving Repr, DecidableEq

namespace Geometry

/-- The geometry of a name. -/
def read (text : String) : Except Failure Geometry :=
  match text with
  | "Edges" => .ok edges
  | "LeftEdge" => .ok leftEdge
  | "RightEdge" => .ok rightEdge
  | _ => refuse (.unknownGeometry text)

/-- The lowest value of `n` bits, moved up. -/
def left (n padding : Nat) : String := Nat.repeat Pattern.stepUp padding (Pattern.zeros n)

/-- The highest value of `n` bits, moved down. -/
def right (n padding : Nat) : String := Nat.repeat Pattern.stepDown padding (Pattern.ones n)

/-- The values of the ends of a dimension of `n` bits. Padding must not reach the centre, the value
at which only the most significant bit is set. -/
def patterns (geometry : Geometry) (n padding : Nat) : Except Failure (List String) :=
  if n = 0 then refuse .edgeOfPoint
  else
    let centre := (Word.bit? (n - 1)).getD (Word.limit - 1)
    if centre ≤ padding then refuse (.paddingTooLarge padding centre)
    else .ok (match geometry with
      | edges => [left n padding, right n padding]
      | leftEdge => [left n padding]
      | rightEdge => [right n padding])

end Geometry

end LatticeWalk
