/-! # Kinds of boundaries

What a boundary does to a walker that reaches it. -/

namespace LatticeWalk

/-- The permeability of a boundary. -/
inductive BoundaryKind where
  /-- Always reflects. -/
  | hard
  /-- Reflects on one branch of a coin of its own. -/
  | permeable
  /-- Reflects walkers that move toward lower index and lets the others pass. -/
  | oneWay
  /-- Reflects as long as its latch is set, which is never cleared. -/
  | absorbing
  deriving Repr, DecidableEq

/-- The name of a kind. -/
def BoundaryKind.name : BoundaryKind → String
  | .hard => "Hard"
  | .permeable => "Permeable"
  | .oneWay => "OneWay"
  | .absorbing => "Absorbing"

end LatticeWalk
