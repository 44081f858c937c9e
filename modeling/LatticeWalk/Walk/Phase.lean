/-! # Phases of a step

One step of a walk passes through five phases in a fixed order, and back to the first. -/

namespace LatticeWalk

/-- How far the current step has come. -/
inductive Phase where
  /-- Between two steps. -/
  | idle
  /-- The coins have been applied. -/
  | coined
  /-- The boundary blocks have been applied. -/
  | bounded
  /-- The walker has been shifted. -/
  | shifted
  /-- The control registers are being reset. -/
  | reset
  deriving Repr, DecidableEq

/-- The name of a phase. -/
def Phase.name : Phase → String
  | .idle => "Idle"
  | .coined => "Coined"
  | .bounded => "Bounded"
  | .shifted => "Shifted"
  | .reset => "Reset"

end LatticeWalk
