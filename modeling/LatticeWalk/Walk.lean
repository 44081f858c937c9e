import LatticeWalk.Circuit
import LatticeWalk.Displacement
import LatticeWalk.Walk.Plan

/-! # Walks

A walk is a plan together with the program compiled so far. Each step drives the program through the
phases in their order:

* `Walk.addCoins`: the coin on its register, and the operator of each control on its own;
* `Walk.applyBoundaries`: the block of each plane;
* `Walk.addShifts`: for each dimension a shift to the left and one to the right, each for its value
  of the coin;
* `Walk.resetBoundaries`: the registers of the controls reset.

`Walk.step` is one whole step, `Walk.resetCircuit` starts over. The initial position is prepared
when a program begins and never again. -/

namespace LatticeWalk

/-- A plan and the program compiled so far. -/
structure Walk (R : Type) where
  plan : Plan R
  program : Circuit R
  phase : Phase
  /-- The number of steps in the program. -/
  steps : Nat
  /-- The outcome of the last measurement. -/
  results : Option (Displacement R)

namespace Walk

variable {R : Type} [Scalar R]

/-- Changes the program. -/
def onProgram {α : Type} (x : Attempt (Circuit R) α) : Attempt (Walk R) α :=
  x.within Walk.program fun c w => { w with program := c }

/-- Begins the program. -/
def prepare : Attempt (Walk R) Unit := do
  let w ← get
  onProgram (Circuit.addAll w.plan.preparation)

/-- The walk of a plan before its program begins. -/
def ofPlan (plan : Plan R) : Walk R := ⟨plan, .empty plan.layout, .idle, 0, none⟩

/-- The walk of a specification, with a program that begins. -/
def build (spec : WalkSpec R) : Except Failure (Walk R) := do
  let plan ← spec.plan
  match prepare.outcome (ofPlan plan) with
  | (.ok _, w) => return w
  | (.error e, _) => throw e

/-- Moves on from one phase to the next, refused in any other phase. -/
def advance (current next : Phase) : Attempt (Walk R) Unit :=
  .of fun w =>
    if w.phase = current then (.ok (), { w with phase := next })
    else (refuse (.phaseOrder next w.phase), w)

/-- The position register of a dimension. -/
def position (w : Walk R) (dimension : Nat) : Except Failure Register :=
  match w.plan.positions[dimension]? with
  | some register => .ok register
  | none => refuse (.dimensionRange dimension w.plan.widths.length)

/-- Applies the operator of a control to its register, if it has both. -/
def addControlCoin (c : Installed R) : Attempt (Walk R) Unit :=
  match c.control.coinOperator?, c.register with
  | some op, some register => onProgram (Circuit.append op register.wires)
  | _, _ => pure ()

/-- The coins of all controls. -/
def addControlCoins : List (Installed R) → Attempt (Walk R) Unit
  | [] => pure ()
  | c :: cs => do
    addControlCoin c
    addControlCoins cs

/-- Idle to coined. -/
def addCoins : Attempt (Walk R) Unit := do
  advance .idle .coined
  let w ← get
  onProgram (Circuit.append w.plan.coin w.plan.coinRegister.wires)
  addControlCoins w.plan.controls
  onProgram Circuit.addBarrier

/-- The block of a plane under a control. -/
def blockOf (w : Walk R) (index : Nat) (plane : Boundary) : Except Failure (List (Operation R)) :=
  match w.plan.controls[index]? with
  | none => refuse (.noBoundaryControl index)
  | some c => do
    let position ← w.position plane.dimension
    c.control.block plane w.plan.coin ⟨position, w.plan.coinRegister, c.register, c.ancilla⟩

/-- Adds the block of a plane under the control of an index. -/
def applyBoundary (index : Nat) (plane : Boundary) : Attempt (Walk R) Unit := do
  let w ← get
  let ops ← Attempt.check (w.blockOf index plane)
  onProgram (Circuit.addAll ops)

/-- All planes with the index of their control. -/
def planes (w : Walk R) : List (Nat × Boundary) :=
  w.plan.controls.zipIdx.flatMap fun c => c.1.control.boundaries.map fun plane => (c.2, plane)

/-- Adds the blocks of planes. -/
def applyPlanes : List (Nat × Boundary) → Attempt (Walk R) Unit
  | [] => pure ()
  | p :: ps => do
    applyBoundary p.1 p.2
    applyPlanes ps

/-- Coined to bounded. -/
def applyBoundaries : Attempt (Walk R) Unit := do
  advance .coined .bounded
  let w ← get
  applyPlanes w.planes
  onProgram Circuit.addBarrier

/-- Adds a shift of a dimension that acts where the coin is all ones. -/
def addShift (direction : Direction) (dimension : Nat) : Attempt (Walk R) Unit := do
  let w ← get
  let position ← Attempt.check (w.position dimension)
  onProgram (Circuit.addAll (Shift.ripple direction w.plan.coinRegister position))

/-- Adds a shift of a dimension that acts on one value of the coin. -/
def wrapShift (direction : Direction) (pattern : String) (dimension : Nat) :
    Attempt (Walk R) Unit := do
  let w ← get
  let position ← Attempt.check (w.position dimension)
  let coin := w.plan.coinRegister
  let ops ← Attempt.check (Shift.wrap coin pattern (Shift.ripple direction coin position))
  onProgram (Circuit.addAll ops)

/-- Adds the shifts of moves. -/
def addMoves : List MovePattern → Attempt (Walk R) Unit
  | [] => pure ()
  | m :: ms => do
    wrapShift .left m.left m.dimension
    wrapShift .right m.right m.dimension
    addMoves ms

/-- Bounded to shifted. -/
def addShifts : Attempt (Walk R) Unit := do
  advance .bounded .shifted
  let w ← get
  addMoves w.plan.moves

/-- The resets at the end of a step. -/
def resetScript (w : Walk R) : List (Operation R) :=
  w.plan.controls.flatMap fun c => c.control.resetScript c.register c.ancilla

/-- Shifted to reset, and back to idle. -/
def resetBoundaries : Attempt (Walk R) Unit := do
  advance .shifted .reset
  let w ← get
  onProgram (Circuit.addAll w.resetScript)
  modify fun w => { w with phase := .idle }

/-- The reset of coin wires that is due after so many steps. -/
def decoherenceAfter (w : Walk R) (steps : Nat) : List (Operation R) :=
  match w.plan.decoherence with
  | none => []
  | some cycle =>
    if steps % cycle.cycleLength = 0 ∧ !cycle.targets.isEmpty then
      [.reset (cycle.targets.map w.plan.coinRegister.wire)]
    else []

/-- Adds one step. What was measured before no longer belongs to the program. -/
def step : Attempt (Walk R) Unit := do
  addCoins
  applyBoundaries
  addShifts
  resetBoundaries
  modify fun w => { w with steps := w.steps + 1 }
  let w ← get
  onProgram (Circuit.addAll (w.decoherenceAfter w.steps))
  modify fun w => { w with results := none }

/-- Adds `n` steps. -/
def addSteps : Nat → Attempt (Walk R) Unit
  | 0 => pure ()
  | n + 1 => do
    step
    addSteps n

/-- Begins the program anew. -/
def resetCircuit : Attempt (Walk R) Unit := do
  modify fun w => ofPlan w.plan
  prepare

end Walk

end LatticeWalk
