import LatticeWalk.Boundary.Block
import LatticeWalk.Walk.Spec

/-! # Walk plans

A plan is a specification that was found sound, with its registers laid out and its coin built. It
does not change while steps are appended to the program.

* `WalkSpec.checkShape`, `WalkSpec.checkDecoherence`, `WalkSpec.buildCoin`: what makes a
  specification sound.
* `Plan.allocatePositions`, `Plan.install`: the registers, positions first, so that they come first
  in every key.
* `WalkSpec.plan`: the plan of a specification.
* `Plan.preparation`: the operations that a program begins with. -/

namespace LatticeWalk

/-- A boundary control with its registers, those that have wires. -/
structure Installed (R : Type) where
  control : BoundaryControl R
  register : Option Register
  ancilla : Option Register
  deriving Repr, DecidableEq

/-- A sound specification with its registers and its coin. -/
structure Plan (R : Type) where
  widths : List Nat
  initial : Option (List String)
  layout : Layout
  /-- The position registers, by dimension. -/
  positions : List Register
  coinRegister : Register
  coin : Operator R
  controls : List (Installed R)
  moves : List MovePattern
  decoherence : Option Decoherence

namespace WalkSpec

variable {R : Type}

/-- Refuses an initial position that does not have one pattern of the right width per dimension. -/
def checkInitial (spec : WalkSpec R) : Except Failure Unit :=
  match spec.initial with
  | none => .ok ()
  | some states =>
    if states.length ≠ spec.widths.length then
      refuse (.initialCount states.length spec.widths.length)
    else (states.zip spec.widths).forM fun s => Pattern.checkWidth s.1 s.2 "initial state"

/-- Refuses a plane of no dimension, or of another width than its dimension. -/
def checkBoundary (spec : WalkSpec R) (plane : Boundary) : Except Failure Unit :=
  match spec.widths[plane.dimension]? with
  | none => refuse (.boundaryTarget plane.pattern plane.dimension spec.widths.length)
  | some width => Pattern.checkWidth plane.pattern width "boundary bitstring"

/-- Refuses a walk without dimensions or with a dimension of no width, and what does not fit its
dimensions. -/
def checkShape (spec : WalkSpec R) : Except Failure Unit := do
  if spec.widths.isEmpty then refuse .noDimensions
  match spec.widths.findIdx? (· == 0) with
  | some dimension => refuse (.flatDimension dimension)
  | none => pure ()
  spec.checkInitial
  (spec.controls.flatMap BoundaryControl.boundaries).forM spec.checkBoundary

/-- The coin, refused if it cannot direct a walk. -/
def buildCoin [Scalar R] (spec : WalkSpec R) : Except Failure (Operator R) := do
  if !spec.coin.isShiftCoin then refuse (.notShiftCoin spec.coin.name)
  match ← spec.coin.build spec.coinWidth spec.params with
  | some op => return op
  | none => refuse (.notShiftCoin spec.coin.name)

/-- Refuses a cycle of no steps and wires outside the coin. -/
def checkDecoherence (spec : WalkSpec R) : Except Failure Unit :=
  match spec.decoherence with
  | none => .ok ()
  | some cycle =>
    if cycle.cycleLength = 0 then refuse .noCycleLength
    else match cycle.targets.find? fun wire => spec.coinWidth ≤ wire with
      | some wire => refuse (.decoherenceTarget wire spec.coinWidth)
      | none => .ok ()

end WalkSpec

namespace Plan

variable {R : Type}

/-- The position registers from dimension `d` on. -/
def allocatePositions : Allocator → (d : Nat) → List Nat →
    Except Failure (List Register × Allocator)
  | allocator, _, [] => .ok ([], allocator)
  | allocator, d, width :: widths => do
    let (register, allocator) ←
      allocator.allocate ("dimension" ++ toString d) (.dimension d) width
    let (registers, allocator) ← allocatePositions allocator (d + 1) widths
    return (register :: registers, allocator)

/-- A register of a control, if it has wires. -/
def allocateSome (allocator : Allocator) (name : String) (role : Role) (width : Nat) :
    Except Failure (Option Register × Allocator) :=
  if width = 0 then .ok (none, allocator)
  else do
    let (register, allocator) ← allocator.allocate name role width
    return (some register, allocator)

/-- The registers of the controls from control `i` on. They are named for the control. -/
def install : Allocator → (i : Nat) → List (BoundaryControl R) →
    Except Failure (List (Installed R) × Allocator)
  | allocator, _, [] => .ok ([], allocator)
  | allocator, i, control :: controls => do
    let stem := control.label.getD ("boundary" ++ toString i)
    let (register, allocator) ←
      allocateSome allocator (stem ++ " control") (.control i) control.controlWidth
    let (ancilla, allocator) ←
      allocateSome allocator (stem ++ " ancilla") (.ancilla i) control.ancillaWidth
    let (rest, allocator) ← install allocator (i + 1) controls
    return (⟨control, register, ancilla⟩ :: rest, allocator)

/-- Flips of the wires of a register that a pattern sets. -/
def flips (register : Register) (pattern : String) : List (Operation R) :=
  (Pattern.wires true pattern).map fun wire => .gate (.plain .flip (register.wire wire))

/-- The operations that a program begins with: latches are set, then the walker is put in its
place. -/
def preparation (plan : Plan R) : List (Operation R) :=
  plan.controls.flatMap (fun c => c.control.preparation c.register) ++
    ((plan.positions.zip (plan.initial.getD [])).flatMap fun p => flips p.1 p.2)

end Plan

/-- The plan of a specification. -/
def WalkSpec.plan {R : Type} [Scalar R] (spec : WalkSpec R) : Except Failure (Plan R) := do
  spec.checkShape
  let moves ← Shift.movePatterns spec.widths.length spec.coinWidth
  let coin ← spec.buildCoin
  spec.checkDecoherence
  let (positions, allocator) ← Plan.allocatePositions .empty 0 spec.widths
  let (coinRegister, allocator) ← allocator.allocate "coin" .coin spec.coinWidth
  let (controls, allocator) ← Plan.install allocator 0 spec.controls
  return { widths := spec.widths, initial := spec.initial, layout := allocator.finish
           positions := positions, coinRegister := coinRegister, coin := coin
           controls := controls, moves := moves, decoherence := spec.decoherence }

end LatticeWalk
