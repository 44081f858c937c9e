import LatticeWalk.Circuit
import LatticeWalk.StateVector

/-! # Simulation

A simulation carries a state vector through a program. Gates are deterministic; a reset measures its
wire, for which it draws a number, and a final sample draws one more.

* `Draws`: the stream of numbers that are drawn.
* `StateVector.transform`: a matrix on the target wherever the controls match.
* `StateVector.collapse`: the state after a wire was measured and set to zero.
* `Simulation.apply`, `Simulation.run`: one operation and a list of them.
* `sampleIndex`: the index that a draw selects among weights. -/

namespace LatticeWalk

/-- A stream of numbers from zero up to one, and how many have been taken. -/
structure Draws (R : Type) where
  stream : Nat → R
  used : Nat

/-- The next number, and the stream behind it. -/
def Draws.next {R : Type} (d : Draws R) : R × Draws R :=
  (d.stream d.used, { d with used := d.used + 1 })

/-- The least probability of a measured value that is not treated as zero. -/
def negligible {R : Type} [Scalar R] : R := 1e-12

/-- The values that the controls of a gate ask for: a basis state qualifies if its bits at `mask`
are those of `value`. -/
structure Condition where
  mask : Nat
  value : Nat
  deriving Repr, DecidableEq

/-- Whether a basis state qualifies. -/
@[inline] def Condition.holds (c : Condition) (basis : Nat) : Bool := basis &&& c.mask == c.value

namespace StateVector

variable {R : Type} [Scalar R]

/-- Refuses a wire that the state does not have. -/
def checkWire (v : StateVector R) (wire : Nat) : Except Failure Unit :=
  if wire < v.wires then .ok () else mistrust (.unknownWire wire v.wires)

/-- One more control. A wire that is named more than once must be one if any of its controls says
so. -/
def addControl (v : StateVector R) (target : Nat) (c : Condition) (control : Control) :
    Except Failure Condition := do
  v.checkWire control.wire
  if control.wire = target then mistrust (.controlIsTarget target)
  else
    let bit := Nat.pow 2 control.wire
    return ⟨c.mask ||| bit, if control.value then c.value ||| bit else c.value⟩

/-- What the controls of a gate ask for. All wires of the gate must exist, and no control may be the
target. -/
def condition (v : StateVector R) (g : Gate R) : Except Failure Condition := do
  v.checkWire g.target
  g.controls.foldlM (v.addControl g.target) ⟨0, 0⟩

/-- The amplitude of a basis state. -/
@[inline] def amplitude (v : StateVector R) (basis : Nat) : Amplitude R := v.amplitudes.getD basis 0

/-- A matrix on the target, in all basis states that satisfy the condition. -/
@[specialize] def transform (v : StateVector R) (m : GateMatrix R) (target : Nat) (c : Condition) :
    StateVector R :=
  let bit := Nat.pow 2 target
  { v with amplitudes := v.amplitudes.mapIdx fun basis a =>
      if c.holds basis then
        if basis.testBit target then m.a10 * v.amplitude (basis ^^^ bit) + m.a11 * a
        else m.a00 * a + m.a01 * v.amplitude (basis ||| bit)
      else a }

/-- Applies a gate. -/
@[specialize] def applyGate (v : StateVector R) (g : Gate R) : Except Failure (StateVector R) := do
  let c ← v.condition g
  return v.transform g.transform.matrix g.target c

/-- The probability that a wire is measured as one. -/
@[specialize] def oneProbability (v : StateVector R) (wire : Nat) : R :=
  Scalar.sum ((v.amplitudes.toList.zipIdx.filter fun a => a.2.testBit wire).map fun a =>
    a.1.weight)

/-- The state after the wire was measured as `one` with probability `kept`, and then set to zero. -/
@[specialize] def collapse (v : StateVector R) (wire : Nat) (one : Bool) (kept : R) :
    StateVector R :=
  let bit := Nat.pow 2 wire
  let scale := 1 / Scalar.sqrt kept
  { v with amplitudes := v.amplitudes.mapIdx fun basis a =>
      if basis.testBit wire then 0
      else (if one then v.amplitude (basis ||| bit) else a).scale scale }

end StateVector

/-- The index that the target `point` falls on when the positive weights are laid end to end: the
first at which their sum, `sum` so far, exceeds it. Behind the last the last positive one is taken,
`last` so far. -/
@[specialize] def pickIndex {R : Type} [Scalar R] (point : R) :
    List R → (index : Nat) → (sum : R) → (last : Nat) → Nat
  | [], _, _, last => last
  | w :: ws, index, sum, last =>
    if w ≤ 0 then pickIndex point ws (index + 1) sum last
    else if point < sum + w then index
    else pickIndex point ws (index + 1) (sum + w) index

/-- The index that a draw selects among weights, each with a chance in proportion to it. -/
@[specialize] def sampleIndex {R : Type} [Scalar R] (weights : List R) (draw : R) : Nat :=
  pickIndex (draw * Scalar.sum weights) weights 0 0 0

/-- A state under way and the draws that are left. -/
structure Simulation (R : Type) where
  vector : StateVector R
  draws : Draws R

namespace Simulation

variable {R : Type} [Scalar R]

/-- All wires at zero; there must be some. -/
def start (wires : Nat) (draws : Draws R) : Except Failure (Simulation R) :=
  if wires = 0 then mistrust .noWires
  else (StateVector.zeros wires).map fun vector => ⟨vector, draws⟩

/-- Applies a gate. -/
def applyGate (g : Gate R) : Attempt (Simulation R) Unit :=
  .of fun s => match s.vector.applyGate g with
    | .ok vector => (.ok (), { s with vector := vector })
    | .error e => (.error e, s)

/-- Measures a wire and sets it to zero. A number is drawn only if one is a possible outcome. -/
def resetWire (wire : Nat) : Attempt (Simulation R) Unit :=
  .of fun s => match s.vector.checkWire wire with
    | .error e => (.error e, s)
    | .ok _ =>
      let pOne := s.vector.oneProbability wire
      let (one, draws) :=
        if negligible < pOne then
          let (draw, rest) := s.draws.next
          (decide (draw < pOne), rest)
        else (false, s.draws)
      let kept := if one then pOne else 1 - pOne
      if kept ≤ negligible then (mistrust (.emptyBranch wire), { s with draws := draws })
      else (.ok (), ⟨s.vector.collapse wire one kept, draws⟩)

/-- Applies gates in order. -/
def applyGates : List (Gate R) → Attempt (Simulation R) Unit
  | [] => pure ()
  | g :: gs => do
    applyGate g
    applyGates gs

/-- Resets wires in order. -/
def resetWires : List Nat → Attempt (Simulation R) Unit
  | [] => pure ()
  | wire :: wires => do
    resetWire wire
    resetWires wires

/-- Applies one operation. What precedes a failure within it stays done. -/
def apply : Operation R → Attempt (Simulation R) Unit
  | .gate g => applyGate g
  | .apply _ _ _ gates => applyGates gates
  | .reset targets => resetWires targets
  | .barrier => pure ()

/-- Applies operations in order. -/
def run : List (Operation R) → Attempt (Simulation R) Unit
  | [] => pure ()
  | op :: ops => do
    apply op
    run ops

/-- Measures all wires: a basis state, and one number drawn. The state is left as it is. -/
def sample (s : Simulation R) : Nat × Simulation R :=
  let (draw, rest) := s.draws.next
  (sampleIndex s.vector.probabilities draw, { s with draws := rest })

end Simulation

end LatticeWalk
