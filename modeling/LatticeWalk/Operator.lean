import LatticeWalk.Operation
import LatticeWalk.Pattern

/-! # Operators

An operator is a named list of gates on local wires `0 … n - 1`, together with the list that undoes
it.

* `Operator.inverse`: the two lists exchanged.
* `Operator.control`: the operator, or its inverse, applied if and only if new wires in front carry
  a given pattern. The pattern becomes further controls of every gate.
* `Operator.bind`: the operator as an operation on the wires of a program. -/

namespace LatticeWalk

/-- The kinds of operators. -/
inductive Family (R : Type) where
  | identity
  /-- The Hadamard rotation of every wire. -/
  | rotation
  | flip
  /-- Inversion about the mean. -/
  | diffusion
  /-- The discrete Fourier transform. -/
  | fourier
  /-- The diffusion with another phase than a sign. -/
  | phaseKickback (angle : R)
  /-- A counter through all values of the register. -/
  | cyclicIncrement
  /-- A rotation of every wire by given angles. -/
  | customUnitary
  /-- A flip of the most significant wire. -/
  | directionReversal
  deriving Repr, DecidableEq

/-- A named list of gates and its inverse. -/
structure Operator (R : Type) where
  name : String
  label : Option String
  family : Family R
  /-- The number of local wires, those of added controls among them. -/
  wires : Nat
  /-- The number of wires in front that were added as controls. -/
  controlWires : Nat
  gates : List (Gate R)
  inverseGates : List (Gate R)
  deriving Repr, DecidableEq

namespace Operator

variable {R : Type}

/-- What undoes a list of gates: the adjoints in reverse order. -/
def undo [Scalar R] (gates : List (Gate R)) : List (Gate R) := gates.reverse.map Gate.adjoint

/-- The operator of a list of gates. -/
def ofGates [Scalar R] (name : String) (family : Family R) (wires : Nat) (gates : List (Gate R)) :
    Operator R :=
  ⟨name, none, family, wires, 0, gates, undo gates⟩

/-- Whether the operator is a counter, under whatever controls. -/
def isCyclic (op : Operator R) : Bool :=
  match op.family with
  | .cyclicIncrement => true
  | _ => false

/-- Whether the operator does nothing. -/
def isIdentity (op : Operator R) : Bool :=
  match op.family with
  | .identity => true
  | _ => false

/-- The name of the inverse. -/
def inverseName (name : String) : String := name ++ "^-1"

/-- The operator that undoes this one. -/
def inverse (op : Operator R) : Operator R :=
  { op with name := inverseName op.name, gates := op.inverseGates, inverseGates := op.gates }

/-- The controls that ask wires `0, 1, …` for given values. -/
def controlsFor (bits : List Bool) : List Control := bits.zipIdx.map fun b => ⟨b.2, b.1⟩

/-- A gate moved behind new wires, with the given values of these as further controls. -/
def extendGate (bits : List Bool) (g : Gate R) : Gate R :=
  let moved := g.mapWires (· + bits.length)
  { moved with controls := controlsFor bits ++ moved.controls }

/-- The operator, or its inverse, applied to the last wires if and only if the first `k` wires carry
`pattern`, which stands for all ones if it is not given. Its last character belongs to wire 0. -/
def control (op : Operator R) (k : Nat) (pattern : Option String) (inverted : Bool)
    (label : Option String) : Except Failure (Operator R) := do
  let state := pattern.getD (Pattern.ones k)
  Pattern.checkWidth state k "ctrl_state"
  let bits := Pattern.wireBits state
  let base := if inverted then op.inverse else op
  return { name := s!"C{k}[{state}]-" ++ base.name
           label := label.or op.label
           family := op.family
           wires := op.wires + k
           controlWires := op.controlWires + k
           gates := base.gates.map (extendGate bits)
           inverseGates := base.inverseGates.map (extendGate bits) }

/-- The gates on the wires of a program, local wire `i` being the `i`-th of them. -/
def gatesOn (wires : List Nat) (gates : List (Gate R)) : List (Gate R) :=
  gates.map (Gate.mapWires fun w => wires.getD w 0)

/-- The operator as an operation on as many wires as it has. -/
def bind (op : Operator R) (wires : List Nat) : Except Failure (Operation R) :=
  if wires.length = op.wires then .ok (.apply op.name op.label wires (gatesOn wires op.gates))
  else refuse (.boundWires op.name op.wires wires.length)

/-- The operator in listings. -/
def spell (op : Operator R) : String :=
  let count := op.gates.length
  s!"{op.name} ({op.wires} wires, {count} gates)"

@[simp] theorem inverse_gates (op : Operator R) : op.inverse.gates = op.inverseGates := rfl

@[simp] theorem inverse_inverseGates (op : Operator R) : op.inverse.inverseGates = op.gates := rfl

theorem length_controlsFor (bits : List Bool) : (controlsFor bits).length = bits.length := by
  simp [controlsFor]

end Operator

end LatticeWalk
