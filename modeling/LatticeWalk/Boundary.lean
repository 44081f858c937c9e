import LatticeWalk.Boundary.Kind
import LatticeWalk.Operator.Coins
import LatticeWalk.Register

/-! # Boundaries

A boundary is a plane of the lattice: the walker is reflected when a dimension's register holds a
given value. A boundary control groups the boundaries that share one rule of permeability, and has a
register of its own unless it is hard.

* `Boundary.make`: a plane, refused unless its pattern is one.
* `Permeability`: the rule of a control, with the operator on its register.
* `BoundaryControl`: a rule with the planes that follow it.
* `BoundaryControl.preparation`, `BoundaryControl.resetScript`: what is done with its register when
  a program starts and after each step. -/

namespace LatticeWalk

/-- A plane: the value of a dimension's register at which the walker is reflected. -/
structure Boundary where
  pattern : String
  dimension : Nat
  label : Option String
  deriving Repr, DecidableEq

/-- The plane where a dimension has the value `pattern`. -/
def Boundary.make (pattern : String) (dimension : Nat) (label : Option String) :
    Except Failure Boundary := do
  Pattern.check pattern
  if pattern.isEmpty then refuse (.emptyBoundary dimension) else return ⟨pattern, dimension, label⟩

/-- The rule of a boundary control. -/
inductive Permeability (R : Type) where
  /-- Every walker is reflected. -/
  | hard
  /-- The walker is reflected on one branch of an operator. -/
  | permeable (operator : Operator R)
  /-- A counter marks the touch, and walkers toward higher index pass. -/
  | oneWay (cycleBits : Nat)
  /-- A latch of so many wires keeps the wall closed. -/
  | absorbing (latchWires : Nat)
  deriving Repr, DecidableEq

namespace Permeability

variable {R : Type}

def kind : Permeability R → BoundaryKind
  | hard => .hard
  | permeable _ => .permeable
  | oneWay _ => .oneWay
  | absorbing _ => .absorbing

/-- The operator on the control register. -/
def operator? [Scalar R] : Permeability R → Option (Operator R)
  | hard => none
  | permeable op => some op
  | oneWay bits => some (.cyclicIncrement bits)
  | absorbing wires => some (.absorbing wires)

/-- The width of the control register. -/
def controlWidth : Permeability R → Nat
  | hard => 0
  | permeable op => op.wires
  | oneWay bits => bits
  | absorbing wires => wires

/-- The width of the register that records crossings. -/
def ancillaWidth : Permeability R → Nat
  | oneWay _ => 2
  | _ => 0

end Permeability

/-- Planes that share one rule. -/
structure BoundaryControl (R : Type) where
  permeability : Permeability R
  /-- The value of the control register at which the wall is closed. -/
  state : String
  boundaries : List Boundary
  /-- How many times the registers are reset after each step. -/
  resets : Nat
  label : Option String
  deriving Repr, DecidableEq

namespace BoundaryControl

variable {R : Type}

/-- A control without planes, closed when its register is all ones. -/
def ofPermeability (p : Permeability R) : BoundaryControl R :=
  ⟨p, Pattern.ones p.controlWidth, [], 1, none⟩

/-- A control that reflects every walker. -/
def hard : BoundaryControl R := ofPermeability .hard

/-- A control that reflects on one branch of an operator. -/
def permeable (op : Operator R) : BoundaryControl R := ofPermeability (.permeable op)

/-- A valve with a counter of `bits` wires. -/
def oneWay (bits : Nat) : Except Failure (BoundaryControl R) :=
  if bits = 0 then refuse .noCycleBits else .ok (ofPermeability (.oneWay bits))

/-- A wall kept closed by a latch of `wires` wires. -/
def absorbing (wires : Nat) : Except Failure (BoundaryControl R) :=
  if wires = 0 then refuse .noLatchWires else .ok (ofPermeability (.absorbing wires))

def kind (c : BoundaryControl R) : BoundaryKind := c.permeability.kind

/-- The operator on the control register. -/
def operator? [Scalar R] (c : BoundaryControl R) : Option (Operator R) :=
  c.permeability.operator?

/-- The width of the control register. -/
def controlWidth (c : BoundaryControl R) : Nat := c.permeability.controlWidth

/-- The width of the register that records crossings. -/
def ancillaWidth (c : BoundaryControl R) : Nat := c.permeability.ancillaWidth

/-- The control closed at another value of its register. -/
def withState (c : BoundaryControl R) (state : String) : Except Failure (BoundaryControl R) := do
  Pattern.checkWidth state c.controlWidth "boundary ctrl_state"
  return { c with state := state }

/-- The control with more planes. -/
def addBoundaries (c : BoundaryControl R) (planes : List Boundary) : BoundaryControl R :=
  { c with boundaries := c.boundaries ++ planes }

/-- The operator applied to the control register along with the coin. A counter runs only inside
boundary blocks, and an operator of the identity family never runs. -/
def coinOperator? [Scalar R] (c : BoundaryControl R) : Option (Operator R) :=
  c.operator?.filter fun op => !op.isCyclic && !op.isIdentity

/-- The flips that set a latch, once, when a program starts. -/
def preparation (c : BoundaryControl R) (control : Option Register) : List (Operation R) :=
  match c.permeability, control with
  | .absorbing _, some register =>
    (Pattern.wires true c.state).map fun wire => .gate (.plain .flip (register.wire wire))
  | _, _ => []

/-- Whether the control register is reset after each step. A latch keeps its value. -/
def resetsRegister (c : BoundaryControl R) : Bool :=
  match c.permeability with
  | .hard | .absorbing _ => false
  | .permeable _ | .oneWay _ => true

/-- The wires that are reset after each step. -/
def resetTargets (c : BoundaryControl R) (control ancilla : Option Register) : List Nat :=
  (if c.resetsRegister then (control.map Register.wires).getD [] else []) ++
    (ancilla.map Register.wires).getD []

/-- The resets after each step. -/
def resetScript (c : BoundaryControl R) (control ancilla : Option Register) :
    List (Operation R) :=
  let targets := c.resetTargets control ancilla
  if targets.isEmpty then [] else List.replicate c.resets (.reset targets)

end BoundaryControl

end LatticeWalk
