import LatticeWalk.Boundary

/-! # Boundary blocks

The operations by which a boundary acts in each step, between the coin and the shift. A block finds
the walker on the plane, takes the coin back and flips its most significant bit, which turns the
walker round.

* `BoundaryControl.reflection`: the block of a hard, permeable or absorbing control, which acts
  where the plane and the state of the control register match.
* `BoundaryControl.valve`: the block of a one-way control. It records in the ancilla which way the
  walker came, advances the counter and turns back only the walkers that came down.
* `BoundaryControl.block`: the block of a plane under its control, with a barrier behind it. -/

namespace LatticeWalk

/-- The registers that a block is wired to. -/
structure Wiring where
  /-- The position along the dimension of the plane. -/
  position : Register
  coin : Register
  control : Option Register
  ancilla : Option Register
  deriving Repr, DecidableEq

namespace BoundaryControl

variable {R : Type} [Scalar R]

/-- An operator, or its inverse, on the last wires, under a pattern on as many wires in front as the
pattern should have bits. -/
def conditional (op : Operator R) (bits : Nat) (pattern : String) (inverted : Bool)
    (label : Option String) (wires : List Nat) : Except Failure (Operation R) := do
  let controlled ← op.control bits (some pattern) inverted label
  controlled.bind wires

/-- The wires of the control register, which every control with an operator must have. -/
def controlWires (c : BoundaryControl R) (plane : Boundary) (w : Wiring) :
    Except Failure (List Nat) :=
  match c.operator?, w.control with
  | none, _ => .ok []
  | some _, some register => .ok register.wires
  | some _, none => refuse (.noControlRegister plane.pattern plane.dimension)

/-- The coin taken back and the direction reversed, where plane and control register match. -/
def reflection (c : BoundaryControl R) (plane : Boundary) (coin : Operator R) (w : Wiring)
    (control : List Nat) (label : Option String) : Except Failure (List (Operation R)) := do
  let bits := w.position.width + control.length
  let pattern := plane.pattern ++ c.state
  let wires := control ++ w.position.wires ++ w.coin.wires
  let back ← conditional coin bits pattern true label wires
  let turn ← conditional (.directionReversal w.coin.width) bits pattern false label wires
  return [back, turn, .barrier]

/-- The two wires that record a crossing: the one of walkers to be turned back, and the one of
walkers let pass. -/
def crossingWires (w : Wiring) : Except Failure (Nat × Nat) :=
  match w.ancilla with
  | some register =>
    if register.width = 2 then .ok (register.wire 0, register.wire 1) else refuse .noAncillaRegister
  | none => refuse .noAncillaRegister

/-- The wire that holds the direction of a move. -/
def directionWire (w : Wiring) : Except Failure Nat :=
  match w.coin.top? with
  | some wire => .ok wire
  | none => refuse .noCoinRegister

/-- The coin taken back on the plane, the way of arrival recorded and counted, and the direction
reversed for all walkers, then once more for those that are let pass. -/
def valve (c : BoundaryControl R) (counter : Operator R) (plane : Boundary) (coin : Operator R)
    (w : Wiring) (control : List Nat) (label : Option String) :
    Except Failure (List (Operation R)) := do
  let (blocked, permitted) ← crossingWires w
  let direction ← directionWire w
  let position := w.position.wires
  let n := w.position.width
  let onCoin := position ++ w.coin.wires
  let reversal : Operator R := .directionReversal w.coin.width
  let back ← conditional coin n plane.pattern true label onCoin
  let cameDown ← conditional .crossingFlag (n + 1) (plane.pattern ++ "1") false label
    (direction :: position ++ [blocked])
  let cameUp ← conditional .crossingFlag (n + 1) (plane.pattern ++ "0") false label
    (direction :: position ++ [permitted])
  let count ← conditional counter n plane.pattern false label (position ++ control)
  let turn ← conditional reversal n plane.pattern false label onCoin
  let pass ← conditional reversal (n + control.length + 1) (plane.pattern ++ "1" ++ c.state) false
    label (control ++ [permitted] ++ onCoin)
  return [back, cameDown, cameUp, count, turn, pass, .barrier]

/-- The block of a plane. A label of the plane goes before one of the control. -/
def block (c : BoundaryControl R) (plane : Boundary) (coin : Operator R) (w : Wiring) :
    Except Failure (List (Operation R)) := do
  let label := plane.label.or c.label
  let control ← c.controlWires plane w
  match c.permeability with
  | .oneWay bits => c.valve (.cyclicIncrement bits) plane coin w control label
  | _ => c.reflection plane coin w control label

end BoundaryControl

end LatticeWalk
