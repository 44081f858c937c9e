import LatticeWalk.Operator

/-! # The operator library

The named operators: coins that turn a register into a superposition, counters, latches and flips.

* `hadamard`, `flip`, `diffusion`, `phaseKickback`, `kickback`, `fourier`, `su2`, `permeability`:
  coins.
* `cyclicIncrement`: the counter of one-way boundaries; one application subtracts one.
* `directionReversal`: the flip of the most significant wire, which exchanges opposite moves.
* `identity`, `absorbing`, `crossingFlag`: the small parts of boundary blocks. -/

namespace LatticeWalk

/-- The kickback coins with a fixed phase. -/
inductive Kickback where
  | right
  | rightPlus
  | rightMinus
  | left
  | leftPlus
  | leftMinus
  deriving Repr, DecidableEq

namespace Kickback

/-- The phase of a kickback coin, an odd or even multiple of an eighth of the circle. -/
def phase {R : Type} [Scalar R] : Kickback → R
  | right => Scalar.pi / 2.0
  | rightPlus => Scalar.pi / 4.0
  | rightMinus => 3.0 * Scalar.pi / 4.0
  | left => 3.0 * Scalar.pi / 2.0
  | leftMinus => 5.0 * Scalar.pi / 4.0
  | leftPlus => 7.0 * Scalar.pi / 4.0

/-- The name of the coin. -/
def coinName : Kickback → String
  | right => "Right Kickback Coin"
  | rightPlus => "Right Plus Kickback Coin"
  | rightMinus => "Right Minus Kickback Coin"
  | left => "Left Kickback Coin"
  | leftMinus => "Left Minus Kickback Coin"
  | leftPlus => "Left Plus Kickback Coin"

end Kickback

/-- An angle for all wires, or one for each. -/
inductive Angles (R : Type) where
  | uniform (angle : R)
  | perWire (angles : List R)
  deriving Repr, DecidableEq

/-- The angles of `n` wires; `name` is what messages call them. -/
def Angles.resolve {R : Type} (n : Nat) (name : String) : Angles R → Except Failure (List R)
  | uniform angle => .ok (List.replicate n angle)
  | perWire angles =>
    if angles.length = n then .ok angles else refuse (.angleCount name angles.length n)

namespace Operator

variable {R : Type} [Scalar R]

/-- The same transform on each of `n` wires. -/
def everyWire (transform : Transform R) (n : Nat) : List (Gate R) :=
  (List.range n).map (Gate.plain transform)

/-- The operator without gates. -/
def identity (n : Nat) : Operator R := ofGates "Identity" .identity n []

/-- The Hadamard rotation of every wire. -/
def hadamard (n : Nat) : Operator R :=
  ofGates "Hadamard Coin" .rotation n (everyWire .hadamard n)

/-- A flip of every wire. -/
def flip (n : Nat) : Operator R := ofGates "X Coin" .flip n (everyWire .flip n)

/-- The latch of an absorbing boundary: set once when the program is built, it needs no gates. -/
def absorbing (n : Nat) : Operator R := ofGates "Absorbing Latch" .identity n []

/-- A flip of the wire that records a crossing. -/
def crossingFlag : Operator R := ofGates "Crossing Flag" .flip 1 [.plain .flip 0]

/-- Hadamard and flip on every wire. -/
def spread (n : Nat) : List (Gate R) := everyWire .hadamard n ++ everyWire .flip n

/-- The wires of a register below its last. -/
def belowLast (n : Nat) : List Nat := List.range (n - 1)

/-- A sign on the state in which all of `n` wires are one. -/
def signFlip (n : Nat) : List (Gate R) :=
  if n = 0 then []
  else
    [.plain .hadamard (n - 1), .controlled .flip (belowLast n) (n - 1), .plain .hadamard (n - 1)]

/-- A phase on the state in which all of `n` wires are one. -/
def phaseFlip (n : Nat) (angle : R) : List (Gate R) :=
  if n = 0 then [] else [.controlled (.phase angle) (belowLast n) (n - 1)]

/-- Inversion about the mean, up to a sign. -/
def diffusion (n : Nat) : Operator R :=
  ofGates "Grover Coin" .diffusion n (spread n ++ signFlip n ++ (spread n).reverse)

/-- The gates of the kickback coins. -/
def kickbackGates (n : Nat) (angle : R) : List (Gate R) :=
  spread n ++ phaseFlip n angle ++ (spread n).reverse

/-- The diffusion with a phase in place of the sign. -/
def phaseKickback (n : Nat) (angle : R) : Operator R :=
  ofGates "Phase Kickback Coin" (.phaseKickback angle) n (kickbackGates n angle)

/-- A kickback coin with one of the fixed phases. -/
def kickback (n : Nat) (variant : Kickback) : Operator R :=
  ofGates variant.coinName (.phaseKickback variant.phase) n (kickbackGates n variant.phase)

/-- The rotation of wire `top` in the Fourier transform, and its phases under the wires below. -/
def fourierRung (top : Nat) : List (Gate R) :=
  .plain .hadamard top ::
    (List.range top).map fun wire =>
      .controlled (.phase (Scalar.pi / Scalar.twoPow (top - wire))) [wire] top

/-- Two wires exchanged by three flips. -/
def swapGates (a b : Nat) : List (Gate R) :=
  [.controlled .flip [a] b, .controlled .flip [b] a, .controlled .flip [a] b]

/-- The discrete Fourier transform: the rungs from the top wire down, then the order of the wires
reversed. -/
def fourier (n : Nat) : Operator R :=
  ofGates "DFT Coin" .fourier n
    ((List.range n).reverse.flatMap fourierRung ++
      (List.range (n / 2)).flatMap fun wire => swapGates wire (n - wire - 1))

/-- A step around the cycle of all values: each wire is flipped if the wires below it are one after
they were flipped themselves. With wire 0 least significant this subtracts one. -/
def cyclicIncrement (n : Nat) : Operator R :=
  ofGates "Cyclic Controller" .cyclicIncrement n
    ((List.range n).map fun wire => .controlled .flip (List.range wire) wire)

/-- A flip of the most significant wire. -/
def directionReversal (n : Nat) : Operator R :=
  ofGates "Direction Reversal" .directionReversal n (if n = 0 then [] else [.plain .flip (n - 1)])

/-- The rotation of one wire by three angles. -/
def su2Matrix (theta zeta xi : R) : GateMatrix R :=
  { a00 := (Amplitude.unit xi).scale (Scalar.cos theta)
    a01 := (Amplitude.unit zeta).scale (Scalar.sin theta)
    a10 := (Amplitude.unit (-zeta)).scale (Scalar.sin theta)
    a11 := (-Amplitude.unit (-xi)).scale (Scalar.cos theta) }

/-- One rotation for each wire. -/
def su2Gates : Nat → List R → List R → List R → List (Gate R)
  | wire, theta :: thetas, zeta :: zetas, xi :: xis =>
    .plain (.unitary (su2Matrix theta zeta xi)) wire :: su2Gates (wire + 1) thetas zetas xis
  | _, _, _, _ => []

/-- A rotation of each wire by angles of its own. -/
def su2 (n : Nat) (theta zeta xi : Angles R) : Except Failure (Operator R) := do
  let thetas ← theta.resolve n "theta"
  let zetas ← zeta.resolve n "zeta"
  let xis ← xi.resolve n "xi"
  return ofGates "SU2 Coin" .customUnitary n (su2Gates 0 thetas zetas xis)

/-- The coin that leaves each wire at zero with probability `transmission`. -/
def permeability (n : Nat) (transmission : R) : Except Failure (Operator R) :=
  if 0 ≤ transmission ∧ transmission ≤ 1 then
    let theta := Scalar.arccos (Scalar.sqrt transmission)
    .ok (ofGates ("Permeability Coin (p=" ++ Numeral.spell transmission ++ ")") .customUnitary n
      (su2Gates 0 (List.replicate n theta) (List.replicate n 0) (List.replicate n 0)))
  else refuse (.transmissionOutside (Numeral.spell transmission))

end Operator

end LatticeWalk
