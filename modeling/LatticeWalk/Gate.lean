import LatticeWalk.Amplitude

/-! # Gates

A gate transforms one wire by a two by two matrix, provided that each of its control wires carries
the value that is asked of it. Every operator of the library is a list of gates, so that inverting
an operator or putting it under control rewrites a list.

* `Transform`: what happens to the target; `Transform.matrix`, `Transform.adjoint`.
* `Gate`: a transform with its wires; `Gate.adjoint`, `Gate.mapWires`. -/

namespace LatticeWalk

/-- What a gate does to its target. -/
inductive Transform (R : Type) where
  /-- Exchanges zero and one. -/
  | flip
  /-- The Hadamard rotation. -/
  | hadamard
  /-- Turns the amplitude of one by an angle. -/
  | phase (angle : R)
  /-- Any matrix. -/
  | unitary (matrix : GateMatrix R)
  deriving Repr, DecidableEq

namespace Transform

variable {R : Type} [Scalar R]

/-- The matrix of a transform. -/
def matrix : Transform R → GateMatrix R
  | flip => ⟨0, 1, 1, 0⟩
  | hadamard =>
    let h : Amplitude R := ⟨Scalar.halfRoot, 0⟩
    ⟨h, h, h, -h⟩
  | phase angle => ⟨1, 0, 0, .unit angle⟩
  | unitary m => m

/-- The inverse transform. -/
def adjoint : Transform R → Transform R
  | flip => flip
  | hadamard => hadamard
  | phase angle => phase (-angle)
  | unitary m => unitary m.adjoint

/-- The transform in listings. -/
def spell : Transform R → String
  | flip => "X"
  | hadamard => "H"
  | phase angle => "P(" ++ Numeral.spellTo 4 angle ++ ")"
  | unitary _ => "U"

end Transform

/-- A wire and the value that it must carry. -/
structure Control where
  wire : Nat
  value : Bool
  deriving Repr, DecidableEq

/-- A transform of a target wire under any number of controls. -/
structure Gate (R : Type) where
  transform : Transform R
  target : Nat
  controls : List Control
  deriving Repr, DecidableEq

namespace Gate

variable {R : Type}

/-- A gate without controls. -/
def plain (transform : Transform R) (target : Nat) : Gate R := ⟨transform, target, []⟩

/-- A gate that acts when all the given wires are one. -/
def controlled (transform : Transform R) (controls : List Nat) (target : Nat) : Gate R :=
  ⟨transform, target, controls.map fun w => ⟨w, true⟩⟩

/-- The gate that undoes this one. -/
def adjoint [Scalar R] (g : Gate R) : Gate R := { g with transform := g.transform.adjoint }

/-- The gate on other wires. -/
def mapWires (f : Nat → Nat) (g : Gate R) : Gate R :=
  ⟨g.transform, f g.target, g.controls.map fun c => ⟨f c.wire, c.value⟩⟩

/-- All wires of the gate, the target last. -/
def wires (g : Gate R) : List Nat := g.controls.map Control.wire ++ [g.target]

theorem wires_mapWires (f : Nat → Nat) (g : Gate R) : (g.mapWires f).wires = g.wires.map f := by
  simp [wires, mapWires]

theorem wires_adjoint [Scalar R] (g : Gate R) : g.adjoint.wires = g.wires := rfl

end Gate

end LatticeWalk
