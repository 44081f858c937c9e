import LatticeWalk.Scalar

/-! # Amplitudes

Complex numbers over a scalar: the amplitudes of basis states and the entries of gate matrices.

* the operations `+`, `*`, `-` and the conjugate;
* `Amplitude.weight`: the squared modulus, the probability that an amplitude stands for;
* `GateMatrix`: the two by two matrices of gates. -/

namespace LatticeWalk

/-- The complex number `re + im · i`. -/
structure Amplitude (R : Type) where
  re : R
  im : R
  deriving Repr, DecidableEq

namespace Amplitude

variable {R : Type} [Scalar R]

instance : Zero (Amplitude R) := ⟨⟨0, 0⟩⟩
instance : One (Amplitude R) := ⟨⟨1, 0⟩⟩
instance : Inhabited (Amplitude R) := ⟨0⟩

@[specialize] instance : Add (Amplitude R) := ⟨fun a b => ⟨a.re + b.re, a.im + b.im⟩⟩

@[specialize] instance : Mul (Amplitude R) :=
  ⟨fun a b => ⟨a.re * b.re - a.im * b.im, a.re * b.im + a.im * b.re⟩⟩

instance : Neg (Amplitude R) := ⟨fun a => ⟨-a.re, -a.im⟩⟩

/-- The conjugate. -/
def conj (a : Amplitude R) : Amplitude R := ⟨a.re, -a.im⟩

/-- The product with a scalar. -/
@[specialize] def scale (a : Amplitude R) (s : R) : Amplitude R := ⟨a.re * s, a.im * s⟩

/-- The squared modulus. -/
@[specialize] def weight (a : Amplitude R) : R := a.re * a.re + a.im * a.im

/-- The point of the unit circle at angle `φ`. -/
def unit (φ : R) : Amplitude R := ⟨Scalar.cos φ, Scalar.sin φ⟩

/-- The amplitude with four decimal places in both parts. A part of negative zero is not less than
zero and keeps its own sign. -/
def spell (a : Amplitude R) : String :=
  (if a.re < 0 then "-" else "") ++ Numeral.spellTo 4 (Scalar.abs a.re) ++
    (if a.im < 0 then "-" else "+") ++ Numeral.spellTo 4 (Scalar.abs a.im) ++ "i"

end Amplitude

/-- A matrix with two rows and two columns. -/
structure GateMatrix (R : Type) where
  a00 : Amplitude R
  a01 : Amplitude R
  a10 : Amplitude R
  a11 : Amplitude R
  deriving Repr, DecidableEq

/-- The conjugate transpose. -/
def GateMatrix.adjoint {R : Type} [Scalar R] (m : GateMatrix R) : GateMatrix R :=
  ⟨m.a00.conj, m.a10.conj, m.a01.conj, m.a11.conj⟩

end LatticeWalk
