import LatticeWalk.Amplitude
import LatticeWalk.Failure
import LatticeWalk.Word

/-! # State vectors

The state of `n` wires: one amplitude for each of the `2 ^ n` basis states, where bit `q` of the
index of a basis state is the value of wire `q`.

* `StateVector.zeros`: all wires at zero.
* `StateVector.ofAmplitudes`: given amplitudes, as many as a power of two.
* `StateVector.probabilities`: what each basis state is measured with.
* `StateVector.checkNorm`: whether the probabilities add up to one. -/

namespace LatticeWalk

/-- Amplitudes by basis state. -/
structure StateVector (R : Type) where
  wires : Nat
  amplitudes : Array (Amplitude R)

namespace StateVector

variable {R : Type} [Scalar R]

/-- All wires at zero. -/
def zeros (n : Nat) : Except Failure (StateVector R) :=
  match Word.bit? n with
  | none => mistrust (.tooManyWires n)
  | some dim => .ok ⟨n, (Array.replicate dim 0).setIfInBounds 0 1⟩

/-- The state with the given amplitudes. -/
def ofAmplitudes (amplitudes : Array (Amplitude R)) : Except Failure (StateVector R) :=
  let n := amplitudes.size.log2
  if amplitudes.size = Nat.pow 2 n then .ok ⟨n, amplitudes⟩
  else mistrust (.notPowerOfTwo amplitudes.size)

/-- The probability of each basis state. -/
@[specialize] def probabilities (v : StateVector R) : List R :=
  v.amplitudes.toList.map Amplitude.weight

/-- The sum of all probabilities. -/
def norm (v : StateVector R) : R := Scalar.sum v.probabilities

/-- How far a total probability may be from one if the caller does not say. -/
def defaultTolerance : R := 1e-9

/-- Refuses a state whose probabilities add up to something farther from one than `tolerance`. -/
def checkNorm (v : StateVector R) (tolerance : Option R) : Except Failure Unit :=
  let allowed := tolerance.getD defaultTolerance
  if allowed < Scalar.abs (v.norm - 1) then
    mistrust (.notNormalised (Numeral.spell v.norm) (Numeral.spell allowed))
  else .ok ()

/-- All amplitudes in order, with four decimal places. -/
def spell (v : StateVector R) : String :=
  "State[" ++ ", ".intercalate (v.amplitudes.toList.map Amplitude.spell) ++ "]"

end StateVector

end LatticeWalk
