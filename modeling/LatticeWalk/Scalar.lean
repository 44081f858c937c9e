/-! # Scalars

Amplitudes, probabilities, angles and statistics are computed in one kind of number, a *scalar*. The
library asks of it the four operations, an order that can be decided, a few functions of analysis
and a written form, and assumes no law: a run computes in doubles, while statements about exact
amplitudes read the same definitions over the reals.

* `Numeral`: how numbers are written in messages, and which texts denote a number.
* `Scalar`: the arithmetic. -/

namespace LatticeWalk

/-- The written forms of a number. -/
class Numeral (R : Type) where
  /-- The shortest text that denotes the number, without an exponent. -/
  spell : R → String
  /-- The text with a given number of decimal places. -/
  spellTo : Nat → R → String
  /-- The number that a decimal literal denotes. -/
  read? : String → Option R

/-- The arithmetic that the library computes in. -/
class Scalar (R : Type) extends Numeral R, Zero R, One R, Add R, Sub R, Mul R, Div R, Neg R,
    NatCast R, OfScientific R, LT R, LE R where
  decidableLT : DecidableLT R
  decidableLE : DecidableLE R
  sqrt : R → R
  cos : R → R
  sin : R → R
  arccos : R → R
  /-- The ratio of circumference to diameter. -/
  pi : R
  /-- The nearest whole number; a half goes away from zero. -/
  round : R → R

namespace Scalar

variable {R : Type} [Scalar R]

instance : DecidableLT R := decidableLT
instance : DecidableLE R := decidableLE

/-- The distance from zero. -/
@[specialize] def abs (x : R) : R := if x < 0 then -x else x

/-- The sum of a list, from left to right. It starts at the negative of zero, which leaves every
summand as it is where zero has a sign. -/
@[specialize] def sum (xs : List R) : R := xs.foldl (· + ·) (-0)

/-- `2 ^ n` by squaring. -/
@[specialize] def twoPow (n : Nat) : R :=
  if n = 0 then 1
  else
    let half := twoPow (n / 2)
    if n % 2 = 0 then half * half else 2.0 * (half * half)

/-- `2 ^ n` with the exponent in a signed word of 32 bits, so that it counts modulo `2 ^ 32` and
powers may be negative. -/
@[specialize] def twoPowWord (n : Nat) : R :=
  match Int.bmod n (Nat.pow 2 32) with
  | .ofNat k => twoPow k
  | .negSucc k => 1 / twoPow (k + 1)

/-- `1 / √2`, the entries of the Hadamard matrix. -/
@[specialize] def halfRoot : R := sqrt 0.5

end Scalar

end LatticeWalk
