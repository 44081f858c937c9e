/-! # Doubles as exact numbers

A finite double is a whole number of units in the last place: `m * 2 ^ e` with `m < 2 ^ 53` and
`e ≥ -1074`. This file reads that number off the bits and goes back.

* `Binary64.ofFloat`: what the bits of a double stand for.
* `nearest`: the double nearest to a quotient of natural numbers, a tie going to the even one.
* `ofDecimal`: the double nearest to `m * 10 ^ e`. -/

namespace LatticeWalk.Decimal

/-- What the 64 bits of a double stand for. -/
inductive Binary64 where
  /-- The number `mantissa * 2 ^ exponent` with its sign; zero has a sign too. -/
  | finite (negative : Bool) (mantissa : Nat) (exponent : Int)
  | infinite (negative : Bool)
  | undefined
  deriving Repr, DecidableEq

/-- The fields of the word: sign, eleven bits of exponent, 52 bits of fraction. -/
def Binary64.ofBits (bits : Nat) : Binary64 :=
  let fraction : Nat := bits % Nat.pow 2 52
  let field : Nat := bits / Nat.pow 2 52 % Nat.pow 2 11
  let negative := bits / Nat.pow 2 63 % 2 == 1
  if field = 2047 then
    if fraction = 0 then .infinite negative else .undefined
  else if field = 0 then .finite negative fraction (-1074)
  else .finite negative (Nat.pow 2 52 + fraction) ((field : Int) - 1075)

/-- What a double stands for. -/
def Binary64.ofFloat (x : Float) : Binary64 := .ofBits x.toBits.toNat

/-- `num / den` rounded to a whole number, a tie going to the even one. -/
def roundEven (num den : Nat) : Nat :=
  let q := num / den
  let twice := 2 * (num % den)
  if den < twice ∨ (twice = den ∧ q % 2 = 1) then q + 1 else q

/-- `num / den` divided by `base ^ e`, again as a quotient of natural numbers. -/
def unscale (base : Nat) (num den : Nat) (e : Int) : Nat × Nat :=
  (num * Nat.pow base (-e).toNat, den * Nat.pow base e.toNat)

/-- The whole `k` with `2 ^ k ≤ num / den < 2 ^ (k + 1)`, for positive `num` and `den`. -/
def binaryOrder (num den : Nat) : Int :=
  let guess : Int := (num.log2 : Int) - (den.log2 : Int)
  let (n, d) := unscale 2 num den guess
  if d ≤ n then guess else guess - 1

/-- The bits, without the sign, of the double nearest to `num / den`. A number that rounds above
the largest finite double gives infinity. -/
def nearestBits (num den : Nat) : Nat :=
  if num = 0 then 0
  else
    let e : Int := max (binaryOrder num den - 52) (-1074)
    let (n, d) := unscale 2 num den e
    min ((e + 1074).toNat * Nat.pow 2 52 + roundEven n d) (2047 * Nat.pow 2 52)

/-- The double nearest to the quotient `num / den` with the given sign. -/
def nearest (negative : Bool) (num den : Nat) : Float :=
  Float.ofBits (UInt64.ofNat (nearestBits num den + if negative then Nat.pow 2 63 else 0))

/-- The double nearest to `m * 10 ^ e` with the given sign. Far outside the range of doubles the
power of ten is not worked out: there the answer is zero or infinity. -/
def ofDecimal (negative : Bool) (m : Nat) (e : Int) : Float :=
  let size : Int := ((Nat.toDigits 10 m).length : Int) + e
  if m = 0 ∨ size < -330 then nearest negative 0 1
  else if 330 < size then nearest negative (Nat.pow 2 1024) 1
  else
    let (n, d) := unscale 10 m 1 (-e)
    nearest negative n d

/-- Halves go to the even neighbour. -/
theorem roundEven_half (q : Nat) : roundEven (2 * q + 1) 2 = if q % 2 = 1 then q + 1 else q := by
  unfold roundEven
  have h : (2 * q + 1) / 2 = q := by omega
  simp [h]

/-- A whole quotient is not moved. -/
theorem roundEven_mul (q d : Nat) (h : 0 < d) : roundEven (q * d) d = q := by
  simp [roundEven, Nat.mul_div_cancel _ h]
  omega

end LatticeWalk.Decimal
