import LatticeWalk.Decimal.Shortest
import LatticeWalk.Text.Cut

/-! # Written numbers

Three ways to write a double.

* `plain`: the fewest digits that read back, always positional: no exponent, no point after a whole
  number.
* `fixed`: a given number of decimal places of the exact value, a tie going to the even digit.
* `scientific`: one digit, a point, a given number of places and the power of ten.

An undefined number is written `NaN`, an infinite one `inf`; the sign of zero is kept except in the
scientific form. -/

namespace LatticeWalk.Decimal

open LatticeWalk.Text (replicate padLeft)

/-- `digits * 10 ^ power` without an exponent. -/
def positional (digits : Nat) (power : Int) : String :=
  let text := Nat.repr digits
  let places := (-power).toNat
  if places = 0 then text ++ replicate power.toNat '0'
  else
    let cs := (padLeft (places + 1) '0' text).toList
    String.ofList (cs.take (cs.length - places)) ++ "." ++
      String.ofList (cs.drop (cs.length - places))

/-- A sign in front of the text of a magnitude. -/
def signed (negative : Bool) (text : String) : String := if negative then "-" ++ text else text

/-- Zeros at the end of the digits moved into the power. -/
def Expansion.normal (x : Expansion) : Expansion :=
  let zeros := ((Nat.repr x.digits).toList.reverse.takeWhile (· == '0')).length
  if x.digits = 0 then ⟨0, 0⟩ else ⟨x.digits / Nat.pow 10 zeros, x.power + zeros⟩

/-- The fewest digits that read back, without an exponent. -/
def plain : Binary64 → String
  | .undefined => "NaN"
  | .infinite negative => signed negative "inf"
  | .finite negative 0 _ => signed negative "0"
  | .finite negative m e =>
    let x := (shortest m e).normal
    signed negative (positional x.digits x.power)

/-- The exact value with `places` decimal places. -/
def fixed (places : Nat) : Binary64 → String
  | .undefined => "NaN"
  | .infinite negative => signed negative "inf"
  | .finite negative m e =>
    let (n, d) := unscale 2 m 1 (-e)
    signed negative (positional (roundEven (n * Nat.pow 10 places) d) (-places))

/-- One digit, a point, `places` digits and the power of ten after an `e`; zero is `0`. -/
def scientific (places : Nat) : Binary64 → String
  | .undefined => "NaN"
  | .infinite negative => signed negative "inf"
  | .finite _ 0 _ => "0"
  | .finite negative m e =>
    let (n, d) := unscale 2 m 1 (-e)
    let order := decimalOrder n d - 1
    let (a, b) := unscale 10 n d (order - places)
    let q := roundEven a b
    let (q, order) :=
      if q = Nat.pow 10 (places + 1) then (Nat.pow 10 places, order + 1) else (q, order)
    signed negative (positional q (-places) ++ "e" ++ toString order)

end LatticeWalk.Decimal
