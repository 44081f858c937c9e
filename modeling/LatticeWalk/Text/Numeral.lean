import LatticeWalk.Text.Cut

/-! # Numerals of natural numbers

* `readDigits`: the value of a nonempty list of decimal digits.
* `readBelow`: an unsigned numeral with an optional plus sign, refused from a limit on. -/

namespace LatticeWalk.Text

/-- The value of a decimal digit. -/
def digit? (c : Char) : Option Nat :=
  if c.isDigit then some (c.toNat - '0'.toNat) else none

/-- The number that decimal digits spell, read after the digits of `acc`. -/
def digitsFrom (acc : Nat) : List Char → Option Nat
  | [] => some acc
  | c :: cs => (digit? c).bind fun d => digitsFrom (10 * acc + d) cs

/-- The number that a nonempty list of decimal digits spells. -/
def readDigits : List Char → Option Nat
  | [] => none
  | cs => digitsFrom 0 cs

/-- The digits behind an optional plus sign. -/
def dropPlus : List Char → List Char
  | '+' :: cs => cs
  | cs => cs

/-- An unsigned numeral of a number below `limit`; a plus sign may stand in front. -/
def readBelow (limit : Nat) (s : String) : Option Nat :=
  (readDigits (dropPlus s.toList)).filter (· < limit)

end LatticeWalk.Text
