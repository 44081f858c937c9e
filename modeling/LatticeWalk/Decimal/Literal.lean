import LatticeWalk.Decimal.Binary64
import LatticeWalk.Text.Numeral

/-! # Reading decimal literals

A literal is an optional sign followed by `inf`, `infinity` or `nan` in any case, or by digits with
at most one point among them (at least one digit in all) and an optional power of ten.

* `Literal.read`: the parts of a literal.
* `readDouble`: the double nearest to the number that a literal denotes. -/

namespace LatticeWalk.Decimal

open LatticeWalk.Text

/-- What a literal denotes. -/
inductive Literal where
  /-- The number `digits * 10 ^ power` with its sign. -/
  | number (negative : Bool) (digits : Nat) (power : Int)
  | infinity (negative : Bool)
  | undefined
  deriving Repr, DecidableEq

/-- An optional sign in front: whether it is a minus sign, and the rest. -/
def readSign : List Char → Bool × List Char
  | '-' :: cs => (true, cs)
  | '+' :: cs => (false, cs)
  | cs => (false, cs)

/-- The power of ten behind the digits: nothing, or `e` and a whole number. -/
def readPower : List Char → Option Int
  | [] => some 0
  | c :: cs =>
    if c = 'e' ∨ c = 'E' then
      let (negative, digits) := readSign cs
      (readDigits digits).map fun n => if negative then -(n : Int) else n
    else none

/-- The digits behind a point, and the rest. -/
def readFraction : List Char → List Char × List Char
  | '.' :: cs => cs.span Char.isDigit
  | cs => ([], cs)

/-- Digits with at most one point among them and an optional power of ten. -/
def readUnsigned (negative : Bool) (cs : List Char) : Option Literal := do
  let (whole, rest) := cs.span Char.isDigit
  let (fraction, rest) := readFraction rest
  let digits ← readDigits (whole ++ fraction)
  let power ← readPower rest
  return .number negative digits (power - fraction.length)

/-- Reads a whole text as a literal. -/
def Literal.read (s : String) : Option Literal :=
  let (negative, cs) := readSign s.toList
  let name := String.ofList (cs.map Char.toLower)
  if name = "inf" ∨ name = "infinity" then some (.infinity negative)
  else if name = "nan" then some .undefined
  else readUnsigned negative cs

/-- The double nearest to what a literal denotes. -/
def Literal.toDouble : Literal → Float
  | .number negative digits power => ofDecimal negative digits power
  | .infinity negative => if negative then -(1 / 0) else 1 / 0
  | .undefined => 0 / 0

/-- The double that a literal denotes. -/
def readDouble (s : String) : Option Float := (Literal.read s).map Literal.toDouble

end LatticeWalk.Decimal
