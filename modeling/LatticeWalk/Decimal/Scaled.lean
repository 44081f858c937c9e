import LatticeWalk.Decimal.Literal
import LatticeWalk.Word

/-! # Reading a decimal by one scaling

A quick way to a double: the digits are gathered into a word as far as they fit, the word is rounded
to a double, and one multiplication or division by a power of ten puts the point in its place. The
result can be one unit in the last place away from the nearest double, and `0.9999999999999999`
is read as one.

* `gather`: the digits that fit a word.
* `rescale`: a double times a power of ten, refused where it leaves the range.
* `readScaled`: the double of a numeral. -/

namespace LatticeWalk.Decimal

/-- The number that digits spell behind those of `n`, up to the first one that does not fit a word,
and the digits that are left. -/
def gather (n : Nat) : List Char → Nat × List Char
  | [] => (n, [])
  | c :: cs =>
    let m := 10 * n + (c.toNat - '0'.toNat)
    if m < Word.limit then gather m cs else (n, c :: cs)

/-- The double nearest to a power of ten. -/
def powerOfTen (k : Nat) : Float := ofDecimal false 1 k

/-- `x * 10 ^ power`. A power below `-308` is taken off in steps, until nothing is left of `x`; one
above `308`, or a result that is too large, is refused. -/
def rescale (x : Float) (power : Int) : Option Float :=
  if power < -308 then
    if x == 0 then some x else rescale (x / powerOfTen 308) (power + 308)
  else if power < 0 then some (x / powerOfTen power.natAbs)
  else if 308 < power then
    if x == 0 then some x else none
  else
    let y := x * powerOfTen power.natAbs
    if y.isInf then none else some y
termination_by (-power).toNat
decreasing_by omega

/-- The double of a numeral: a minus sign or none, digits, perhaps a point with digits behind it,
perhaps a power of ten. -/
def readScaled (numeral : String) : Option Float := do
  let (negative, cs) := match numeral.toList with
    | '-' :: cs => (true, cs)
    | cs => (false, cs)
  let (whole, rest) := cs.span Char.isDigit
  let (fraction, rest) := readFraction rest
  let power ← readPower rest
  let (n, extra) := gather 0 whole
  let (n, dropped) := gather n fraction
  let shift : Int := extra.length - (fraction.length - dropped.length)
  let x ← rescale (ofDecimal false n 0) (power + shift)
  return if negative then -x else x

/-- No more digits are left than there were. -/
theorem gather_length (n : Nat) (cs : List Char) : (gather n cs).2.length ≤ cs.length := by
  induction cs generalizing n with
  | nil => simp [gather]
  | cons c cs ih =>
    simp only [gather]
    split
    · exact Nat.le_succ_of_le (ih _)
    · exact Nat.le_refl _

/-- What is gathered fits a word. -/
theorem gather_lt {n : Nat} (h : n < Word.limit) (cs : List Char) :
    (gather n cs).1 < Word.limit := by
  induction cs generalizing n with
  | nil => exact h
  | cons c cs ih =>
    simp only [gather]
    split
    · next hm => exact ih hm
    · exact h

end LatticeWalk.Decimal
