import LatticeWalk.Operation
import LatticeWalk.Register

/-! # Shifts

A shift adds or subtracts one on a position register by a cascade of flips, each under the whole
coin and the position wires below its target. From the bottom wire up the cascade subtracts, from
the top wire down it adds, both modulo `2 ^ w` and only where the coin is all ones; between flips of
the coin it acts on any other value of the coin.

* `Shift.ripple`: the cascade; `Shift.wrap`: the same for one value of the coin.
* `Shift.movePatterns`: the values of the coin that move each dimension.
* `Shift.defaultCoinWidth`: the narrowest coin that has a value for every move. -/

namespace LatticeWalk

/-- The direction of a shift. -/
inductive Direction where
  /-- Toward lower index. -/
  | left
  /-- Toward higher index. -/
  | right
  deriving Repr, DecidableEq

/-- The two values of the coin that move a dimension. -/
structure MovePattern where
  dimension : Nat
  left : String
  right : String
  deriving Repr, DecidableEq

namespace Shift

variable {R : Type}

/-- The flip of position wire `i` under the coin and the position wires below. -/
def cascadeGate (coin position : Register) (i : Nat) : Operation R :=
  .gate (.controlled .flip (coin.wires ++ (List.range i).map position.wire) (position.wire i))

/-- The order in which the position wires are flipped. -/
def order (direction : Direction) (width : Nat) : List Nat :=
  match direction with
  | .left => List.range width
  | .right => (List.range width).reverse

/-- The cascade and a barrier. -/
def ripple (direction : Direction) (coin position : Register) : List (Operation R) :=
  (order direction position.width).map (cascadeGate coin position) ++ [.barrier]

/-- The flips that exchange a value of the coin and the value of all ones. -/
def selection (coin : Register) (pattern : String) : List (Operation R) :=
  (Pattern.wires false pattern).map fun wire => .gate (.plain .flip (coin.wire wire))

/-- A shift for the coin value `pattern` only, and a barrier. -/
def wrap (coin : Register) (pattern : String) (shift : List (Operation R)) :
    Except Failure (List (Operation R)) := do
  Pattern.checkWidth pattern coin.width "coin bitstring"
  return selection coin pattern ++ shift ++ selection coin pattern ++ [.barrier]

/-- The number of coin values in which the most significant bit is zero. -/
def halfValues? : Nat → Option Nat
  | 0 => none
  | width + 1 => Word.bit? width

/-- The coin values of `n` dimensions: dimension `d` moves right on value `d` and left on the value
with the opposite most significant bit. A pattern is cut out of a word, bit by bit, so none is wider
than the word. -/
def movePatterns (n width : Nat) : Except Failure (List MovePattern) :=
  match halfValues? width with
  | none => refuse .coinWithoutWires
  | some half =>
    if half < n then refuse (.coinTooNarrow width (2 * n))
    else if 0 < n ∧ 64 < width then refuse .shiftOverflow
    else .ok ((List.range n).map fun d =>
      ⟨d, Pattern.ofValue (half + d) width, Pattern.ofValue d width⟩)

/-- The number of bits that tell all `2 n` moves apart, at least one. -/
def defaultCoinWidth (n : Nat) : Nat := (max (2 * n) 2 - 1).log2 + 1

end Shift

end LatticeWalk
