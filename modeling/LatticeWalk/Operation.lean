import LatticeWalk.Failure
import LatticeWalk.Gate

/-! # Operations

The entries of a program: a single gate, a library operator bound to wires, a reset of wires to zero
or a barrier. -/

namespace LatticeWalk

/-- One entry of a program. -/
inductive Operation (R : Type) where
  | gate (gate : Gate R)
  /-- An operator on the wires of the program, with its gates on those wires. -/
  | apply (name : String) (label : Option String) (wires : List Nat) (gates : List (Gate R))
  /-- Every target is brought to zero. -/
  | reset (targets : List Nat)
  /-- Leaves the state as it is and marks a place in the program. -/
  | barrier
  deriving Repr, DecidableEq

namespace Operation

variable {R : Type}

/-- The wires that an operation names. -/
def wires : Operation R → List Nat
  | gate g => g.wires
  | apply _ _ wires _ => wires
  | reset targets => targets
  | barrier => []

/-- The gates that an operation consists of. -/
def gates : Operation R → List (Gate R)
  | gate g => [g]
  | apply _ _ _ gates => gates
  | reset _ => []
  | barrier => []

def isReset : Operation R → Bool
  | reset _ => true
  | _ => false

def isBarrier : Operation R → Bool
  | barrier => true
  | _ => false

/-- Wires in listings. -/
def spellWires (wires : List Nat) : String := "[" ++ ",".intercalate (wires.map wireName) ++ "]"

/-- A control in listings. -/
def spellControl (c : Control) : String := wireName c.wire ++ "=" ++ if c.value then "1" else "0"

/-- An operation in listings. -/
def spell [Scalar R] : Operation R → String
  | gate g =>
    let plain := g.transform.spell ++ " " ++ wireName g.target
    if g.controls.isEmpty then plain
    else "C[" ++ ",".intercalate (g.controls.map spellControl) ++ "] " ++ plain
  | apply name label wires gates =>
    let tag := match label with
      | some text => " <" ++ text ++ ">"
      | none => ""
    let count := gates.length
    name ++ tag ++ " on " ++ spellWires wires ++ s!" ({count} gates)"
  | reset targets => "reset " ++ spellWires targets
  | barrier => "barrier"

end Operation

end LatticeWalk
