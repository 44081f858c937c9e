import LatticeWalk.Attempt
import LatticeWalk.Operator
import LatticeWalk.Register

/-! # Circuits

A circuit is a program over the wires of a layout: a list of operations in the order in which they
are executed. An operation is added only if the layout has all its wires.

* `Circuit.add`, `Circuit.addAll`, `Circuit.append`: operations added at the end; of several, those
  in front of the first that is refused stay added.
* `Circuit.listing`: the program as a text. -/

namespace LatticeWalk

/-- Operations in order over a layout. -/
structure Circuit (R : Type) where
  layout : Layout
  operations : List (Operation R)
  deriving Repr, DecidableEq

namespace Circuit

variable {R : Type}

/-- The program without operations. -/
def empty (layout : Layout) : Circuit R := ⟨layout, []⟩

/-- The number of wires. -/
def width (c : Circuit R) : Nat := c.layout.width

/-- Refuses an operation with a wire outside the layout. -/
def check [Scalar R] (c : Circuit R) (op : Operation R) : Except Failure Unit :=
  match op.wires.find? fun w => c.width ≤ w with
  | some wire => refuse (.wireOutside op.spell wire c.width)
  | none => .ok ()

/-- The program with one more operation at its end, unchecked. -/
def push (c : Circuit R) (op : Operation R) : Circuit R :=
  { c with operations := c.operations ++ [op] }

/-- Adds an operation. -/
def add [Scalar R] (op : Operation R) : Attempt (Circuit R) Unit :=
  .of fun c => match c.check op with
    | .ok _ => (.ok (), c.push op)
    | .error e => (.error e, c)

/-- Adds operations up to the first that is refused. -/
def addAll [Scalar R] : List (Operation R) → Attempt (Circuit R) Unit
  | [] => pure ()
  | op :: ops => do
    add op
    addAll ops

/-- Adds an operator on given wires. -/
def append [Scalar R] (op : Operator R) (wires : List Nat) : Attempt (Circuit R) Unit := do
  let operation ← Attempt.check (op.bind wires)
  add operation

/-- Adds a barrier. -/
def addBarrier : Attempt (Circuit R) Unit := .of fun c => (.ok (), c.push .barrier)

/-- The layout alone. -/
def clear (c : Circuit R) : Circuit R := empty c.layout

/-- The number of operations. -/
def length (c : Circuit R) : Nat := c.operations.length

/-- Whether some operation is a reset. -/
def hasResets (c : Circuit R) : Bool := c.operations.any Operation.isReset

/-- The number of gates that all operations consist of. -/
def gateCount (c : Circuit R) : Nat := (c.operations.map fun op => op.gates.length).foldr (· + ·) 0

/-- One operation with its place in the program. -/
def listingLine [Scalar R] (digits : Nat) (entry : Operation R × Nat) : String :=
  let text := if entry.1.isBarrier then "----" else entry.1.spell
  "  " ++ Text.padLeft digits ' ' (toString entry.2) ++ " " ++ text ++ "\n"

/-- The program as a text: registers, then operations. -/
def listing [Scalar R] (c : Circuit R) : String :=
  let digits := (toString c.length).length
  let head := s!"qwalk::Circuit[{c.length} operations, {c.gateCount} gates on {c.width} wires]\n"
  let registers := c.layout.registers.map fun r => "  reg " ++ r.spell ++ "\n"
  let lines := c.operations.zipIdx.map (listingLine digits)
  head ++ String.join registers ++ String.join lines

theorem outcome_add [Scalar R] (op : Operation R) (c : Circuit R) :
    (add op).outcome c =
      match c.check op with
      | .ok _ => (.ok (), c.push op)
      | .error e => (.error e, c) := rfl

end Circuit

end LatticeWalk
