import LatticeWalk.Boundary
import LatticeWalk.Coin.Family
import LatticeWalk.Text.LetterCase
import LatticeWalk.Text.Numeral

/-! # Written boundaries

A boundary is written `type-dimension-bitstring-class-n`: its kind (`hard`, `soft`, `oneway`,
`absorbing`, or the first letter), the dimension and the value of the plane, the operator on its
control register and the width of that register. The last two may be left out.

* `BoundarySpec.read`: a written boundary.
* `BoundarySpec.code`: boundaries with the same code share a control.
* `buildControls`: the controls of a list of boundaries, in the order in which their codes occur
  first. -/

namespace LatticeWalk

open LatticeWalk.Text

/-- What is written of a boundary. -/
structure BoundarySpec where
  kind : BoundaryKind
  boundary : Boundary
  /-- The name of the operator on the control register. -/
  operatorName : String
  controlWires : Nat
  deriving Repr, DecidableEq

namespace BoundarySpec

/-- What tells the boundaries of one control from those of another. -/
def code (spec : BoundarySpec) : String :=
  match spec.kind with
  | .hard => "N-0"
  | .permeable => spec.operatorName ++ "-" ++ toString spec.controlWires
  | .oneWay => "oneway-" ++ toString spec.controlWires
  | .absorbing => "absorbing-" ++ toString spec.controlWires

/-- A count of wires, or a given one if nothing is written. -/
def readCount (text field : String) (default : Nat) : Except Failure Nat :=
  if field.isEmpty then .ok default
  else match readBelow Word.limit field with
    | some n => .ok n
    | none => refuse (.boundaryCount field text)

/-- The kind of a boundary and the width of its control register; three wires count the crossings of
a one-way boundary if nothing is written. -/
def readKind (text field count : String) : Except Failure (BoundaryKind × Nat) := do
  let word := lower field
  if word = "h" ∨ word = "hard" then return (.hard, 0)
  else if word = "s" ∨ word = "soft" then return (.permeable, ← readCount text count 1)
  else if word = "o" ∨ word = "oneway" then return (.oneWay, ← readCount text count 3)
  else if word = "a" ∨ word = "absorbing" then return (.absorbing, ← readCount text count 1)
  else refuse (.boundaryType word text)

/-- Whether an operator may be named for a kind: not where the operator is fixed, but for the name
of the counter of one-way boundaries. -/
def mayName (kind : BoundaryKind) (operator : String) : Bool :=
  match kind with
  | .hard | .permeable => true
  | .oneWay => operator.isEmpty || operator == CoinFamily.cyclicController.name
  | .absorbing => operator.isEmpty

/-- A boundary of at least three fields and at most five. -/
def ofFields (text : String) (fields : List String) : Except Failure BoundarySpec := do
  let field (i : Nat) : String := trim (fields.getD i "")
  let dimension ← match readBelow Word.limit (field 1) with
    | some n => pure n
    | none => refuse (.boundaryDimension (field 1) text)
  let boundary ← Boundary.make (field 2) dimension none
  let (kind, wires) ← readKind text (field 0) (field 4)
  if !mayName kind (field 3) then refuse (.boundaryClass kind (field 3) text)
  else if kind ≠ .hard ∧ wires = 0 then refuse (.boundaryWithoutControl text)
  else return ⟨kind, boundary, field 3, wires⟩

/-- A written boundary. -/
def read (text : String) : Except Failure BoundarySpec :=
  let fields := split '-' (trim text)
  if 3 ≤ fields.length ∧ fields.length ≤ 5 then ofFields text fields
  else refuse (.boundaryForm text)

/-- The control that a boundary asks for, without planes. -/
def control {R : Type} [Scalar R] (policy : FallbackPolicy) (spec : BoundarySpec) :
    Except Failure (BoundaryControl R) :=
  match spec.kind with
  | .hard => .ok .hard
  | .oneWay => BoundaryControl.oneWay spec.controlWires
  | .absorbing => BoundaryControl.absorbing spec.controlWires
  | .permeable =>
    match policy.resolve spec.operatorName with
    | .cyclicController => BoundaryControl.oneWay spec.controlWires
    | family => do
      match ← family.build (R := R) spec.controlWires .empty with
      | some op => return .permeable op
      | none => return .hard

end BoundarySpec

/-- Controls under construction, each with its code. -/
abbrev ControlGroups (R : Type) := List (String × BoundaryControl R)

/-- A plane added to the first group with the given code. -/
def ControlGroups.add {R : Type} (code : String) (plane : Boundary) :
    ControlGroups R → ControlGroups R
  | [] => []
  | g :: gs =>
    if g.1 = code then (g.1, g.2.addBoundaries [plane]) :: gs
    else g :: ControlGroups.add code plane gs

/-- A written boundary put into the group of its code, which it opens if there is none. -/
def ControlGroups.place {R : Type} [Scalar R] (policy : FallbackPolicy) (groups : ControlGroups R)
    (spec : BoundarySpec) : Except Failure (ControlGroups R) :=
  if groups.any fun g => g.1 == spec.code then .ok (groups.add spec.code spec.boundary)
  else do
    let control ← spec.control policy
    return groups ++ [(spec.code, control.addBoundaries [spec.boundary])]

/-- The controls of written boundaries. -/
def buildControls {R : Type} [Scalar R] (specs : List BoundarySpec) (policy : FallbackPolicy) :
    Except Failure (List (BoundaryControl R)) := do
  let groups ← specs.foldlM (ControlGroups.place policy) ([] : ControlGroups R)
  return groups.map Prod.snd

end LatticeWalk
