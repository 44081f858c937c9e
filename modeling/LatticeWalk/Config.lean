import LatticeWalk.Boundary.Spec
import LatticeWalk.Data
import LatticeWalk.Walk.Spec

/-! # Experiment configurations

An experiment as it is described in a configuration file: dimensions of equal width, written
boundaries, a coin by name with written parameters.

* `ExperimentConfig.read?`: the configuration that data describe; `ExperimentConfig.toData` goes
  back.
* `InitialStates.resolve`: the starting position along each dimension.
* `ExperimentConfig.toWalkSpec`: the walk that is described. -/

namespace LatticeWalk

/-- The starting position as it is written. -/
inductive InitialStates where
  /-- Patterns between blanks, or the word `auto`. -/
  | words (text : String)
  | list (patterns : List String)
  deriving Repr, DecidableEq

namespace InitialStates

/-- One pattern per dimension. The word `auto` stands for the value just below the centre. -/
def resolve (states : InitialStates) (dimensions width : Nat) : List String :=
  match states with
  | words text =>
    if Text.trim text = "auto" then List.replicate dimensions ("0" ++ Pattern.ones (width - 1))
    else Text.words text
  | list patterns => patterns

def read? : Data → Option InitialStates
  | .text value => some (words value)
  | other => (other.listOf? Data.text?).map list

def toData : InitialStates → Data
  | words text => .text text
  | list patterns => .list (patterns.map .text)

end InitialStates

namespace FallbackPolicy

/-- The name of a policy in data. -/
def word : FallbackPolicy → String
  | basisRotation => "basis_rotation"
  | noControl => "no_control"

/-- The policy of a name. -/
def ofWord? : String → Option FallbackPolicy
  | "basis_rotation" => some basisRotation
  | "no_control" => some noControl
  | _ => none

/-- A policy by its name, which may also stand as the only field of a record, without a value. -/
def read? : Data → Option FallbackPolicy
  | .text value => ofWord? value
  | .record [(name, .null)] => ofWord? name
  | _ => none

end FallbackPolicy

namespace Decoherence

def fieldNames : List String := ["cycle_length", "target_qubits"]

def read? (data : Data) : Option Decoherence := do
  match ← data.members fieldNames with
  | [cycleLength, targets] =>
    return ⟨← Data.required Data.count? cycleLength,
      ← Data.required (Data.listOf? Data.count?) targets⟩
  | _ => none

def toData (cycle : Decoherence) : Data :=
  .record (fieldNames.zip [.count cycle.cycleLength, .list (cycle.targets.map .count)])

end Decoherence

/-- An experiment as it is described in a file. -/
structure ExperimentConfig where
  dimensions : Nat
  /-- The width of each dimension. -/
  width : Nat
  boundaries : List String
  initial : InitialStates
  coin : String
  coinParams : String
  coinWidth? : Option Nat
  steps : Nat
  shots : Nat
  /-- What stands in for an unknown operator of a boundary. -/
  fallback : FallbackPolicy
  decoherence : Option Decoherence
  deriving Repr, DecidableEq

namespace ExperimentConfig

/-- The fields of the file, in the order in which a list gives them. -/
def fieldNames : List String :=
  ["ndims", "nqubits", "boundaries", "initial_states", "coin", "coin_kwargs", "n_shift_coin_bits",
    "nsteps", "shots", "fallback", "decoherence"]

/-- The configuration that data describe. All but the first two fields may be missing. -/
def read? (data : Data) : Option ExperimentConfig := do
  match ← data.members fieldNames with
  | [dimensions, width, boundaries, initial, coin, params, coinWidth, steps, shots, fallback,
      decoherence] =>
    return {
      dimensions := ← Data.required Data.count? dimensions
      width := ← Data.required Data.count? width
      boundaries := ← Data.defaulted (Data.listOf? Data.text?) [] boundaries
      initial := ← Data.defaulted InitialStates.read? (.words "auto") initial
      coin := ← Data.defaulted Data.text? "Hadamard" coin
      coinParams := ← Data.defaulted Data.text? "" params
      coinWidth? := ← Data.defaulted (Data.optional? Data.count?) none coinWidth
      steps := ← Data.defaulted Data.count? 10 steps
      shots := ← Data.defaulted Data.count? 1024 shots
      fallback := ← Data.defaulted FallbackPolicy.read? .basisRotation fallback
      decoherence := ← Data.defaulted (Data.optional? Decoherence.read?) none decoherence }
  | _ => none

/-- A value, or nothing. -/
def dataOrNull {α : Type} (f : α → Data) : Option α → Data
  | some a => f a
  | none => .null

/-- The configuration as data, all fields given. -/
def toData (c : ExperimentConfig) : Data :=
  .record (fieldNames.zip
    [.count c.dimensions, .count c.width, .list (c.boundaries.map .text), c.initial.toData,
      .text c.coin, .text c.coinParams, dataOrNull .count c.coinWidth?, .count c.steps,
      .count c.shots, .text c.fallback.word, dataOrNull Decoherence.toData c.decoherence])

/-- The written boundaries. -/
def boundarySpecs (c : ExperimentConfig) : Except Failure (List BoundarySpec) :=
  c.boundaries.mapM BoundarySpec.read

/-- The coin of the walk. An unknown name stands for the Hadamard coin, whatever the policy for
boundaries is. -/
def shiftCoin (c : ExperimentConfig) : Except Failure CoinFamily :=
  let family := FallbackPolicy.basisRotation.resolve c.coin
  if family.isShiftCoin then .ok family else refuse (.unusableCoin c.coin)

/-- The controls of the boundaries. -/
def controls {R : Type} [Scalar R] (c : ExperimentConfig) :
    Except Failure (List (BoundaryControl R)) := do
  let specs ← c.boundarySpecs
  buildControls specs c.fallback

/-- The walk that is described. -/
def toWalkSpec {R : Type} [Scalar R] (c : ExperimentConfig) : Except Failure (WalkSpec R) := do
  if c.dimensions = 0 ∨ c.width = 0 then refuse .noExtent
  let controls ← c.controls
  let params ← CoinParams.read c.coinParams
  let coin ← c.shiftCoin
  return { widths := List.replicate c.dimensions c.width
           initial := some (c.initial.resolve c.dimensions c.width)
           coin := coin
           params := params
           coinWidth? := c.coinWidth?
           controls := controls
           decoherence := c.decoherence }

end ExperimentConfig

end LatticeWalk
