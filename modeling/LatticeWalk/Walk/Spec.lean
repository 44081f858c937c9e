import LatticeWalk.Boundary
import LatticeWalk.Coin.Family
import LatticeWalk.Shift

/-! # Walk specifications

What a walk is to be: its dimensions, where the walker starts, the coin, the boundaries and the
decoherence.

* `Decoherence`: coin wires that are reset after every so many steps.
* `WalkSpec`: all of it; `WalkSpec.coinWidth` is the width of the coin that follows. -/

namespace LatticeWalk

/-- Coin wires that are reset in a cycle of steps. -/
structure Decoherence where
  cycleLength : Nat
  /-- The wires of the coin, wire 0 the least significant. -/
  targets : List Nat
  deriving Repr, DecidableEq

/-- What a walk is to be. -/
structure WalkSpec (R : Type) where
  /-- The width of the position register of each dimension. -/
  widths : List Nat
  /-- The pattern of the starting position along each dimension; zero if not given. -/
  initial : Option (List String) := none
  coin : CoinFamily := .hadamard
  params : CoinParams R := .empty
  /-- The width of the coin; as narrow as the moves allow if not given. -/
  coinWidth? : Option Nat := none
  controls : List (BoundaryControl R) := []
  decoherence : Option Decoherence := none

/-- The width of the coin. -/
def WalkSpec.coinWidth {R : Type} (spec : WalkSpec R) : Nat :=
  spec.coinWidth?.getD (Shift.defaultCoinWidth spec.widths.length)

end LatticeWalk
