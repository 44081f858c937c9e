import LatticeWalk.Coin.Params

/-! # Coins by name

The coins and control operators that a configuration can name, with the parameters that each takes.

* `CoinFamily.ofName?`, `CoinFamily.name`: the names; some coins have a short one besides.
* `CoinFamily.build`: the operator of a coin on so many wires.
* `FallbackPolicy.resolve`: what stands in for a name that no coin has. -/

namespace LatticeWalk

/-- The coins and control operators with a name. -/
inductive CoinFamily where
  | hadamard
  | flip
  | grover
  | fourier
  | phaseKickback
  | kickback (variant : Kickback)
  | su2
  | cyclicController
  /-- No control operator at all. -/
  | noControl
  deriving Repr, DecidableEq

namespace CoinFamily

/-- The coin of a name, capital and small letters told apart. -/
def ofName? : String → Option CoinFamily
  | "N" => some noControl
  | "Hadamard" | "H" => some hadamard
  | "X" => some flip
  | "Grover" | "G" => some grover
  | "DFT" => some fourier
  | "PhaseKickback" | "PK" => some phaseKickback
  | "RK" | "RightKickback" => some (kickback .right)
  | "RPK" => some (kickback .rightPlus)
  | "RMK" => some (kickback .rightMinus)
  | "LK" | "LeftKickback" => some (kickback .left)
  | "LPK" => some (kickback .leftPlus)
  | "LMK" => some (kickback .leftMinus)
  | "SU2" => some su2
  | "Cyclic_controller" => some cyclicController
  | _ => none

/-- The name of a coin. -/
def name : CoinFamily → String
  | hadamard => "Hadamard"
  | flip => "X"
  | grover => "Grover"
  | fourier => "DFT"
  | phaseKickback => "PhaseKickback"
  | kickback .right => "RK"
  | kickback .rightPlus => "RPK"
  | kickback .rightMinus => "RMK"
  | kickback .left => "LK"
  | kickback .leftPlus => "LPK"
  | kickback .leftMinus => "LMK"
  | su2 => "SU2"
  | cyclicController => "Cyclic_controller"
  | noControl => "N"

/-- Whether the coin can direct a walk. A counter and the absence of control cannot. -/
def isShiftCoin : CoinFamily → Bool
  | cyclicController | noControl => false
  | _ => true

/-- The parameters that a coin takes. -/
def keys : CoinFamily → List String
  | phaseKickback => ["lam"]
  | su2 => ["theta", "zeta", "xi", "p"]
  | _ => []

variable {R : Type} [Scalar R]

/-- The rotation by given angles, or the one with a given transmission probability. -/
def buildSu2 (n : Nat) (params : CoinParams R) : Except Failure (Operator R) :=
  match params.find? "p" with
  | some p => do
    CoinParams.checkKeys params ["p"] "SU2 with a transmission probability"
    let transmission ← p.asScalar "p"
    Operator.permeability n transmission
  | none => do
    let theta ← CoinParams.require params "theta" su2.name
    let zeta ← CoinParams.require params "zeta" su2.name
    let xi ← CoinParams.require params "xi" su2.name
    Operator.su2 n theta.toAngles zeta.toAngles xi.toAngles

/-- The operator of a coin on `n` wires, if the coin has one. -/
def build (family : CoinFamily) (n : Nat) (params : CoinParams R) :
    Except Failure (Option (Operator R)) := do
  CoinParams.checkKeys params family.keys family.name
  match family with
  | noControl => return none
  | hadamard => return some (.hadamard n)
  | flip => return some (.flip n)
  | grover => return some (.diffusion n)
  | fourier => return some (.fourier n)
  | phaseKickback =>
    let lam ← CoinParams.require params "lam" family.name
    let angle ← lam.asScalar "lam"
    return some (.phaseKickback n angle)
  | kickback variant => return some (.kickback n variant)
  | cyclicController => return some (.cyclicIncrement n)
  | su2 => (buildSu2 n params).map some

/-- A coin is found under its own name. -/
theorem ofName?_name (family : CoinFamily) : ofName? family.name = some family := by
  cases family with
  | kickback variant => cases variant <;> rfl
  | _ => rfl

end CoinFamily

/-- What stands in for a name that no coin has. -/
inductive FallbackPolicy where
  /-- The Hadamard coin. -/
  | basisRotation
  /-- No control operator: the boundary becomes hard. -/
  | noControl
  deriving Repr, DecidableEq

/-- The coin of a name, or what stands in for it. -/
def FallbackPolicy.resolve (policy : FallbackPolicy) (name : String) : CoinFamily :=
  match CoinFamily.ofName? name with
  | some family => family
  | none =>
    match policy with
    | basisRotation => .hadamard
    | noControl => .noControl

end LatticeWalk
