import LatticeWalk.Failure
import LatticeWalk.Operator.Coins
import LatticeWalk.OrderedMap
import LatticeWalk.Text.Cut

/-! # Coin parameters

Parameters of a coin are written `key=value`, with commas between them. A value is a number or a
list of numbers in brackets, with semicolons between them; a number is a decimal literal or `pi`,
and may be a product of such factors over one more.

* `readNumber`: a written number.
* `ParamValue.read`: a written value.
* `CoinParams.read`: written parameters. Blanks around keys and values and empty segments are left
  out; a key may occur only once. -/

namespace LatticeWalk

open LatticeWalk.Text

/-- The value of a parameter. -/
inductive ParamValue (R : Type) where
  | scalar (value : R)
  | list (values : List R)
  deriving Repr, DecidableEq

section number
variable {R : Type} [Scalar R]

/-- A text without a minus sign in front, and whether it had one. -/
def splitMinus (s : String) : Bool × String :=
  match s.toList with
  | '-' :: cs => (true, trim (String.ofList cs))
  | _ => (false, s)

/-- A literal or `pi`, in any case of letters. -/
def readMagnitude (s : String) : Option R :=
  if s.toList.map Char.toLower = ['p', 'i'] then some Scalar.pi else Numeral.read? s

/-- One factor of a written number; `text` is the whole of it. -/
def readFactor (text token : String) : Except Failure R :=
  let factor := trim token
  let (negative, body) := splitMinus factor
  let sign : R := if negative then -1 else 1
  match readMagnitude body with
  | some value => .ok (sign * value)
  | none => refuse (.notNumber factor text)

/-- A product of factors, from left to right. -/
def readProduct (text : String) : R → List String → Except Failure R
  | value, [] => .ok value
  | value, token :: tokens => do
    let factor ← readFactor text token
    readProduct text (value * factor) tokens

/-- A quotient, refused if the divisor is zero. -/
def divideBy (text : String) (value divisor : R) : Except Failure R :=
  if divisor ≤ 0 ∧ 0 ≤ divisor then refuse (.divisionByZero text) else .ok (value / divisor)

/-- A written number. -/
def readNumber (s : String) : Except Failure R :=
  let text := trim s
  if text.isEmpty then refuse .emptyNumber
  else match splitOnce '/' text with
    | none => readProduct text 1 (split '*' text)
    | some (above, below) => do
      let value ← readProduct text 1 (split '*' above)
      let divisor ← readFactor text below
      divideBy text value divisor

end number

namespace ParamValue

variable {R : Type}

/-- A single number, refused for a list. -/
def asScalar (key : String) : ParamValue R → Except Failure R
  | scalar value => .ok value
  | list _ => refuse (.notSingle key)

/-- The value as angles: a number for all wires, a list for one wire after the other. -/
def toAngles : ParamValue R → Angles R
  | scalar value => .uniform value
  | list values => .perWire values

variable [Scalar R]

/-- The value as a text. -/
def spell : ParamValue R → String
  | scalar value => Numeral.spell value
  | list values => "[" ++ ";".intercalate (values.map Numeral.spell) ++ "]"

/-- What stands between brackets, if the text is in brackets. -/
def insideBrackets (s : String) : Option String :=
  match s.toList with
  | '[' :: cs =>
    match cs.reverse with
    | ']' :: inner => some (String.ofList inner.reverse)
    | _ => none
  | _ => none

/-- A written value. -/
def read (s : String) : Except Failure (ParamValue R) :=
  let text := trim s
  match insideBrackets text with
  | none => (readNumber text).map scalar
  | some inner =>
    if (trim inner).isEmpty then .ok (list [])
    else ((split ';' inner).mapM readNumber).map list

end ParamValue

/-- Values of parameters by key. -/
abbrev CoinParams (R : Type) := OrderedMap String (ParamValue R)

namespace CoinParams

variable {R : Type}

/-- The value of a parameter that must be given; `owner` is what messages call the coin. -/
def require (params : CoinParams R) (key owner : String) : Except Failure (ParamValue R) :=
  match params.find? key with
  | some value => .ok value
  | none => refuse (.missingKey owner key)

/-- Refuses a key that is not allowed. -/
def checkKeys (params : CoinParams R) (allowed : List String) (owner : String) :
    Except Failure Unit :=
  match params.keys.find? fun key => !allowed.contains key with
  | some key => refuse (.unknownKey owner key allowed)
  | none => .ok ()

/-- The segments between commas, without the empty ones. -/
def segments (s : String) : List String :=
  ((split ',' s).map trim).filter fun segment => !segment.isEmpty

/-- Adds the parameter that a segment gives, its value read by `value`. -/
def addSegment (value : String → Except Failure (ParamValue R)) (params : CoinParams R)
    (segment : String) : Except Failure (CoinParams R) :=
  match splitOnce '=' segment with
  | none => refuse (.notPair segment)
  | some (left, right) =>
    let key := trim left
    if key.isEmpty then refuse (.emptyKey segment)
    else if (params.find? key).isSome then refuse (.keyTwice key)
    else do
      let v ← value right
      return params.insert key v

/-- Written parameters with values read by `value`. -/
def readWith (value : String → Except Failure (ParamValue R)) (s : String) :
    Except Failure (CoinParams R) :=
  (segments s).foldlM (addSegment value) .empty

/-- Written parameters. -/
def read [Scalar R] (s : String) : Except Failure (CoinParams R) := readWith ParamValue.read s

end CoinParams

end LatticeWalk
