import LatticeWalk.Failure
import LatticeWalk.Text.Cut
import LatticeWalk.Word

/-! # Bit patterns

A pattern is a text of zeros and ones, the most significant bit first. For a register of width `w`
its character `j` is the value of wire `w - 1 - j`; wire `i` carries weight `2 ^ i`, and the pattern
read as a binary numeral is the value of the register.

* `Pattern.check`, `Pattern.checkWidth`: whether a text is a pattern, of a given width.
* `Pattern.wireBits`: the values of the wires, wire 0 first.
* `Pattern.ofValue`, `Pattern.toValue`: between patterns and values.
* `Pattern.stepUp`, `Pattern.stepDown`: the cyclic successor and predecessor. -/

namespace LatticeWalk.Pattern

/-- Whether a character is a zero or a one. -/
def isBit (c : Char) : Bool := c == '0' || c == '1'

/-- Refuses a text with any other character than zeros and ones. -/
def check (pattern : String) : Except Failure Unit :=
  match pattern.toList.find? fun c => !isBit c with
  | some bad => refuse (.notBinary pattern bad)
  | none => .ok ()

/-- Refuses a text that is not a pattern of `width` bits; `what` names it in the message. -/
def checkWidth (pattern : String) (width : Nat) (what : String) : Except Failure Unit := do
  check pattern
  if pattern.length ≠ width then refuse (.wrongLength what pattern width) else .ok ()

/-- The pattern of `n` ones. -/
def ones (n : Nat) : String := Text.replicate n '1'

/-- The pattern of `n` zeros. -/
def zeros (n : Nat) : String := Text.replicate n '0'

/-- The values of the wires, wire 0 first. -/
def wireBits (pattern : String) : List Bool := pattern.toList.reverse.map (· == '1')

/-- One bit as a character. -/
def bitChar (b : Bool) : Char := if b then '1' else '0'

/-- The low `width` bits of `value` as characters, the most significant first. -/
def bitsOf (value width : Nat) : List Char :=
  (List.range width).reverse.map fun i => bitChar (value.testBit i)

/-- The low `width` bits of `value`. -/
def ofValue (value width : Nat) : String := String.ofList (bitsOf value width)

/-- The value of binary digits, read after the digits of `acc`. -/
def valueFrom (acc : Nat) : List Char → Nat
  | [] => acc
  | c :: cs => valueFrom (2 * acc + if c == '1' then 1 else 0) cs

/-- The value of a pattern, refused if it does not fit a word. -/
def toValue (pattern : String) : Except Failure Nat := do
  check pattern
  let value := valueFrom 0 pattern.toList
  if value < Word.limit then .ok value else refuse (.patternTooLarge pattern)

/-- The other bit; any character that is not a one counts as a zero. -/
def flip (c : Char) : Char := if c == '1' then '0' else '1'

/-- The lowest bits, least significant first, flipped up to the first that is not `through`. -/
def ripple (through : Char) : List Char → List Char
  | [] => []
  | c :: cs => if c == through then flip c :: ripple through cs else flip c :: cs

/-- The next pattern; after the last, all ones, comes the first, all zeros. -/
def stepUp (pattern : String) : String :=
  String.ofList (ripple '1' pattern.toList.reverse).reverse

/-- The previous pattern; before the first, all zeros, comes the last, all ones. -/
def stepDown (pattern : String) : String :=
  String.ofList (ripple '0' pattern.toList.reverse).reverse

/-- The places that hold `value`, counted from the first: wires with their bit. -/
def wires (wanted : Bool) (pattern : String) : List Nat :=
  ((wireBits pattern).zipIdx.filter fun b => b.1 == wanted).map Prod.snd

theorem length_bitsOf (value width : Nat) : (bitsOf value width).length = width := by
  simp [bitsOf]

theorem length_ripple (through : Char) (cs : List Char) :
    (ripple through cs).length = cs.length := by
  induction cs with
  | nil => rfl
  | cons c cs ih => unfold ripple; split <;> simp [ih]

theorem length_wireBits (pattern : String) : (wireBits pattern).length = pattern.length := by
  simp [wireBits, String.length_toList]

/-- The value of a numeral is that of its first digit and of the rest, each in its place. -/
theorem valueFrom_eq (acc : Nat) (cs : List Char) :
    valueFrom acc cs = acc * Nat.pow 2 cs.length + valueFrom 0 cs := by
  induction cs generalizing acc with
  | nil => simp [valueFrom]
  | cons c cs ih =>
    simp only [valueFrom, List.length_cons, Nat.pow_eq, Nat.pow_succ] at *
    rw [ih (2 * acc + _), ih (2 * 0 + _)]
    grind

end LatticeWalk.Pattern
