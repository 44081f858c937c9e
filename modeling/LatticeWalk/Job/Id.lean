import LatticeWalk.Text.Numeral
import LatticeWalk.Word

/-! # Job identifiers

A job queue numbers its submissions from one on. An identifier is written `job-` and the number
with at least six digits; what is read back may have any number of digits. -/

namespace LatticeWalk

/-- The number of a submitted job. -/
structure JobId where
  number : Nat
  deriving Repr, DecidableEq

namespace JobId

open LatticeWalk.Text

/-- The written form, such as `job-000012`. -/
def spell (id : JobId) : String := "job-" ++ padLeft 6 '0' (Nat.repr id.number)

/-- What follows `job-`, if that is how the text begins. -/
def body : List Char → Option (List Char)
  | 'j' :: 'o' :: 'b' :: '-' :: digits => some digits
  | _ => none

/-- The identifier of a written form, with a number that fits a word. -/
def read? (s : String) : Option JobId :=
  (body s.toList).bind fun digits => (readBelow Word.limit (String.ofList digits)).map JobId.mk

end JobId

end LatticeWalk
