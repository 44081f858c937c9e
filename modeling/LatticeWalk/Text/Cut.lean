import LatticeWalk.Text.Blank

/-! # Cutting texts at separators

* `cut`: the pieces between the separators of a list of characters; one more piece than there are
  separators, so an empty text has one empty piece.
* `split`, `splitOnce`: the same on texts, at every and at the first separator.
* `words`: the pieces between blanks that are not empty.
* `padLeft`: a text filled up on the left. -/

namespace LatticeWalk.Text

/-- The pieces between the characters that satisfy `sep`. -/
def cut (sep : Char → Bool) : List Char → List (List Char)
  | [] => [[]]
  | c :: cs =>
    if sep c then [] :: cut sep cs
    else match cut sep cs with
      | [] => [[c]]
      | piece :: rest => (c :: piece) :: rest

/-- The pieces of a text between the separators `sep`. -/
def split (sep : Char) (s : String) : List String :=
  (cut (· == sep) s.toList).map String.ofList

/-- What stands before and after the first `sep`, if there is one. -/
def cutOnce (sep : Char) : List Char → Option (List Char × List Char)
  | [] => none
  | c :: cs => if c = sep then some ([], cs) else (cutOnce sep cs).map fun p => (c :: p.1, p.2)

/-- The texts before and after the first `sep`, if there is one. -/
def splitOnce (sep : Char) (s : String) : Option (String × String) :=
  (cutOnce sep s.toList).map fun p => (String.ofList p.1, String.ofList p.2)

/-- The runs of characters that are not blank. -/
def words (s : String) : List String :=
  ((cut isBlank s.toList).filter fun piece => !piece.isEmpty).map String.ofList

/-- `n` copies of a character as a text. -/
def replicate (n : Nat) (c : Char) : String := String.ofList (List.replicate n c)

/-- Filled up with `fill` on the left until at least `width` characters long. -/
def padLeft (width : Nat) (fill : Char) (s : String) : String :=
  replicate (width - s.length) fill ++ s

theorem cut_ne_nil (sep : Char → Bool) (cs : List Char) : cut sep cs ≠ [] := by
  induction cs with
  | nil => simp [cut]
  | cons c cs ih =>
    unfold cut
    split
    · simp
    · split <;> simp

theorem length_cut (sep : Char → Bool) (cs : List Char) :
    (cut sep cs).length = cs.countP sep + 1 := by
  induction cs with
  | nil => rfl
  | cons c cs ih =>
    by_cases h : sep c
    · simp [cut, h, ih]
    · cases hp : cut sep cs with
      | nil => exact absurd hp (cut_ne_nil sep cs)
      | cons piece rest => simp_all [cut]

end LatticeWalk.Text
