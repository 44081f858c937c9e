import LatticeWalk.Text.Numeral
import LatticeWalk.Word

/-! # Structured data

The values that a configuration file is made of. Whether a number counts as an index or a count is
decided by how it is written: as digits alone, and small enough for a word.

* `Data`: the values; `Data.ofNumeral` is a number by its text.
* `Data.field`, `Data.item`: parts of a value, empty where it has no such part.
* `Data.members`: the fields of a record by their names, or of a list by their places.
* `Data.count?`, `Data.bool?`, `Data.text?`, `Data.listOf?`, `Data.optional?`: readers of single
  values. -/

namespace LatticeWalk

/-- A value of a configuration file. -/
inductive Data where
  | null
  | bool (value : Bool)
  | count (n : Nat)
  /-- Any other number, as it was written. -/
  | number (text : String)
  | text (value : String)
  | list (items : List Data)
  | record (fields : List (String × Data))
  deriving Inhabited

namespace Data

/-- A number by its text. -/
def ofNumeral (text : String) : Data :=
  match (Text.readDigits text.toList).filter (· < Word.limit) with
  | some n => count n
  | none => number text

/-- The field of a name. -/
def field? (fields : List (String × Data)) (name : String) : Option Data := fields.lookup name

/-- The value of a field, empty if there is none. -/
def field (data : Data) (name : String) : Data :=
  match data with
  | record fields => (field? fields name).getD null
  | _ => null

/-- The items of a list. -/
def items : Data → List Data
  | list items => items
  | _ => []

/-- An item of a list, empty if there is none. -/
def item (data : Data) (i : Nat) : Data := data.items.getD i null

def isNull : Data → Bool
  | null => true
  | _ => false

/-- The values of the named fields. A record has them by name, and others are left out; a list has
them in order, the last ones perhaps missing, and must not be longer. -/
def members (names : List String) : Data → Option (List (Option Data))
  | record fields => some (names.map (field? fields))
  | list items =>
    if items.length ≤ names.length then
      some (items.map some ++ List.replicate (names.length - items.length) none)
    else none
  | _ => none

def count? : Data → Option Nat
  | count n => some n
  | _ => none

def bool? : Data → Option Bool
  | bool value => some value
  | _ => none

def text? : Data → Option String
  | text value => some value
  | _ => none

/-- A list of values that can all be read. -/
def listOf? {α : Type} (read : Data → Option α) : Data → Option (List α)
  | list items => items.mapM read
  | _ => none

/-- A value that may be left empty. -/
def optional? {α : Type} (read : Data → Option α) : Data → Option (Option α)
  | null => some none
  | value => (read value).map some

/-- A field that must be there. -/
def required {α : Type} (read : Data → Option α) (member : Option Data) : Option α :=
  member.bind read

/-- A field with a value of its own where it is missing. -/
def defaulted {α : Type} (read : Data → Option α) (default : α) : Option Data → Option α
  | none => some default
  | some value => read value

end Data

end LatticeWalk
