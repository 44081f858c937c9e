import LatticeWalk.OrderedMap
import LatticeWalk.Text.Cut

/-! # Folders

The tree of folders in which an experiment leaves its files. Paths are relative to one folder of it,
the base, and written with slashes: a single dot stands for the place where it is, and so does
nothing at all between two slashes; two dots lead one level out. A path is followed name by name, so
a folder must exist even if the next piece leads out of it again.

* `Folder.destination`: what a path leads to.
* `Folder.text?`: the text of a file.
* `Folder.update?`: the text of a file changed, or a new file in a folder that exists.
* `Folder.withParents`: the folders on a path, made where they are missing. -/

namespace LatticeWalk

/-- A place in the tree: the names that lead to it from the base, the last one first. Two dots in
place of a name lead one level out of the base. -/
abbrev Place := List String

/-- The path from the base to a place. -/
def Place.path (place : Place) : String := "/".intercalate place.reverse

/-- One level further out. -/
def Place.outer : Place → Place
  | ".." :: place => ".." :: ".." :: place
  | _ :: place => place
  | [] => [".."]

/-- What a path leads to. -/
inductive Destination where
  | folder (place : Place)
  | file (place : Place) (text : String)
  /-- A name that is not taken, in a folder that exists. -/
  | free (place : Place)
  /-- A folder on the way is missing. -/
  | missing
  /-- The path leads through a file, or no file can have its names. -/
  | barred
  deriving Repr, DecidableEq

/-- Files by their paths from the base, and the folders inside it. -/
structure Folder where
  files : OrderedMap String String
  folders : List Place

namespace Folder

/-- The base alone. -/
def empty : Folder := ⟨.empty, []⟩

/-- The largest number of bytes in a name. -/
def nameLimit : Nat := 255

/-- The largest number of bytes in a path: with the 16 that lead to the base, there are at most
4095. -/
def pathLimit : Nat := 4079

/-- Whether a piece of a path stands for the place where it is. -/
def isHere (piece : String) : Bool := piece == "" || piece == "."

/-- Whether a path can be that of a file or folder at all. -/
def isLegal (path : String) : Bool :=
  decide (path.utf8ByteSize ≤ pathLimit) && !path.toList.contains (Char.ofNat 0)

/-- Whether there is a folder at a place. The levels outside the base exist. -/
def hasFolder (f : Folder) (place : Place) : Bool :=
  place.all (· == "..") || f.folders.contains place

/-- What there is at a place in a folder that exists. -/
def lookUp (f : Folder) (place : Place) : Destination :=
  if f.hasFolder place then .folder place
  else match f.files.find? place.path with
    | some text => .file place text
    | none => .free place

/-- Follows one more piece of a path. -/
def follow (f : Folder) : Destination → String → Destination
  | .folder place, piece =>
    if isHere piece then .folder place
    else if piece == ".." then .folder place.outer
    else if piece.utf8ByteSize ≤ nameLimit then f.lookUp (piece :: place)
    else .barred
  | .free _, _ | .missing, _ => .missing
  | .file _ _, _ | .barred, _ => .barred

/-- What a path leads to. -/
def destination (f : Folder) (path : String) : Destination :=
  if isLegal path then (Text.split '/' path).foldl f.follow (.folder []) else .barred

/-- The text of a file. -/
def text? (f : Folder) (path : String) : Option String :=
  match f.destination path with
  | .file _ text => some text
  | _ => none

/-- The text of a file changed, given what stood there, or a new file in a folder that exists. -/
def update? (f : Folder) (path : String) (change : Option String → String) : Option Folder :=
  match f.destination path with
  | .file place _ | .free place => some { f with files := f.files.alter place.path change }
  | _ => none

/-- Follows one more piece of a path, to a folder that is made if its name is not taken. -/
def enter (s : Folder × Destination) (piece : String) : Folder × Destination :=
  match s.1.follow s.2 piece with
  | .free place => ({ s.1 with folders := place :: s.1.folders }, .folder place)
  | d => (s.1, d)

/-- The pieces of a path that lead somewhere. -/
def pieces (path : String) : List String := (Text.split '/' path).filter fun piece => !isHere piece

/-- The tree with all folders that a path leads through, as far as they can be made. -/
def withParents (f : Folder) (path : String) : Folder :=
  ((pieces path).dropLast.foldl enter (f, .folder [])).1

/-- The files in the base itself, by their names. -/
def listing (f : Folder) : List (String × String) :=
  f.files.entries.filter fun file => !file.1.toList.contains '/'

theorem foldl_follow_missing (f : Folder) (pieces : List String) :
    pieces.foldl f.follow .missing = .missing := by
  induction pieces with
  | nil => rfl
  | cons piece pieces ih => exact ih

theorem foldl_follow_barred (f : Folder) (pieces : List String) :
    pieces.foldl f.follow .barred = .barred := by
  induction pieces with
  | nil => rfl
  | cons piece pieces ih => exact ih

end Folder

end LatticeWalk
