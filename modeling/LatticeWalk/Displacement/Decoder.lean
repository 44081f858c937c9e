import LatticeWalk.Displacement
import LatticeWalk.Histogram
import LatticeWalk.Register

/-! # Decoding

The position registers come first in a program, so every key begins with the bits of the position.
Decoding cuts each key after these, adds up the counts of keys that become equal, and reads the bits
of each dimension as a number.

* `Decoder.ofLayout`: where a layout keeps the position.
* `Decoder.merge`: keys cut after the bits of the position; a second time changes nothing.
* `Decoder.decode`: the displacement that a histogram stands for. -/

namespace LatticeWalk

/-- Where the keys of a program hold the position. -/
structure Decoder where
  spans : List Span
  /-- The number of characters up to the last bit of the position. -/
  stateBits : Nat
  deriving Repr, DecidableEq

namespace Decoder

/-- The decoder of a layout. -/
def ofLayout (l : Layout) : Decoder where
  spans := l.stateSpans
  stateBits := match l.lastStateBit? with
    | some last => last + 1
    | none => 0

/-- A key without what follows the bits of the position. -/
def cutKey (d : Decoder) (key : String) : Except Failure String := do
  Pattern.check key
  if key.length < d.stateBits then refuse (.shortKey key d.stateBits)
  else return String.ofList (key.toList.take d.stateBits)

/-- Adds counts under their cut keys. -/
def mergeInto (d : Decoder) : Histogram → List (String × Nat) → Except Failure Histogram
  | h, [] => .ok h
  | h, (key, count) :: rest => do
    let short ← d.cutKey key
    mergeInto d (h.record short count) rest

/-- The histogram of the positions alone. -/
def merge (d : Decoder) (h : Histogram) : Except Failure Histogram :=
  d.mergeInto (.empty h.shots) h.toList

/-- The coordinate that a key holds at a span. -/
def coordinate (key : String) (span : Span) : Except Failure Nat :=
  if span.last < key.length then
    Pattern.toValue (String.ofList ((key.toList.take (span.last + 1)).drop span.first))
  else refuse (.uncoveredDimension key span.dimension)

/-- The row of a key that was counted so often. -/
def row {R : Type} [Scalar R] (d : Decoder) (shots : Nat) (entry : String × Nat) :
    Except Failure (DensityRow R) := do
  let point ← d.spans.mapM (coordinate entry.1)
  return ⟨point, (entry.2 : R) / (shots : R)⟩

/-- The displacement that a histogram stands for, counts being shares of so many shots. -/
def decode {R : Type} [Scalar R] (d : Decoder) (h : Histogram) (shots : Nat) :
    Except Failure (Displacement R) :=
  if shots = 0 then refuse .noShots
  else do
    let merged ← d.merge h
    h.checkConserved merged
    let rows ← merged.toList.mapM (d.row shots)
    return ⟨d.spans.length, rows, shots⟩

end Decoder

end LatticeWalk
