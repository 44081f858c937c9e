import LatticeWalk.Failure
import LatticeWalk.OrderedMap

/-! # Histograms

How often each outcome was measured. Outcomes are texts, in the order of their characters; the
number of shots is what the program was asked for and need not be the sum of the counts.

* `Histogram.record`: more observations of an outcome.
* `Histogram.ofCounts`: a histogram whose shots are the sum of its counts.
* `Histogram.total`: that sum. -/

namespace LatticeWalk

/-- Counts of outcomes over a number of shots. -/
structure Histogram where
  counts : OrderedMap String Nat
  shots : Nat

namespace Histogram

/-- No outcomes yet. -/
def empty (shots : Nat) : Histogram := ⟨.empty, shots⟩

/-- Adds `count` observations of an outcome and leaves the shots alone. -/
def record (h : Histogram) (key : String) (count : Nat) : Histogram :=
  { h with counts := h.counts.alter key fun before => before.getD 0 + count }

/-- Adds observations outcome by outcome. -/
def recordAll (h : Histogram) (counts : List (String × Nat)) : Histogram :=
  counts.foldl (fun h c => h.record c.1 c.2) h

/-- The histogram of given counts. An outcome may occur more than once. -/
def ofCounts (counts : List (String × Nat)) : Histogram :=
  (empty ((counts.map Prod.snd).foldr (· + ·) 0)).recordAll counts

/-- The count of an outcome, if it was recorded. -/
def find? (h : Histogram) (key : String) : Option Nat := h.counts.find? key

/-- Outcomes with their counts, in ascending order. -/
def toList (h : Histogram) : List (String × Nat) := h.counts.entries

/-- The outcomes in ascending order. -/
def keys (h : Histogram) : List String := h.counts.keys

/-- The sum of all counts. -/
def total (h : Histogram) : Nat := h.counts.values.foldr (· + ·) 0

/-- The number of outcomes. -/
def size (h : Histogram) : Nat := h.counts.size

def isEmpty (h : Histogram) : Bool := h.counts.isEmpty

/-- Whether two histograms have the same counts and shots. -/
def same (h h' : Histogram) : Bool := h.toList == h'.toList && h.shots == h'.shots

/-- Refuses a merged histogram that lost counts of the raw one, and a raw histogram whose counts are
not those of its shots. No shots mean that their number is not known. -/
def checkConserved (raw merged : Histogram) : Except Failure Unit :=
  if raw.total ≠ merged.total then mistrust (.totalChanged raw.total merged.total)
  else if raw.shots ≠ 0 ∧ raw.total ≠ raw.shots then
    mistrust (.totalNotShots raw.total raw.shots)
  else .ok ()

/-- The histogram as a text, an outcome a line. -/
def spell (h : Histogram) : String :=
  let head := s!"Measurement Histogram ({h.shots} shots):\n"
  let body := if h.isEmpty then ["  No outcomes recorded.\n"] else
    h.toList.map fun c => "  " ++ c.1 ++ ": " ++ toString c.2 ++ "\n"
  head ++ String.join body

theorem sum_alterEntries (k : String) (n : Nat) (es : List (String × Nat)) :
    let after := OrderedMap.alterEntries k (fun before => before.getD 0 + n) es
    (after.map Prod.snd).foldr (· + ·) 0 = (es.map Prod.snd).foldr (· + ·) 0 + n := by
  dsimp only
  induction es with
  | nil => simp [OrderedMap.alterEntries]
  | cons e es ih => unfold OrderedMap.alterEntries; grind

theorem total_record (h : Histogram) (key : String) (count : Nat) :
    (h.record key count).total = h.total + count :=
  sum_alterEntries key count h.counts.entries

theorem shots_record (h : Histogram) (key : String) (count : Nat) :
    (h.record key count).shots = h.shots := rfl

end Histogram

end LatticeWalk
