import LatticeWalk.Data
import LatticeWalk.Decimal.Scaled

/-! # Numbers in structured data

* `Data.double?`: the double of a count or a numeral. -/

namespace LatticeWalk.Data

/-- The double of a number; a numeral outside the range of doubles is none. -/
def double? : Data → Option Float
  | count n => some (Decimal.ofDecimal false n 0)
  | number numeral => Decimal.readScaled numeral
  | _ => none

end LatticeWalk.Data
