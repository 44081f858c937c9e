import LatticeWalk.Decimal.Binary64

/-! # The fewest digits that read back

Around a finite double `m * 2 ^ e` lies the interval of the numbers that round to it; its ends
belong to it exactly when `m` is even. Among the decimals `d * 10 ^ p` in that interval the ones
with the fewest digits are wanted, and of these the one nearest to the double, the upper one on a
tie. The grids with 1, 2, 3, … digits are tried in turn: a grid has a point in the interval exactly
when one of the two neighbours of the double on the grid lies there.

* `Decimal.shortest`: digits and power of ten.
* `decimalOrder`: the `k` with `10 ^ (k - 1) ≤ num / den < 10 ^ k`. -/

namespace LatticeWalk.Decimal

/-- The `k` with `10 ^ (k - 1) ≤ num / den < 10 ^ k`, for positive `num` and `den`. The estimate
from the binary order is at most two too small. -/
def decimalOrder (num den : Nat) : Int :=
  let guess := binaryOrder num den * 30103 / 100000
  let below (k : Int) : Bool := let (n, d) := unscale 10 num den k; decide (n < d)
  if below guess then guess else if below (guess + 1) then guess + 1 else guess + 2

/-- The decimal `digits * 10 ^ power`. -/
structure Expansion where
  digits : Nat
  power : Int
  deriving Repr, DecidableEq

/-- The numbers that round to a double: `low / den` to `high / den` around `mid / den`. -/
structure Interval where
  low : Nat
  mid : Nat
  high : Nat
  den : Nat
  /-- Whether the ends belong to the interval. -/
  closed : Bool

/-- The interval of the double `m * 2 ^ e`. Below a power of two the doubles are twice as dense. -/
def Interval.around (m : Nat) (e : Int) : Interval :=
  let unit := Nat.pow 2 (e - 2).toNat
  let step := if m = Nat.pow 2 52 ∧ -1074 < e then 1 else 2
  { low := (4 * m - step) * unit, mid := 4 * m * unit, high := (4 * m + 2) * unit,
    den := Nat.pow 2 (2 - e).toNat, closed := m % 2 == 0 }

/-- Whether `c * 10 ^ p` lies in the interval. -/
def Interval.contains (i : Interval) (c : Nat) (p : Int) : Bool :=
  let x := c * Nat.pow 10 p.toNat * i.den
  let scale := Nat.pow 10 (-p).toNat
  if i.closed then decide (i.low * scale ≤ x ∧ x ≤ i.high * scale)
  else decide (i.low * scale < x ∧ x < i.high * scale)

/-- The neighbour of the double on the grid `10 ^ p` that lies in its interval, the nearer one if
both do, and the upper one if they are equally near. -/
def Interval.pick (i : Interval) (p : Int) : Option Nat :=
  let (n, d) := unscale 10 i.mid i.den p
  let below := n / d
  match i.contains below p, i.contains (below + 1) p with
  | false, false => none
  | true, false => some below
  | false, true => some (below + 1)
  | true, true => some (if 2 * (n % d) < d then below else below + 1)

/-- The first grid with a hit, from the coarsest of `tries` grids on. The grid of the double's own
units always has one. -/
def Interval.search (i : Interval) (fallback : Expansion) : Nat → Int → Expansion
  | 0, _ => fallback
  | tries + 1, p =>
    match i.pick p with
    | some digits => ⟨digits, p⟩
    | none => i.search fallback tries (p - 1)

/-- The shortest decimal that rounds to the double `m * 2 ^ e`, for positive `m`. Seventeen digits
are enough for every double. -/
def shortest (m : Nat) (e : Int) : Expansion :=
  let i := Interval.around m e
  let (n, d) := unscale 2 m 1 (-e)
  i.search ⟨n / d, 0⟩ 18 (decimalOrder n d)

/-- A grid point is picked only if it lies in the interval. -/
theorem Interval.contains_of_pick {i : Interval} {p : Int} {c : Nat} (h : i.pick p = some c) :
    i.contains c p = true := by
  unfold pick at h
  revert h
  dsimp only
  split <;> rename_i h1 h2
  · simp
  · simp only [Option.some.injEq]; rintro rfl; simp_all
  · simp only [Option.some.injEq]; rintro rfl; exact h2
  · simp only [Option.some.injEq]
    split <;> rintro rfl
    · simp_all
    · exact h2

end LatticeWalk.Decimal
