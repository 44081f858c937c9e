import LatticeWalk.Proofs.MovePatterns
import LatticeWalk.Boundary.Edges

/-! # Steps of patterns and the edges of the lattice

A step up or down works on characters: it flips the lowest of them, as far as the carry goes. On the
number that a pattern spells it adds or subtracts one. The edges of a dimension are so many steps
away from its ends, and since the padding does not reach the centre they never meet.

* `Pattern.stepUp_ofValue`, `Pattern.stepDown_ofValue`: what one step does.
* `Geometry.left_eq`, `Geometry.right_eq`: what any number of steps from either end leads to.
* `Geometry.Placed`: where the two edges are.
* `Geometry.patterns_apart`: for which padding there are edges, and that they are there. -/

namespace LatticeWalk

/-! ### One step -/

namespace Pattern

/-- The low `n` bits of `v` as characters, the least significant first. -/
def lowBits (v n : ℕ) : List Char := (List.range n).map fun i => bitChar (v.testBit i)

theorem reverse_lowBits (v n : ℕ) : (lowBits v n).reverse = bitsOf v n := by
  rw [lowBits, bitsOf, List.map_reverse]

theorem reverse_toList_ofValue (v n : ℕ) : (ofValue v n).toList.reverse = lowBits v n := by
  rw [ofValue, String.toList_ofList, ← reverse_lowBits, List.reverse_reverse]

theorem lowBits_succ (v n : ℕ) :
    lowBits v (n + 1) = bitChar (v.testBit 0) :: lowBits (v / 2) n := by
  simp only [lowBits, List.range_succ_eq_map, List.map_cons, List.map_map]
  refine congrArg _ (List.map_congr_left fun i _ => ?_)
  rw [Function.comp_apply, Nat.testBit_succ]

theorem lowBits_double (m n : ℕ) : lowBits (2 * m) (n + 1) = '0' :: lowBits m n := by
  have hbit : (2 * m).testBit 0 = false := by rw [Nat.testBit_zero, decide_eq_false (by omega)]
  rw [lowBits_succ, hbit, Nat.mul_div_cancel_left m two_pos]
  rfl

theorem lowBits_double_succ (m n : ℕ) : lowBits (2 * m + 1) (n + 1) = '1' :: lowBits m n := by
  have hbit : (2 * m + 1).testBit 0 = true := by rw [Nat.testBit_zero, decide_eq_true (by omega)]
  have hhalf : (2 * m + 1) / 2 = m := by omega
  rw [lowBits_succ, hbit, hhalf]
  rfl

/-- **The carry adds one.** It goes through the ones and ends at the first zero. -/
theorem ripple_one_lowBits (v n : ℕ) : ripple '1' (lowBits v n) = lowBits (v + 1) n := by
  induction n generalizing v with
  | zero => rfl
  | succ n ih =>
    obtain ⟨m, rfl | rfl⟩ := Nat.even_or_odd' v
    · rw [lowBits_double, lowBits_double_succ]
      rfl
    · -- the carry goes on and adds one to the half
      rw [lowBits_double_succ, show 2 * m + 1 + 1 = 2 * (m + 1) from rfl, lowBits_double, ← ih]
      rfl

/-- **The borrow subtracts one.** It goes through the zeros and ends at the first one. -/
theorem ripple_zero_lowBits (v n : ℕ) : ripple '0' (lowBits (v + 1) n) = lowBits v n := by
  induction n generalizing v with
  | zero => rfl
  | succ n ih =>
    obtain ⟨m, rfl | rfl⟩ := Nat.even_or_odd' v
    · rw [lowBits_double, lowBits_double_succ]
      rfl
    · -- the borrow goes on and subtracts one from the half
      rw [lowBits_double_succ, show 2 * m + 1 + 1 = 2 * (m + 1) from rfl, lowBits_double, ← ih m]
      rfl

theorem stepUp_ofValue (v n : ℕ) : stepUp (ofValue v n) = ofValue (v + 1) n := by
  rw [stepUp, reverse_toList_ofValue, ripple_one_lowBits, reverse_lowBits, ofValue]

theorem stepDown_ofValue (v n : ℕ) : stepDown (ofValue (v + 1) n) = ofValue v n := by
  rw [stepDown, reverse_toList_ofValue, ripple_zero_lowBits, reverse_lowBits, ofValue]

theorem zeros_eq (n : ℕ) : zeros n = ofValue 0 n := by
  have hbits : bitsOf 0 n = List.replicate n '0' := by
    rw [List.eq_replicate_iff]
    refine ⟨length_bitsOf 0 n, fun c hc => ?_⟩
    obtain ⟨i, -, rfl⟩ := List.mem_map.mp hc
    rw [Nat.zero_testBit, bitChar, if_neg Bool.false_ne_true]
  rw [zeros, Text.replicate, ofValue, hbits]

theorem ones_eq (n : ℕ) : ones n = ofValue (2 ^ n - 1) n := by
  symm
  rw [ofValue_eq_iff (isPattern_ones n), wireBits_ones, List.eq_replicate_iff]
  refine ⟨by rw [List.length_map, List.length_range], fun b hb => ?_⟩
  obtain ⟨i, hi, rfl⟩ := List.mem_map.mp hb
  rw [Nat.testBit_two_pow_sub_one, decide_eq_true (List.mem_range.mp hi)]

end Pattern

/-! ### Many steps -/

namespace Geometry

open Pattern (ofValue)

theorem left_eq (n padding : ℕ) : left n padding = ofValue padding n := by
  unfold left
  induction padding with
  | zero => exact Pattern.zeros_eq n
  | succ padding ih => rw [Nat.repeat, ih, Pattern.stepUp_ofValue]

theorem right_eq {n padding : ℕ} (h : padding < 2 ^ n) :
    right n padding = ofValue (2 ^ n - 1 - padding) n := by
  unfold right
  induction padding with
  | zero => exact Pattern.ones_eq n
  | succ padding ih =>
    have hnext : 2 ^ n - 1 - padding = 2 ^ n - 1 - (padding + 1) + 1 := by omega
    rw [Nat.repeat, ih (by omega), hnext, Pattern.stepDown_ofValue]

/-- The edges of a geometry, for a lower and an upper one. -/
def ends (low high : String) : Geometry → List String
  | edges => [low, high]
  | leftEdge => [low]
  | rightEdge => [high]

/-- Edges of a dimension of `n` bits, each moved inward by the padding: read as numbers they are as
far from zero and from the highest value, and the lower one is below the upper one. -/
structure Placed (n padding : ℕ) (low high : String) : Prop where
  low_pattern : IsPattern low n
  high_pattern : IsPattern high n
  low_value : Pattern.toValue low = .ok padding
  high_value : Pattern.toValue high = .ok (2 ^ n - 1 - padding)
  below : padding < 2 ^ n - 1 - padding

variable {n padding : ℕ}

/-- What the generator does, up to the width of a word. -/
theorem patterns_eq (hn : 1 ≤ n) (hword : n ≤ 64) (geometry : Geometry) :
    geometry.patterns n padding =
      if padding < 2 ^ (n - 1) then .ok (geometry.ends (left n padding) (right n padding))
      else refuse (.paddingTooLarge padding (2 ^ (n - 1))) := by
  have hcentre : (Word.bit? (n - 1)).getD (Word.limit - 1) = 2 ^ (n - 1) := by
    rw [Word.bit?_eq_some (by omega), Option.getD_some, Nat.pow_eq]
  unfold patterns
  simp only [hcentre]
  rw [if_neg (by omega)]
  by_cases h : padding < 2 ^ (n - 1)
  · rw [if_neg (by omega), if_pos h]
    cases geometry <;> rfl
  · rw [if_pos (by omega), if_neg h]

theorem placed (hn : 1 ≤ n) (hword : n ≤ 64) (h : padding < 2 ^ (n - 1)) :
    Placed n padding (left n padding) (right n padding) := by
  have hhalf := Nat.two_pow_pred_add_two_pow_pred hn
  have hlow : padding < 2 ^ n := by omega
  have hhigh : 2 ^ n - 1 - padding < 2 ^ n := by omega
  rw [left_eq, right_eq hlow]
  exact {
    low_pattern := Pattern.isPattern_ofValue padding n
    high_pattern := Pattern.isPattern_ofValue (2 ^ n - 1 - padding) n
    low_value := Pattern.toValue_ofValue hlow hword
    high_value := Pattern.toValue_ofValue hhigh hword
    below := by omega }

/-- **Generated edges never meet.** For every width of a word and every geometry there are edges
exactly when the padding is below the centre, and any other padding is refused. The lower edge then
spells the padding, the upper edge the highest value less the padding, and the lower is strictly
below the upper. -/
theorem patterns_apart (hn : 1 ≤ n) (hword : n ≤ 64) (geometry : Geometry) :
    ((∃ edges, geometry.patterns n padding = .ok edges) ↔ padding < 2 ^ (n - 1)) ∧
    (2 ^ (n - 1) ≤ padding →
      geometry.patterns n padding = refuse (.paddingTooLarge padding (2 ^ (n - 1)))) ∧
    (padding < 2 ^ (n - 1) → ∃ low high, Placed n padding low high ∧
      geometry.patterns n padding = .ok (geometry.ends low high)) := by
  rw [patterns_eq hn hword]
  refine ⟨⟨?_, fun h => ?_⟩, fun h => if_neg (Nat.not_lt.mpr h), fun h => ?_⟩
  · rintro ⟨edges, hedges⟩
    by_contra h
    rw [if_neg h] at hedges
    cases hedges
  · exact ⟨_, if_pos h⟩
  · exact ⟨_, _, placed hn hword h, if_pos h⟩

/-- The widest dimension, with the most padding there can be: the two edges are the two values next
to the centre. -/
theorem patterns_apart_widest :
    (1 ≤ 64 ∧ 64 ≤ 64 ∧ 2 ^ 63 - 1 < 2 ^ (64 - 1)) ∧
      ∃ low high, Placed 64 (2 ^ 63 - 1) low high ∧
        edges.patterns 64 (2 ^ 63 - 1) = .ok [low, high] :=
  ⟨by decide, (patterns_apart (by decide) (by decide) edges).2.2 (by decide)⟩

end Geometry

end LatticeWalk
