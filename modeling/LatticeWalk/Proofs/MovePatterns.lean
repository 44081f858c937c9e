import LatticeWalk.Proofs.Counter
import LatticeWalk.Proofs.Keys

/-! # The values of the coin that move

The moves of all dimensions are told apart by the value of the coin: its most significant bit is the
direction, the others are the number of the dimension.

* `Shift.movePatterns_eq_ok_iff`: for how many dimensions a coin has patterns, and which.
* `Shift.IsCode`: what makes patterns a code of moves; `Shift.isCode_moves`.
* `Shift.defaultCoinWidth_le_iff`: the default width is the least with a value for every move.
* `Operator.counts_directionReversal`: the reversal adds half of all values, cyclically, so that it
  exchanges the two moves of a dimension.
* `Shift.moves_encoded`: all of this, of every number of dimensions and every width. -/

namespace LatticeWalk

/-! ### Patterns -/

namespace Pattern

theorem bitsOf_succ (value width : ℕ) :
    bitsOf value (width + 1) = bitChar (value.testBit width) :: bitsOf value width := by
  simp only [bitsOf, List.range_succ, List.reverse_append, List.reverse_singleton,
    List.singleton_append, List.map_cons]

theorem bitsOf_two_pow_add (k d : ℕ) : bitsOf (2 ^ k + d) k = bitsOf d k := by
  refine List.map_congr_left fun i hi => ?_
  have hlt : i < k := by simpa using hi
  rw [Nat.testBit_two_pow_add_gt hlt]

/-- Half of all values further on, only the most significant bit is another. -/
theorem toList_ofValue_half {k d : ℕ} (hd : d < 2 ^ k) :
    (ofValue d (k + 1)).toList = '0' :: bitsOf d k ∧
      (ofValue (2 ^ k + d) (k + 1)).toList = '1' :: bitsOf d k := by
  have hlow : d.testBit k = false := Nat.testBit_lt_two_pow hd
  simp only [ofValue, String.toList_ofList, bitsOf_succ, bitsOf_two_pow_add,
    Nat.testBit_two_pow_add_eq, hlow]
  exact ⟨rfl, rfl⟩

theorem value_ofValue_of_lt {v n : ℕ} (hv : v < 2 ^ n) : value (ofValue v n) = v := by
  rw [value_ofValue, Nat.mod_eq_of_lt hv]

theorem toValue_ofValue {v n : ℕ} (hv : v < 2 ^ n) (hn : n ≤ 64) :
    toValue (ofValue v n) = .ok v := by
  rw [toValue_eq_ok (isPattern_ofValue v n) hn, value_ofValue_of_lt hv]

end Pattern

namespace Shift

/-! ### The patterns of a coin -/

/-- The patterns of the moves of `n` dimensions, on a coin with `k` wires and one for the
direction. -/
def moves (n k : ℕ) : List MovePattern :=
  (List.range n).map fun d => ⟨d, Pattern.ofValue (2 ^ k + d) (k + 1), Pattern.ofValue d (k + 1)⟩

/-- A coin that no word is too narrow for, with a value for every move. -/
theorem movePatterns_of_le {n k : ℕ} (hk : k < 64) (hn : n ≤ 2 ^ k) :
    movePatterns n (k + 1) = .ok (moves n k) := by
  have hhalf : halfValues? (k + 1) = some (2 ^ k) := Word.bit?_eq_some hk
  have hword : ¬ (0 < n ∧ 64 < k + 1) := by omega
  unfold movePatterns
  rw [hhalf]
  dsimp only
  rw [if_neg (Nat.not_lt.mpr hn), if_neg hword]
  rfl

/-- A coin without wires, one of more wires than a word has bits, and one with too few values are
refused. -/
theorem movePatterns_refused {n width : ℕ} (hwidth : width < 2 ^ 32)
    (h : ¬ ∃ k < 64, width = k + 1 ∧ n ≤ 2 ^ k) : ∃ fault, movePatterns n width = refuse fault := by
  cases width with
  | zero => exact ⟨.coinWithoutWires, rfl⟩
  | succ k =>
    unfold movePatterns
    by_cases hk : k < 64
    · have hhalf : halfValues? (k + 1) = some (2 ^ k) := Word.bit?_eq_some hk
      have hn : 2 ^ k < n := Nat.lt_of_not_le fun hn => h ⟨k, hk, rfl, hn⟩
      rw [hhalf]
      exact ⟨_, if_pos hn⟩
    · have hhalf : halfValues? (k + 1) = none :=
        Word.bit?_eq_none (Nat.not_lt.mp hk) (Nat.lt_of_succ_lt hwidth)
      rw [hhalf]
      exact ⟨.coinWithoutWires, rfl⟩

/-- **For how many dimensions a coin has patterns**: it has at least one wire, no more than a word
has bits, and in half of its values one for each dimension. -/
theorem movePatterns_eq_ok_iff {n width : ℕ} (hwidth : width < 2 ^ 32) {ms : List MovePattern} :
    movePatterns n width = .ok ms ↔ ∃ k < 64, width = k + 1 ∧ n ≤ 2 ^ k ∧ ms = moves n k := by
  constructor
  · intro hms
    by_contra hnone
    by_cases h : ∃ k < 64, width = k + 1 ∧ n ≤ 2 ^ k
    · obtain ⟨k, hk, rfl, hn⟩ := h
      rw [movePatterns_of_le hk hn] at hms
      exact hnone ⟨k, hk, rfl, hn, (Except.ok.inj hms).symm⟩
    · obtain ⟨fault, hfault⟩ := movePatterns_refused hwidth h
      rw [hfault] at hms
      cases hms
  · rintro ⟨k, hk, rfl, hn, rfl⟩
    exact movePatterns_of_le hk hn

/-! ### The code -/

/-- All patterns of some moves. -/
def codewords (ms : List MovePattern) : List String :=
  ms.map MovePattern.right ++ ms.map MovePattern.left

/-- **A code of moves** on a coin of a width: for each of `n` dimensions, in their order, two
patterns, which no other move has. They are the number of the dimension with the most significant
bit clear, and the same with that bit set. -/
structure IsCode (n width : ℕ) (ms : List MovePattern) : Prop where
  dimensions : ms.map MovePattern.dimension = List.range n
  patterns : ∀ p ∈ codewords ms, IsPattern p width
  distinct : (codewords ms).Nodup
  right : ∀ m ∈ ms, Pattern.toValue m.right = .ok m.dimension
  left : ∀ m ∈ ms, Pattern.toValue m.left = .ok (2 ^ (width - 1) + m.dimension)
  opposite : ∀ m ∈ ms, ∃ low, m.right.toList = '0' :: low ∧ m.left.toList = '1' :: low

section moves
variable {n k : ℕ}

theorem codes_lt (hn : n ≤ 2 ^ k) {d : ℕ} (hd : d ∈ List.range n) :
    d < 2 ^ (k + 1) ∧ 2 ^ k + d < 2 ^ (k + 1) := by
  have hlt := List.mem_range.mp hd
  rw [pow_succ]
  omega

/-- The patterns of the moves as numbers: those of the dimensions, and the same half of all values
further on. -/
theorem value_codewords_moves (hn : n ≤ 2 ^ k) : (codewords (moves n k)).map Pattern.value =
    List.range n ++ (List.range n).map (2 ^ k + ·) := by
  simp only [codewords, moves, List.map_append, List.map_map]
  congr 1
  · refine (List.map_congr_left fun d hd => ?_).trans (List.map_id _)
    exact Pattern.value_ofValue_of_lt (codes_lt hn hd).1
  · refine List.map_congr_left fun d hd => ?_
    exact Pattern.value_ofValue_of_lt (codes_lt hn hd).2

theorem nodup_codewords_moves (hn : n ≤ 2 ^ k) : (codewords (moves n k)).Nodup := by
  refine List.Nodup.of_map Pattern.value ?_
  rw [value_codewords_moves hn]
  refine List.nodup_range.append (List.nodup_range.map (add_right_injective _)) fun d hd hd' => ?_
  obtain ⟨d', -, rfl⟩ := List.mem_map.mp hd'
  have hlt := List.mem_range.mp hd
  omega

/-- **The patterns of the moves are a code.** -/
theorem isCode_moves (hk : k < 64) (hn : n ≤ 2 ^ k) : IsCode n (k + 1) (moves n k) where
  dimensions := by
    rw [moves, List.map_map]
    exact List.map_id _
  patterns p hp := by
    rcases List.mem_append.mp hp with hp | hp
    all_goals
      obtain ⟨m, hm, rfl⟩ := List.mem_map.mp hp
      obtain ⟨d, -, rfl⟩ := List.mem_map.mp hm
      exact Pattern.isPattern_ofValue _ _
  distinct := nodup_codewords_moves hn
  right m hm := by
    obtain ⟨d, hd, rfl⟩ := List.mem_map.mp hm
    exact Pattern.toValue_ofValue (codes_lt hn hd).1 hk
  left m hm := by
    obtain ⟨d, hd, rfl⟩ := List.mem_map.mp hm
    exact Pattern.toValue_ofValue (codes_lt hn hd).2 hk
  opposite m hm := by
    obtain ⟨d, hd, rfl⟩ := List.mem_map.mp hm
    exact ⟨_, Pattern.toList_ofValue_half ((List.mem_range.mp hd).trans_le hn)⟩

end moves

/-! ### The default width -/

/-- **The default width is the least** with a value for every move. -/
theorem defaultCoinWidth_le_iff {n k : ℕ} : defaultCoinWidth n ≤ k + 1 ↔ n ≤ 2 ^ k := by
  have hne : max (2 * n) 2 - 1 ≠ 0 := by omega
  have hpos := Nat.two_pow_pos k
  unfold defaultCoinWidth
  rw [Nat.add_le_add_iff_right, ← Nat.lt_succ_iff, Nat.log2_lt hne, Nat.succ_eq_add_one, pow_succ]
  omega

end Shift

/-! ### The reversal -/

variable {R : Type}

theorem Register.update_top {r : Register} {k : ℕ} (hr : r.width = k + 1) (b : ℕ → Bool) :
    Function.update b (r.wire k) (!b (r.wire k)) = r.advance (2 ^ k) b := by
  have hk : k < r.width := by omega
  have hvalue : ∀ c : ℕ → Bool,
      r.read c = 2 ^ k * (c (r.wire k)).toNat + index k fun q => c (r.wire q) := by
    intro c
    rw [Register.read, hr, index_succ]
    rfl
  refine eq_of_read_eq (r := r) (fun q hq => ?_) ?_
  · have hne : q ≠ r.wire k := fun h => hq (h ▸ wire_mem hk)
    rw [advance_of_notMem hq, Function.update_of_ne hne]
  · have hlow := index_lt k fun q => b (r.wire q)
    have hsame : (index k fun q => Function.update b (r.wire k) (!b (r.wire k)) (r.wire q)) =
        index k fun q => b (r.wire q) := by
      refine index_congr fun q hq => Function.update_of_ne ?_ _ _
      unfold wire
      omega
    rw [read_advance, hvalue, hvalue b, hsame, Function.update_self, hr, pow_succ]
    generalize (index k fun q => b (r.wire q)) = low at hlow
    cases b (r.wire k)
    · rw [Bool.not_false, Bool.toNat_true, Bool.toNat_false, Nat.mod_eq_of_lt (by omega)]
      omega
    · have hround : 2 ^ k * 1 + low + 2 ^ k = low + 2 ^ k * 2 := by omega
      rw [Bool.not_true, Bool.toNat_true, Bool.toNat_false, hround, Nat.add_mod_right,
        Nat.mod_eq_of_lt (by omega)]
      omega

open Operator (gatesOn)

variable [Scalar R]

/-- **The operation takes one pattern to another**: a register that carries the first carries the
second behind it, and no other wire changes. -/
def Operation.Rewrites (op : Operation R) (r : Register) (n : ℕ) (before after : String) : Prop :=
  ∀ i < 2 ^ n, Pattern.toValue before = .ok (r.valueIn i) → ∃ j, op.Takes n 1 i j ∧
    Pattern.toValue after = .ok (r.valueIn j) ∧ ∀ q ∉ r.wires, j.testBit q = i.testBit q

/-- An operation that counts takes a pattern to the one so many values further on. -/
theorem Operation.Counts.rewrites {op : Operation R} {r : Register} {n s : ℕ}
    (h : op.Counts r n s) {before after : String} {v : ℕ}
    (hbefore : Pattern.toValue before = .ok v)
    (hafter : Pattern.toValue after = .ok ((v + s) % 2 ^ r.width)) :
    op.Rewrites r n before after := by
  intro i hi hv
  obtain rfl := Except.ok.inj (hbefore.symm.trans hv)
  obtain ⟨j, htakes, hvalue, hrest⟩ := h 1 i hi
  refine ⟨j, htakes, ?_, hrest⟩
  have hj : r.valueIn j = (r.valueIn i + s) % 2 ^ r.width := by
    rw [Nat.cast_one, mul_one] at hvalue
    exact_mod_cast hvalue
  rw [hj, hafter]

variable [BitExact R]

/-- **The reversal of direction** adds half of all values, cyclically. -/
theorem Operator.counts_directionReversal {r : Register} {n k : ℕ} (hr : r.width = k + 1)
    (hn : r.stop ≤ n) : ∃ turn : Operation R,
      (directionReversal r.width).bind r.wires = .ok turn ∧ turn.Counts r n (2 ^ k : ℕ) := by
  have hgates : gatesOn r.wires (directionReversal r.width : Operator R).gates =
      [.plain .flip (r.wire k)] := by
    rw [gatesOn_directionReversal (by omega), hr, Nat.add_sub_cancel]
  refine counts_of_bind hn rfl (Derived.directionReversal (R := R) r.width).fits.1 ?_ (fun b => ?_)
    Int.ModEq.rfl
  · rw [hgates]
    exact fun g hg => List.mem_singleton.mp hg ▸ Gate.isFlip_plain _
  · rw [hgates, Gate.sendAll_cons, Gate.sendAll_nil, Gate.send_plain, Register.update_top hr]

namespace Shift

/-- **The reversal exchanges the moves of each dimension** of a code. -/
theorem IsCode.reversed {n k : ℕ} {ms : List MovePattern} (h : IsCode n (k + 1) ms)
    (hn : n ≤ 2 ^ k) {coin : Register} {wires : ℕ} (hcoin : coin.width = k + 1)
    (hwires : coin.stop ≤ wires) : ∃ turn : Operation R,
      (Operator.directionReversal coin.width).bind coin.wires = .ok turn ∧
      ∀ m ∈ ms, turn.Rewrites coin wires m.right m.left ∧
        turn.Rewrites coin wires m.left m.right := by
  obtain ⟨turn, hturn, hcounts⟩ := Operator.counts_directionReversal (R := R) hcoin hwires
  refine ⟨turn, hturn, fun m hm => ?_⟩
  have hd : m.dimension < n :=
    List.mem_range.mp (h.dimensions ▸ List.mem_map_of_mem hm)
  have hright := h.right m hm
  have hleft := h.left m hm
  rw [Nat.add_sub_cancel] at hleft
  refine ⟨hcounts.rewrites hright ?_, hcounts.rewrites hleft ?_⟩
  · rw [hleft, hcoin, Nat.mod_eq_of_lt (by rw [pow_succ]; omega), Nat.add_comm]
  · have hround : 2 ^ k + m.dimension + 2 ^ k = m.dimension + 2 ^ (k + 1) := by
      rw [pow_succ]
      omega
    rw [hright, hcoin, hround, Nat.add_mod_right, Nat.mod_eq_of_lt (by rw [pow_succ]; omega)]

/-- **The moves of a walk are a code on its coin, and the default coin is the narrowest that carries
it.** A coin has patterns for the moves of `n` dimensions if and only if it has at least one wire,
no more than a word has bits, and twice as many values as there are dimensions. They are a code
then: one pair for each dimension in order, all patterns different, and those of a dimension differ
in the most significant bit only, so that the reversal of direction takes each to the other. The
default width is one of these, and every narrower coin is refused. -/
theorem moves_encoded {n width : ℕ} (hn : n < 2 ^ 63) (hwidth : width < 2 ^ 32) :
    ((∃ ms, movePatterns n width = .ok ms) ↔ 1 ≤ width ∧ width ≤ 64 ∧ n ≤ 2 ^ (width - 1)) ∧
    (∀ ms, movePatterns n width = .ok ms → IsCode n width ms ∧
      ∀ (coin : Register) (wires : ℕ), coin.width = width → coin.stop ≤ wires →
        ∃ turn : Operation R, (Operator.directionReversal width).bind coin.wires = .ok turn ∧
          ∀ m ∈ ms, turn.Rewrites coin wires m.right m.left ∧
            turn.Rewrites coin wires m.left m.right) ∧
    (∃ ms, movePatterns n (defaultCoinWidth n) = .ok ms) ∧
    ∀ narrower < defaultCoinWidth n, ∃ fault, movePatterns n narrower = refuse fault := by
  obtain ⟨k, hk⟩ : ∃ k, defaultCoinWidth n = k + 1 := ⟨_, rfl⟩
  have hleast := fun j => hk ▸ defaultCoinWidth_le_iff (n := n) (k := j)
  have hword : k < 64 := (hleast 63).mpr hn.le
  refine ⟨?_, fun ms hms => ?_, ⟨_, hk ▸ movePatterns_of_le hword ((hleast k).mp le_rfl)⟩,
    fun narrower hlt => ?_⟩
  · simp only [movePatterns_eq_ok_iff hwidth]
    constructor
    · rintro ⟨_, j, hj, rfl, hle, -⟩
      exact ⟨Nat.succ_pos j, hj, hle⟩
    · rintro ⟨hpos, hle, hvalues⟩
      obtain ⟨j, rfl⟩ := Nat.exists_eq_add_of_le' hpos
      exact ⟨_, j, hle, rfl, hvalues, rfl⟩
  · obtain ⟨j, hj, rfl, hle, rfl⟩ := (movePatterns_eq_ok_iff hwidth).mp hms
    have hcode := isCode_moves hj hle
    refine ⟨hcode, fun coin wires hcoin hwires => ?_⟩
    have hreversed := hcode.reversed (R := R) hle hcoin hwires
    rwa [hcoin] at hreversed
  · refine movePatterns_refused (by omega) ?_
    rintro ⟨j, -, rfl, hle⟩
    have := (hleast j).mpr hle
    omega

/-- Three dimensions on a coin of three wires: the second moves to the left on the value five, which
is one with the most significant bit set. Two wires are too few. -/
theorem moves_encoded_threeDimensions : ∃ ms, movePatterns 3 3 = .ok ms ∧
    (⟨1, "101", "001"⟩ : MovePattern) ∈ ms ∧ IsCode 3 3 ms ∧
    (∃ turn : Operation Float, (Operator.directionReversal 3).bind [4, 5, 6] = .ok turn ∧
      turn.Rewrites ⟨"coin", .coin, 4, 3⟩ 7 "001" "101") ∧
    defaultCoinWidth 3 = 3 ∧ ∃ fault, movePatterns 3 2 = refuse fault := by
  have hdimensions : 3 < 2 ^ 63 := by norm_num
  have hwidth : 3 < 2 ^ 32 := by norm_num
  obtain ⟨hiff, hcode, -, hnarrow⟩ := moves_encoded (R := Float) hdimensions hwidth
  obtain ⟨ms, hms⟩ := hiff.mpr (by norm_num)
  have hsecond : (⟨1, "101", "001"⟩ : MovePattern) ∈ ms := by
    have hmoves : movePatterns 3 3 = .ok [⟨0, "100", "000"⟩, ⟨1, "101", "001"⟩,
      ⟨2, "110", "010"⟩] := by decide
    rw [hmoves, Except.ok.injEq] at hms
    rw [← hms]
    decide
  have hdefault : defaultCoinWidth 3 = 3 := by decide
  obtain ⟨hvalid, hturns⟩ := hcode ms hms
  obtain ⟨turn, hturn, hmoves⟩ := hturns ⟨"coin", .coin, 4, 3⟩ 7 rfl le_rfl
  exact ⟨ms, hms, hsecond, hvalid, ⟨turn, hturn, (hmoves _ hsecond).1⟩, hdefault,
    hnarrow 2 (by rw [hdefault]; norm_num)⟩

end Shift

end LatticeWalk
