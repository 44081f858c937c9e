import LatticeWalk.Proofs.Cascade
import LatticeWalk.Proofs.Program
import LatticeWalk.Shift

/-! # Moves

What the operations of a shift do to the bits of the wires.

* `Shift.move`: a register moved by one.
* `Shift.sendAll_wrapped`: between flips of the coin a cascade moves its register if the coin
  carries the given pattern, and changes nothing otherwise.
* `Shift.sendAll_moves`: the moves of all dimensions together are `Shift.hop`, which reads the coin
  once and moves at most one register. -/

namespace LatticeWalk

namespace Shift

open Operation (gatesOf)

variable {R : Type}

/-! ### One move -/

/-- A register moved by one, cyclically. -/
def move (direction : Direction) (r : Register) (b : ℕ → Bool) : ℕ → Bool :=
  match direction with
  | .left => r.put b (r.read b + 2 ^ r.width - 1)
  | .right => r.put b (r.read b + 1)

theorem move_of_notMem {direction : Direction} {r : Register} {q : ℕ} (h : q ∉ r.wires)
    (b : ℕ → Bool) : move direction r b q = b q := by
  cases direction <;> exact Register.put_of_notMem h _ _

theorem move_apply {direction : Direction} {r : Register} {b c : ℕ → Bool}
    (h : ∀ q ∈ r.wires, b q = c q) {q : ℕ} (hq : q ∈ r.wires) :
    move direction r b q = move direction r c q := by
  have hr := Register.mem_wires.mp hq
  cases direction <;> simp only [move, Register.put, Register.read_congr h, if_pos hr]

/-- The cascade that moves a register. -/
def cascade (direction : Direction) (r : Register) : List (Gate R) :=
  match direction with
  | .left => r.borrowGates
  | .right => r.borrowGates.reverse

theorem mem_cascade {direction : Direction} {r : Register} {g : Gate R} :
    g ∈ cascade direction r ↔ g ∈ r.borrowGates := by
  cases direction with
  | left => exact Iff.rfl
  | right => exact List.mem_reverse

theorem sendAll_cascade (direction : Direction) (r : Register) (b : ℕ → Bool) :
    Gate.sendAll (cascade direction r : List (Gate R)) b = move direction r b := by
  cases direction with
  | left => exact r.sendAll_borrow b
  | right => exact r.sendAll_carry b

/-! ### The move of one value of the coin -/

/-- The coin is all ones. -/
def coinOnes (coin : Register) : List Control := coin.wires.map fun w => ⟨w, true⟩

theorem met_coinOnes {coin : Register} {b : ℕ → Bool} :
    Met (coinOnes coin) b ↔ ∀ w ∈ coin.wires, b w = true := by
  simp only [Met, coinOnes, List.forall_mem_map]

theorem gatesOf_ripple (direction : Direction) (coin position : Register) :
    gatesOf (ripple direction coin position : List (Operation R)) =
      (cascade direction position).map (Gate.under (coinOnes coin)) := by
  have hgate : ∀ i, cascadeGate coin position i =
      .gate ((position.borrowGate i : Gate R).under (coinOnes coin)) := by
    intro i
    simp [cascadeGate, Register.borrowGate, Gate.under, Gate.controlled, coinOnes]
  rw [ripple, Operation.gatesOf_append, funext hgate, Operation.gatesOf_map_gate]
  cases direction <;>
    simp [order, cascade, Register.borrowGates, Operation.gates, Function.comp_def]

/-- The wires that the selection of a pattern flips. -/
def unset (coin : Register) (pattern : String) : List ℕ :=
  (Pattern.wires false pattern).map coin.wire

theorem gatesOf_selection (coin : Register) (pattern : String) :
    gatesOf (selection coin pattern : List (Operation R)) =
      (unset coin pattern).map (Gate.plain .flip) := by
  rw [selection, Operation.gatesOf_map_gate, unset, List.map_map]
  rfl

theorem nodup_unset (coin : Register) (pattern : String) : (unset coin pattern).Nodup :=
  (Pattern.nodup_wires false pattern).map fun _ _ e => Nat.add_left_cancel e

theorem mem_unset {coin : Register} {pattern : String} (h : IsPattern pattern coin.width) {w : ℕ} :
    w ∈ unset coin pattern ↔
      ∃ q < coin.width, (Pattern.wireBits pattern).getD q false = false ∧ coin.wire q = w := by
  simp only [unset, List.mem_map, Pattern.mem_wires, h.length, and_assoc]

theorem unset_subset {coin : Register} {pattern : String} (h : IsPattern pattern coin.width) {w : ℕ}
    (hw : w ∈ unset coin pattern) : w ∈ coin.wires := by
  obtain ⟨q, hq, -, rfl⟩ := (mem_unset h).mp hw
  exact Register.wire_mem hq

/-- After the flips of a selection the coin is all ones if it carried the pattern. -/
theorem met_selected {coin : Register} {pattern : String} (h : IsPattern pattern coin.width)
    (b : ℕ → Bool) : Met (coinOnes coin) (fun w => if w ∈ unset coin pattern then !b w else b w) ↔
      coin.read b = Pattern.value pattern := by
  rw [met_coinOnes, Pattern.read_eq_value h]
  have hmem : ∀ q < coin.width, coin.wire q ∈ unset coin pattern ↔
      (Pattern.wireBits pattern).getD q false = false := by
    intro q hq
    rw [mem_unset h]
    constructor
    · rintro ⟨p, -, hp, e⟩
      rwa [Nat.add_left_cancel e] at hp
    · exact fun hp => ⟨q, hq, hp, rfl⟩
  simp only [Register.wires, List.forall_mem_map, List.mem_range]
  refine forall₂_congr fun q hq => ?_
  have hmem_q := hmem q hq
  cases hbit : (Pattern.wireBits pattern).getD q false
  · rw [if_pos ((hmem q hq).mpr hbit), Bool.not_eq_true']
  · rw [if_neg fun hw => by rw [hbit] at hmem_q; exact absurd (hmem_q.mp hw) (by decide)]

/-- The operations that move a register on one value of the coin. -/
def wrapped (coin : Register) (pattern : String) (direction : Direction) (position : Register) :
    List (Operation R) :=
  selection coin pattern ++ ripple direction coin position ++ selection coin pattern ++ [.barrier]

theorem wrap_eq_ok {coin : Register} {pattern : String} (h : IsPattern pattern coin.width)
    (direction : Direction) (position : Register) :
    wrap coin pattern (ripple direction coin position) =
      .ok (wrapped coin pattern direction position : List (Operation R)) := by
  unfold wrap
  rw [Pattern.checkWidth_eq_ok.mpr h]
  rfl

theorem gatesOf_wrapped (coin : Register) (pattern : String) (direction : Direction)
    (position : Register) : gatesOf (wrapped coin pattern direction position : List (Operation R)) =
      (unset coin pattern).map (Gate.plain .flip) ++
        (cascade direction position).map (Gate.under (coinOnes coin)) ++
        (unset coin pattern).map (Gate.plain .flip) := by
  simp [wrapped, gatesOf_ripple, gatesOf_selection, Operation.gates]

section wrapped
variable {coin position : Register} (hd : coin.wires.Disjoint position.wires)
include hd

/-- **A wrapped shift moves its register on one value of the coin**, and the coin ends as it was. -/
theorem sendAll_wrapped {pattern : String} (hp : IsPattern pattern coin.width)
    (direction : Direction) (b : ℕ → Bool) :
    Gate.sendAll (gatesOf (wrapped coin pattern direction position : List (Operation R))) b =
      if coin.read b = Pattern.value pattern then move direction position b else b := by
  set f : (ℕ → Bool) → ℕ → Bool := fun b w => if w ∈ unset coin pattern then !b w else b w with hf
  have hff : ∀ c, f (f c) = c := by
    intro c
    funext w
    simp only [hf]
    split_ifs <;> simp
  have hapart : ∀ g ∈ (cascade direction position : List (Gate R)), ∀ c ∈ coinOnes coin,
      c.wire ≠ g.target := by
    intro g hg c hc e
    obtain ⟨w, hw, rfl⟩ := List.mem_map.mp hc
    have ht : g.target ∈ position.wires := Register.target_mem_of_borrowGates (mem_cascade.mp hg)
    rw [← e] at ht
    exact hd hw ht
  have hsel : ∀ c, Gate.sendAll ((unset coin pattern).map (Gate.plain .flip) : List (Gate R)) c =
      f c := Gate.sendAll_plain (nodup_unset coin pattern)
  rw [gatesOf_wrapped, Gate.sendAll_append, Gate.sendAll_append, hsel, hsel,
    Gate.sendAll_under hapart, sendAll_cascade]
  by_cases hc : coin.read b = Pattern.value pattern
  · rw [if_pos ((met_selected hp b).mpr hc), if_pos hc]
    -- the flips of the coin do not touch the register that moves
    have hout : ∀ w ∈ position.wires, f b w = b w := fun w hw =>
      if_neg fun h => hd (unset_subset hp h) hw
    funext w
    by_cases hw : w ∈ position.wires
    · calc f (move direction position (f b)) w = move direction position (f b) w :=
          if_neg fun h => hd (unset_subset hp h) hw
        _ = move direction position b w := move_apply hout hw
    · have hkeep : ∀ c, move direction position c w = c w := move_of_notMem hw
      calc f (move direction position (f b)) w = f (f b) w := by simp only [hf, hkeep]
        _ = move direction position b w := by rw [hff, hkeep]
  · rw [if_neg (mt (met_selected hp b).mp hc), if_neg hc, hff]

theorem isFlip_wrapped {pattern : String} {direction : Direction} {g : Gate R}
    (hg : g ∈ gatesOf (wrapped coin pattern direction position)) : g.IsFlip := by
  rw [gatesOf_wrapped, List.mem_append, List.mem_append, or_right_comm, or_self] at hg
  rcases hg with hg | hg
  · obtain ⟨w, -, rfl⟩ := List.mem_map.mp hg
    exact Gate.isFlip_plain w
  · obtain ⟨g, hg', rfl⟩ := List.mem_map.mp hg
    rw [mem_cascade] at hg'
    refine (Register.isFlip_borrowGates hg').under fun c hc e => ?_
    obtain ⟨w, hw, rfl⟩ := List.mem_map.mp hc
    have ht := Register.target_mem_of_borrowGates hg'
    rw [← e] at ht
    exact hd hw ht

theorem fits_wrapped {n : ℕ} (hcoin : coin.stop ≤ n) (hposition : position.stop ≤ n)
    {pattern : String} (hp : IsPattern pattern coin.width) {direction : Direction} {g : Gate R}
    (hg : g ∈ gatesOf (wrapped coin pattern direction position)) : g.Fits n := by
  have hlt : ∀ w ∈ coin.wires, w < n := fun w hw => (Register.mem_wires.mp hw).2.trans_le hcoin
  rw [gatesOf_wrapped, List.mem_append, List.mem_append, or_right_comm, or_self] at hg
  rcases hg with hg | hg
  · obtain ⟨w, hw, rfl⟩ := List.mem_map.mp hg
    exact ⟨hlt w (unset_subset hp hw), by simp [Gate.plain], by simp [Gate.plain],
      by simp [Gate.plain]⟩
  · obtain ⟨g, hg', rfl⟩ := List.mem_map.mp hg
    rw [mem_cascade] at hg'
    refine (Register.fits_borrowGates hg' hposition).under (fun c hc => ?_) ?_ fun c hc hmem => ?_
    · obtain ⟨w, hw, rfl⟩ := List.mem_map.mp hc
      exact hlt w hw
    · simp only [coinOnes, List.map_map, Function.comp_def, List.map_id']
      exact Register.nodup_wires coin
    · obtain ⟨w, hw, rfl⟩ := List.mem_map.mp hc
      exact hd hw (Register.wires_subset_of_borrowGates hg' hmem)

omit hd in
theorem simple_of_wrapped {pattern : String} {direction : Direction} {op : Operation R}
    (h : op ∈ wrapped coin pattern direction position) : op = .barrier ∨ ∃ g, op = .gate g := by
  have hsel : op ∈ (selection coin pattern : List (Operation R)) → ∃ g, op = .gate g := by
    intro h
    obtain ⟨w, -, rfl⟩ := List.mem_map.mp h
    exact ⟨_, rfl⟩
  simp only [wrapped, ripple, List.mem_append, List.mem_singleton] at h
  rcases h with ((h | h | h) | h) | h
  · exact Or.inr (hsel h)
  · obtain ⟨i, -, rfl⟩ := List.mem_map.mp h
    exact Or.inr ⟨_, rfl⟩
  · exact Or.inl h
  · exact Or.inr (hsel h)
  · exact Or.inl h

end wrapped

/-! ### All moves -/

/-- The operations that move the registers `r 0, …, r (m - 1)`, each on two values of the coin. -/
def moveOps (coin : Register) (half : ℕ) (r : ℕ → Register) (m : ℕ) : List (Operation R) :=
  (List.range m).flatMap fun d =>
    wrapped coin (Pattern.ofValue (half + d) coin.width) .left (r d) ++
      wrapped coin (Pattern.ofValue d coin.width) .right (r d)

/-- **The move that the coin asks for**: to the right on the value of a dimension, to the left on
the value with the opposite most significant bit. -/
def hop (coin : Register) (half : ℕ) (r : ℕ → Register) (m : ℕ) (b : ℕ → Bool) : ℕ → Bool :=
  if coin.read b < m then move .right (r (coin.read b)) b
  else if half ≤ coin.read b ∧ coin.read b - half < m then
    move .left (r (coin.read b - half)) b
  else b

/-- The move of a register on one value of the coin. -/
def moveOn (coin r : Register) (direction : Direction) (v : ℕ) (b : ℕ → Bool) : ℕ → Bool :=
  if coin.read b = v then move direction r b else b

theorem moveOn_of_ne {coin r : Register} {direction : Direction} {v : ℕ} {b c : ℕ → Bool}
    (h : coin.read b ≠ v) (hc : coin.read c = coin.read b) : moveOn coin r direction v c = c :=
  if_neg (by rwa [hc])

theorem sendAll_wrapped_ofValue {coin r : Register} (hd : coin.wires.Disjoint r.wires) {v : ℕ}
    (hv : v < 2 ^ coin.width) {direction : Direction} (b : ℕ → Bool) :
    Gate.sendAll (gatesOf (wrapped coin (Pattern.ofValue v coin.width) direction r :
      List (Operation R))) b = moveOn coin r direction v b := by
  rw [sendAll_wrapped hd (Pattern.isPattern_ofValue _ _), Pattern.value_ofValue,
    Nat.mod_eq_of_lt hv]
  rfl

section moves
variable {coin : Register} {half m : ℕ} {r : ℕ → Register}

theorem read_coin_move (hd : ∀ d < m, coin.wires.Disjoint (r d).wires) {direction : Direction}
    {d : ℕ} (h : d < m) (b : ℕ → Bool) : coin.read (move direction (r d) b) = coin.read b :=
  Register.read_congr fun _ hq => move_of_notMem (fun hq' => hd d h hq hq') b

/-- A dimension more: its two moves come behind those of the others. -/
theorem hop_succ {b : ℕ → Bool} (hd : ∀ d < m + 1, coin.wires.Disjoint (r d).wires)
    (hm : m + 1 ≤ half) : hop coin half r (m + 1) b =
      moveOn coin (r m) .right m (moveOn coin (r m) .left (half + m) (hop coin half r m b)) := by
  have hkeep : ∀ direction, ∀ d < m + 1, coin.read (move direction (r d) b) = coin.read b :=
    fun _ _ hlt => read_coin_move hd hlt b
  -- at most one of the earlier and the two new moves is due
  obtain h | h | h | h | h : coin.read b < m ∨ coin.read b = m ∨
      (half ≤ coin.read b ∧ coin.read b - half < m) ∨ coin.read b = half + m ∨
      (m < coin.read b ∧ coin.read b < half ∨ half + m < coin.read b) := by omega
  · have hold : hop coin half r m b = move .right (r (coin.read b)) b := if_pos h
    have hnew : hop coin half r (m + 1) b = move .right (r (coin.read b)) b := if_pos (by omega)
    have hc := hkeep .right _ (show coin.read b < m + 1 by omega)
    have hleft : coin.read b ≠ half + m := by omega
    rw [hold, hnew, moveOn_of_ne hleft hc, moveOn_of_ne h.ne hc]
  · have hold : hop coin half r m b = b := by
      rw [hop, if_neg (by omega), if_neg (by omega)]
    have hnew : hop coin half r (m + 1) b = move .right (r m) b := by
      rw [hop, if_pos (by omega), h]
    have hleft : coin.read b ≠ half + m := by omega
    rw [hold, hnew, moveOn_of_ne hleft rfl]
    exact (if_pos h).symm
  · have hold : hop coin half r m b = move .left (r (coin.read b - half)) b := by
      rw [hop, if_neg (by omega), if_pos h]
    have hnew : hop coin half r (m + 1) b = move .left (r (coin.read b - half)) b := by
      rw [hop, if_neg (by omega), if_pos (by omega)]
    have hc := hkeep .left _ (show coin.read b - half < m + 1 by omega)
    have hleft : coin.read b ≠ half + m := by omega
    have hright : coin.read b ≠ m := by omega
    rw [hold, hnew, moveOn_of_ne hleft hc, moveOn_of_ne hright hc]
  · have hold : hop coin half r m b = b := by
      rw [hop, if_neg (by omega), if_neg (by omega)]
    have hnew : hop coin half r (m + 1) b = move .left (r m) b := by
      rw [hop, if_neg (by omega), if_pos (by omega), h, Nat.add_sub_cancel_left]
    have hleft : moveOn coin (r m) .left (half + m) b = move .left (r m) b := if_pos h
    have hright : coin.read b ≠ m := by omega
    rw [hold, hnew, hleft, moveOn_of_ne hright (hkeep .left m (by omega))]
  · have hold : hop coin half r m b = b := by
      rw [hop, if_neg (by omega), if_neg (by omega)]
    have hnew : hop coin half r (m + 1) b = b := by
      rw [hop, if_neg (by omega), if_neg (by omega)]
    have hleft : coin.read b ≠ half + m := by omega
    have hright : coin.read b ≠ m := by omega
    rw [hold, hnew, moveOn_of_ne hleft rfl, moveOn_of_ne hright rfl]

/-- **All moves together** are the one that the coin asks for. -/
theorem sendAll_moves (hd : ∀ d < m, coin.wires.Disjoint (r d).wires) (hm : m ≤ half)
    (hk : 2 ^ coin.width = 2 * half) (b : ℕ → Bool) :
    Gate.sendAll (gatesOf (moveOps coin half r m : List (Operation R))) b =
      hop coin half r m b := by
  induction m with
  | zero => simp [moveOps, hop]
  | succ m ih =>
    have hdm := hd m (Nat.lt_succ_self m)
    rw [moveOps, List.range_succ, List.flatMap_append, Operation.gatesOf_append,
      Gate.sendAll_append, ← moveOps, ih (fun d hlt => hd d (by omega)) (by omega),
      List.flatMap_singleton, Operation.gatesOf_append, Gate.sendAll_append,
      sendAll_wrapped_ofValue hdm (by omega), sendAll_wrapped_ofValue hdm (by omega),
      hop_succ hd hm]

end moves

end Shift

end LatticeWalk
