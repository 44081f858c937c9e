import LatticeWalk.Proofs.Counter
import LatticeWalk.Proofs.Slice

/-! # Ripples

What a shift does to the states of a program, for a coin and a position anywhere among its wires.

* `Shift.stepped`: a value that went one to the left or to the right, cyclically.
* `Shift.MovesOn`: on every basis state the operations move the position if the coin carries a given
  value, and change nothing else.
* `Shift.movesOn_of_gates`: whatever has the gates of a wrapped ripple does so on the value of the
  pattern. A bare ripple has those for the pattern of all ones (`Shift.gatesOf_ripple_eq_wrapped`).
* `Gate.actAll_append_reverse`: flips that are followed by themselves in the opposite order have no
  effect. The ripples of the two directions are one another's opposites.

Main statement: `Shift.ripples_step_on_one_coin_value`. -/

namespace LatticeWalk

open Operation (gatesOf)

/-! ### Flips there and back -/

namespace Gate

variable {R : Type} [Scalar R]

theorem actAll_append_reverse {gs : List (Gate R)} (h : ∀ g ∈ gs, g.IsFlip) {ψ : Wave R}
    (hψ : ψ.FlipExact) : actAll (gs ++ gs.reverse) ψ = ψ := by
  have hboth : ∀ g ∈ gs ++ gs.reverse, g.IsFlip := by
    intro g hg
    rw [List.mem_append, List.mem_reverse, or_self] at hg
    exact h g hg
  funext b
  rw [actAll_flips_reverse hboth hψ, List.reverse_append, List.reverse_reverse, sendAll_append,
    sendAll_reverse h]

end Gate

namespace Shift

variable {R : Type}

/-! ### Values -/

/-- A value of `w` wires that went one to the left or to the right, cyclically. -/
def stepped (direction : Direction) (w v : ℕ) : ℕ :=
  match direction with
  | .left => (v + 2 ^ w - 1) % 2 ^ w
  | .right => (v + 1) % 2 ^ w

theorem read_move (direction : Direction) (r : Register) (b : ℕ → Bool) :
    r.read (move direction r b) = stepped direction r.width (r.read b) := by
  cases direction <;> exact Register.read_put r b _

/-- **The operations move the position on one value of the coin**: they take every basis state of
`n` wires to a basis state, in which the position is one further if the coin carried `value` and
every other wire is as it was. On other values of the coin the position is as it was, too. -/
def MovesOn [Scalar R] (ops : List (Operation R)) (direction : Direction)
    (coin position : Register) (n value : ℕ) : Prop :=
  ∀ i < 2 ^ n, ∃ j < 2 ^ n, Simulation.Leads ops (.basis n i) (.basis n j) ∧
    position.valueIn j = (if coin.valueIn i = value
      then stepped direction position.width (position.valueIn i) else position.valueIn i) ∧
    ∀ q ∉ position.wires, j.testBit q = i.testBit q

/-! ### The operations of a shift -/

/-- The bare ripple is what the pattern of all ones selects: it needs no flips of the coin. -/
theorem gatesOf_ripple_eq_wrapped (direction : Direction) (coin position : Register) :
    gatesOf (ripple direction coin position : List (Operation R)) =
      gatesOf (wrapped coin (Pattern.ones coin.width) direction position) := by
  have hnone : unset coin (Pattern.ones coin.width) = [] := by
    refine List.eq_nil_iff_forall_not_mem.mpr fun w hw => ?_
    obtain ⟨q, hq, hbit, -⟩ := (mem_unset (Pattern.isPattern_ones _)).mp hw
    simp [Pattern.wireBits_ones, hq] at hbit
  rw [gatesOf_ripple, gatesOf_wrapped, hnone]
  simp

theorem gatesOf_ripple_left (coin position : Register) :
    gatesOf (ripple .left coin position : List (Operation R)) =
      (gatesOf (ripple .right coin position)).reverse := by
  simp [gatesOf_ripple, cascade]

theorem mem_wrapped_of_ripple {coin position : Register} {direction : Direction} {op : Operation R}
    (h : op ∈ ripple direction coin position) (pattern : String) :
    op ∈ wrapped coin pattern direction position := by
  simp [wrapped, h]

variable {coin position : Register} {n : ℕ} (hd : coin.wires.Disjoint position.wires)
  (hcoin : coin.stop ≤ n) (hposition : position.stop ≤ n)
include hd hcoin hposition

theorem within_wrapped {pattern : String} (hp : IsPattern pattern coin.width)
    {direction : Direction} {op : Operation R} (h : op ∈ wrapped coin pattern direction position) :
    op.Within n ∧ op.isReset = false := by
  have hfits : ∀ g ∈ op.gates, g.Fits n := fun g hg =>
    fits_wrapped hd hcoin hposition hp (List.mem_flatMap.mpr ⟨op, h, hg⟩)
  refine ⟨(Operation.wellFormed_of_fits (simple_of_wrapped h) hfits).toWithin, ?_⟩
  rcases simple_of_wrapped h with rfl | ⟨g, rfl⟩ <;> rfl

theorem within_ripple {direction : Direction} {op : Operation R}
    (h : op ∈ ripple direction coin position) : op.Within n ∧ op.isReset = false :=
  within_wrapped hd hcoin hposition (Pattern.isPattern_ones _)
    (mem_wrapped_of_ripple h (Pattern.ones coin.width))

/-! ### Basis states -/

omit hcoin hposition in
/-- Operations with the gates of a wrapped ripple move the position on the value of the pattern. -/
theorem movesOn_of_gates [Scalar R] [BitExact R] {pattern : String}
    (hp : IsPattern pattern coin.width) {direction : Direction} {ops : List (Operation R)}
    (hops : ∀ op ∈ ops, op.Within n ∧ op.isReset = false)
    (hgates : gatesOf ops = gatesOf (wrapped coin pattern direction position)) :
    MovesOn ops direction coin position n (Pattern.value pattern) := by
  intro i hi
  have hflip : ∀ g ∈ gatesOf ops, g.IsFlip := fun g hg => isFlip_wrapped hd (hgates ▸ hg)
  obtain ⟨j, hj, hbits, hleads⟩ := Simulation.run_flips hops hflip hi
  rw [hgates, sendAll_wrapped hd hp, Register.read_testBit] at hbits
  refine ⟨j, hj, hleads, ?_, fun q hq => ?_⟩
  · rw [← Register.read_testBit position j, hbits, ← Register.read_testBit position i]
    split_ifs
    · exact read_move direction position _
    · rfl
  · rw [hbits]
    split_ifs
    · exact move_of_notMem hq _
    · rfl

/-! ### All states -/

/-- A ripple and the ripple in the other direction leave every state vector as it was. -/
theorem leads_ripple_ripple {direction opposite : Direction} (hne : direction ≠ opposite)
    {v : StateVector ℝ} (hn : v.wires = n) (hsize : v.amplitudes.size = 2 ^ n) :
    Simulation.Leads (ripple direction coin position ++ ripple opposite coin position) v v := by
  subst hn
  have hshows : v.Shows v.wave := StateVector.shows_wave hsize
  have hops : ∀ op ∈ (ripple direction coin position ++ ripple opposite coin position :
      List (Operation ℝ)), op.Within v.wires ∧ op.isReset = false := by
    intro op hop
    rcases List.mem_append.mp hop with hop | hop <;>
      exact within_ripple hd hcoin hposition hop
  obtain ⟨u, hleads, hwires, hu⟩ := Simulation.leads_of_shows hshows hops
  have hflip : ∀ g ∈ gatesOf (ripple direction coin position : List (Operation ℝ)), g.IsFlip :=
    fun g hg => isFlip_wrapped hd (gatesOf_ripple_eq_wrapped direction coin position ▸ hg)
  have hreverse : gatesOf (ripple opposite coin position : List (Operation ℝ)) =
      (gatesOf (ripple direction coin position)).reverse := by
    cases direction <;> cases opposite
    · exact absurd rfl hne
    · rw [gatesOf_ripple_left, List.reverse_reverse]
    · exact gatesOf_ripple_left coin position
    · exact absurd rfl hne
  rw [Operation.gatesOf_append, hreverse,
    Gate.actAll_append_reverse hflip (Wave.flipExact_real _)] at hu
  rwa [hu.eq hshows hwires] at hleads

/-- **A ripple steps on one value of the coin.** For a coin and a position that share no wire,
anywhere among `n` wires and of any widths:

* between the flips of a pattern the ripple moves the position by one on the value of the pattern;
* without them it does so on the value of all ones;
* over the reals the ripple in one direction undoes that in the other one on every state vector. -/
theorem ripples_step_on_one_coin_value :
    (∀ (R : Type) [Scalar R] [BitExact R] (direction : Direction) (pattern : String),
      IsPattern pattern coin.width → ∃ ops : List (Operation R),
        wrap coin pattern (ripple direction coin position) = .ok ops ∧
        MovesOn ops direction coin position n (Pattern.value pattern)) ∧
    (∀ (R : Type) [Scalar R] [BitExact R] (direction : Direction),
      MovesOn (ripple direction coin position : List (Operation R)) direction coin position n
        (2 ^ coin.width - 1)) ∧
    ∀ v : StateVector ℝ, v.wires = n → v.amplitudes.size = 2 ^ n →
      Simulation.Leads (ripple .right coin position ++ ripple .left coin position) v v ∧
      Simulation.Leads (ripple .left coin position ++ ripple .right coin position) v v := by
  refine ⟨fun R _ _ direction pattern hp => ?_, fun R _ _ direction => ?_, fun v hn hsize => ?_⟩
  · exact ⟨_, wrap_eq_ok hp direction position, movesOn_of_gates hd hp
      (fun op hop => within_wrapped hd hcoin hposition hp hop) rfl⟩
  · rw [← Pattern.value_ones]
    exact movesOn_of_gates hd (Pattern.isPattern_ones _)
      (fun op hop => within_ripple hd hcoin hposition hop)
      (gatesOf_ripple_eq_wrapped direction coin position)
  · exact ⟨leads_ripple_ripple hd hcoin hposition (by decide) hn hsize,
      leads_ripple_ripple hd hcoin hposition (by decide) hn hsize⟩

omit hd hcoin hposition in
/-- A step to the left from the value 0 of three wires, on the coin value 1: around to the value 7.
On the bare ripple's coin value 3 it is a step to the right from 7 to 0. -/
theorem ripples_step_on_one_coin_value_around :
    ∃ coin position : Register, coin.width = 2 ∧ position.width = 3 ∧
      coin.wires.Disjoint position.wires ∧ coin.stop ≤ 8 ∧ position.stop ≤ 8 ∧
      IsPattern "01" coin.width ∧
      (∃ ops : List (Operation ℝ), wrap coin "01" (ripple .left coin position) = .ok ops ∧
        ∃ j < 2 ^ 8, Simulation.Leads ops (.basis 8 2) (.basis 8 j) ∧ position.valueIn j = 7 ∧
          ∀ q ∉ position.wires, j.testBit q = (2 : ℕ).testBit q) ∧
      ∃ j < 2 ^ 8, Simulation.Leads (ripple .right coin position : List (Operation ℝ))
          (.basis 8 118) (.basis 8 j) ∧ position.valueIn j = 0 ∧
        ∀ q ∉ position.wires, j.testBit q = (118 : ℕ).testBit q := by
  have hd : (⟨"coin", .coin, 1, 2⟩ : Register).wires.Disjoint
      (⟨"position", .dimension 0, 4, 3⟩ : Register).wires :=
    Register.disjoint_of_stop_le (by decide)
  have hpattern : IsPattern "01" 2 := ⟨by simp [Pattern.isBit], rfl⟩
  obtain ⟨hwrapped, hbare, -⟩ := ripples_step_on_one_coin_value (n := 8) hd (by decide) (by decide)
  obtain ⟨ops, hops, hmoves⟩ := hwrapped ℝ .left "01" hpattern
  obtain ⟨j, hj, hleads, hvalue, hrest⟩ := hmoves 2 (by norm_num)
  obtain ⟨k, hk, hleads', hvalue', hrest'⟩ := hbare ℝ .right 118 (by norm_num)
  exact ⟨_, _, rfl, rfl, hd, by decide, by decide, hpattern,
    ⟨ops, hops, j, hj, hleads, hvalue.trans (by decide), hrest⟩,
    k, hk, hleads', hvalue'.trans (by decide), hrest'⟩

end Shift

end LatticeWalk
