import LatticeWalk.Proofs.Block
import LatticeWalk.Proofs.Translation

/-! # The counter

What a counter leaves in its register after any number of executions.

* `Operation.Takes`: so many executions of an operation take one basis state to another.
* `Operation.Counts`: every execution adds the same to the value of a register, cyclically, and
  changes nothing else. The induction is on the number of executions, over bits
  (`Gate.sendAll_replicate`, `Register.iterate_advance`), and `Simulation.run_flips` brings the
  result back to basis states.
* `Operation.Counts.isLeast`: one that counts up or down restores all values for the first time once
  it has gone around.
* `Operator.cyclicIncrement_counts`: the counter of one-way boundaries counts down, its inverse
  up. -/

namespace LatticeWalk

open Operation (gatesOf)
open Operator (gatesOn)

variable {R : Type}

/-! ### Repeated advances -/

namespace Register

theorem advance_zero (r : Register) (b : ℕ → Bool) : r.advance 0 b = b := by
  refine eq_of_read_eq (r := r) (fun q hq => advance_of_notMem hq 0 b) ?_
  rw [read_advance, Nat.add_zero, Nat.mod_eq_of_lt (r.read_lt b)]

theorem iterate_advance (r : Register) (u t : ℕ) (b : ℕ → Bool) :
    (r.advance u)^[t] b = r.advance (u * t) b := by
  induction t with
  | zero => exact (r.advance_zero b).symm
  | succ t ih => rw [Function.iterate_succ_apply', ih, advance_advance, Nat.mul_succ]

theorem sendAll_borrow_eq_advance (r : Register) (b : ℕ → Bool) :
    Gate.sendAll (r.borrowGates : List (Gate R)) b = r.advance (2 ^ r.width - 1) b := by
  have hpos : 1 ≤ 2 ^ r.width := Nat.one_le_two_pow
  rw [sendAll_borrow, advance, Nat.add_sub_assoc hpos]

end Register

theorem Gate.sendAll_replicate (op : Operation R) (t : ℕ) (b : ℕ → Bool) :
    sendAll (gatesOf (List.replicate t op)) b = (sendAll op.gates)^[t] b := by
  induction t generalizing b with
  | zero => rfl
  | succ t ih =>
    rw [List.replicate_succ, Operation.gatesOf_cons, sendAll_append, ih,
      Function.iterate_succ_apply]

variable [Scalar R]

theorem StateVector.basis_injective (hone : (1 : Amplitude R) ≠ 0) {n i j : ℕ} (hi : i < 2 ^ n)
    (h : (basis n i : StateVector R) = basis n j) : i = j := by
  by_contra hne
  have hself : (basis n i : StateVector R).amplitude i = 1 := by
    simp [basis, amplitude, Array.getD, hi]
  have hother : (basis n j : StateVector R).amplitude i = 0 := by
    have hsize : i < (Array.replicate (2 ^ n) (0 : Amplitude R)).size := by simpa using hi
    simp [basis, amplitude, Array.getD, hi, Array.getElem_setIfInBounds_ne hsize (Ne.symm hne)]
  rw [h, hother] at hself
  exact hone hself.symm

/-- **Operations made of flips** take every basis state to the one that the flips send its bits
to. -/
theorem Simulation.run_flips [BitExact R] {n : ℕ} {ops : List (Operation R)}
    (hops : ∀ op ∈ ops, op.Within n ∧ op.isReset = false)
    (hflip : ∀ g ∈ gatesOf ops, g.IsFlip) {i : ℕ} (hi : i < 2 ^ n) :
    ∃ j < 2 ^ n, j.testBit = Gate.sendAll (gatesOf ops) i.testBit ∧
      Leads ops (.basis n i) (.basis n j : StateVector R) := by
  set b := Gate.sendAll (gatesOf ops) i.testBit with hb
  have hhigh : ∀ q, n ≤ q → b q = false := by
    intro q hq
    have hsame : b q = i.testBit q := Gate.sendAll_of_ne (fun g hg => by
      have := (Operation.fits_of_gatesOf (fun op hop => (hops op hop).1) hg).target
      omega) _
    rw [hsame]
    exact Nat.testBit_lt_two_pow (hi.trans_le (Nat.pow_le_pow_right (by norm_num) hq))
  have hj : (index n b).testBit = b := testBit_index_of_high hhigh
  obtain ⟨v, hleads, hwires, hshows⟩ :=
    leads_of_shows (StateVector.shows_basis hi) hops
  rw [Gate.actAll_basis hflip, ← hb, ← hj] at hshows
  obtain rfl := hshows.eq (StateVector.shows_basis (index_lt n b)) hwires
  exact ⟨index n b, index_lt n b, hj, hleads⟩

/-! ### Operations that count -/

namespace Operation

/-- Executed `t` times, the operation takes basis state `i` of `n` wires to basis state `j`. -/
def Takes (op : Operation R) (n t i j : ℕ) : Prop :=
  j < 2 ^ n ∧ Simulation.Leads (List.replicate t op) (.basis n i) (.basis n j)

/-- Executed `t` times, the operation leaves every value of the register as it was. -/
def Restores (op : Operation R) (r : Register) (n t : ℕ) : Prop :=
  ∀ i < 2 ^ n, ∃ j, op.Takes n t i j ∧ r.valueIn j = r.valueIn i

/-- **An operation that counts**: each execution adds `s` to the value of the register, cyclically,
and no other wire changes. -/
def Counts (op : Operation R) (r : Register) (n : ℕ) (s : ℤ) : Prop :=
  ∀ t, ∀ i < 2 ^ n, ∃ j, op.Takes n t i j ∧
    (r.valueIn j : ℤ) = (r.valueIn i + s * t) % 2 ^ r.width ∧
    ∀ q ∉ r.wires, j.testBit q = i.testBit q

variable {op : Operation R} {r : Register} {n t i j k : ℕ}

theorem Takes.unique (hone : (1 : Amplitude R) ≠ 0) (hj : op.Takes n t i j)
    (hk : op.Takes n t i k) : j = k := by
  have hsame := (hj.2 ⟨fun _ => 0, 0⟩).symm.trans (hk.2 ⟨fun _ => 0, 0⟩)
  refine StateVector.basis_injective hone hj.1 ?_
  simpa using hsame

/-- Flips that advance a register count in steps of any number that is congruent. -/
theorem counts_of_advance [BitExact R] (hwithin : op.Within n) (hreset : op.isReset = false)
    (hflip : ∀ g ∈ op.gates, g.IsFlip) {u : ℕ} {s : ℤ}
    (hsend : ∀ b, Gate.sendAll op.gates b = r.advance u b) (hs : u ≡ s [ZMOD 2 ^ r.width]) :
    op.Counts r n s := by
  intro t i hi
  have hsame : ∀ op' ∈ List.replicate t op, op' = op := fun _ h => List.eq_of_mem_replicate h
  have hops : ∀ op' ∈ List.replicate t op, op'.Within n ∧ op'.isReset = false := fun op' hop' =>
    hsame op' hop' ▸ ⟨hwithin, hreset⟩
  have hflips : ∀ g ∈ gatesOf (List.replicate t op), g.IsFlip := by
    intro g hg
    obtain ⟨op', hop', hg⟩ := List.mem_flatMap.mp hg
    rw [hsame op' hop'] at hg
    exact hflip g hg
  obtain ⟨j, hj, hbits, hrun⟩ := Simulation.run_flips hops hflips hi
  have hadv : j.testBit = r.advance (u * t) i.testBit := by
    rw [hbits, Gate.sendAll_replicate, funext hsend, Register.iterate_advance]
  refine ⟨j, ⟨hj, hrun⟩, ?_, fun q hq => ?_⟩
  · have hvalue : r.valueIn j = (r.valueIn i + u * t) % 2 ^ r.width := by
      rw [← Register.read_testBit, ← Register.read_testBit, hadv, Register.read_advance]
    rw [hvalue]
    push_cast
    exact (hs.mul_right t).add_left _
  · rw [hadv, Register.advance_of_notMem hq]

/-- **The period of a counter**: one that counts in steps of one, up or down, has restored all
values for the first time once it has gone around. -/
theorem Counts.isLeast {s : ℤ} (h : op.Counts r n s) (hs : IsUnit s)
    (hone : (1 : Amplitude R) ≠ 0) : IsLeast {t | 1 ≤ t ∧ op.Restores r n t} (2 ^ r.width) := by
  refine ⟨⟨Nat.one_le_two_pow, fun i hi => ?_⟩, fun t ht => ?_⟩
  · obtain ⟨j, htakes, hvalue, -⟩ := h (2 ^ r.width) i hi
    refine ⟨j, htakes, ?_⟩
    have hlt : (r.valueIn i : ℤ) < 2 ^ r.width := by
      exact_mod_cast Nat.mod_lt _ (Nat.two_pow_pos r.width)
    push_cast at hvalue
    rw [Int.add_mul_emod_self_right, Int.emod_eq_of_lt (by positivity) hlt] at hvalue
    exact_mod_cast hvalue
  · -- the value zero comes back only after multiples of the period
    obtain ⟨hpos, hrestores⟩ := ht
    obtain ⟨j, htakes, hvalue, -⟩ := h t 0 (Nat.two_pow_pos n)
    obtain ⟨k, htakes', hback⟩ := hrestores 0 (Nat.two_pow_pos n)
    obtain rfl := htakes.unique hone htakes'
    have hzero : r.valueIn 0 = 0 := by simp [Register.valueIn]
    rw [hback, hzero, Nat.cast_zero, zero_add] at hvalue
    have hdvd : (2 : ℤ) ^ r.width ∣ s * t := Int.dvd_of_emod_eq_zero hvalue.symm
    rw [hs.dvd_mul_left] at hdvd
    exact Nat.le_of_dvd hpos (by exact_mod_cast hdvd)

end Operation

/-! ### The counter of one-way boundaries -/

namespace Operator

theorem gatesOn_cyclicIncrement_inverse (r : Register) :
    gatesOn r.wires (cyclicIncrement r.width : Operator R).inverseGates =
      r.borrowGates.reverse := by
  have hundo : gatesOn r.wires (cyclicIncrement r.width : Operator R).inverseGates =
      undo (gatesOn r.wires (cyclicIncrement r.width : Operator R).gates) :=
    (Gate.undo_mapWires _ _).symm
  rw [hundo, gatesOn_cyclicIncrement]
  refine Gate.undo_of_adjoint_eq fun g hg => ?_
  obtain ⟨i, -, rfl⟩ := List.mem_map.mp hg
  rfl

variable [BitExact R] {r : Register} {n : ℕ} (hn : r.stop ≤ n)
include hn

/-- An operator whose gates on a register are flips that advance it counts in that register. -/
theorem counts_of_bind {op : Operator R} (hwires : op.wires = r.width)
    (hfit : AllFit op.wires op.gates) (hflip : ∀ g ∈ gatesOn r.wires op.gates, g.IsFlip) {u : ℕ}
    {s : ℤ} (hsend : ∀ b, Gate.sendAll (gatesOn r.wires op.gates) b = r.advance u b)
    (hs : u ≡ s [ZMOD 2 ^ r.width]) :
    ∃ operation, op.bind r.wires = .ok operation ∧ operation.Counts r n s := by
  have hlen : r.wires.length = op.wires := by rw [Register.length_wires, hwires]
  have hwithin : (op.bound r.wires).Within n := (wellFormed_bound (hwires ▸ hfit) hn).toWithin
  exact ⟨op.bound r.wires, bind_eq_ok hlen, Operation.counts_of_advance hwithin rfl hflip hsend hs⟩

theorem counts_cyclicIncrement : ∃ down : Operation R,
    (cyclicIncrement r.width).bind r.wires = .ok down ∧ down.Counts r n (-1) := by
  have hgates : gatesOn r.wires (cyclicIncrement r.width : Operator R).gates = r.borrowGates :=
    gatesOn_cyclicIncrement r
  have hfits := (Derived.cyclicIncrement (R := R) r.width).fits
  refine counts_of_bind hn rfl hfits.1 (u := 2 ^ r.width - 1) ?_ ?_ ?_
  · rw [hgates]
    exact fun g hg => Register.isFlip_borrowGates hg
  · rw [hgates]
    exact r.sendAll_borrow_eq_advance
  · have hcast : ((2 ^ r.width - 1 : ℕ) : ℤ) = 2 ^ r.width + -1 := by
      rw [Nat.cast_sub Nat.one_le_two_pow]
      push_cast
      ring
    rw [hcast]
    exact Int.add_modEq_left

theorem counts_cyclicIncrement_inverse : ∃ up : Operation R,
    (cyclicIncrement r.width).inverse.bind r.wires = .ok up ∧ up.Counts r n 1 := by
  have hgates : gatesOn r.wires (cyclicIncrement r.width : Operator R).inverse.gates =
      r.borrowGates.reverse := gatesOn_cyclicIncrement_inverse r
  have hfits := (Derived.cyclicIncrement (R := R) r.width).fits
  refine counts_of_bind hn rfl hfits.2 (u := 1) ?_ ?_ Int.ModEq.rfl
  · rw [hgates]
    exact fun g hg => Register.isFlip_borrowGates (List.mem_reverse.mp hg)
  · rw [hgates]
    exact r.sendAll_carry

/-- **The counter runs through all values.** Executed any number of times, it takes as much off the
value of its register, cyclically, and its inverse adds as much. So neither restores all values
before it has gone around. -/
theorem cyclicIncrement_counts (hone : (1 : Amplitude R) ≠ 0) : ∃ down up : Operation R,
    (cyclicIncrement r.width).bind r.wires = .ok down ∧
    (cyclicIncrement r.width).inverse.bind r.wires = .ok up ∧
    (∀ t, ∀ i < 2 ^ n, ∃ j, down.Takes n t i j ∧
      (r.valueIn j : ℤ) = (r.valueIn i - t) % 2 ^ r.width ∧
      ∀ q ∉ r.wires, j.testBit q = i.testBit q) ∧
    (∀ t, ∀ i < 2 ^ n, ∃ j, up.Takes n t i j ∧
      (r.valueIn j : ℤ) = (r.valueIn i + t) % 2 ^ r.width ∧
      ∀ q ∉ r.wires, j.testBit q = i.testBit q) ∧
    IsLeast {t | 1 ≤ t ∧ down.Restores r n t} (2 ^ r.width) ∧
    IsLeast {t | 1 ≤ t ∧ up.Restores r n t} (2 ^ r.width) := by
  obtain ⟨down, hdown, hcountDown⟩ := counts_cyclicIncrement (R := R) hn
  obtain ⟨up, hup, hcountUp⟩ := counts_cyclicIncrement_inverse (R := R) hn
  refine ⟨down, up, hdown, hup, fun t i hi => ?_, fun t i hi => ?_,
    hcountDown.isLeast isUnit_neg_one hone, hcountUp.isLeast isUnit_one hone⟩
  · obtain ⟨j, htakes, hvalue, hrest⟩ := hcountDown t i hi
    rw [neg_one_mul, ← sub_eq_add_neg] at hvalue
    exact ⟨j, htakes, hvalue, hrest⟩
  · obtain ⟨j, htakes, hvalue, hrest⟩ := hcountUp t i hi
    rw [one_mul] at hvalue
    exact ⟨j, htakes, hvalue, hrest⟩

omit hn in
/-- A register of two of four wires that holds one, in doubles: three executions leave two. -/
theorem cyclicIncrement_counts_thrice : ∃ down up : Operation Float,
    (cyclicIncrement 2).bind [1, 2] = .ok down ∧ (cyclicIncrement 2).inverse.bind [1, 2] = .ok up ∧
      (∃ j, down.Takes 4 3 11 j ∧ j / 2 % 4 = 2) ∧ (∃ j, up.Takes 4 3 11 j ∧ j / 2 % 4 = 0) ∧
      IsLeast {t | 1 ≤ t ∧ down.Restores ⟨"position", .dimension 0, 1, 2⟩ 4 t} 4 := by
  obtain ⟨down, up, hdown, hup, hcountDown, hcountUp, hleast, -⟩ :=
    cyclicIncrement_counts (R := Float) (r := ⟨"position", .dimension 0, 1, 2⟩) (n := 4)
      (by decide) (by decide)
  have hvalue : ∀ j, Register.valueIn ⟨"position", .dimension 0, 1, 2⟩ j = j / 2 % 4 := fun j => by
    simp [Register.valueIn, Nat.shiftRight_eq_div_pow]
  obtain ⟨j, hj, hdownValue, -⟩ := hcountDown 3 11 (by norm_num)
  obtain ⟨k, hk, hupValue, -⟩ := hcountUp 3 11 (by norm_num)
  rw [hvalue, hvalue] at hdownValue hupValue
  change ((j / 2 % 4 : ℕ) : ℤ) = 2 at hdownValue
  change ((k / 2 % 4 : ℕ) : ℤ) = 0 at hupValue
  exact ⟨down, up, hdown, hup, ⟨j, hj, by exact_mod_cast hdownValue⟩,
    ⟨k, hk, by exact_mod_cast hupValue⟩, hleast⟩

end Operator

end LatticeWalk
