import LatticeWalk.Proofs.Compile
import LatticeWalk.Proofs.Flip

/-! # The shift phase

The operations that the shift phase adds take every basis state to a basis state, in which the
walker has moved as the coin says and nothing else has changed (`Walk.addShifts_moves`). -/

namespace LatticeWalk

open Operation (gatesOf)

variable {R : Type} [Scalar R]

namespace Plan

/-- **The walker of a basis state has moved as the coin says.** On the value of a dimension its
position is one more, on the value with the opposite most significant bit it is one less, both
cyclically, and all other registers are as they were. On every other value of the coin the basis
state is the same. -/
structure Moved (plan : Plan R) (i j : ℕ) : Prop where
  right : ∀ d r, plan.positions[d]? = some r → plan.coinRegister.valueIn i = d →
    r.valueIn j = (r.valueIn i + 1) % 2 ^ r.width ∧
      ∀ s ∈ plan.layout.registers, s ≠ r → s.valueIn j = s.valueIn i
  left : ∀ d r, plan.positions[d]? = some r →
    plan.coinRegister.valueIn i = 2 ^ (plan.coinRegister.width - 1) + d →
    r.valueIn j = (r.valueIn i + 2 ^ r.width - 1) % 2 ^ r.width ∧
      ∀ s ∈ plan.layout.registers, s ≠ r → s.valueIn j = s.valueIn i
  stay : (∀ d < plan.positions.length, plan.coinRegister.valueIn i ≠ d ∧
    plan.coinRegister.valueIn i ≠ 2 ^ (plan.coinRegister.width - 1) + d) → j = i

namespace Sound

variable {plan : Plan R} {spec : WalkSpec R} (h : plan.Sound spec)
include h

/-- Where the shift phase sends bits. -/
theorem sendAll_moveOps (b : ℕ → Bool) : Gate.sendAll (gatesOf plan.moveOps) b =
    Shift.hop plan.coinRegister (2 ^ (plan.coinRegister.width - 1)) plan.positionOf
      plan.positions.length b := by
  obtain ⟨k, hk, hn, -⟩ := h.coin_eq
  refine Shift.sendAll_moves (fun d hd => h.coin_disjoint hd) ?_ ?_ b
  · rwa [hk, Nat.add_sub_cancel]
  · rw [hk, Nat.add_sub_cancel, pow_succ, Nat.mul_comm]

theorem isFlip_moveOps {g : Gate R} (hg : g ∈ gatesOf plan.moveOps) : g.IsFlip := by
  rw [Plan.moveOps, Shift.moveOps, Operation.gatesOf_flatMap, List.mem_flatMap] at hg
  obtain ⟨d, hd, hg⟩ := hg
  rw [Operation.gatesOf_append, List.mem_append] at hg
  have hdisj := h.coin_disjoint (List.mem_range.mp hd)
  exact hg.elim (Shift.isFlip_wrapped hdisj) (Shift.isFlip_wrapped hdisj)

theorem read_move {direction : Direction} {d : ℕ} (hd : d < plan.positions.length) {s : Register}
    (hs : s ∈ plan.layout.registers) (hne : s ≠ plan.positionOf d) (b : ℕ → Bool) :
    s.read (Shift.move direction (plan.positionOf d) b) = s.read b := by
  have hdisj : (plan.positionOf d).wires.Disjoint s.wires := by
    have hpair : plan.layout.registers.Pairwise fun r s => r.wires.Disjoint s.wires :=
      plan.layout.apart.imp Register.disjoint_of_stop_le
    have hmem : plan.positionOf d ∈ plan.layout.registers := by
      rw [h.registers]
      exact List.mem_append_left _ (Plan.positionOf_mem hd)
    have : Std.Symm fun r s : Register => r.wires.Disjoint s.wires := ⟨fun _ _ h => h.symm⟩
    exact hpair.forall hmem hs hne.symm
  exact Register.read_congr fun q hq => Shift.move_of_notMem (fun hq' => hdisj hq' hq) b

theorem valueIn_of_move {direction : Direction} {d i j : ℕ} (hd : d < plan.positions.length)
    (hj : j.testBit = Shift.move direction (plan.positionOf d) i.testBit) :
    ∀ s ∈ plan.layout.registers, s ≠ plan.positionOf d → s.valueIn j = s.valueIn i := by
  intro s hs hne
  rw [← Register.read_testBit, ← Register.read_testBit, hj]
  exact h.read_move hd hs hne _

theorem moved_hop {i j : ℕ} (hj : j.testBit = Shift.hop plan.coinRegister
    (2 ^ (plan.coinRegister.width - 1)) plan.positionOf plan.positions.length i.testBit) :
    plan.Moved i j := by
  obtain ⟨k, hk, hn, -⟩ := h.coin_eq
  rw [hk, Nat.add_sub_cancel] at hj
  constructor
  · rintro d r hr hc
    obtain ⟨hd, rfl⟩ := Plan.eq_positionOf hr
    rw [← Register.read_testBit] at hc
    have hmove : j.testBit = Shift.move .right (plan.positionOf d) i.testBit := by
      rw [hj, Shift.hop, hc, if_pos hd]
    refine ⟨?_, h.valueIn_of_move hd hmove⟩
    rw [← Register.read_testBit, ← Register.read_testBit, hmove]
    exact Register.read_put _ _ _
  · rintro d r hr hc
    obtain ⟨hd, rfl⟩ := Plan.eq_positionOf hr
    rw [← Register.read_testBit, hk, Nat.add_sub_cancel] at hc
    have hmove : j.testBit = Shift.move .left (plan.positionOf d) i.testBit := by
      rw [hj, Shift.hop, hc, if_neg (by omega), if_pos (by omega), Nat.add_sub_cancel_left]
    refine ⟨?_, h.valueIn_of_move hd hmove⟩
    rw [← Register.read_testBit, ← Register.read_testBit, hmove]
    exact Register.read_put _ _ _
  · intro hstay
    rw [hk, Nat.add_sub_cancel, ← Register.read_testBit] at hstay
    set c := plan.coinRegister.read i.testBit with hc
    have hsame : j.testBit = i.testBit := by
      rw [hj, Shift.hop, ← hc, if_neg fun hlt => (hstay c hlt).1 rfl, if_neg]
      rintro ⟨h1, h2⟩
      exact (hstay (c - 2 ^ k) h2).2 (by omega)
    exact Nat.eq_of_testBit_eq fun q => congrFun hsame q

end Sound

end Plan

namespace Walk

/-- **The shift phase moves the walker exactly as the coin says.** Whatever walk was built, the
shift phase succeeds, and the operations that it adds take every basis state to the one in which
the walker has moved. -/
theorem addShifts_moves [BitExact R] {spec : WalkSpec R} {w₀ w : Walk R}
    (hbuild : build spec = .ok w₀) (hplan : w.plan = w₀.plan)
    (hlayout : w.program.layout = w₀.program.layout) (hphase : w.phase = .bounded) :
    ∃ ops, addShifts.outcome w = (.ok (), { w.push ops with phase := .shifted }) ∧
      w.plan.positions.map Register.width = spec.widths ∧
      w.plan.coinRegister.width = spec.coinWidth ∧
      ∀ i < 2 ^ w.program.width, ∀ draws : Draws R, ∃ j < 2 ^ w.program.width,
        (Simulation.run ops).outcome ⟨.basis w.program.width i, draws⟩ =
          (.ok (), ⟨.basis w.program.width j, draws⟩) ∧ w.plan.Moved i j := by
  obtain ⟨hready₀, -⟩ := build_eq_ok hbuild
  have hready : w.Ready spec := ⟨hplan ▸ hready₀.plan, by rw [hlayout, hready₀.layout, hplan]⟩
  have hsound := hready.plan
  refine ⟨w.plan.moveOps, outcome_addShifts hready hphase, hsound.positions, hsound.coinRegister,
    fun i hi draws => ?_⟩
  set n := w.program.width with hn
  have hwithin : ∀ op ∈ w.plan.moveOps, op.Within n := hready.within_moveOps
  set b := Gate.sendAll (gatesOf w.plan.moveOps) i.testBit with hb
  have hhigh : ∀ q, n ≤ q → b q = false := by
    intro q hq
    have hsame : b q = i.testBit q := Gate.sendAll_of_ne (fun g hg => by
      have := (Operation.fits_of_gatesOf hwithin hg).target
      omega) _
    rw [hsame]
    exact Nat.testBit_lt_two_pow (hi.trans_le (Nat.pow_le_pow_right (by norm_num) hq))
  have hj : (index n b).testBit = b := testBit_index_of_high hhigh
  obtain ⟨v, hrun, hwires, hshows⟩ := Simulation.run_gates (StateVector.shows_basis hi) hwithin
    isReset_moveOps draws
  refine ⟨index n b, index_lt n b, ?_, hsound.moved_hop (by rw [hj, hb, hsound.sendAll_moveOps])⟩
  rw [Gate.actAll_basis (fun g hg => hsound.isFlip_moveOps hg), ← hb, ← hj] at hshows
  rw [hrun, hshows.eq (StateVector.shows_basis (index_lt n b)) hwires]

/-- A walk on a lattice of four by two sites, simulated in doubles. -/
theorem addShifts_moves_four_by_two : ∃ w₀ : Walk Float, build { widths := [2, 1] } = .ok w₀ ∧
    ∃ ops, addShifts.outcome { w₀ with phase := .bounded } =
        (.ok (), { w₀.push ops with phase := .shifted }) ∧
      ∀ i < 2 ^ w₀.program.width, ∀ draws : Draws Float, ∃ j < 2 ^ w₀.program.width,
        (Simulation.run ops).outcome ⟨.basis w₀.program.width i, draws⟩ =
          (.ok (), ⟨.basis w₀.program.width j, draws⟩) ∧ w₀.plan.Moved i j := by
  obtain ⟨w₀, h⟩ : ∃ w₀ : Walk Float, build { widths := [2, 1] } = .ok w₀ := ⟨_, rfl⟩
  obtain ⟨ops, hops, -, -, hrun⟩ :=
    addShifts_moves (w := { w₀ with phase := .bounded }) h rfl rfl rfl
  exact ⟨w₀, h, ops, hops, hrun⟩

end Walk

end LatticeWalk
