import LatticeWalk.Proofs.Evolution
import LatticeWalk.Proofs.Latches

/-! # What a step may touch

Coins, blocks and resets of a step have their targets in the coin register and in the registers of
the controls, but for the latches. Positions change in the shift only, and latches never.

* `Plan.looseWires`: the wires that coins, blocks and resets may change.
* `Plan.Sound.evolve_phases`: a step is coins, blocks and moves, and resets at the end.
* `Plan.Sound.exists_of_evolve_step`: what carries amplitude after a step comes from what carried
  amplitude before, by a hop and changes of loose wires; the wires that were reset are at zero. -/

namespace LatticeWalk

open Operation (gatesOf)

/-! ### Targets -/

/-- The registers of a control that steps may change: all, but for a latch. -/
def Installed.loose {R : Type} (c : Installed R) : List Register :=
  if c.control.resetsRegister then c.registers else []

theorem BoundaryControl.resetsRegister_eq_false {R : Type} {c : BoundaryControl R} {n : ℕ}
    (h : c.permeability = .absorbing n) : c.resetsRegister = false := by
  rw [resetsRegister, h]

theorem Installed.mem_loose {R : Type} {c : Installed R} {r : Register} :
    r ∈ c.loose ↔ c.control.resetsRegister = true ∧ r ∈ c.registers := by
  unfold loose
  split_ifs with h <;> simp [h]

/-- What is reset after a step is loose. -/
theorem Installed.exists_loose {R : Type} {c : Installed R} (h : c.Wired) {q : ℕ}
    (hq : q ∈ c.control.resetTargets c.register c.ancilla) : ∃ r ∈ c.loose, q ∈ r.wires := by
  obtain ⟨r, hr, hmem⟩ := mem_resetTargets hq
  refine ⟨r, mem_loose.mpr ⟨?_, hr⟩, hmem⟩
  by_contra hresets
  rw [Bool.not_eq_true] at hresets
  -- such a control records no crossings, so that nothing is reset
  have hancilla := h.ancilla
  unfold BoundaryControl.resetsRegister at hresets
  unfold BoundaryControl.ancillaWidth at hancilla
  unfold BoundaryControl.resetTargets BoundaryControl.resetsRegister at hq
  cases hp : c.control.permeability with
  | hard | absorbing n =>
    rw [hp] at hancilla hq
    rw [Option.map_eq_none_iff.mp hancilla] at hq
    cases hq
  | permeable op | oneWay bits =>
    rw [hp] at hresets
    cases hresets

namespace Plan

/-- The wires that coins, blocks and resets may change. -/
def looseWires {R : Type} (plan : Plan R) : List ℕ :=
  plan.coinRegister.wires ++ plan.controls.flatMap fun c => c.loose.flatMap Register.wires

theorem mem_looseWires {R : Type} {plan : Plan R} {q : ℕ} : q ∈ plan.looseWires ↔
    q ∈ plan.coinRegister.wires ∨ ∃ c ∈ plan.controls, ∃ r ∈ c.loose, q ∈ r.wires := by
  simp only [looseWires, List.mem_append, List.mem_flatMap]

namespace Sound

variable {R : Type} [Scalar R] {plan : Plan R} {spec : WalkSpec R} (h : plan.Sound spec)
include h

theorem loose_disjoint_position {d : ℕ} (hd : d < plan.positions.length) :
    plan.looseWires.Disjoint (plan.positionOf d).wires := by
  intro q hq hpos
  rcases mem_looseWires.mp hq with hcoin | ⟨c, hc, r, hr, hmem⟩
  · exact h.coin_disjoint hd hcoin hpos
  · have hstop := h.position_control hd hc (Installed.mem_loose.mp hr).2
    exact Register.disjoint_of_stop_le hstop hpos hmem

theorem loose_disjoint_latch {i : Installed R} (hi : i ∈ plan.controls) {n : ℕ}
    (hn : i.control.permeability = .absorbing n) {s : Register} (hs : s ∈ i.registers) :
    plan.looseWires.Disjoint s.wires := by
  intro q hq hlatch
  rcases mem_looseWires.mp hq with hcoin | ⟨c, hc, r, hr, hmem⟩
  · exact Register.disjoint_of_stop_le (h.coin_control hi hs) hcoin hlatch
  · obtain ⟨hresets, hr⟩ := Installed.mem_loose.mp hr
    obtain ⟨j, hj⟩ := List.mem_iff_getElem?.mp hi
    obtain ⟨k, hk⟩ := List.mem_iff_getElem?.mp hc
    have hjk : k ≠ j := by
      rintro rfl
      obtain rfl := Option.some.inj (hj.symm.trans hk)
      rw [BoundaryControl.resetsRegister_eq_false hn] at hresets
      cases hresets
    exact h.controls_disjoint hjk hk hj hr hs hmem hlatch

theorem lt_of_mem_looseWires {q : ℕ} (hq : q ∈ plan.looseWires) : q < plan.layout.width := by
  rcases mem_looseWires.mp hq with hcoin | ⟨c, hc, r, hr, hmem⟩
  · exact (Register.mem_wires.mp hcoin).2.trans_le h.stop_coin
  · exact (Register.mem_wires.mp hmem).2.trans_le (h.stop_control hc (Installed.mem_loose.mp hr).2)

theorem targetsOf_resetOps_subset {step q : ℕ}
    (hq : q ∈ Operation.targetsOf (plan.resetOps step)) : q ∈ plan.looseWires := by
  obtain ⟨op, hop, hq⟩ := List.mem_flatMap.mp hq
  rcases List.mem_append.mp hop with hop | hop
  · obtain ⟨c, hc, hop⟩ := List.mem_flatMap.mp hop
    rw [BoundaryControl.eq_reset_of_resetScript hop] at hq
    exact mem_looseWires.mpr (.inr ⟨c, hc, Installed.exists_loose (h.wired c hc) hq⟩)
  · obtain ⟨cycle, hcycle, rfl⟩ := h.eq_reset_of_decoherence hop
    obtain ⟨t, ht, rfl⟩ := List.mem_map.mp hq
    refine mem_looseWires.mpr (.inl (Register.wire_mem ?_))
    rw [h.coinRegister]
    exact h.target_lt hcycle ht

omit [Scalar R] h in
/-- **A control with resets is reset after each step.** -/
theorem mem_targetsOf_resetOps_of_control {c : Installed R} (hc : c ∈ plan.controls)
    (hresets : 0 < c.control.resets) {q : ℕ}
    (hq : q ∈ c.control.resetTargets c.register c.ancilla) (step : ℕ) :
    q ∈ Operation.targetsOf (plan.resetOps step) := by
  have hscript : .reset (c.control.resetTargets c.register c.ancilla) ∈
      c.control.resetScript c.register c.ancilla := by
    simp only [BoundaryControl.resetScript, List.isEmpty_iff, List.ne_nil_of_mem hq, if_false,
      List.mem_replicate, ne_eq]
    exact ⟨hresets.ne', trivial⟩
  exact List.mem_flatMap.mpr
    ⟨_, List.mem_append_left _ (List.mem_flatMap.mpr ⟨c, hc, hscript⟩), hq⟩

theorem target_coinOps
    (hderived : ∀ c ∈ plan.controls, ∀ op, c.control.permeability = .permeable op → op.Derived)
    {g : Gate R} (hg : g ∈ gatesOf plan.coinOps) : g.target ∈ plan.looseWires := by
  obtain ⟨op, hop, hg⟩ := List.mem_flatMap.mp hg
  rw [coinOps, List.cons_append, List.mem_cons, List.mem_append, List.mem_singleton] at hop
  rcases hop with rfl | hop | rfl
  · exact mem_looseWires.mpr (.inl (h.target_coinGates hg))
  · obtain ⟨c, hc, hop⟩ := List.mem_flatMap.mp hop
    obtain ⟨o, r, hpermeable, hr, rfl⟩ := Installed.mem_coinOps hop
    have hwidth : r.wires.length = o.wires := by
      rw [Register.length_wires, ((h.wired c hc).width_register hr).1,
        BoundaryControl.controlWidth, hpermeable]
      rfl
    have hloose : r ∈ c.loose := Installed.mem_loose.mpr
      ⟨by rw [BoundaryControl.resetsRegister, hpermeable], by simp [Installed.registers, hr]⟩
    exact mem_looseWires.mpr (.inr ⟨c, hc, r, hloose,
      Operator.target_mem_of_gatesOn hwidth (hderived c hc o hpermeable).fits.1 hg⟩)
  · cases hg

theorem target_boundaryOps
    (hstates : ∀ c ∈ plan.controls, IsPattern c.control.state c.control.controlWidth) {g : Gate R}
    (hg : g ∈ gatesOf plan.boundaryOps) : g.target ∈ plan.looseWires := by
  rw [boundaryOps, Operation.gatesOf_append, Operation.gatesOf_flatMap] at hg
  rcases List.mem_append.mp hg with hg | hg
  · obtain ⟨p, hp, hg⟩ := List.mem_flatMap.mp hg
    obtain ⟨c, hc, hplane⟩ := mem_planes hp
    have hmem := List.mem_of_getElem? hc
    simp only [planeOps, hc] at hg
    rcases BoundaryControl.target_blockOps (h.suits hmem p.2) (h.plane_ok hmem hplane).2
      (hstates c hmem) (fun g hg => h.target_turnBack hg) hg with hcoin | ⟨hresets, r, hr, ht⟩
    · exact mem_looseWires.mpr (.inl hcoin)
    · exact mem_looseWires.mpr (.inr ⟨c, hmem, r, Installed.mem_loose.mpr ⟨hresets, hr⟩, ht⟩)
  · cases hg

/-! ### The phases of a step -/

/-- **A step is coins, blocks and moves, and resets at the end.** -/
theorem evolve_phases (step : ℕ) (outcomes : ℕ → Bool) (ψ : Wave R) : ∃ outcomes',
    Operation.evolve (plan.stepOps step) outcomes ψ =
      Wave.collapseAll (Operation.targetsOf (plan.resetOps step)) outcomes'
        (Gate.actAll (gatesOf plan.moveOps)
          (Gate.actAll (gatesOf plan.coinOps ++ gatesOf plan.boundaryOps) ψ)) := by
  have hgates : ∀ op ∈ plan.coinOps ++ plan.boundaryOps ++ plan.moveOps, op.isReset = false := by
    intro op hop
    rw [List.mem_append, List.mem_append] at hop
    rcases hop with (hop | hop) | hop
    · exact isReset_coinOps hop
    · exact isReset_boundaryOps hop
    · exact Walk.isReset_moveOps op hop
  refine ⟨fun k => outcomes (k +
    (Operation.targetsOf (plan.coinOps ++ plan.boundaryOps ++ plan.moveOps)).length), ?_⟩
  rw [stepOps, Operation.evolve_append, Operation.evolve_of_gates hgates,
    Operation.evolve_of_resets fun op hop => h.gates_resetOps hop, Operation.gatesOf_append,
    Operation.gatesOf_append, Gate.actAll_append]

omit [Scalar R] h in
theorem hopped_of_notMem {q : ℕ} (hq : ∀ d < plan.positions.length, q ∉ (plan.positionOf d).wires)
    (b : ℕ → Bool) : plan.hopped b q = b q := by
  unfold hopped Shift.hop
  split_ifs with h1 h2
  · exact Shift.move_of_notMem (hq _ h1) b
  · exact Shift.move_of_notMem (hq _ h2.2) b
  · rfl

end Sound

namespace Sound

variable {plan : Plan ℝ} {spec : WalkSpec ℝ} (h : plan.Sound spec)
  (hstates : ∀ c ∈ plan.controls, IsPattern c.control.state c.control.controlWidth)
  (hderived : ∀ c ∈ plan.controls, ∀ op, c.control.permeability = .permeable op → op.Derived)
include h hstates hderived

/-- **What carries amplitude after a step**: the wires that were reset are at zero, and up to loose
wires, the bits are those after a hop from bits that carried amplitude before. -/
theorem exists_of_evolve_step {step : ℕ} {outcomes : ℕ → Bool} {ψ : Wave ℝ} {b : ℕ → Bool}
    (hb : Operation.evolve (plan.stepOps step) outcomes ψ b ≠ 0) :
    (∀ q ∈ Operation.targetsOf (plan.resetOps step), b q = false) ∧
      ∃ e c, AgreeOff plan.looseWires b (plan.hopped e) ∧ AgreeOff plan.looseWires e c ∧
        ψ c ≠ 0 := by
  obtain ⟨outcomes', heq⟩ := h.evolve_phases step outcomes ψ
  rw [heq] at hb
  obtain ⟨hzero, b', hbb', hb'⟩ := Wave.exists_of_collapseAll_ne_zero hb
  set φ := Gate.actAll (gatesOf plan.coinOps ++ gatesOf plan.boundaryOps) ψ
  have hφ : φ.Supported fun e => φ e ≠ 0 := fun e he => he
  obtain ⟨e, rfl, he⟩ := h.actAll_moveOps hφ (Q := fun b => ∃ e, plan.hopped e = b ∧ φ e ≠ 0)
    (fun e he => ⟨e, rfl, he⟩) b' hb'
  have htargets : ∀ g ∈ gatesOf plan.coinOps ++ gatesOf plan.boundaryOps,
      g.target ∈ plan.looseWires := by
    intro g hg
    rcases List.mem_append.mp hg with hg | hg
    · exact h.target_coinOps hderived hg
    · exact h.target_boundaryOps hstates hg
  obtain ⟨c, hec, hc⟩ := Gate.exists_of_actAll_ne_zero htargets he
  exact ⟨hzero, e, c, fun q hq => hbb' q fun hmem => hq (h.targetsOf_resetOps_subset hmem), hec, hc⟩

end Sound

end Plan

end LatticeWalk
