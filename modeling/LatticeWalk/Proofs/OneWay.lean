import LatticeWalk.Proofs.CleanControls
import LatticeWalk.Proofs.Valve

/-! # One-way planes

A walker on a plane of a valve stays there or moves up, never down (`Walk.oneWay_never_down`).

* `Plan.Quiet`: counter and crossing wires are at zero. They are so before every step, since the step
  before has reset them (`Plan.Sound.quiet_run`).
* `Plan.Sound.up_of_onPlane`: from a quiet start, the blocks leave a walker on its plane with a coin
  that shows no move down, so that the shift leads up or nowhere (`Plan.Sound.step_of_onPlane`). -/

namespace LatticeWalk

open Operation (gatesOf)

/-! ### One step -/

/-- The registers of the controls are at zero. -/
def Plan.Quiet {R : Type} (plan : Plan R) (b : ℕ → Bool) : Prop :=
  ∀ c ∈ plan.controls, ∀ r ∈ c.registers, ∀ q ∈ r.wires, b q = false

namespace Plan.Sound

variable {plan : Plan ℝ} {spec : WalkSpec ℝ} (h : plan.Sound spec) {c : BoundaryControl ℝ}
  {bits d : ℕ} (hv : spec.Valved c bits d) {counter ancilla : Register}
  (hc : plan.Valve c bits counter ancilla)
include h hv hc

/-- On its plane, a block acts on what was there before the coin. -/
theorem actAll_planeOps_of_onPlane {p : Boundary} (hp : p ∈ c.boundaries) {ψ : Wave ℝ}
    {b : ℕ → Bool} (hb : plan.OnPlane p b) :
    Gate.actAll (gatesOf (plan.planeOps (0, p))) (Gate.actAll plan.coinGates ψ) b =
      Gate.actAll (Gate.valveFlips (plan.askPlane p) plan.topWire (ancilla.wire 0)
        (ancilla.wire 1) counter) ψ b := by
  have hback : ∀ g ∈ plan.undoGates, ∀ e ∈ plan.askPlane p, e.wire ≠ g.target := by
    intro g hg e he
    have hcoin := (h.wiring_apart hc.mem (h.plane_ok hc.mem hp).1).position_coin
    exact ne_of_mem_of_not_mem (Operator.wire_mem_of_controlsOn he)
      fun hq => hcoin hq (h.target_undoGates hg)
  obtain ⟨hnd, hout⟩ := h.nodup_valve hc hp
  rw [h.gatesOf_planeOps_valve hv hc hp]
  exact Gate.actAll_valve_of_met hnd hout hback h.undo_coin ((h.met_askPlane_valve hc hp).mpr hb) ψ

omit h hv in
theorem gatesOf_boundaryOps_valve : gatesOf plan.boundaryOps =
    c.boundaries.flatMap fun p => gatesOf (plan.planeOps (0, p)) := by
  rw [boundaryOps, hc.planes_eq, Operation.gatesOf_append, List.flatMap_map,
    Operation.gatesOf_flatMap]
  exact List.append_nil _

theorem onPlane_of_blocks {p : Boundary} (hp : p ∈ c.boundaries) {ψ : Wave ℝ}
    (hψ : ψ.Supported (plan.OnPlane p)) :
    (Gate.actAll (gatesOf plan.boundaryOps) (Gate.actAll plan.coinGates ψ)).Supported
      (plan.OnPlane p) := by
  intro b hb
  have htargets : ∀ g ∈ plan.coinGates ++ gatesOf plan.boundaryOps,
      g.target ∈ plan.coinRegister.wires ++ (counter.wires ++ ancilla.wires) := by
    intro g hg
    rcases List.mem_append.mp hg with hg | hg
    · exact List.mem_append_left _ (h.target_coinGates hg)
    · rw [gatesOf_boundaryOps_valve hc] at hg
      obtain ⟨p', hp', hg⟩ := List.mem_flatMap.mp hg
      exact h.target_planeOps hv hc hp' hg
  rw [← Gate.actAll_append] at hb
  obtain ⟨e, hbe, he⟩ := Gate.exists_of_actAll_ne_zero htargets hb
  exact (hbe.read (h.disjoint_position hc hp)).symm.trans (hψ e he)

theorem actAll_planeOps_of_other {p p' : Boundary} (hp : p ∈ c.boundaries)
    (hp' : p' ∈ c.boundaries) (hne : Pattern.value p'.pattern ≠ Pattern.value p.pattern)
    (φ : Wave ℝ) {b : ℕ → Bool} (hb : plan.OnPlane p b) :
    Gate.actAll (gatesOf (plan.planeOps (0, p'))) φ b = φ b := by
  refine h.actAll_planeOps_of_not_onPlane hv hc hp' (fun hb' => hne ?_) φ
  rw [← hb', ← hb, hv.dimension p hp, hv.dimension p' hp']

/-- **The blocks of a valve** leave a walker on its plane with a coin that shows no move down. -/
theorem up_of_onPlane {p : Boundary} (hp : p ∈ c.boundaries) {ψ : Wave ℝ}
    (hψ : ψ.Supported fun b => plan.OnPlane p b ∧ plan.Quiet b) :
    (Gate.actAll (gatesOf plan.boundaryOps) (Gate.actAll plan.coinGates ψ)).Supported fun b =>
      plan.OnPlane p b ∧ b plan.topWire = false := by
  intro b hb
  have hplane := h.onPlane_of_blocks hv hc hp (hψ.mono fun b hb => hb.1) b hb
  -- no other plane is where the walker stands
  obtain ⟨ps, ps', hps⟩ := List.append_of_mem hp
  have hapart := hv.apart
  rw [hps, List.map_append, List.map_cons, List.nodup_middle, List.nodup_cons,
    ← List.map_append] at hapart
  have hothers : ∀ p' ∈ ps ++ ps', ∀ (φ : Wave ℝ) (e), plan.OnPlane p e →
      Gate.actAll (gatesOf (plan.planeOps (0, p'))) φ e = φ e := by
    intro p' hp' φ e he
    have hmem : p' ∈ c.boundaries := by
      rw [hps]
      exact List.perm_middle.mem_iff.mpr (List.mem_cons_of_mem _ hp')
    exact h.actAll_planeOps_of_other hv hc hp hmem
      (fun hvalue => hapart.1 (hvalue ▸ List.mem_map_of_mem hp')) φ he
  rw [gatesOf_boundaryOps_valve hc, hps, Gate.actAll_flatMap_of_single hothers
    (fun g hg => h.blind_onPlane hc hp (h.target_planeOps hv hc hp hg)) _ b hplane,
    h.actAll_planeOps_of_onPlane hv hc hp hplane] at hb
  obtain ⟨hnd, hout⟩ := h.nodup_valve hc hp
  refine ⟨hplane, Gate.supported_flips (fun g hg => (Gate.mem_valveFlips hnd hout hg).1) hψ
    (Q := fun b => b plan.topWire = false) (fun e he => ?_) b hb⟩
  have hquiet : ∀ r ∈ [counter, ancilla], ∀ q ∈ r.wires, e q = false := he.2 _ hc.mem
  have hancilla : ∀ q < 2, e (ancilla.wire q) = false := fun q hq =>
    hquiet ancilla (by simp) _ (Register.wire_mem (hc.crossing ▸ hq))
  exact Gate.sendAll_valveFlips hnd hout ((h.met_askPlane_valve hc hp).mpr he.1)
    (hancilla 0 (by omega)) (hancilla 1 (by omega)) (hquiet counter (by simp))

omit h in
theorem coinOps_of_valve : ∀ i ∈ plan.controls, i.coinOps = [] := by
  intro i hi
  refine Installed.coinOps_eq_nil fun op hop => ?_
  rw [hc.eq_of_mem hi, hv.oneWay] at hop
  cases hop

omit hv in
theorem mem_targetsOf_resetOps {step q : ℕ} (hq : q ∈ Operation.targetsOf (plan.resetOps step)) :
    q ∈ plan.coinRegister.wires ++ (counter.wires ++ ancilla.wires) := by
  obtain ⟨op, hop, hq⟩ := List.mem_flatMap.mp hq
  obtain ⟨targets, rfl, htargets⟩ := h.eq_reset_of_resetOps hop
  rcases htargets q hq with hcoin | ⟨i, hi, r, hr, hcontrol⟩
  · exact List.mem_append_left _ hcoin
  · rw [hc.eq_of_mem hi] at hr
    rcases Installed.mem_registers.mp hr with rfl | rfl
    · exact List.mem_append_right _ (List.mem_append_left _ hcontrol)
    · exact List.mem_append_right _ (List.mem_append_right _ hcontrol)

/-- **On a plane, a step leads up or nowhere.** -/
theorem step_of_onPlane {p : Boundary} (hp : p ∈ c.boundaries) {ψ : Wave ℝ}
    (hψ : ψ.Supported fun b => plan.OnPlane p b ∧ plan.Quiet b) (step : ℕ) (outcomes : ℕ → Bool) :
    (Operation.evolve (plan.stepOps step) outcomes ψ).Supported fun b =>
      plan.OnPlane p b ∨ (plan.positionOf p.dimension).read b =
        (Pattern.value p.pattern + 1) % 2 ^ (plan.positionOf p.dimension).width := by
  obtain ⟨outcomes', heq⟩ := h.evolve_phases step outcomes ψ
  rw [gatesOf_coinOps (coinOps_of_valve hv hc), Gate.actAll_append] at heq
  have hd := (h.plane_ok hc.mem hp).1
  have hmoved := h.actAll_moveOps (h.up_of_onPlane hv hc hp hψ)
    (Q := fun b => plan.OnPlane p b ∨ (plan.positionOf p.dimension).read b =
      (Pattern.value p.pattern + 1) % 2 ^ (plan.positionOf p.dimension).width) fun b hb => by
    obtain ⟨low, hlow, hcoin, -⟩ := h.read_coin b
    rw [hb.2, Bool.toNat_false, Nat.mul_zero, Nat.zero_add] at hcoin
    rw [OnPlane, h.read_hop hd, hb.1]
    split_ifs with hright hleft
    · exact .inr rfl
    · omega
    · exact .inl rfl
  intro b hb
  rw [heq] at hb
  obtain ⟨-, e, hbe, he⟩ := Wave.exists_of_collapseAll_ne_zero hb
  have hread : (plan.positionOf p.dimension).read e = (plan.positionOf p.dimension).read b :=
    hbe.read fun q hq => h.disjoint_position hc hp (h.mem_targetsOf_resetOps hc hq)
  rw [OnPlane, ← hread]
  exact hmoved e he

/-! ### Whole runs -/

omit h in
theorem preparation_of_valve : ∀ i ∈ plan.controls, i.control.preparation i.register = [] := by
  intro i hi
  refine BoundaryControl.preparation_eq_nil (fun wires hw => ?_) _
  rw [hc.eq_of_mem hi, hv.oneWay] at hw
  cases hw

omit h in
/-- Counter and crossing wires are reset after each step. -/
theorem quiet_of_settled {b : ℕ → Bool} (hb : plan.Settled b) : plan.Quiet b := by
  intro i hi r hr q hq
  have hresets : 0 < i.control.resets := by
    rw [hc.eq_of_mem hi]
    exact hv.resets
  refine hb.cleared i hi hresets q ?_
  rw [hc.eq_of_mem hi] at hr ⊢
  rcases Installed.mem_registers.mp hr with rfl | rfl <;>
    simp [BoundaryControl.resetTargets, BoundaryControl.resetsRegister, hv.oneWay, hq]

/-- **Before every step** counter and crossing wires are at zero. -/
theorem quiet_run (n : ℕ) (outcomes : ℕ → Bool) :
    (Operation.evolve (plan.preparation ++ plan.stepsFrom 0 n) outcomes
      (Wave.basis fun _ => false)).Supported plan.Quiet := by
  have hstates := h.of_controls fun c' hc' => (hv.sound c' hc').state
  have hderived : ∀ i ∈ plan.controls, ∀ op, i.control.permeability = .permeable op →
      op.Derived := by
    intro i hi op hop
    rw [hc.eq_of_mem hi, hv.oneWay] at hop
    cases hop
  have hsettled := supported_steps (P := fun _ => plan.Settled)
    (fun _ _ _ hψ => h.settled_step hstates hderived hψ) n 0 outcomes
    (Wave.supported_basis (h.settled_prepared hstates))
  rw [evolve_preparation]
  exact hsettled.mono fun _ hb => quiet_of_settled hv hc hb

end Plan.Sound

/-- The part of a wave in which a register has a value. -/
def Wave.standing {R : Type} [Scalar R] (r : Register) (v : ℕ) (ψ : Wave R) : Wave R := fun b =>
  if r.read b = v then ψ b else 0

theorem Wave.Supported.standing {ψ : Wave ℝ} {P : (ℕ → Bool) → Prop} (hψ : ψ.Supported P)
    (r : Register) (v : ℕ) : (ψ.standing r v).Supported fun b => r.read b = v ∧ P b := by
  intro b hb
  unfold Wave.standing at hb
  split_ifs at hb with hread
  · exact ⟨hread, hψ b hb⟩
  · exact absurd rfl hb

/-- Neither a number nor the next is the one before, cyclically, if there are four. -/
theorem ne_pred_mod {size v x : ℕ} (hsize : 4 ≤ size) (hv : v < size)
    (hx : x = v ∨ x = (v + 1) % size) : x ≠ (v + size - 1) % size := by
  have hpred : (v + size - 1) % size = if v = 0 then size - 1 else v - 1 := by
    split_ifs with h
    · rw [h, Nat.zero_add, Nat.mod_eq_of_lt (by omega)]
    · rw [show v + size - 1 = v - 1 + size by omega, Nat.add_mod_right, Nat.mod_eq_of_lt (by omega)]
  have hsucc : (v + 1) % size = if v + 1 = size then 0 else v + 1 := by
    split_ifs with h
    · rw [h, Nat.mod_self]
    · exact Nat.mod_eq_of_lt (by omega)
  rw [hsucc] at hx
  rw [hpred]
  split_ifs at hx ⊢ <;> omega

namespace Walk

/-- **A one-way plane is never crossed downward.** However many steps are added to a walk with a
valve, one more step carries the part of the wave that stands on a plane to the plane itself or to
the next value up, and none of it to the value below, whatever the outcomes of the resets before and
in the step. Every simulation of the program that succeeds shows such a wave, up to a factor. -/
theorem oneWay_never_down {spec : WalkSpec ℝ} {w₀ : Walk ℝ} {c : BoundaryControl ℝ} {bits d : ℕ}
    (hbuild : build spec = .ok w₀) (hv : spec.Valved c bits d) (n : ℕ) :
    ∃ w w' ops r, (addSteps n).outcome w₀ = (.ok (), w) ∧ step.outcome w = (.ok (), w') ∧
      w'.program.operations = w.program.operations ++ ops ∧ w.plan.positions[d]? = some r ∧
      (∀ draws s, (Simulation.run w'.program.operations).outcome
          ⟨.basis w'.program.width 0, draws⟩ = (.ok (), s) →
        ∃ outcomes outcomes' a, a ≠ 0 ∧ s.vector.Shows (Amplitude.ofReal a •
          Operation.evolve ops outcomes'
            (Operation.evolve w.program.operations outcomes (Wave.basis fun _ => false)))) ∧
      ∀ outcomes outcomes' : ℕ → Bool, ∀ p ∈ c.boundaries, (Operation.evolve ops outcomes'
        ((Operation.evolve w.program.operations outcomes (Wave.basis fun _ => false)).standing r
          (Pattern.value p.pattern))).Supported fun b =>
        (r.read b = Pattern.value p.pattern ∨
          r.read b = (Pattern.value p.pattern + 1) % 2 ^ r.width) ∧
        r.read b ≠ (Pattern.value p.pattern + 2 ^ r.width - 1) % 2 ^ r.width := by
  obtain ⟨w, hrun, hready, hidle, hops⟩ := addSteps_of_build hbuild hv.sound n
  have h := hready.plan
  obtain ⟨counter, ancilla, hc⟩ := h.exists_valve hv
  have hsound : ∀ i ∈ w.plan.controls, i.control.Sound := h.of_controls hv.sound
  obtain ⟨width, hwidth, hwide⟩ := hv.wide
  have hd : d < w.plan.positions.length := by
    rw [h.length_positions]
    exact (List.getElem?_eq_some_iff.mp hwidth).1
  rw [h.width_positionOf hd, Option.some.injEq] at hwidth
  have hsize : 4 ≤ 2 ^ (w.plan.positionOf d).width :=
    (Nat.pow_le_pow_right (by norm_num) (hwidth ▸ hwide) : 2 ^ 2 ≤ _)
  refine ⟨w, _, w.plan.stepOps (w.steps + 1), w.plan.positionOf d, hrun,
    outcome_step hready hsound hidle, rfl, Plan.getElem?_positions hd, fun draws s hs => ?_,
    fun outcomes outcomes' p hp => ?_⟩
  · have hrun' : (Simulation.run (w.program.operations ++ w.plan.stepOps (w.steps + 1))).outcome
        ⟨.basis w.program.width 0, draws⟩ = (.ok (), s) := hs
    have hwithin : ∀ op ∈ w.program.operations ++ w.plan.stepOps (w.steps + 1),
        op.Within w.program.width := by
      intro op hop
      rw [hready.width]
      have hcoin := Plan.Sound.coinOps_of_valve hv hc
      rcases List.mem_append.mp hop with hop | hop
      · exact h.within_program (Plan.Sound.preparation_of_valve hv hc) hcoin hsound n (hops ▸ hop)
      · exact h.within_stepOps hcoin hsound hop
    have hstart : (StateVector.basis w.program.width 0 : StateVector ℝ).Shows
        (Amplitude.ofReal 1 • Wave.basis fun _ => false) := by
      have hone : Amplitude.ofReal 1 = 1 := rfl
      rw [hone, one_smul]
      exact StateVector.shows_start _
    obtain ⟨outcomes, a, ha, hshows⟩ := Simulation.run_evolves hstart one_ne_zero hwithin hrun'
    rw [Operation.evolve_append] at hshows
    exact ⟨outcomes, _, a, ha, hshows⟩
  · have hdim := hv.dimension p hp
    have hpart := ((h.quiet_run hv hc n outcomes).standing (w.plan.positionOf d)
      (Pattern.value p.pattern)).mono fun b hb =>
        (⟨by rw [Plan.OnPlane, hdim]; exact hb.1, hb.2⟩ : w.plan.OnPlane p b ∧ w.plan.Quiet b)
    rw [← hops] at hpart
    have hvalue := Pattern.value_lt_of (h.plane_ok hc.mem hp).2
    rw [hdim] at hvalue
    refine (h.step_of_onPlane hv hc hp hpart _ outcomes').mono fun b hb => ?_
    rw [Plan.OnPlane, hdim] at hb
    exact ⟨hb, ne_pred_mod hsize hvalue hb⟩

/-- Four sites with a valve at two, and a walker that starts at one. -/
noncomputable def valveAtTwo : WalkSpec ℝ where
  widths := [2]
  initial := some ["01"]
  controls := [(BoundaryControl.ofPermeability (.oneWay 1)).addBoundaries [⟨"10", 0, none⟩]]
  decoherence := some ⟨3, [0]⟩

theorem valved_valveAtTwo : valveAtTwo.Valved
    ((BoundaryControl.ofPermeability (.oneWay 1)).addBoundaries [⟨"10", 0, none⟩]) 1 0 where
  only := rfl
  oneWay := rfl
  counts := one_pos
  state := rfl
  resets := one_pos
  dimension := by simp [BoundaryControl.addBoundaries, BoundaryControl.ofPermeability]
  apart := List.nodup_singleton _
  wide := ⟨2, rfl, le_rfl⟩

/-- The valve at two is never crossed to one. -/
theorem oneWay_never_down_valveAtTwo : ∃ w₀ : Walk ℝ, build valveAtTwo = .ok w₀ ∧
    valveAtTwo.Valved
      ((BoundaryControl.ofPermeability (.oneWay 1)).addBoundaries [⟨"10", 0, none⟩]) 1 0 ∧
    ∀ n, ∃ w w' ops r, (addSteps n).outcome w₀ = (.ok (), w) ∧ step.outcome w = (.ok (), w') ∧
      w'.program.operations = w.program.operations ++ ops ∧ w.plan.positions[0]? = some r ∧
      ∀ outcomes outcomes' : ℕ → Bool, (Operation.evolve ops outcomes'
        ((Operation.evolve w.program.operations outcomes (Wave.basis fun _ => false)).standing r
          2)).Supported fun b => (r.read b = 2 ∨ r.read b = (2 + 1) % 2 ^ r.width) ∧
            r.read b ≠ (2 + 2 ^ r.width - 1) % 2 ^ r.width := by
  obtain ⟨w₀, h⟩ : ∃ w₀ : Walk ℝ, build valveAtTwo = .ok w₀ := ⟨_, rfl⟩
  refine ⟨w₀, h, valved_valveAtTwo, fun n => ?_⟩
  obtain ⟨w, w', ops, r, hrun, hstep, hops, hr, -, hdown⟩ := oneWay_never_down h valved_valveAtTwo n
  refine ⟨w, w', ops, r, hrun, hstep, hops, hr, fun outcomes outcomes' => ?_⟩
  have hvalue : Pattern.value "10" = 2 := by decide
  have hp := hdown outcomes outcomes' ⟨"10", 0, none⟩ (List.mem_singleton.mpr rfl)
  rwa [hvalue] at hp

end Walk

end LatticeWalk
