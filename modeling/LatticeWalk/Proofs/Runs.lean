import LatticeWalk.Proofs.Evolution
import LatticeWalk.Proofs.Latches

/-! # Runs

What is known of a walk to which steps were added: the operations of its program, where these lead
under given outcomes of the resets, and what a simulation of them shows.

* `Walk.wave`: where the program of a walk leads from all wires at zero.
* `Plan.supported_steps`: what every step keeps, runs keep; `Walk.supported_of_addSteps` says this of
  programs.
* `Walk.appends_of_step`: one more step.
* `Walk.shows_of_addSteps`, `Walk.shows_of_step`: what simulations that succeed show. -/

namespace LatticeWalk

/-- Where the program of a walk leads from all wires at zero when its resets have the given
outcomes. -/
noncomputable def Walk.wave {R : Type} [Scalar R] (w : Walk R) (outcomes : ℕ → Bool) : Wave R :=
  Operation.evolve w.program.operations outcomes (Wave.basis fun _ => false)

namespace Plan

theorem evolve_preparation (plan : Plan ℝ) (ops : List (Operation ℝ)) (outcomes : ℕ → Bool) :
    Operation.evolve (plan.preparation ++ ops) outcomes (Wave.basis fun _ => false) =
      Operation.evolve ops outcomes (Wave.basis plan.prepared) := by
  have hreset : ∀ op ∈ plan.preparation, op.isReset = false := fun _ => isReset_of_preparation
  rw [Operation.evolve_append, Operation.evolve_of_gates hreset, actAll_preparation,
    Operation.targetsOf_eq_nil hreset]
  rfl

/-- **What every step keeps, runs keep.** The property may depend on the number of steps. -/
theorem supported_steps {plan : Plan ℝ} {P : ℕ → (ℕ → Bool) → Prop}
    (hstep : ∀ (k : ℕ) (outcomes : ℕ → Bool) (ψ : Wave ℝ), ψ.Supported (P k) →
      (Operation.evolve (plan.stepOps (k + 1)) outcomes ψ).Supported (P (k + 1))) :
    ∀ (n k : ℕ) (outcomes : ℕ → Bool) {ψ : Wave ℝ}, ψ.Supported (P k) →
      (Operation.evolve (plan.stepsFrom k n) outcomes ψ).Supported (P (k + n))
  | 0, _, _, _, hψ => hψ
  | n + 1, k, outcomes, ψ, hψ => by
    rw [stepsFrom, Operation.evolve_append, Nat.add_comm n 1, ← Nat.add_assoc]
    exact supported_steps hstep n (k + 1) _ (hstep k outcomes ψ hψ)

end Plan

namespace Walk

variable {spec : WalkSpec ℝ} {w₀ w : Walk ℝ} (hbuild : build spec = .ok w₀)
  (hstates : ∀ c ∈ spec.controls, IsPattern c.state c.controlWidth) {n : ℕ}
  (hrun : (addSteps n).outcome w₀ = (.ok (), w))
include hbuild hstates hrun

theorem ready_of_addSteps : w.Ready spec ∧ w.phase = .idle := by
  rcases (addSteps_eq_ok_iff hbuild hstates n).mp ⟨w, hrun⟩ with rfl | hg
  · obtain rfl : w = w₀ := (congrArg Prod.snd hrun).symm
    exact ⟨(build_eq_ok hbuild).1, (fresh_of_build hbuild).1⟩
  · obtain ⟨w', hrun', -, hready, hidle, -⟩ := addSteps_of_guarded hbuild hg n
    obtain rfl : w = w' := congrArg Prod.snd (hrun.symm.trans hrun')
    exact ⟨hready, hidle⟩

/-- **What the first bits have and every step keeps** is true of all that carries amplitude. -/
theorem supported_of_addSteps {P : ℕ → (ℕ → Bool) → Prop} (hstart : P 0 w₀.plan.prepared)
    (hstep : ∀ (k : ℕ) (outcomes : ℕ → Bool) (ψ : Wave ℝ), ψ.Supported (P k) →
      (Operation.evolve (w₀.plan.stepOps (k + 1)) outcomes ψ).Supported (P (k + 1)))
    (outcomes : ℕ → Bool) : (w.wave outcomes).Supported (P n) := by
  have hsteps := Plan.supported_steps hstep n 0 outcomes (Wave.supported_basis hstart)
  rw [Nat.zero_add] at hsteps
  rwa [wave, (operations_of_addSteps hbuild hstates hrun).2.2, Plan.evolve_preparation]

/-- **One more step** is added if the controls with planes are sound, and then as the plan says. -/
theorem appends_of_step {w' : Walk ℝ} {u : Unit} (hstep : step.outcome w = (.ok u, w')) :
    w.plan.Guarded ∧ w' =
      { w.push (w.plan.stepOps (w.steps + 1)) with steps := w.steps + 1, results := none } := by
  obtain ⟨hready, hidle⟩ := ready_of_addSteps hbuild hstates hrun
  have hg := guarded_of_step hready (hready.plan.of_controls hstates) hidle hstep
  rw [outcome_guarded_step hready hg hidle] at hstep
  exact ⟨hg, (congrArg Prod.snd hstep).symm⟩

variable (hderived : ∀ c ∈ spec.controls, ∀ op, c.permeability = .permeable op → op.Derived)
include hderived

/-- **A simulation of the program that succeeds** shows where the program leads under some outcomes,
up to a factor. -/
theorem shows_of_addSteps {draws : Draws ℝ} {s : Simulation ℝ}
    (hs : (Simulation.run w.program.operations).outcome ⟨.basis w.program.width 0, draws⟩ =
      (.ok (), s)) : ∃ outcomes a, a ≠ 0 ∧ s.vector.wires = w.program.width ∧
      s.vector.Shows (Amplitude.ofReal a • w.wave outcomes) := by
  obtain ⟨-, hwidth, hops⟩ := operations_of_addSteps hbuild hstates hrun
  have h := (build_eq_ok hbuild).1.plan
  have hwithin : ∀ op ∈ w.program.operations, op.Within w.program.width := by
    intro op hop
    rw [hops] at hop
    rw [hwidth]
    exact (List.mem_append.mp hop).elim (h.within_marks (h.of_controls hstates))
      (within_of_addSteps hbuild hstates hderived hrun op)
  have hstart : (StateVector.basis w.program.width 0 : StateVector ℝ).Shows
      (Amplitude.ofReal 1 • Wave.basis fun _ => false) := by
    have hone : Amplitude.ofReal 1 = 1 := rfl
    rw [hone, one_smul]
    exact StateVector.shows_start _
  exact Simulation.run_shows hstart one_ne_zero hwithin hs

/-- What has amplitude in such a simulation has what all that carries amplitude has. -/
theorem amplitude_of_supported {P : (ℕ → Bool) → Prop}
    (hP : ∀ outcomes, (w.wave outcomes).Supported P) {draws : Draws ℝ} {s : Simulation ℝ}
    (hs : (Simulation.run w.program.operations).outcome ⟨.basis w.program.width 0, draws⟩ =
      (.ok (), s)) {i : ℕ} (hi : i < 2 ^ w.program.width) (hne : s.vector.amplitude i ≠ 0) :
    P i.testBit := by
  obtain ⟨outcomes, a, ha, hwires, hshows⟩ := shows_of_addSteps hbuild hstates hrun hderived hs
  exact hP outcomes _ ((hshows.amplitude_ne_zero ha (hwires ▸ hi)).mp hne)

/-- **One more step of a simulation** that succeeds leads on from what the simulation shows. -/
theorem shows_of_step {w' : Walk ℝ} {u : Unit} (hstep : step.outcome w = (.ok u, w'))
    {draws : Draws ℝ} {s' : Simulation ℝ}
    (hs' : (Simulation.run w'.program.operations).outcome ⟨.basis w'.program.width 0, draws⟩ =
      (.ok (), s')) :
    ∃ s, (Simulation.run w.program.operations).outcome ⟨.basis w.program.width 0, draws⟩ =
        (.ok (), s) ∧ s.vector.wires = w.program.width ∧ s'.vector.wires = w.program.width ∧
      ∃ ψ outcomes a a', a ≠ 0 ∧ a' ≠ 0 ∧ s.vector.Shows (Amplitude.ofReal a • ψ) ∧
        s'.vector.Shows (Amplitude.ofReal a' •
          Operation.evolve (w.plan.stepOps (w.steps + 1)) outcomes ψ) := by
  obtain ⟨hg, rfl⟩ := appends_of_step hbuild hstates hrun hstep
  obtain ⟨hready, -⟩ := ready_of_addSteps hbuild hstates hrun
  have hboth : (Simulation.run (w.program.operations ++ w.plan.stepOps (w.steps + 1))).outcome
      ⟨.basis w.program.width 0, draws⟩ = (.ok (), s') := hs'
  rw [Simulation.run_append] at hboth
  obtain ⟨_, s, hs, hlast⟩ := Attempt.outcome_bind_eq_ok hboth
  obtain ⟨outcomes, a, ha, hwires, hshows⟩ := shows_of_addSteps hbuild hstates hrun hderived hs
  have hcoin := fun (op : Operation ℝ) (hop : op ∈ w.plan.coinOps) =>
    hready.plan.within_coinOps_of_derived (hready.plan.of_controls hderived) hop
  have hwithin : ∀ op ∈ w.plan.stepOps (w.steps + 1), op.Within s.vector.wires := by
    intro op hop
    rw [hwires, hready.width]
    exact hready.plan.within_step hcoin hg hop
  obtain ⟨outcomes', a', ha', hwires', hshows'⟩ := Simulation.run_shows hshows ha hwithin hlast
  exact ⟨s, hs, hwires, hwires'.trans hwires, _, outcomes', a, a', ha, ha', hshows, hshows'⟩

/-! ### A walk with controls of every kind -/

omit hbuild hstates hrun hderived

/-- Four by two sites with a wall, a permeable plane, a valve and a wall with a latch, and with one
wire of the coin reset after every second step. -/
noncomputable def everyKind : WalkSpec ℝ where
  widths := [2, 1]
  initial := some ["01", "1"]
  controls := [BoundaryControl.hard.addBoundaries [⟨"11", 0, none⟩],
    (BoundaryControl.permeable (.hadamard 1)).addBoundaries [⟨"00", 0, none⟩],
    (BoundaryControl.ofPermeability (.oneWay 1)).addBoundaries [⟨"10", 0, none⟩],
    ⟨.absorbing 2, "01", [⟨"0", 1, none⟩], 1, none⟩]
  decoherence := some ⟨2, [0]⟩

theorem sound_everyKind : ∀ c ∈ everyKind.controls, c.Sound := by
  have hone : BoundaryControl.oneWay 1 =
      .ok (BoundaryControl.ofPermeability (.oneWay 1) : BoundaryControl ℝ) := rfl
  have hlatch : IsPattern "01" 2 := ⟨by simp [Pattern.isBit], rfl⟩
  simp only [everyKind, List.forall_mem_cons]
  refine ⟨BoundaryControl.sound_hard.addBoundaries _,
    (BoundaryControl.sound_permeable one_pos).addBoundaries _,
    (BoundaryControl.sound_oneWay hone).addBoundaries _,
    ⟨hlatch, fun _ => Nat.two_pos⟩, fun c hc => ?_⟩
  cases hc

theorem states_everyKind : ∀ c ∈ everyKind.controls, IsPattern c.state c.controlWidth :=
  fun c hc => (sound_everyKind c hc).state

theorem derived_everyKind :
    ∀ c ∈ everyKind.controls, ∀ op, c.permeability = .permeable op → op.Derived := by
  simp only [everyKind, List.forall_mem_cons]
  refine ⟨fun op hop => ?_, fun op hop => ?_, fun op hop => ?_, fun op hop => ?_, fun c hc => ?_⟩
  · cases hop
  · cases hop
    exact .hadamard 1
  · cases hop
  · cases hop
  · cases hc

end Walk

end LatticeWalk
