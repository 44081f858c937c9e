import LatticeWalk.Proofs.Calls
import LatticeWalk.Proofs.Preparation
import LatticeWalk.Proofs.Runs

/-! # Restarts

Whatever a walk was asked, beginning its program anew gives the walk that was built, so steps added
from there do not depend on what was asked before.

* `Walk.sound_of_addSteps`: a walk to which steps were added has sound controls on all planes.
* `Walk.resetCircuit_of_run`: the walk that was built comes back.
* `Walk.addSteps_add`: steps that are added in two parts.
* `Plan.roundOps`, `Decoherence.due`: the operations that all steps have in common, and the reset of
  coin wires that is due after some of them; `Plan.stepsFrom_eq`.
* `Walk.program_of_restart`: the program after a restart, in terms of these. -/

namespace LatticeWalk

variable {R : Type}

/-! ### The schedule of steps -/

/-- The reset of coin wires after a step, if its number is in the cycle. -/
def Decoherence.due (cycle : Decoherence) (coin : Register) (step : ℕ) : List (Operation R) :=
  if cycle.cycleLength ∣ step ∧ cycle.targets ≠ [] then [.reset (cycle.targets.map coin.wire)]
  else []

namespace Plan

variable [Scalar R] (plan : Plan R)

/-- The operations that all steps have in common: coins, blocks, moves, and the resets of the
registers of controls. -/
def roundOps : List (Operation R) :=
  plan.coinOps ++ plan.boundaryOps ++ plan.moveOps ++ (Walk.ofPlan plan).resetScript

omit [Scalar R] in
theorem decoherenceAfter_eq (step : ℕ) : (Walk.ofPlan plan).decoherenceAfter step =
    plan.decoherence.elim [] fun cycle => cycle.due plan.coinRegister step := by
  unfold Walk.decoherenceAfter Walk.ofPlan
  cases plan.decoherence with
  | none => rfl
  | some cycle =>
    simp only [Option.elim_some, Decoherence.due, Nat.dvd_iff_mod_eq_zero, Bool.not_eq_true',
      List.isEmpty_eq_false_iff, ne_eq]

theorem stepOps_eq (step : ℕ) : plan.stepOps step =
    plan.roundOps ++ plan.decoherence.elim [] fun cycle => cycle.due plan.coinRegister step := by
  simp only [stepOps, resetOps, decoherenceAfter_eq, roundOps, List.append_assoc]

theorem stepsFrom_eq : ∀ n k : ℕ, plan.stepsFrom k n =
    (List.range' (k + 1) n).flatMap fun step =>
      plan.roundOps ++ plan.decoherence.elim [] fun cycle => cycle.due plan.coinRegister step
  | 0, _ => rfl
  | n + 1, k => by
    rw [stepsFrom, stepOps_eq, stepsFrom_eq n, List.range'_succ, List.flatMap_cons]

theorem stepsFrom_append (k m n : ℕ) :
    plan.stepsFrom k m ++ plan.stepsFrom (k + m) n = plan.stepsFrom k (m + n) := by
  simp only [stepsFrom_eq]
  rw [← List.flatMap_append, ← List.range'_append_1, Nat.add_right_comm]

end Plan

namespace Walk

variable [Scalar R] {σ : Type} {spec : WalkSpec R} {w₀ w : Walk R}

/-! ### Steps from the beginning -/

theorem addSteps_add (m n : ℕ) :
    (addSteps (m + n) : Attempt (Walk R) Unit) = (addSteps m >>= fun _ => addSteps n) := by
  induction m with
  | zero => simp [addSteps]
  | succ m ih => simp [Nat.succ_add, addSteps, ih]

theorem resetCircuit_of_plan (hbuild : build spec = .ok w₀) (hplan : w.plan = w₀.plan) :
    resetCircuit.outcome w = (.ok (), w₀) := by
  rw [resetCircuit, Attempt.outcome_bind_of_ok (Attempt.outcome_modify _ w), hplan]
  exact (build_eq_ok_iff.mp hbuild).2

/-- **A restart forgets** what the walk was asked. -/
theorem resetCircuit_of_run (hbuild : build spec = .ok w₀) (backend : Backend R σ) (b : σ)
    (calls : List Call) (hw : (run backend (w₀, b) calls).1 = w) :
    resetCircuit.outcome w = (.ok (), w₀) :=
  resetCircuit_of_plan hbuild (hw ▸ (compiled_run hbuild backend b calls).plan_eq)

theorem sound_of_addSteps (hbuild : build spec = .ok w₀) {n : ℕ} (hn : n ≠ 0)
    (hrun : (addSteps n).outcome w₀ = (.ok (), w)) :
    ∀ c ∈ spec.controls, c.boundaries ≠ [] → c.Sound := by
  intro control hcontrol hne
  have hready := (build_eq_ok hbuild).1
  obtain ⟨m, rfl⟩ := Nat.exists_eq_succ_of_ne_zero hn
  obtain ⟨_, w1, hstep, -⟩ := Attempt.outcome_bind_eq_ok hrun
  obtain ⟨c, hc, rfl⟩ := List.mem_map.mp (hready.plan.controls ▸ hcontrol)
  obtain ⟨plane, hplane⟩ := List.exists_mem_of_ne_nil _ hne
  obtain ⟨j, hj⟩ := List.mem_iff_getElem?.mp hc
  obtain ⟨ops, hops⟩ := blocks_of_step hready (fresh_of_build hbuild).1 hstep _
    (mem_planes_of_control hj hplane)
  obtain ⟨hd, hpattern⟩ := hready.plan.plane_ok hc hplane
  simp only [blockOf, hj, position_eq_ok hd] at hops
  exact BoundaryControl.sound_of_block (hready.plan.suits hc plane) hpattern hops

/-- Steps are added to a walk that was built if and only if its controls with planes are sound. -/
theorem exists_addSteps_iff (hbuild : build spec = .ok w₀) (n : ℕ) :
    (∃ w, (addSteps n).outcome w₀ = (.ok (), w)) ↔
      n = 0 ∨ ∀ c ∈ spec.controls, c.boundaries ≠ [] → c.Sound := by
  refine ⟨fun ⟨w, hrun⟩ => or_iff_not_imp_left.mpr fun hn => sound_of_addSteps hbuild hn hrun, ?_⟩
  rintro (rfl | hsound)
  · exact ⟨w₀, rfl⟩
  · have hg : w₀.plan.Guarded := (build_eq_ok hbuild).1.plan.of_controls hsound
    obtain ⟨w, hrun, -⟩ := addSteps_of_guarded hbuild hg n
    exact ⟨w, hrun⟩

/-- The walk to which steps were added, between two steps. -/
theorem program_of_addSteps (hbuild : build spec = .ok w₀) {n : ℕ}
    (hrun : (addSteps n).outcome w₀ = (.ok (), w)) : w.phase = .idle ∧ w.steps = n ∧
      w.program = ⟨w₀.plan.layout, w₀.plan.preparation ++ w₀.plan.stepsFrom 0 n⟩ := by
  have hready := (build_eq_ok hbuild).1
  obtain ⟨hidle, hzero, hops⟩ := fresh_of_build hbuild
  have hbegun : w₀.program = ⟨w₀.plan.layout, w₀.plan.preparation⟩ := by
    rw [← hready.layout, ← hops]
  rcases (exists_addSteps_iff hbuild n).mp ⟨w, hrun⟩ with rfl | hsound
  · obtain rfl : w₀ = w := congrArg Prod.snd hrun
    refine ⟨hidle, hzero, ?_⟩
    rw [hbegun, Plan.stepsFrom, List.append_nil]
  · have hg : w₀.plan.Guarded := hready.plan.of_controls hsound
    obtain ⟨w', hrun', -, hprogram, hphase, hsteps⟩ := outcome_addSteps (n := n) hready hg hidle
    obtain rfl : w = w' := congrArg Prod.snd (hrun.symm.trans hrun')
    refine ⟨hphase, by rw [hsteps, hzero, Nat.zero_add], ?_⟩
    rw [hprogram, push, hbegun, hzero]

/-- **The program depends on the specification and the number of steps only.** Whatever a walk was
asked, beginning anew gives the walk that was built, and steps added then end as they do there, also
where they fail. It makes no difference whether they are added at once or in two parts. They are
added if and only if the controls with planes are sound, and the program is then the preparation
with one round of operations for each step, always the same, and behind it the reset of the coin
wires if the number of the step is a multiple of the length of the cycle. -/
theorem program_of_restart (hbuild : build spec = .ok w₀) (backend : Backend R σ) (b : σ)
    (calls : List Call) (hw : (run backend (w₀, b) calls).1 = w) :
    resetCircuit.outcome w = (.ok (), w₀) ∧
    (∀ n, (restart n).outcome w = (addSteps n).outcome w₀) ∧
    (∀ m n (v : Walk R),
      (addSteps m >>= fun _ => addSteps n).outcome v = (addSteps (m + n)).outcome v) ∧
    (∀ n, (∃ w', (restart n).outcome w = (.ok (), w')) ↔
      n = 0 ∨ ∀ c ∈ spec.controls, c.boundaries ≠ [] → c.Sound) ∧
    ∀ n w', (restart n).outcome w = (.ok (), w') → w'.phase = .idle ∧ w'.steps = n ∧
      w'.program = ⟨w₀.plan.layout, w₀.plan.preparation ++ (List.range' 1 n).flatMap fun i =>
        w₀.plan.roundOps ++
          spec.decoherence.elim [] fun cycle => cycle.due w₀.plan.coinRegister i⟩ := by
  have hreset := resetCircuit_of_run hbuild backend b calls hw
  have hrestart : ∀ n, (restart n).outcome w = (addSteps n).outcome w₀ := fun n =>
    Attempt.outcome_bind_of_ok hreset
  refine ⟨hreset, hrestart, fun m n v => by rw [addSteps_add], fun n => ?_, fun n w' hrun => ?_⟩
  · rw [hrestart]
    exact exists_addSteps_iff hbuild n
  · rw [hrestart] at hrun
    obtain ⟨hphase, hsteps, hprogram⟩ := program_of_addSteps hbuild hrun
    refine ⟨hphase, hsteps, ?_⟩
    rw [hprogram, Plan.stepsFrom_eq, ← (build_eq_ok hbuild).1.plan.decoherence]

/-- Shifts added by hand, a phase out of order, and a step that is refused in the middle of
another. -/
def unruly : List Call :=
  [.addShift .left 0, .step, .addShifts, .addCoins, .wrapShift .right "01" 1, .step]

/-- Three steps after a restart. The coin, at wire three, is reset after the second. -/
theorem program_of_restart_everyKind : ∃ w₀ w w' : Walk ℝ, build everyKind = .ok w₀ ∧
    (run (Backend.replay ℝ) (w₀, []) unruly).1 = w ∧ (restart 3).outcome w = (.ok (), w') ∧
    w'.program.operations = w₀.plan.preparation ++ w₀.plan.roundOps ++ w₀.plan.roundOps ++
      [.reset [3]] ++ w₀.plan.roundOps := by
  obtain ⟨w₀, hbuild, hcoin⟩ : ∃ w₀ : Walk ℝ, build everyKind = .ok w₀ ∧
      w₀.plan.coinRegister.start = 3 := ⟨_, rfl, rfl⟩
  obtain ⟨-, -, -, hiff, hprogram⟩ :=
    program_of_restart hbuild (Backend.replay ℝ) [] unruly rfl
  obtain ⟨w', hrun⟩ := (hiff 3).mpr (.inr fun c hc _ => sound_everyKind c hc)
  refine ⟨w₀, _, w', hbuild, rfl, hrun, ?_⟩
  rw [(hprogram 3 w' hrun).2.2]
  have hcycle : everyKind.decoherence = some ⟨2, [0]⟩ := rfl
  simp [List.range', hcycle, Decoherence.due, Register.wire, hcoin]

end Walk

end LatticeWalk
