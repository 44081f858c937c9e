import LatticeWalk.Proofs.Calls
import LatticeWalk.Proofs.Exact
import LatticeWalk.Proofs.Pass

/-! # Steps that fail

A step is refused in the middle of another, which leaves the walk as it was. Between steps it can
fail at one place only: a permeable control may have an operator on no wires, and the block of a
plane of such a control is not built. What the step has added before it stays in the program then.

* `BoundaryControl.Unregistered`: an operator without a register.
* `Walk.applyPlanes_cases`: all blocks are added, or those in front of the first such plane.
* `Walk.step_of_run`: what becomes of a step, whatever the walk was asked before. -/

namespace LatticeWalk

variable {R : Type}

namespace BoundaryControl

/-- The control has an operator but no wires for it. -/
def Unregistered (c : BoundaryControl R) : Prop := c.permeability ≠ .hard ∧ c.controlWidth = 0

theorem sound_of_registered {c : BoundaryControl R} (hstate : IsPattern c.state c.controlWidth)
    (h : ¬ c.Unregistered) : c.Sound :=
  ⟨hstate, fun hsoft => Nat.pos_of_ne_zero fun hzero => h ⟨hsoft, hzero⟩⟩

variable [Scalar R]

theorem block_of_unregistered {c : BoundaryControl R} (h : c.Unregistered) {w : Wiring}
    (hw : w.Suits c) (plane : Boundary) (coin : Operator R) :
    c.block plane coin w = refuse (.noControlRegister plane.pattern plane.dimension) := by
  have hnone : w.control = none := by
    have hcontrol := hw.control
    rwa [if_pos h.2, Option.map_eq_none_iff] at hcontrol
  have hwires : c.controlWires plane w =
      refuse (.noControlRegister plane.pattern plane.dimension) := by
    unfold controlWires operator?
    rw [hnone]
    cases hp : c.permeability with
    | hard => exact absurd hp h.1
    | _ => rfl
  unfold block
  rw [hwires]
  rfl

end BoundaryControl

/-- The plane belongs to a control with an operator but no register. -/
def Plan.Unregistered (plan : Plan R) (p : ℕ × Boundary) : Prop :=
  ∃ c, plan.controls[p.1]? = some c ∧ c.control.Unregistered

namespace Walk

variable [Scalar R] {spec : WalkSpec R}

theorem outcome_applyBoundary_of_unregistered {w : Walk R} (h : w.Ready spec) {p : ℕ × Boundary}
    (hp : p ∈ w.plan.planes) (hu : w.plan.Unregistered p) :
    (applyBoundary p.1 p.2).outcome w =
      (refuse (.noControlRegister p.2.pattern p.2.dimension), w) := by
  obtain ⟨c, hc, hplane⟩ := Plan.Sound.mem_planes hp
  obtain ⟨c', hc', hunregistered⟩ := hu
  obtain rfl : c = c' := Option.some.inj (hc.symm.trans hc')
  have hmem := List.mem_of_getElem? hc
  have hblock : w.blockOf p.1 p.2 = refuse (.noControlRegister p.2.pattern p.2.dimension) := by
    simp only [blockOf, hc, position_eq_ok (h.plan.plane_ok hmem hplane).1]
    exact BoundaryControl.block_of_unregistered hunregistered (h.plan.suits hmem p.2) p.2 _
  rw [applyBoundary, Attempt.outcome_bind_of_ok (Attempt.outcome_get w), hblock]
  exact Attempt.outcome_bind_of_error (Attempt.outcome_check _ w)

/-- **Blocks are added up to the first plane without a register.** -/
theorem applyPlanes_cases : ∀ {ps : List (ℕ × Boundary)} {w : Walk R}, w.Ready spec →
    (∀ c ∈ w.plan.controls, IsPattern c.control.state c.control.controlWidth) →
    (∀ p ∈ ps, p ∈ w.plan.planes) →
    ((∀ p ∈ ps, ¬ w.plan.Unregistered p) ∧
      (applyPlanes ps).outcome w = (.ok (), w.push (ps.flatMap w.plan.planeOps))) ∨
    ∃ front p rest, ps = front ++ p :: rest ∧ (∀ q ∈ front, ¬ w.plan.Unregistered q) ∧
      w.plan.Unregistered p ∧ (applyPlanes ps).outcome w =
        (refuse (.noControlRegister p.2.pattern p.2.dimension),
          w.push (front.flatMap w.plan.planeOps))
  | [], w, _, _, _ => .inl ⟨by simp, by simp [applyPlanes]⟩
  | p :: ps, w, h, hstates, hps => by
    by_cases hu : w.plan.Unregistered p
    · refine .inr ⟨[], p, ps, rfl, by simp, hu, ?_⟩
      rw [applyPlanes, Attempt.outcome_bind_of_error
        (outcome_applyBoundary_of_unregistered h (hps p (by simp)) hu), List.flatMap_nil, push_nil]
      rfl
    · obtain ⟨c, hc, hplane⟩ := Plan.Sound.mem_planes (hps p (by simp))
      have hsound := BoundaryControl.sound_of_registered (hstates c (List.mem_of_getElem? hc))
        fun hunregistered => hu ⟨c, hc, hunregistered⟩
      rw [applyPlanes, Attempt.outcome_bind_of_ok
        (outcome_applyBoundary_of_sound h.plan.seated h.layout hc hplane hsound)]
      rcases applyPlanes_cases (h.push (w.plan.planeOps p)) hstates
        fun p' (hp' : p' ∈ ps) => hps p' (by simp [hp']) with
        ⟨hall, hrun⟩ | ⟨front, q, rest, rfl, hfront, hq, hrun⟩
      · exact .inl ⟨List.forall_mem_cons.mpr ⟨hu, hall⟩, by rw [hrun]; simp⟩
      · exact .inr ⟨p :: front, q, rest, rfl, List.forall_mem_cons.mpr ⟨hu, hfront⟩, hq,
          by rw [hrun]; simp⟩

/-- A step stops where the block of a plane is not built. The coins and the blocks in front of it
stay in the program. -/
theorem outcome_step_of_applyPlanes {w w' : Walk R} (h : w.Ready spec) (hphase : w.phase = .idle)
    {e : Failure} (hplanes : (applyPlanes w.plan.planes).outcome
      { w.push w.plan.coinOps with phase := .bounded } = (.error e, w')) :
    step.outcome w = (.error e, w') := by
  have hcoins := outcome_addCoins h hphase
  set w1 : Walk R := { w.push w.plan.coinOps with phase := .coined } with hw1
  set w2 : Walk R := { w.push w.plan.coinOps with phase := .bounded } with hw2
  have hadvance : (advance .coined .bounded).outcome w1 = (.ok (), w2) := rfl
  have hbounds : applyBoundaries.outcome w1 = (.error e, w') := by
    rw [applyBoundaries, Attempt.outcome_bind_of_ok hadvance,
      Attempt.outcome_bind_of_ok (Attempt.outcome_get w2)]
    exact Attempt.outcome_bind_of_error hplanes
  rw [step, Attempt.outcome_bind_of_ok hcoins]
  exact Attempt.outcome_bind_of_error hbounds

variable {σ : Type} {w₀ w : Walk R}

/-- **When steps are whole.** Whatever a walk was asked, a step in the middle of another is refused
and leaves it as it was. Between steps it succeeds if every permeable control with planes has wires
for its operator. Otherwise it fails at the first plane of a control that has none, with the coins
and the blocks in front of this plane in the program and the phase advanced. -/
theorem step_of_run (hbuild : build spec = .ok w₀)
    (hstates : ∀ c ∈ spec.controls, IsPattern c.state c.controlWidth) (backend : Backend R σ)
    (b : σ) (calls : List Call) (hw : (run backend (w₀, b) calls).1 = w) :
    (w.phase ≠ .idle → step.outcome w = (refuse (.phaseOrder .coined w.phase), w)) ∧
    (w.phase = .idle → (∀ c ∈ spec.controls, c.boundaries ≠ [] → ¬ c.Unregistered) →
      step.outcome w = (.ok (), { w.push (w.plan.stepOps (w.steps + 1)) with
        steps := w.steps + 1, results := none })) ∧
    (w.phase = .idle → (∃ c ∈ spec.controls, c.boundaries ≠ [] ∧ c.Unregistered) →
      ∃ front p rest, w.plan.planes = front ++ p :: rest ∧
        (∀ q ∈ front, ¬ w.plan.Unregistered q) ∧ w.plan.Unregistered p ∧
        step.outcome w = (refuse (.noControlRegister p.2.pattern p.2.dimension),
          { w.push (w.plan.coinOps ++ front.flatMap w.plan.planeOps) with phase := .bounded })) := by
  have h : w.Ready spec := hw ▸ ready_run hbuild backend b calls
  have hstates₀ := h.plan.of_controls hstates
  refine ⟨outcome_step_of_phase, fun hphase hall => ?_, fun hphase ⟨c, hc, hne, hu⟩ => ?_⟩
  · refine outcome_guarded_step h (fun c hc hne => ?_) hphase
    exact BoundaryControl.sound_of_registered (hstates₀ c hc)
      (h.plan.of_controls (P := fun c => c.boundaries ≠ [] → ¬ c.Unregistered) hall c hc hne)
  · set w2 : Walk R := { w.push w.plan.coinOps with phase := .bounded } with hw2
    have h2 : w2.Ready spec := ⟨h.plan, h.layout⟩
    rcases applyPlanes_cases h2 hstates₀ fun p hp => hp with
      ⟨hall, -⟩ | ⟨front, p, rest, hplanes, hfront, hp, hrun⟩
    · -- the control has a plane, which is one of those of the plan
      obtain ⟨plane, hplane⟩ := List.exists_mem_of_ne_nil _ hne
      obtain ⟨i, hi, rfl⟩ := List.mem_map.mp (h.plan.controls ▸ hc)
      obtain ⟨j, hj⟩ := List.mem_iff_getElem?.mp hi
      exact absurd ⟨i, hj, hu⟩ (hall _ (mem_planes_of_control hj hplane))
    · refine ⟨front, p, rest, hplanes, hfront, hp, ?_⟩
      rw [outcome_step_of_applyPlanes h hphase hrun, hw2]
      simp only [push, List.append_assoc]
      rfl

/-- Two sites, one of them under a permeable control with a Hadamard operator on no wires. -/
noncomputable def wireless : WalkSpec ℝ where
  widths := [1]
  controls := [(BoundaryControl.permeable (.hadamard 0)).addBoundaries [⟨"1", 0, none⟩]]

/-- The first step fails between coins and shifts. After it none is begun any more. -/
theorem step_of_run_wireless : ∃ w₀ : Walk ℝ, build wireless = .ok w₀ ∧ ∃ p w,
    w₀.plan.Unregistered p ∧
    step.outcome w₀ = (refuse (.noControlRegister p.2.pattern p.2.dimension), w) ∧
    (run (Backend.replay ℝ) (w₀, []) [.step]).1 = w ∧
    step.outcome w = (refuse (.phaseOrder .coined .bounded), w) := by
  obtain ⟨w₀, hbuild⟩ : ∃ w₀ : Walk ℝ, build wireless = .ok w₀ := ⟨_, rfl⟩
  have hstates : ∀ c ∈ wireless.controls, IsPattern c.state c.controlWidth := by
    simp only [wireless, List.forall_mem_singleton]
    exact Pattern.isPattern_ones 0
  have hcut : ∃ c ∈ wireless.controls, c.boundaries ≠ [] ∧ c.Unregistered := by
    refine ⟨_, List.mem_singleton_self _, List.cons_ne_nil _ _, fun hhard => ?_, rfl⟩
    cases hhard
  obtain ⟨p, w, hp, hstep, hphase⟩ : ∃ p w, w₀.plan.Unregistered p ∧
      step.outcome w₀ = (refuse (.noControlRegister p.2.pattern p.2.dimension), w) ∧
      w.phase = .bounded := by
    have hfirst := step_of_run hbuild hstates (Backend.replay ℝ) [] [] rfl
    obtain ⟨front, p, rest, -, -, hp, hstep⟩ := hfirst.2.2 (fresh_of_build hbuild).1 hcut
    exact ⟨p, _, hp, hstep, rfl⟩
  have hrun : (run (Backend.replay ℝ) (w₀, []) [.step]).1 = w := by
    rw [run, List.foldl_cons, List.foldl_nil, perform, Attempt.outcome_first, hstep]
  have hrefused := (step_of_run hbuild hstates (Backend.replay ℝ) [] _ hrun).1
  rw [hphase] at hrefused
  exact ⟨w₀, hbuild, p, w, hp, hstep, hrun, hrefused (by decide)⟩

/-- **A step that fails may leave parts of it behind**: the coin is in the program, and the phase is
no longer that between two steps. -/
theorem failed_step_leaves_coins : ∃ w₀ w : Walk ℝ, build wireless = .ok w₀ ∧
    (∃ e, step.outcome w₀ = (.error e, w)) ∧ w.phase ≠ w₀.phase ∧
      w.program.operations ≠ w₀.program.operations := by
  refine ⟨_, _, rfl, ⟨_, rfl⟩, ?_, ?_⟩
  · exact nofun
  · exact nofun

end Walk

end LatticeWalk
