import LatticeWalk.Proofs.BoundaryGroups
import LatticeWalk.Proofs.Calls
import LatticeWalk.Proofs.Pass
import LatticeWalk.Proofs.Undo
import LatticeWalk.Config

/-! # Configured walks

The controls that are built from written boundaries have a register where they have an operator,
since a boundary without control wires is read as a hard one only. So a walk that is built from a
configuration never comes to a plane whose block cannot be built.

* `BoundarySpec.sound_control`, `sound_buildControls`: the controls of written boundaries.
* `ExperimentConfig.sound_controls`: those of a configuration.
* `Walk.next`: the part of a step that is due in a phase.
* `Walk.addSteps_of_config`: no part of a step fails, and steps go on as long as is asked. -/

namespace LatticeWalk

variable {R : Type} [Scalar R]

theorem CoinFamily.wires_of_build {family : CoinFamily} {n : ℕ} {params : CoinParams R}
    {op : Operator R} (h : family.build n params = .ok (some op)) : op.wires = n := by
  cases hshift : family.isShiftCoin with
  | true => exact (directs_of_build hshift h).isCoin.plain.wires
  | false =>
    obtain ⟨_, -, h⟩ := Except.bind_eq_ok.mp h
    cases family with
    | cyclicController =>
      cases h
      rfl
    | noControl => cases h
    | _ => cases hshift

/-! ### The controls of written boundaries -/

theorem BoundarySpec.sound_control {policy : FallbackPolicy} {spec : BoundarySpec}
    (hwires : spec.controlWires = 0 ↔ spec.kind = .hard) {c : BoundaryControl R}
    (h : spec.control policy = .ok c) : c.Sound := by
  unfold control at h
  cases hkind : spec.kind with
  | hard =>
    rw [hkind] at h
    cases h
    exact BoundaryControl.sound_hard
  | oneWay =>
    rw [hkind] at h
    exact BoundaryControl.sound_oneWay h
  | absorbing =>
    rw [hkind] at h
    exact BoundaryControl.sound_absorbing h
  | permeable =>
    have hpos : 0 < spec.controlWires := by
      refine Nat.pos_of_ne_zero fun hzero => ?_
      cases hkind.symm.trans (hwires.mp hzero)
    rw [hkind] at h
    dsimp only at h
    split at h
    · exact BoundaryControl.sound_oneWay h
    · obtain ⟨operator, hbuild, h⟩ := Except.bind_eq_ok.mp h
      cases operator with
      | none =>
        cases h
        exact BoundaryControl.sound_hard
      | some op =>
        cases h
        exact BoundaryControl.sound_permeable (CoinFamily.wires_of_build hbuild ▸ hpos)

/-- **The controls of written boundaries** have registers for their operators. -/
theorem sound_buildControls {policy : FallbackPolicy} {specs : List BoundarySpec}
    (hread : ∀ spec ∈ specs, ∃ text, BoundarySpec.read text = .ok spec)
    {controls : List (BoundaryControl R)} (h : buildControls specs policy = .ok controls) :
    ∀ c ∈ controls, c.Sound := by
  obtain ⟨groups, hfold, hcontrols⟩ := Except.bind_eq_ok.mp h
  cases hcontrols
  have hgrouped := grouped_foldlM grouped_nil hfold
  intro c hc
  obtain ⟨g, hg, rfl⟩ := List.mem_map.mp hc
  -- the rule of a group is that of one of the boundaries
  obtain ⟨spec, hspec, -, c, hcontrol, planes, hplanes⟩ := hgrouped.rules g hg
  obtain ⟨text, htext⟩ := hread spec hspec
  rw [hplanes]
  exact (BoundarySpec.sound_control (BoundarySpec.wires_of_read htext) hcontrol).addBoundaries _

namespace ExperimentConfig

variable {config : ExperimentConfig} {spec : WalkSpec R}

theorem controls_of_toWalkSpec (h : config.toWalkSpec = .ok spec) :
    config.controls = .ok spec.controls := by
  unfold toWalkSpec at h
  split_ifs at h
  · obtain ⟨_, hrefused, -⟩ := Except.bind_eq_ok.mp h
    cases hrefused
  · obtain ⟨controls, hcontrols, h⟩ := Except.bind_eq_ok.mp h
    obtain ⟨params, -, h⟩ := Except.bind_eq_ok.mp h
    obtain ⟨coin, -, h⟩ := Except.bind_eq_ok.mp h
    cases h
    exact hcontrols

theorem sound_controls (h : config.toWalkSpec = .ok spec) : ∀ c ∈ spec.controls, c.Sound := by
  obtain ⟨specs, hspecs, hbuild⟩ := Except.bind_eq_ok.mp (controls_of_toWalkSpec h)
  exact sound_buildControls (Except.forall_of_mapM hspecs fun text _ _ htext => ⟨text, htext⟩)
    hbuild

end ExperimentConfig

/-! ### Steps -/

namespace Walk

/-- The part of a step that is due, with the phase that it leads to. There is none in the middle of
the resets. -/
def next : Phase → Option (Phase × Attempt (Walk R) Unit)
  | .idle => some (.coined, addCoins)
  | .coined => some (.bounded, applyBoundaries)
  | .bounded => some (.shifted, addShifts)
  | .shifted => some (.idle, resetBoundaries)
  | .reset => none

/-- If all controls are sound, the part of a step that is due succeeds. -/
theorem outcome_next {spec : WalkSpec R} {w : Walk R} (h : w.Ready spec)
    (hsound : ∀ c ∈ w.plan.controls, c.control.Sound) {phase : Phase}
    {part : Attempt (Walk R) Unit} (hnext : next w.phase = some (phase, part)) :
    ∃ ops, part.outcome w = (.ok (), { w.push ops with phase := phase }) := by
  cases hphase : w.phase with
  | idle =>
    rw [hphase] at hnext
    cases hnext
    exact ⟨_, outcome_addCoins h hphase⟩
  | coined =>
    rw [hphase] at hnext
    cases hnext
    exact ⟨_, outcome_applyBoundaries h (.of_sound hsound) hphase⟩
  | bounded =>
    rw [hphase] at hnext
    cases hnext
    exact ⟨_, outcome_addShifts h hphase⟩
  | shifted =>
    rw [hphase] at hnext
    cases hnext
    exact ⟨_, outcome_resetBoundaries h hphase⟩
  | reset =>
    rw [hphase] at hnext
    cases hnext

variable {config : ExperimentConfig} {spec : WalkSpec R} {w₀ : Walk R}

/-- **A configured walk goes on.** A walk that was built from a configuration stands between two
steps. Whenever it does so, whatever it was asked before, any number of steps can be added, which
are those of its plan; and in the middle of a step the part that is due never fails. -/
theorem addSteps_of_config (hspec : config.toWalkSpec = .ok spec) (hbuild : build spec = .ok w₀) :
    w₀.phase = .idle ∧ w₀.steps = 0 ∧ ∀ {σ : Type} (backend : Backend R σ) (b : σ)
      (calls : List Call) (w : Walk R), (run backend (w₀, b) calls).1 = w →
      (w.phase = .idle → ∀ n, ∃ w', (addSteps n).outcome w = (.ok (), w') ∧ w'.plan = w.plan ∧
        w'.program = (w.push (w.plan.stepsFrom w.steps n)).program ∧ w'.phase = .idle ∧
        w'.steps = w.steps + n) ∧
      ∀ phase part, next w.phase = some (phase, part) →
        ∃ ops, part.outcome w = (.ok (), { w.push ops with phase := phase }) := by
  obtain ⟨hidle, hsteps, -⟩ := fresh_of_build hbuild
  refine ⟨hidle, hsteps, fun backend b calls w hw => ?_⟩
  have h : w.Ready spec := hw ▸ ready_run hbuild backend b calls
  have hsound := h.plan.of_controls (ExperimentConfig.sound_controls hspec)
  exact ⟨fun hphase n => outcome_addSteps h (.of_sound hsound) hphase,
    fun phase part hnext => outcome_next h hsound hnext⟩

/-- Four sites with a boundary of each kind. -/
def fourWalls : ExperimentConfig where
  dimensions := 1
  width := 2
  boundaries := ["hard-0-00", "soft-0-01-H", "oneway-0-10--1", "absorbing-0-11"]
  initial := .words "auto"
  coin := "Grover"
  coinParams := ""
  coinWidth? := none
  steps := 10
  shots := 1024
  fallback := .basisRotation
  decoherence := some ⟨2, [0]⟩

/-- Steps are added, and a step that was begun goes on. -/
theorem addSteps_of_config_fourWalls : ∃ (spec : WalkSpec ℝ) (w₀ : Walk ℝ),
    fourWalls.toWalkSpec = .ok spec ∧ build spec = .ok w₀ ∧
    (∃ w, (addSteps 3).outcome w₀ = (.ok (), w) ∧ w.phase = .idle ∧ w.steps = 3) ∧
    ∃ w ops, (run (Backend.replay ℝ) (w₀, []) [.addCoins]).1 = w ∧
      applyBoundaries.outcome w = (.ok (), { w.push ops with phase := .bounded }) := by
  obtain ⟨spec, w₀, hspec, hbuild⟩ : ∃ (spec : WalkSpec ℝ) (w₀ : Walk ℝ),
      fourWalls.toWalkSpec = .ok spec ∧ build spec = .ok w₀ := ⟨_, _, rfl, rfl⟩
  obtain ⟨hidle, hsteps, hruns⟩ := addSteps_of_config hspec hbuild
  obtain ⟨hmany, hpart⟩ := hruns (Backend.replay ℝ) [] [] w₀ rfl
  obtain ⟨w, hw, -, -, hphase, hcount⟩ := hmany hidle 3
  rw [hidle] at hpart
  obtain ⟨ops, hcoins⟩ := hpart _ _ rfl
  have hbegun : (run (Backend.replay ℝ) (w₀, []) [.addCoins]).1 =
      { w₀.push ops with phase := .coined } := by
    rw [run, List.foldl_cons, List.foldl_nil, perform, Attempt.outcome_first, hcoins]
  obtain ⟨ops', hbounds⟩ := (hruns (Backend.replay ℝ) [] [.addCoins] _ hbegun).2 _ _ rfl
  exact ⟨spec, w₀, hspec, hbuild, ⟨w, hw, hphase, by rw [hcount, hsteps]⟩, _, ops', hbegun,
    hbounds⟩

end Walk

end LatticeWalk
