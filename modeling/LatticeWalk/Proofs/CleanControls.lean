import LatticeWalk.Proofs.Footprint
import LatticeWalk.Proofs.Runs
import LatticeWalk.Proofs.Start

/-! # Clean controls

Between two steps the registers of permeable and one-way controls are at zero and all latches hold
(`Walk.atRest_between_steps`). The resets that end a step clear every register that coins and blocks
may have changed, but for the coin and controls without resets, and latches are no part of these.

* `WalkSpec.AtRest`: what the registers of the controls carry between steps, read off the layout.
* `Plan.Settled`: the same of the wires of a plan; `Plan.Sound.settled_prepared` and
  `Plan.Sound.settled_step` prove it of the start and of every step. -/

namespace LatticeWalk

/-- **What the registers of controls carry between steps.** Control registers of permeable and
one-way controls that are reset are at zero, and so are the wires that record crossings. The
registers of absorbing controls carry the states that keep these closed. A control of no width has
no register. -/
structure WalkSpec.AtRest {R : Type} (spec : WalkSpec R) (layout : Layout) (b : ℕ → Bool) :
    Prop where
  cleared : ∀ (j : ℕ) (c : BoundaryControl R), spec.controls[j]? = some c →
    c.kind = .permeable ∨ c.kind = .oneWay → 0 < c.resets → 0 < c.controlWidth →
    ∃ r, layout.find? (.control j) = some r ∧ r.width = c.controlWidth ∧ r.read b = 0
  crossings : ∀ (j : ℕ) (c : BoundaryControl R), spec.controls[j]? = some c →
    c.kind = .oneWay → 0 < c.resets →
    ∃ r, layout.find? (.ancilla j) = some r ∧ r.width = 2 ∧ r.read b = 0
  latches : ∀ (j : ℕ) (c : BoundaryControl R), spec.controls[j]? = some c →
    c.kind = .absorbing → 0 < c.controlWidth →
    ∃ r, layout.find? (.control j) = some r ∧ r.width = c.controlWidth ∧
      r.read b = Pattern.value c.state

namespace BoundaryControl

variable {R : Type} {c : BoundaryControl R}

theorem resetsRegister_of_kind (h : c.kind = .permeable ∨ c.kind = .oneWay) :
    c.resetsRegister = true := by
  unfold kind Permeability.kind at h
  unfold resetsRegister
  cases hp : c.permeability with
  | hard | absorbing n =>
    rw [hp] at h
    simp at h
  | permeable op | oneWay bits => rfl

theorem ancillaWidth_of_kind (h : c.kind = .oneWay) : c.ancillaWidth = 2 := by
  unfold kind Permeability.kind at h
  unfold ancillaWidth Permeability.ancillaWidth
  cases hp : c.permeability with
  | oneWay bits => rfl
  | hard | permeable op | absorbing n =>
    rw [hp] at h
    cases h

theorem exists_absorbing_of_kind (h : c.kind = .absorbing) :
    ∃ n, c.permeability = .absorbing n := by
  unfold kind Permeability.kind at h
  cases hp : c.permeability with
  | absorbing n => exact ⟨n, rfl⟩
  | hard | permeable op | oneWay bits =>
    rw [hp] at h
    cases h

end BoundaryControl

namespace Plan

/-- The wires that are reset after each step are at zero, but for those of the coin, and all latches
hold. -/
structure Settled {R : Type} (plan : Plan R) (b : ℕ → Bool) : Prop where
  cleared : ∀ c ∈ plan.controls, 0 < c.control.resets →
    ∀ q ∈ c.control.resetTargets c.register c.ancilla, b q = false
  latches : ∀ p ∈ plan.latches, p.1.read b = Pattern.value p.2

namespace Sound

section
variable {R : Type} [Scalar R] {plan : Plan R} {spec : WalkSpec R} (h : plan.Sound spec)
include h

/-- **Settled wires, seen from the specification.** -/
theorem atRest_of_settled (hp : plan.Placed) {b : ℕ → Bool} (hb : plan.Settled b) :
    spec.AtRest plan.layout b where
  cleared j c hc hkind hresets hpos := by
    obtain ⟨i, hi, rfl⟩ := h.control_of_spec hc
    have hmem := List.mem_of_getElem? hi
    obtain ⟨r, hr, hwidth⟩ := (h.wired i hmem).exists_register hpos
    refine ⟨r, hp.control?_eq_some h hi hr, hwidth, Register.read_eq_zero fun q hq => ?_⟩
    refine hb.cleared i hmem hresets q (List.mem_append_left _ ?_)
    rw [if_pos (BoundaryControl.resetsRegister_of_kind hkind), hr]
    exact hq
  crossings j c hc hkind hresets := by
    obtain ⟨i, hi, rfl⟩ := h.control_of_spec hc
    have hmem := List.mem_of_getElem? hi
    have htwo := BoundaryControl.ancillaWidth_of_kind hkind
    obtain ⟨a, ha, hwidth⟩ := (h.wired i hmem).exists_ancilla (by omega)
    refine ⟨a, hp.ancilla?_eq_some h hi ha, hwidth.trans htwo,
      Register.read_eq_zero fun q hq => ?_⟩
    refine hb.cleared i hmem hresets q (List.mem_append_right _ ?_)
    rw [ha]
    exact hq
  latches j c hc hkind hpos := by
    obtain ⟨i, hi, rfl⟩ := h.control_of_spec hc
    have hmem := List.mem_of_getElem? hi
    obtain ⟨r, hr, hwidth⟩ := (h.wired i hmem).exists_register hpos
    have hlatch : (r, i.control.state) ∈ plan.latches := List.mem_filterMap.mpr
      ⟨i, hmem, Installed.latch?_eq_some.mpr
        ⟨BoundaryControl.exists_absorbing_of_kind hkind, hr, rfl⟩⟩
    exact ⟨r, hp.control?_eq_some h hi hr, hwidth, hb.latches _ hlatch⟩

theorem loose_disjoint_mark {p : Register × String} (hp : p ∈ plan.marks) :
    plan.looseWires.Disjoint p.1.wires := by
  rcases List.mem_append.mp hp with hp | hp
  · obtain ⟨c, hc, hlatch⟩ := List.mem_filterMap.mp hp
    obtain ⟨⟨n, hn⟩, hr, -⟩ := Installed.latch?_eq_some.mp hlatch
    exact h.loose_disjoint_latch hc hn (by simp [Installed.registers, hr])
  · obtain ⟨d, hd, hpos⟩ := List.getElem_of_mem (List.of_mem_zip hp).1
    have hdisj := h.loose_disjoint_position hd
    rwa [Plan.positionOf, List.getD_eq_getElem _ _ hd, hpos] at hdisj

theorem resetTargets_subset {c : Installed R} (hc : c ∈ plan.controls) {q : ℕ}
    (hq : q ∈ c.control.resetTargets c.register c.ancilla) : q ∈ plan.looseWires :=
  mem_looseWires.mpr (.inr ⟨c, hc, Installed.exists_loose (h.wired c hc) hq⟩)

theorem read_latch_hopped {p : Register × String} (hp : p ∈ plan.latches) (b : ℕ → Bool) :
    p.1.read (plan.hopped b) = p.1.read b := by
  obtain ⟨c, hc, hr⟩ := h.register_of_latches hp
  exact Register.read_congr fun q hq => hopped_of_notMem (fun d hd hpos =>
    Register.disjoint_of_stop_le (h.position_control hd hc hr) hpos hq) b

variable (hstates : ∀ c ∈ plan.controls, IsPattern c.control.state c.control.controlWidth)
include hstates

theorem settled_prepared : plan.Settled plan.prepared where
  cleared _ hc _ _ hq := h.prepared_eq_false hstates fun _ hp hmem =>
    h.loose_disjoint_mark hp (h.resetTargets_subset hc hq) hmem
  latches _ hp := h.read_marks hstates (List.mem_append_left _ hp)

end

variable {plan : Plan ℝ} {spec : WalkSpec ℝ} (h : plan.Sound spec)
  (hstates : ∀ c ∈ plan.controls, IsPattern c.control.state c.control.controlWidth)
  (hderived : ∀ c ∈ plan.controls, ∀ op, c.control.permeability = .permeable op → op.Derived)
include h hstates hderived

/-- **A step settles the wires that it resets, and keeps the latches.** -/
theorem settled_step {step : ℕ} {outcomes : ℕ → Bool} {ψ : Wave ℝ}
    (hψ : ψ.Supported plan.Settled) :
    (Operation.evolve (plan.stepOps step) outcomes ψ).Supported plan.Settled := by
  intro b hb
  obtain ⟨hzero, e, c, hbe, hec, hc⟩ := h.exists_of_evolve_step hstates hderived hb
  refine ⟨fun i hi hresets q hq => ?_, fun p hp => ?_⟩
  · exact hzero q (mem_targetsOf_resetOps_of_control hi hresets hq step)
  · have hloose : plan.looseWires.Disjoint p.1.wires :=
      h.loose_disjoint_mark (List.mem_append_left _ hp)
    calc p.1.read b = p.1.read (plan.hopped e) := (hbe.read hloose).symm
      _ = p.1.read e := h.read_latch_hopped hp e
      _ = p.1.read c := (hec.read hloose).symm
      _ = Pattern.value p.2 := (hψ c hc).latches p hp

end Sound

end Plan

namespace Walk

/-- **Between steps the registers of the controls are clean and latches hold.** However many steps
were added to a walk with controls of any kind, all that carries amplitude after its program, under
any outcomes of the resets, has the control registers of permeable and one-way controls and the
wires that record crossings at zero, if these are reset, and the latches in their states. So has
every basis state that a simulation of the program gives amplitude. -/
theorem atRest_between_steps {spec : WalkSpec ℝ} {w₀ w : Walk ℝ} (hbuild : build spec = .ok w₀)
    (hstates : ∀ c ∈ spec.controls, IsPattern c.state c.controlWidth)
    (hderived : ∀ c ∈ spec.controls, ∀ op, c.permeability = .permeable op → op.Derived) {n : ℕ}
    (hrun : (addSteps n).outcome w₀ = (.ok (), w)) :
    (∀ outcomes, (w.wave outcomes).Supported (spec.AtRest w.program.layout)) ∧
    ∀ draws s, (Simulation.run w.program.operations).outcome ⟨.basis w.program.width 0, draws⟩ =
        (.ok (), s) →
      ∀ i < 2 ^ w.program.width, s.vector.amplitude i ≠ 0 →
        spec.AtRest w.program.layout i.testBit := by
  have h := (build_eq_ok hbuild).1.plan
  have hp := WalkSpec.plan_placed (plan_of_build hbuild)
  have hstates₀ := h.of_controls hstates
  have hderived₀ := h.of_controls hderived
  have hlayout : w.program.layout = w₀.plan.layout := by
    rw [(ready_of_addSteps hbuild hstates hrun).1.layout,
      (operations_of_addSteps hbuild hstates hrun).1]
  have hrest : ∀ outcomes, (w.wave outcomes).Supported (spec.AtRest w.program.layout) := by
    intro outcomes
    rw [hlayout]
    refine (supported_of_addSteps hbuild hstates hrun (P := fun _ => w₀.plan.Settled)
      (h.settled_prepared hstates₀) (fun _ _ _ hψ => h.settled_step hstates₀ hderived₀ hψ)
      outcomes).mono fun b hb => h.atRest_of_settled hp hb
  exact ⟨hrest, fun draws s hs i hi hne =>
    amplitude_of_supported hbuild hstates hrun hderived hrest hs hi hne⟩

/-- The permeable plane is the second control of four, the valve the third and the latch, which is
set to one, the last. -/
theorem atRest_between_steps_everyKind : ∃ w₀ : Walk ℝ, build everyKind = .ok w₀ ∧
    ∀ n, ∃ w, (addSteps n).outcome w₀ = (.ok (), w) ∧
      ∀ outcomes, (w.wave outcomes).Supported fun b => ∃ veil counter crossing latch,
        w.program.layout.find? (.control 1) = some veil ∧ veil.read b = 0 ∧
        w.program.layout.find? (.control 2) = some counter ∧ counter.read b = 0 ∧
        w.program.layout.find? (.ancilla 2) = some crossing ∧ crossing.read b = 0 ∧
        w.program.layout.find? (.control 3) = some latch ∧ latch.read b = 1 := by
  obtain ⟨w₀, hbuild⟩ : ∃ w₀ : Walk ℝ, build everyKind = .ok w₀ := ⟨_, rfl⟩
  refine ⟨w₀, hbuild, fun n => ?_⟩
  obtain ⟨w, hrun, -⟩ := addSteps_of_build hbuild sound_everyKind n
  refine ⟨w, hrun, fun outcomes => ?_⟩
  have hrest := (atRest_between_steps hbuild states_everyKind derived_everyKind hrun).1 outcomes
  refine hrest.mono fun b hb => ?_
  obtain ⟨veil, hveil, -, hveil'⟩ := hb.cleared 1 _ rfl (.inl rfl) one_pos one_pos
  obtain ⟨counter, hcounter, -, hcounter'⟩ := hb.cleared 2 _ rfl (.inr rfl) one_pos one_pos
  obtain ⟨crossing, hcrossing, -, hcrossing'⟩ := hb.crossings 2 _ rfl rfl one_pos
  obtain ⟨latch, hlatch, -, hlatch'⟩ := hb.latches 3 _ rfl rfl Nat.two_pos
  have hvalue : Pattern.value "01" = 1 := by decide
  exact ⟨veil, counter, crossing, latch, hveil, hveil', hcounter, hcounter', hcrossing, hcrossing',
    hlatch, hlatch'.trans hvalue⟩

end Walk

end LatticeWalk
