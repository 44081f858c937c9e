import LatticeWalk.Proofs.Norm
import LatticeWalk.Proofs.Restarts

/-! # Rounds of resets

After each step the registers of a control are reset as often as the control says. The first round
leaves their wires at zero. All others find them so: they draw no number and leave the state as it
is. So once is as good as any number of times.

* `Simulation.resetWires_again`: resets that succeeded succeed again, and change nothing.
* `Operation.Equivalent`: programs that cannot be told apart by their simulation.
* `BoundaryControl.once`, `WalkSpec.once`: a single round for each control; `Walk.build_once` says
  that this changes nothing in the walk that is built but the plan.
* `Plan.equivalent_stepsFrom`: steps with several rounds and steps with one.
* `Walk.rounds_are_one`: scripts and walks that differ in the number of rounds. -/

namespace LatticeWalk

/-! ### Wires at zero -/

namespace StateVector.Cleared

variable {v : StateVector ℝ} {q : ℕ} (h : v.Cleared q)
include h

theorem oneProbability : v.oneProbability q = 0 := by
  rw [oneProbability_eq]
  refine Finset.sum_eq_zero fun i hi => ?_
  rw [h i (Finset.mem_filter.mp hi).2, Amplitude.weight_zero]

/-- Nothing is lost with the basis states in which the wire is one, and nothing is scaled. -/
theorem collapse_eq : v.collapse q false 1 = v := by
  have hscale : ∀ a : Amplitude ℝ, a.scale (1 / Scalar.sqrt 1) = a := by
    intro a
    have hone : (1 : ℝ) / Scalar.sqrt 1 = 1 := by
      show (1 : ℝ) / Real.sqrt 1 = 1
      rw [Real.sqrt_one, div_one]
    rw [hone]
    ext <;> simp
  have hsame : (v.collapse q false 1).amplitudes = v.amplitudes := by
    refine Array.ext (by simp [StateVector.collapse]) fun i hi hi' => ?_
    have hget : v.amplitudes[i] = v.amplitude i := by
      simp [amplitude, Array.getD, hi']
    have hzero : (v.collapse q false 1).amplitudes[i] =
        if i.testBit q then 0 else v.amplitudes[i].scale (1 / Scalar.sqrt 1) := by
      simp only [StateVector.collapse, Array.getElem_mapIdx]
      rfl
    rw [hzero, hscale]
    split_ifs with hbit
    · rw [hget, h i hbit]
    · rfl
  calc v.collapse q false 1 = ⟨v.wires, (v.collapse q false 1).amplitudes⟩ := rfl
    _ = v := by rw [hsame]

end StateVector.Cleared

namespace Simulation

variable {s s' : Simulation ℝ} {qs : List ℕ}

/-- **A wire at zero is reset without a draw**, and the state stays as it is. -/
theorem resetWire_of_cleared {q : ℕ} (hq : q < s.vector.wires) (h : s.vector.Cleared q) :
    (resetWire q).outcome s = (.ok (), s) := by
  simp only [outcome_resetWire_real hq, h.oneProbability, if_pos negligible_pos.le, sub_zero,
    h.collapse_eq]

theorem resetWires_of_cleared : ∀ {qs : List ℕ},
    (∀ q ∈ qs, q < s.vector.wires ∧ s.vector.Cleared q) → (resetWires qs).outcome s = (.ok (), s)
  | [], _ => rfl
  | q :: qs, h => by
    rw [List.forall_mem_cons] at h
    rw [resetWires, Attempt.outcome_bind_of_ok (resetWire_of_cleared h.1.1 h.1.2)]
    exact resetWires_of_cleared h.2

/-- Wires that were reset are wires of the state, which has no other wires than before. -/
theorem wires_of_resetWires : ∀ {qs : List ℕ} {s : Simulation ℝ},
    (resetWires qs).outcome s = (.ok (), s') →
    s'.vector.wires = s.vector.wires ∧ ∀ q ∈ qs, q < s.vector.wires
  | [], _, h => by
    cases h
    exact ⟨rfl, nofun⟩
  | q :: qs, s, h => by
    obtain ⟨_, s1, hfirst, hrest⟩ := Attempt.outcome_bind_eq_ok h
    obtain ⟨hq, one, kept, -, hs1⟩ := resetWire_eq_ok hfirst
    have hwires : s1.vector.wires = s.vector.wires := by
      rw [hs1]
      rfl
    obtain ⟨hend, hlt⟩ := wires_of_resetWires hrest
    exact ⟨hend.trans hwires, List.forall_mem_cons.mpr ⟨hq, fun p hp => hwires ▸ hlt p hp⟩⟩

/-- **Resets that succeeded succeed again**, without a draw, and change nothing: the first left all
their wires at zero, no matter in which order they come and how often a wire is named. -/
theorem resetWires_again (h : (resetWires qs).outcome s = (.ok (), s')) :
    (resetWires qs).outcome s' = (.ok (), s') := by
  obtain ⟨hwires, hlt⟩ := wires_of_resetWires h
  exact resetWires_of_cleared fun q hq => ⟨hwires ▸ hlt q hq, cleared_resetWires h q (.inl hq)⟩

/-- **Several rounds end like one**, also if they fail. -/
theorem run_replicate_reset (qs : List ℕ) : ∀ (n : ℕ) (s : Simulation ℝ),
    (run (List.replicate (n + 1) (.reset qs))).outcome s = (resetWires qs).outcome s
  | 0, s => by
    simp [run, apply]
  | n + 1, s => by
    rw [List.replicate_succ, run, apply]
    rcases hfirst : (resetWires qs).outcome s with ⟨e | u, s'⟩
    · exact Attempt.outcome_bind_of_error hfirst
    · -- the other rounds are one round, which finds all its wires at zero
      rw [Attempt.outcome_bind_of_ok hfirst, run_replicate_reset qs n]
      exact resetWires_again hfirst

end Simulation

/-! ### Programs that cannot be told apart -/

/-- **Two programs that cannot be told apart**: from every state they end with the same result in
the same state, behind the same draws, and both of them have resets or neither. -/
structure Operation.Equivalent (ops ops' : List (Operation ℝ)) : Prop where
  run : ∀ s, (Simulation.run ops).outcome s = (Simulation.run ops').outcome s
  resets : ops.any Operation.isReset = ops'.any Operation.isReset

namespace Operation.Equivalent

theorem refl (ops : List (Operation ℝ)) : Equivalent ops ops := ⟨fun _ => rfl, rfl⟩

variable {ops ops' us us' : List (Operation ℝ)}

theorem symm (h : Equivalent ops ops') : Equivalent ops' ops :=
  ⟨fun s => (h.run s).symm, h.resets.symm⟩

theorem trans (h : Equivalent ops ops') (h' : Equivalent ops' us) : Equivalent ops us :=
  ⟨fun s => (h.run s).trans (h'.run s), h.resets.trans h'.resets⟩

theorem append (h : Equivalent ops ops') (h' : Equivalent us us') :
    Equivalent (ops ++ us) (ops' ++ us') := by
  refine ⟨fun s => ?_, by rw [List.any_append, List.any_append, h.resets, h'.resets]⟩
  rw [Simulation.run_append, Simulation.run_append, Attempt.outcome_bind, Attempt.outcome_bind,
    h.run s]
  rcases (Simulation.run ops').outcome s with ⟨e | u, s'⟩
  · rfl
  · exact h'.run s'

theorem flatMap {α : Type} {f g : α → List (Operation ℝ)} : ∀ {xs : List α},
    (∀ x ∈ xs, Equivalent (f x) (g x)) → Equivalent (xs.flatMap f) (xs.flatMap g)
  | [], _ => refl []
  | x :: xs, h => by
    rw [List.forall_mem_cons] at h
    exact h.1.append (flatMap h.2)

end Operation.Equivalent

open Operation (Equivalent)

namespace Local

variable {c c' : Circuit ℝ} (hlayout : c.layout = c'.layout)
  (h : Equivalent c.operations c'.operations)
include hlayout h

theorem evolve_congr : evolve c = evolve c' := by
  simp only [evolve, Circuit.width, hlayout, h.run]

theorem addRuns_congr : ∀ (n : ℕ) (counts : Histogram), addRuns c n counts = addRuns c' n counts
  | 0, _ => rfl
  | n + 1, counts => by
    simp only [addRuns, evolve_congr hlayout h, hlayout, addRuns_congr n]

/-- **The device cannot tell them apart** either. -/
theorem execute_congr (limit shots : ℕ) : execute limit c shots = execute limit c' shots := by
  have hresets : c.hasResets = c'.hasResets := h.resets
  have hwidth : c.width = c'.width := congrArg Layout.width hlayout
  unfold execute perShot sampled
  rw [hresets, hwidth, hlayout, evolve_congr hlayout h, addRuns_congr hlayout h]

end Local

/-! ### One round for each control -/

section once
variable {R : Type}

/-- The control with a single round of resets. -/
def BoundaryControl.once (c : BoundaryControl R) : BoundaryControl R := { c with resets := 1 }

/-- The specification with a single round of resets for each control. -/
def WalkSpec.once (spec : WalkSpec R) : WalkSpec R :=
  { spec with controls := spec.controls.map BoundaryControl.once }

def Installed.once (c : Installed R) : Installed R := { c with control := c.control.once }

def Plan.once (plan : Plan R) : Plan R :=
  { plan with controls := plan.controls.map Installed.once }

def Walk.once (w : Walk R) : Walk R := { w with plan := w.plan.once }

theorem Plan.install_once : ∀ (cs : List (BoundaryControl R)) (a : Allocator) (i : ℕ),
    install a i (cs.map BoundaryControl.once) =
      (install a i cs).map fun p => (p.1.map Installed.once, p.2)
  | [], _, _ => rfl
  | c :: cs, a, i => by
    refine Except.bind_eq_map fun ⟨_, _⟩ => Except.bind_eq_map fun ⟨_, a'⟩ => ?_
    dsimp only
    rw [install_once cs]
    cases install a' (i + 1) cs <;> rfl

theorem WalkSpec.checkShape_once (spec : WalkSpec R) : spec.once.checkShape = spec.checkShape := by
  have hplanes : spec.once.controls.flatMap BoundaryControl.boundaries =
      spec.controls.flatMap BoundaryControl.boundaries := List.flatMap_map ..
  unfold checkShape
  rw [hplanes]
  rfl

theorem Plan.flatMap_once {α : Type} (plan : Plan R) (f : Installed R → List α) :
    plan.once.controls.flatMap f = plan.controls.flatMap fun c => f c.once := List.flatMap_map ..

theorem Plan.preparation_once (plan : Plan R) : plan.once.preparation = plan.preparation := by
  rw [preparation, flatMap_once]
  rfl

variable [Scalar R]

theorem WalkSpec.plan_once (spec : WalkSpec R) : spec.once.plan = spec.plan.map Plan.once := by
  unfold WalkSpec.plan
  rw [checkShape_once]
  refine Except.bind_eq_map fun _ => Except.bind_eq_map fun moves => Except.bind_eq_map fun coin =>
    Except.bind_eq_map fun _ => Except.bind_eq_map fun positions =>
      Except.bind_eq_map fun ⟨_, allocator⟩ => ?_
  have hcontrols : spec.once.controls = spec.controls.map BoundaryControl.once := rfl
  dsimp only
  rw [hcontrols, Plan.install_once]
  cases Plan.install allocator 0 spec.controls <;> rfl

/-- **The same walk is built**, or none, but for the rounds in its plan. -/
theorem Walk.build_once (spec : WalkSpec R) : build spec.once = (build spec).map Walk.once := by
  unfold build
  rw [WalkSpec.plan_once]
  cases spec.plan with
  | error e => rfl
  | ok plan =>
    have hprepare : prepare.outcome (ofPlan plan.once) =
        ((prepare.outcome (ofPlan plan)).1, (prepare.outcome (ofPlan plan)).2.once) := by
      have hprep : (ofPlan plan.once).plan.preparation = plan.preparation := plan.preparation_once
      rw [outcome_prepare, outcome_prepare, hprep]
      rfl
    simp only [Except.map, bind, Except.bind, hprepare]
    rcases prepare.outcome (ofPlan plan) with ⟨e | u, w⟩ <;> rfl

/-! ### Steps -/

theorem Plan.coinOps_once (plan : Plan R) : plan.once.coinOps = plan.coinOps := by
  rw [coinOps, flatMap_once]
  rfl

theorem Plan.boundaryOps_once (plan : Plan R) : plan.once.boundaryOps = plan.boundaryOps := by
  rw [boundaryOps_eq, boundaryOps_eq, flatMap_once]
  rfl

end once

namespace BoundaryControl

theorem resetScript_once {R : Type} (c : BoundaryControl R) (register ancilla : Option Register) :
    c.once.resetScript register ancilla = if (c.resetTargets register ancilla).isEmpty then []
      else [.reset (c.resetTargets register ancilla)] := rfl

theorem take_resetScript {R : Type} {c : BoundaryControl R} (hc : 0 < c.resets)
    (register ancilla : Option Register) :
    (c.resetScript register ancilla).take 1 = c.once.resetScript register ancilla := by
  rw [resetScript_once, resetScript]
  split_ifs
  · rfl
  · rw [List.take_replicate, min_eq_left (show 1 ≤ c.resets from hc), List.replicate_one]

/-- **A script of several rounds, and one round.** -/
theorem equivalent_resetScript {c : BoundaryControl ℝ} (hc : 0 < c.resets)
    (register ancilla : Option Register) :
    Equivalent (c.resetScript register ancilla) (c.once.resetScript register ancilla) := by
  obtain ⟨n, hn⟩ := Nat.exists_eq_add_one_of_ne_zero hc.ne'
  rw [resetScript_once, resetScript]
  split_ifs
  · exact .refl []
  · rw [hn, ← List.replicate_one]
    refine ⟨fun s => ?_, ?_⟩
    · exact (Simulation.run_replicate_reset _ n s).trans
        (Simulation.run_replicate_reset _ 0 s).symm
    · simp [Operation.isReset]

theorem sound_once {c : BoundaryControl ℝ} : c.once.Sound ↔ c.Sound :=
  ⟨fun h => ⟨h.state, h.width⟩, fun h => ⟨h.state, h.width⟩⟩

end BoundaryControl

namespace Plan

variable {plan : Plan ℝ} (hpos : ∀ c ∈ plan.controls, 0 < c.control.resets)
include hpos

theorem equivalent_roundOps : Equivalent plan.roundOps plan.once.roundOps := by
  have hscripts :
      Equivalent (Walk.ofPlan plan).resetScript (Walk.ofPlan plan.once).resetScript := by
    have hplan : (Walk.ofPlan plan.once).plan = plan.once := rfl
    rw [Walk.resetScript, Walk.resetScript, hplan, flatMap_once]
    exact .flatMap fun c hc => BoundaryControl.equivalent_resetScript (hpos c hc) _ _
  unfold roundOps
  rw [coinOps_once, boundaryOps_once]
  exact (Equivalent.refl _).append hscripts

/-- **Steps with several rounds, and steps with one.** -/
theorem equivalent_stepsFrom (k n : ℕ) :
    Equivalent (plan.stepsFrom k n) (plan.once.stepsFrom k n) := by
  rw [stepsFrom_eq, stepsFrom_eq]
  exact .flatMap fun step _ => (equivalent_roundOps hpos).append (.refl _)

end Plan

namespace Walk

variable {spec spec' : WalkSpec ℝ} {w w' v v' : Walk ℝ}

theorem once_of_build (hbuild : build spec = .ok w) : build spec.once = .ok w.once := by
  rw [build_once, hbuild]
  rfl

theorem exists_build_of_once (hbuild : build spec = .ok w) (hsame : spec'.once = spec.once) :
    ∃ w', build spec' = .ok w' ∧ w'.once = w.once := by
  have h := build_once spec'
  rw [hsame, once_of_build hbuild] at h
  cases hbuild' : build spec' with
  | error e =>
    rw [hbuild'] at h
    cases h
  | ok w' =>
    rw [hbuild'] at h
    exact ⟨w', rfl, (Except.ok.inj h).symm⟩

theorem exists_addSteps_once (hbuild : build spec = .ok w) (n : ℕ) :
    (∃ v, (addSteps n).outcome w = (.ok (), v)) ↔
      ∃ u, (addSteps n).outcome w.once = (.ok (), u) := by
  have hcontrols : spec.once.controls = spec.controls.map BoundaryControl.once := rfl
  have hplanes : ∀ c : BoundaryControl ℝ, c.once.boundaries = c.boundaries := fun _ => rfl
  rw [exists_addSteps_iff hbuild, exists_addSteps_iff (once_of_build hbuild), hcontrols,
    List.forall_mem_map]
  simp only [hplanes, BoundaryControl.sound_once]

/-- **After the same number of steps** the programs cannot be told apart. -/
theorem equivalent_addSteps (hbuild : build spec = .ok w) (hpos : ∀ c ∈ spec.controls, 0 < c.resets)
    {n : ℕ} {u : Walk ℝ} (hv : (addSteps n).outcome w = (.ok (), v))
    (hu : (addSteps n).outcome w.once = (.ok (), u)) : v.program.layout = u.program.layout ∧
      Equivalent v.program.operations u.program.operations := by
  have hresets : ∀ c ∈ w.plan.controls, 0 < c.control.resets := by
    intro c hc
    refine hpos _ ?_
    rw [← (build_eq_ok hbuild).1.plan.controls]
    exact List.mem_map_of_mem hc
  have hprep : w.once.plan.preparation = w.plan.preparation := w.plan.preparation_once
  obtain ⟨-, -, hprogram⟩ := program_of_addSteps hbuild hv
  obtain ⟨-, -, hprogram'⟩ := program_of_addSteps (once_of_build hbuild) hu
  rw [hprogram, hprogram', hprep]
  exact ⟨rfl, (Equivalent.refl _).append (Plan.equivalent_stepsFrom hresets 0 n)⟩

/-- **Many rounds are one round.** For a control of any kind with a number of resets that is not
zero, the whole script ends from every state as its first round does, with the same result, in the
same state and behind the same draws. So specifications that differ in such numbers only build walks
to which steps can be added alike; whatever the number of steps, their programs end alike from every
state, and the device measures the same. -/
theorem rounds_are_one (hpos : ∀ c ∈ spec.controls, 0 < c.resets)
    (hpos' : ∀ c ∈ spec'.controls, 0 < c.resets) (hsame : spec'.once = spec.once) :
    (∀ (c : BoundaryControl ℝ) (register ancilla : Option Register) (s : Simulation ℝ),
      0 < c.resets → (Simulation.run (c.resetScript register ancilla)).outcome s =
        (Simulation.run ((c.resetScript register ancilla).take 1)).outcome s) ∧
    ∀ w, build spec = .ok w → ∃ w', build spec' = .ok w' ∧ w'.program = w.program ∧ ∀ n,
      ((∃ v, (addSteps n).outcome w = (.ok (), v)) ↔
        ∃ v', (addSteps n).outcome w' = (.ok (), v')) ∧
      ∀ v v', (addSteps n).outcome w = (.ok (), v) → (addSteps n).outcome w' = (.ok (), v') →
        (∀ s, (Simulation.run v'.program.operations).outcome s =
          (Simulation.run v.program.operations).outcome s) ∧
        ∀ limit shots draws, (Local.execute limit v'.program shots).outcome draws =
          (Local.execute limit v.program shots).outcome draws := by
  refine ⟨fun c register ancilla s hc => ?_, fun w hbuild => ?_⟩
  · rw [BoundaryControl.take_resetScript hc]
    exact (BoundaryControl.equivalent_resetScript hc register ancilla).run s
  · obtain ⟨w', hbuild', honce⟩ := exists_build_of_once hbuild hsame
    have hprogram : w'.once.program = w.once.program := congrArg Walk.program honce
    refine ⟨w', hbuild', hprogram, fun n => ?_⟩
    -- both walks are compared with the one that has single rounds, which is the same for both
    have hiff := exists_addSteps_once hbuild n
    have hiff' := exists_addSteps_once hbuild' n
    rw [honce] at hiff'
    refine ⟨hiff.trans hiff'.symm, fun v v' hv hv' => ?_⟩
    obtain ⟨u, hu⟩ := hiff.mp ⟨v, hv⟩
    obtain ⟨hlayout, hops⟩ := equivalent_addSteps hbuild hpos hv hu
    obtain ⟨hlayout', hops'⟩ := equivalent_addSteps hbuild' hpos' hv' (honce ▸ hu)
    have hequiv := hops'.trans hops.symm
    refine ⟨hequiv.run, fun limit shots draws => ?_⟩
    rw [Local.execute_congr (hlayout'.trans hlayout.symm) hequiv]

/-- The walk with controls of every kind, and three rounds of resets for each. -/
noncomputable def threeRounds : WalkSpec ℝ :=
  { everyKind with controls := everyKind.controls.map fun c => { c with resets := 3 } }

/-- One round and three, after four steps. -/
theorem rounds_are_one_everyKind : ∃ w w' v v' : Walk ℝ, build everyKind = .ok w ∧
    build threeRounds = .ok w' ∧ (addSteps 4).outcome w = (.ok (), v) ∧
    (addSteps 4).outcome w' = (.ok (), v') ∧
    ∀ draws, (Local.execute 24 v'.program 100).outcome draws =
      (Local.execute 24 v.program 100).outcome draws := by
  have hpos : ∀ c ∈ everyKind.controls, 0 < c.resets := by
    simp [everyKind, BoundaryControl.hard, BoundaryControl.permeable,
      BoundaryControl.ofPermeability, BoundaryControl.addBoundaries]
  have hpos' : ∀ c ∈ threeRounds.controls, 0 < c.resets := by
    simp [threeRounds]
  obtain ⟨w, hbuild⟩ : ∃ w, build everyKind = .ok w := ⟨_, rfl⟩
  obtain ⟨w', hbuild', -, hsteps⟩ := (rounds_are_one hpos hpos' rfl).2 w hbuild
  obtain ⟨v, hv⟩ := (exists_addSteps_iff hbuild 4).mpr (.inr fun c hc _ => sound_everyKind c hc)
  obtain ⟨v', hv'⟩ := (hsteps 4).1.mp ⟨v, hv⟩
  exact ⟨w, w', v, v', hbuild, hbuild', hv, hv', ((hsteps 4).2 v v' hv hv').2 24 100⟩

end Walk

end LatticeWalk
