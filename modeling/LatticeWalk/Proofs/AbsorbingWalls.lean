import LatticeWalk.Proofs.Abreast
import LatticeWalk.Proofs.LatchedWalls
import LatticeWalk.Proofs.Runs

/-! # Absorbing walls

A latch in a hard wall changes nothing (`Walk.absorbing_acts_as_hard`). The latch is set before the
first step, no gate and no reset touches it, and the block of the wall asks for the state that it
has.

* `Plan.Front.prepared_comp`: both programs begin with the same bits.
* `Installed.Counterpart.guarded_iff`: steps are added to both walks or to neither.
* `Plan.Counterpart.evolve_steps`, `Plan.Counterpart.alike_steps`: what becomes of the two programs,
  under given outcomes and simulated. -/

namespace LatticeWalk

open Operation (Follows)

variable {R : Type} {f : ℕ → ℕ} {cs : List Control} {n n' : ℕ}

/-! ### The bits that the programs begin with -/

namespace Installed.Counterpart

variable {c c' : Installed R} (h : c.Counterpart f cs c')
include h

theorem exists_latch {p : Register × String} (hp : c.latch? = some p) :
    ∃ p', c'.latch? = some p' ∧ p.1.Renamed f p'.1 ∧ p'.2 = p.2 := by
  obtain ⟨⟨m, habsorbing⟩, hr, hs⟩ := latch?_eq_some.mp hp
  cases h with
  | kept control register _ =>
    obtain ⟨hnone, -⟩ | ⟨r, r', hr1, hr', hrel⟩ := Register.Renamed.or_none register
    · rw [hnone] at hr
      cases hr
    · obtain rfl := Option.some.inj (hr1.symm.trans hr)
      refine ⟨(r', p.2), latch?_eq_some.mpr ⟨⟨m, control ▸ habsorbing⟩, hr', ?_⟩, hrel, rfl⟩
      rw [control, hs]
  | shut m' r hard =>
    rw [hard] at habsorbing
    cases habsorbing

/-- A latch of the second walk is one of the first, or it was put into a hard wall. -/
theorem latch_or (hr : Renaming f cs n n') {p' : Register × String} (hp : c'.latch? = some p') :
    (∃ p, c.latch? = some p ∧ p.1.Renamed f p'.1 ∧ p'.2 = p.2) ∨ ∀ q, f q ∉ p'.1.wires := by
  obtain ⟨⟨m, habsorbing⟩, hreg, hs⟩ := latch?_eq_some.mp hp
  cases h with
  | kept control register _ =>
    obtain ⟨-, hnone⟩ | ⟨r, r', hr1, hr', hrel⟩ := Register.Renamed.or_none register
    · rw [hnone] at hreg
      cases hreg
    · obtain rfl := Option.some.inj (hr'.symm.trans hreg)
      refine .inl ⟨(r, p'.2), latch?_eq_some.mpr ⟨⟨m, control ▸ habsorbing⟩, hr1, ?_⟩, hrel, rfl⟩
      rw [← control, hs]
  | shut m' r hard absorbing _ _ latch state asked =>
    obtain rfl := Option.some.inj (latch.1.symm.trans hreg)
    refine .inr fun q hq => ?_
    obtain ⟨d, hd, hdq⟩ := Operator.exists_controlsOn state hq
    exact hr.apart d (asked hd) q hdq

theorem sound_iff (hstate : IsPattern c.control.state c.control.controlWidth)
    (hstate' : IsPattern c'.control.state c'.control.controlWidth) (hw : c'.Wired) :
    c.control.Sound ↔ c'.control.Sound := by
  cases h with
  | kept control _ _ => rw [control]
  | shut m r hard absorbing _ _ latch =>
    have hpos := (hw.width_register latch.1).2
    exact ⟨fun _ => ⟨hstate', fun _ => hpos⟩, fun _ => ⟨hstate, fun h => absurd hard h⟩⟩

end Installed.Counterpart

section latches
variable {as as' : List (Installed R)} (has : as.Forall₂ (Installed.Counterpart f cs) as')
include has

namespace Installed.Counterpart

theorem exists_of_latches {p : Register × String} (hp : p ∈ as.filterMap latch?) :
    ∃ p' ∈ as'.filterMap latch?, p.1.Renamed f p'.1 ∧ p'.2 = p.2 := by
  obtain ⟨c, hc, hlatch⟩ := List.mem_filterMap.mp hp
  obtain ⟨j, hj⟩ := List.mem_iff_getElem?.mp hc
  obtain ⟨c', hj', hcounter⟩ := List.Forall₂.exists_getElem? has hj
  obtain ⟨p', hlatch', hp'⟩ := hcounter.exists_latch hlatch
  exact ⟨p', List.mem_filterMap.mpr ⟨c', List.mem_of_getElem? hj', hlatch'⟩, hp'⟩

theorem latches_or (hr : Renaming f cs n n') {p' : Register × String}
    (hp' : p' ∈ as'.filterMap latch?) :
    (∃ p ∈ as.filterMap latch?, p.1.Renamed f p'.1 ∧ p'.2 = p.2) ∨ ∀ q, f q ∉ p'.1.wires := by
  obtain ⟨c', hc', hlatch'⟩ := List.mem_filterMap.mp hp'
  obtain ⟨j, hj'⟩ := List.mem_iff_getElem?.mp hc'
  obtain ⟨c, hj, hcounter⟩ := List.Forall₂.exists_getElem? has.flip hj'
  refine (hcounter.latch_or hr hlatch').imp_left fun ⟨p, hlatch, hp⟩ => ⟨p, ?_, hp⟩
  exact List.mem_filterMap.mpr ⟨c, List.mem_of_getElem? hj, hlatch⟩

theorem guarded_iff (hstates : ∀ c ∈ as, IsPattern c.control.state c.control.controlWidth)
    (hstates' : ∀ c ∈ as', IsPattern c.control.state c.control.controlWidth)
    (hwired : ∀ c ∈ as', c.Wired) :
    (∀ c ∈ as, c.control.boundaries ≠ [] → c.control.Sound) ↔
      ∀ c ∈ as', c.control.boundaries ≠ [] → c.control.Sound := by
  constructor
  · intro hg c' hc' hne
    obtain ⟨j, hj'⟩ := List.mem_iff_getElem?.mp hc'
    obtain ⟨c, hj, hcounter⟩ := List.Forall₂.exists_getElem? has.flip hj'
    have hc := List.mem_of_getElem? hj
    rw [hcounter.boundaries_eq] at hne
    exact (hcounter.sound_iff (hstates c hc) (hstates' c' hc') (hwired c' hc')).mp (hg c hc hne)
  · intro hg c hc hne
    obtain ⟨j, hj⟩ := List.mem_iff_getElem?.mp hc
    obtain ⟨c', hj', hcounter⟩ := List.Forall₂.exists_getElem? has hj
    have hc' := List.mem_of_getElem? hj'
    rw [← hcounter.boundaries_eq] at hne
    exact (hcounter.sound_iff (hstates c hc) (hstates' c' hc') (hwired c' hc')).mpr (hg c' hc' hne)

end Installed.Counterpart

variable [Scalar R] {plan plan' : Plan R} {spec spec' : WalkSpec R}
  (h : plan.Front f plan') (hplan : plan.Sound spec) (hplan' : plan'.Sound spec')
  (hstates : ∀ c ∈ plan.controls, IsPattern c.control.state c.control.controlWidth)
  (hstates' : ∀ c ∈ plan'.controls, IsPattern c.control.state c.control.controlWidth)
  (hlatches : plan.latches = as.filterMap Installed.latch?)
  (hlatches' : plan'.latches = as'.filterMap Installed.latch?)

namespace Plan.Front

omit has in
include h hplan in
theorem renamed_initial {p : Register × String}
    (hp : p ∈ plan.positions.zip (plan.initial.getD [])) : p.1.Renamed f p.1 := by
  obtain ⟨d, hd, hpos⟩ := List.getElem_of_mem (List.of_mem_zip hp).1
  have hrenamed := h.renamed_position hplan hd
  rwa [h.positionOf_eq, Plan.positionOf, List.getD_eq_getElem _ _ hd, hpos] at hrenamed

include h hplan hlatches hlatches'

theorem exists_mark {p : Register × String} (hp : p ∈ plan.marks) :
    ∃ p' ∈ plan'.marks, p.1.Renamed f p'.1 ∧ p'.2 = p.2 := by
  rcases List.mem_append.mp hp with hp | hp
  · obtain ⟨p', hmem, hp'⟩ := Installed.Counterpart.exists_of_latches has (hlatches ▸ hp)
    exact ⟨p', List.mem_append_left _ (hlatches' ▸ hmem), hp'⟩
  · refine ⟨p, List.mem_append_right _ ?_, h.renamed_initial hplan hp, rfl⟩
    rwa [h.positions, h.initial]

theorem mark_or (hr : Renaming f cs n n') {p' : Register × String} (hp' : p' ∈ plan'.marks) :
    (∃ p ∈ plan.marks, p.1.Renamed f p'.1 ∧ p'.2 = p.2) ∨ ∀ q, f q ∉ p'.1.wires := by
  rcases List.mem_append.mp hp' with hp' | hp'
  · refine (Installed.Counterpart.latches_or has hr (hlatches' ▸ hp')).imp_left ?_
    exact fun ⟨p, hmem, hp⟩ => ⟨p, List.mem_append_left _ (hlatches ▸ hmem), hp⟩
  · rw [h.positions, h.initial] at hp'
    exact .inl ⟨p', List.mem_append_right _ hp', h.renamed_initial hplan hp', rfl⟩

include hplan' hstates hstates'

/-- **Both programs begin with the same bits**, but for the latches that were put in. -/
theorem prepared_comp (hr : Renaming f cs n n') : plan'.prepared ∘ f = plan.prepared := by
  funext q
  rw [Function.comp_apply]
  by_cases hq : ∃ p ∈ plan.marks, q ∈ p.1.wires
  · obtain ⟨p, hp, hqp⟩ := hq
    obtain ⟨p', hp', hrenamed, hpattern⟩ := h.exists_mark has hplan hlatches hlatches' hp
    obtain ⟨i, hi, rfl⟩ := List.mem_map.mp hqp
    rw [List.mem_range] at hi
    have hbit := (Pattern.read_eq_value (hplan.isPattern_marks hstates hp)).mp
      (hplan.read_marks hstates hp) i hi
    have hbit' := (Pattern.read_eq_value (hplan'.isPattern_marks hstates' hp')).mp
      (hplan'.read_marks hstates' hp') i (hrenamed.width ▸ hi)
    rw [hbit, ← hrenamed.wire i hi, hbit', hpattern]
  · push Not at hq
    rw [hplan.prepared_eq_false hstates hq]
    refine hplan'.prepared_eq_false hstates' fun p' hp' hmem => ?_
    rcases h.mark_or has hplan hlatches hlatches' hr hp' with ⟨p, hp, hrenamed, -⟩ | hout
    · rw [hrenamed.wires, List.mem_map_of_injective hr.injective] at hmem
      exact hq p hp hmem
    · exact hout q hmem

end Plan.Front

end latches

/-! ### The two programs -/

namespace Plan.Counterpart

variable {plan plan' : Plan ℝ} {spec spec' : WalkSpec ℝ}
  (h : plan.Counterpart f cs plan') (hplan : plan.Sound spec) (hplan' : plan'.Sound spec')
  (hstates : ∀ c ∈ plan.controls, IsPattern c.control.state c.control.controlWidth)
  (hstates' : ∀ c ∈ plan'.controls, IsPattern c.control.state c.control.controlWidth)
  (hr : Renaming f cs plan.layout.width plan'.layout.width) (hmet : Met cs plan'.prepared)
  {ops ops' : List (Operation ℝ)} (hops : ops.Forall₂ (Follows f cs) ops')
include h hplan hplan' hstates hstates' hr hmet hops

omit hops in
/-- The bits of the second program are those of the first, set in. -/
theorem latched_prepared :
    (Wave.basis plan.prepared : Wave ℝ).latched f cs = Wave.basis plan'.prepared :=
  hr.latched_basis hmet
    (h.front.prepared_comp h.controls hplan hplan' hstates hstates' rfl rfl hr)

/-- **Steps that follow others evolve alike** from what the two preparations leave. -/
theorem evolve_steps (outcomes : ℕ → Bool) :
    Operation.evolve (plan'.preparation ++ ops') outcomes (Wave.basis fun _ => false) =
      (Operation.evolve (plan.preparation ++ ops) outcomes
        (Wave.basis fun _ => false)).latched f cs := by
  rw [plan'.evolve_preparation, plan.evolve_preparation,
    ← h.latched_prepared hplan hplan' hstates hstates' hr hmet, Operation.evolve_latched hr hops]

/-- **Simulations of them stay abreast**, or fail both. -/
theorem alike_steps (hwithin : ∀ op ∈ ops, op.Within plan.layout.width)
    (hwithin' : ∀ op ∈ ops', op.Within plan'.layout.width) (draws : Draws ℝ) :
    (∃ s s', (Simulation.run (plan.preparation ++ ops)).outcome
        ⟨.basis plan.layout.width 0, draws⟩ = (.ok (), s) ∧
      (Simulation.run (plan'.preparation ++ ops')).outcome
        ⟨.basis plan'.layout.width 0, draws⟩ = (.ok (), s') ∧
      Simulation.Abreast f cs plan.layout.width plan'.layout.width s s') ∨
    ∃ e e' s s', (Simulation.run (plan.preparation ++ ops)).outcome
        ⟨.basis plan.layout.width 0, draws⟩ = (.error e, s) ∧
      (Simulation.run (plan'.preparation ++ ops')).outcome
        ⟨.basis plan'.layout.width 0, draws⟩ = (.error e', s') := by
  have hstart := hplan.shows_startIndex hstates
  have hstart' := hplan'.shows_startIndex hstates'
  rw [← h.latched_prepared hplan hplan' hstates hstates' hr hmet] at hstart'
  rw [Simulation.run_append, Simulation.run_append,
    Attempt.outcome_bind_of_ok (hplan.run_preparation hstates draws),
    Attempt.outcome_bind_of_ok (hplan'.run_preparation hstates' draws)]
  exact Simulation.alike_run hr hops hwithin hwithin' _ _ ⟨rfl, rfl, rfl, _, hstart, hstart'⟩

end Plan.Counterpart

namespace Walk

/-- **An absorbing wall is a hard wall.** Put latches into any hard walls of an accepted
specification, so that it is still accepted. The other controls may be of any kind, with patterns as
states and operators of the library. Steps are then added to both walks or to neither, and under the
same outcomes of all resets, the amplitude in the new walk is that in the old one, with the latches
dropped, where these hold their states, and zero elsewhere. Simulated with the same draws, both
programs fail, or the amplitudes of the two final states correspond in the same way. -/
theorem absorbing_acts_as_hard {spec : WalkSpec ℝ} {latches : ℕ → Option Latch} {w₀ w₀' : Walk ℝ}
    (hbuild : build spec = .ok w₀) (hbuild' : build (spec.latched latches) = .ok w₀')
    (hstates : ∀ c ∈ spec.controls, IsPattern c.state c.controlWidth)
    (hderived : ∀ c ∈ spec.controls, ∀ op, c.permeability = .permeable op → op.Derived) (n : ℕ) :
    ((∃ w, (addSteps n).outcome w₀ = (.ok (), w)) ↔
      ∃ w', (addSteps n).outcome w₀' = (.ok (), w')) ∧
    ∀ w w', (addSteps n).outcome w₀ = (.ok (), w) → (addSteps n).outcome w₀' = (.ok (), w') →
      (∀ outcomes b,
        Operation.evolve w'.program.operations outcomes (Wave.basis fun _ => false) b =
          if LatchesHold (w'.plan.latchesOver spec) b then
            Operation.evolve w.program.operations outcomes (Wave.basis fun _ => false)
              (b ∘ wireOff (w'.plan.latchesOver spec))
          else 0) ∧
      ∀ draws : Draws ℝ,
        (∃ s s', (Simulation.run w.program.operations).outcome ⟨.basis w.program.width 0, draws⟩ =
            (.ok (), s) ∧
          (Simulation.run w'.program.operations).outcome ⟨.basis w'.program.width 0, draws⟩ =
            (.ok (), s') ∧ s'.draws = s.draws ∧
          ∀ i < 2 ^ w'.program.width, s'.vector.amplitude i =
            if LatchesHold (w'.plan.latchesOver spec) i.testBit then
              s.vector.amplitude
                (index w.program.width (i.testBit ∘ wireOff (w'.plan.latchesOver spec)))
            else 0) ∨
        ∃ e e' s s', (Simulation.run w.program.operations).outcome
            ⟨.basis w.program.width 0, draws⟩ = (.error e, s) ∧
          (Simulation.run w'.program.operations).outcome ⟨.basis w'.program.width 0, draws⟩ =
            (.error e', s') := by
  have h := (build_eq_ok hbuild).1.plan
  have h' := (build_eq_ok hbuild').1.plan
  have hstates₀ := h.of_controls hstates
  have hspec' := WalkSpec.states_latched latches hstates
  have hstates₀' := h'.of_controls hspec'
  have hplan := plan_of_build hbuild
  have hplan' := plan_of_build hbuild'
  have hcounter := (WalkSpec.counterpart hplan hplan').1
  have hr := WalkSpec.wires_renamed hplan hplan' hstates
  have hguarded : w₀.plan.Guarded ↔ w₀'.plan.Guarded :=
    Installed.Counterpart.guarded_iff hcounter.controls hstates₀ hstates₀' h'.wired
  have hiff : (∃ w, (addSteps n).outcome w₀ = (.ok (), w)) ↔
      ∃ w', (addSteps n).outcome w₀' = (.ok (), w') := by
    rw [addSteps_eq_ok_iff hbuild hstates, addSteps_eq_ok_iff hbuild' hspec', hguarded]
  refine ⟨hiff, fun w w' hrun hrun' => ?_⟩
  obtain ⟨-, hwidth, hops⟩ := operations_of_addSteps hbuild hstates hrun
  obtain ⟨hsame, hwidth', hops'⟩ := operations_of_addSteps hbuild' hspec' hrun'
  rw [hsame, hwidth, hwidth', hops, hops']
  obtain ⟨hpattern, hhold⟩ := h'.latchesOver_marks spec hstates₀'
  have hmet := (met_askLatches hpattern _).mpr hhold
  have hfollow : (w₀.plan.stepsFrom 0 n).Forall₂ (Follows (wireOff (w₀'.plan.latchesOver spec))
      (askLatches (w₀'.plan.latchesOver spec))) (w₀'.plan.stepsFrom 0 n) := by
    rcases (addSteps_eq_ok_iff hbuild hstates n).mp ⟨w, hrun⟩ with rfl | hg
    · exact .nil
    · exact hcounter.follow_stepsFrom h hg n 0
  refine ⟨fun outcomes b => ?_, fun draws => ?_⟩
  · rw [hcounter.evolve_steps h h' hstates₀ hstates₀' hr hmet hfollow]
    exact if_congr (met_askLatches hpattern b) rfl rfl
  · have hwithin := within_of_addSteps hbuild hstates hderived hrun
    have hwithin' := within_of_addSteps hbuild' hspec' (WalkSpec.derived_latched hderived) hrun'
    refine (hcounter.alike_steps h h' hstates₀ hstates₀' hr hmet hfollow hwithin hwithin'
      draws).imp_left fun ⟨s, s', hs, hs', habreast⟩ =>
        ⟨s, s', hs, hs', habreast.draws, fun i hi => ?_⟩
    rw [habreast.amplitude hr hi]
    exact if_congr (met_askLatches hpattern _) rfl rfl

/-- Four sites with a wall at three and a permeable one at one. -/
noncomputable def wallAndVeil : WalkSpec ℝ where
  widths := [2]
  initial := some ["10"]
  controls := [BoundaryControl.hard.addBoundaries [⟨"11", 0, none⟩],
    (BoundaryControl.permeable (.hadamard 1)).addBoundaries [⟨"01", 0, none⟩]]

theorem isPattern_zeroOne : IsPattern "01" 2 := ⟨by simp [Pattern.isBit], rfl⟩

/-- A latch of two wires for the first control. -/
def firstLatch (j : ℕ) : Option Latch :=
  if j = 0 then some ⟨2, "01", 1, none, Nat.two_pos, isPattern_zeroOne⟩ else none

/-- The latch is at the wires three and four, and the register of the permeable wall behind it. -/
theorem absorbing_acts_as_hard_wallAndVeil : ∃ (w₀ w₀' : Walk ℝ) (r : Register),
    build wallAndVeil = .ok w₀ ∧ build (wallAndVeil.latched firstLatch) = .ok w₀' ∧
    r.wires = [3, 4] ∧ ∀ n, ∃ w w', (addSteps n).outcome w₀ = (.ok (), w) ∧
      (addSteps n).outcome w₀' = (.ok (), w') ∧ ∀ outcomes b,
        Operation.evolve w'.program.operations outcomes (Wave.basis fun _ => false) b =
          if LatchesHold [(r, "01")] b then
            Operation.evolve w.program.operations outcomes (Wave.basis fun _ => false)
              (b ∘ wireOff [(r, "01")])
          else 0 := by
  obtain ⟨w₀, hbuild⟩ : ∃ w₀ : Walk ℝ, build wallAndVeil = .ok w₀ := ⟨_, rfl⟩
  obtain ⟨w₀', r, hbuild', hr, hlatches⟩ : ∃ (w₀' : Walk ℝ) (r : Register),
      build (wallAndVeil.latched firstLatch) = .ok w₀' ∧ r.wires = [3, 4] ∧
        w₀'.plan.latchesOver wallAndVeil = [(r, "01")] :=
    ⟨_, ⟨_, .control 0, 3, 2⟩, rfl, rfl, rfl⟩
  have hcontrols : ∀ P : BoundaryControl ℝ → Prop,
      P (BoundaryControl.hard.addBoundaries [⟨"11", 0, none⟩]) →
      P ((BoundaryControl.permeable (.hadamard 1)).addBoundaries [⟨"01", 0, none⟩]) →
      ∀ c ∈ wallAndVeil.controls, P c := by
    intro P h1 h2 c hc
    simp only [wallAndVeil, List.mem_cons, List.not_mem_nil, or_false] at hc
    rcases hc with rfl | rfl
    · exact h1
    · exact h2
  have hsound := hcontrols _ (BoundaryControl.sound_hard.addBoundaries _)
    ((BoundaryControl.sound_permeable one_pos).addBoundaries _)
  have hderived : ∀ c ∈ wallAndVeil.controls, ∀ op, c.permeability = .permeable op → op.Derived :=
    hcontrols _ (fun op hop => nomatch hop) fun op hop => by
      cases hop
      exact .hadamard 1
  have hstates : ∀ c ∈ wallAndVeil.controls, IsPattern c.state c.controlWidth :=
    fun c hc => (hsound c hc).state
  refine ⟨w₀, w₀', r, hbuild, hbuild', hr, fun n => ?_⟩
  obtain ⟨hiff, hacts⟩ := absorbing_acts_as_hard hbuild hbuild' hstates hderived n
  obtain ⟨w, hrun, -⟩ := addSteps_of_build hbuild hsound n
  obtain ⟨w', hrun'⟩ := hiff.mp ⟨w, hrun⟩
  have hsame := (operations_of_addSteps hbuild' (WalkSpec.states_latched _ hstates) hrun').1
  refine ⟨w, w', hrun, hrun', ?_⟩
  rw [← hlatches, ← hsame]
  exact (hacts w w' hrun hrun').1

end Walk

end LatticeWalk
