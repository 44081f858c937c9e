import LatticeWalk.Proofs.LibraryPrograms
import LatticeWalk.Proofs.VeiledWalks
import LatticeWalk.Proofs.WovenSimulations

/-! # The range of permeability

The coin of a permeable control spans from wall to no wall (`Walk.permeability_spans`): without
transmission the control acts as a hard one, and with full transmission as if it were not there.

* `Walk.Widens`: a walk that is another one, with a register at zero set in.
* `Walk.staysWider_of_shades`: a walk with a veil at one end of the range, and the walk without. -/

namespace LatticeWalk

open Operation (targetsOf Weaves)
open Simulation (Reaches Beside)

/-! ### A register set in -/

/-- The wave with a register set in, at zero. -/
noncomputable def Wave.widened (r : Register) (ψ : Wave ℝ) : Wave ℝ := fun b =>
  if r.read b = 0 then ψ (b ∘ r.wireAround) else 0

/-- The second state is the first with a register set in, at zero. -/
def StateVector.Widens (r : Register) (v v' : StateVector ℝ) : Prop :=
  v'.wires = v.wires + r.width ∧ ∀ i < 2 ^ v'.wires, v'.amplitude i =
    if r.read i.testBit = 0 then v.amplitude (index v.wires (i.testBit ∘ r.wireAround)) else 0

/-- A simulation of the program of the walk, for some draws, succeeds and ends in the state. -/
def Walk.EndsIn (w : Walk ℝ) (v : StateVector ℝ) : Prop :=
  Reaches (Simulation.run w.program.operations) (.basis w.program.width 0) v

/-- **The second walk is the first with a register set in**, at zero. Under outcomes that are
possible it has the amplitudes of the first walk under the same outcomes of the other resets, and no
outcomes of the first walk are missing. What simulations of one walk end in, those of the other can
end in as well. -/
structure Walk.Widens (r : Register) (w w' : Walk ℝ) : Prop where
  possible : ∀ outcomes, w'.wave outcomes = 0 ∨ w'.wave outcomes =
    (w.wave (r.others (targetsOf w'.program.operations) outcomes)).widened r
  missing : ∀ outcomes, ∃ outcomes',
    r.others (targetsOf w'.program.operations) outcomes' = outcomes ∧
      w'.wave outcomes' = (w.wave outcomes).widened r
  simulated : ∀ v', w'.EndsIn v' → ∃ v, w.EndsIn v ∧ v.Widens r v'
  simulates : ∀ v, w.EndsIn v → ∃ v', w'.EndsIn v' ∧ v.Widens r v'

/-- However many steps are added to both walks, the second is the first with a register set in.
They are added to both or to neither. -/
def Walk.StaysWider (r : Register) (w₀ w₀' : Walk ℝ) : Prop :=
  ∀ n, ((∃ w, (addSteps n).outcome w₀ = (.ok (), w)) ↔
      ∃ w', (addSteps n).outcome w₀' = (.ok (), w')) ∧
    ∀ w w', (addSteps n).outcome w₀ = (.ok (), w) → (addSteps n).outcome w₀' = (.ok (), w') →
      w.Widens r w'

/-- Set in among the wires that are left, where the register is asked for zero. -/
theorem Wave.latched_asks (r : Register) (ψ : Wave ℝ) :
    ψ.latched r.wireAround (r.asks false) = ψ.widened r :=
  funext fun _ => if_congr Register.met_asks_false rfl rfl

theorem Simulation.Beside.widens {r : Register} {n : ℕ} {v v' : StateVector ℝ}
    (h : Beside r false n v v') (hn : r.start ≤ n) : v.Widens r v' := by
  refine ⟨h.normal.wires.trans (by rw [h.wires]), fun i hi => ?_⟩
  rw [h.amplitude hn (h.normal.wires ▸ hi), h.wires]
  exact if_congr Register.met_asks_false rfl rfl

/-! ### Both programs -/

theorem Plan.Sound.reaches_preparation {plan : Plan ℝ} {spec : WalkSpec ℝ} (h : plan.Sound spec)
    (hstates : ∀ c ∈ plan.controls, IsPattern c.control.state c.control.controlWidth)
    {ops : List (Operation ℝ)} {v : StateVector ℝ} :
    Reaches (Simulation.run (plan.preparation ++ ops)) (.basis plan.layout.width 0) v ↔
      Reaches (Simulation.run ops) (.basis plan.layout.width plan.startIndex) v := by
  simp only [Reaches, Simulation.run_append,
    Attempt.outcome_bind_of_ok (h.run_preparation hstates _)]

namespace Plan.Veiled

variable {r : Register} {wall : Option (Installed ℝ)} {veil : Installed ℝ}
  {as bs as' bs' : List (Installed ℝ)} {plan plan' : Plan ℝ} {spec spec' : WalkSpec ℝ}
  (h : plan.Veiled r wall veil as bs as' bs' plan')
  (hplan : plan.Sound spec) (hplan' : plan'.Sound spec')
  (hstates : ∀ c ∈ plan.controls, IsPattern c.control.state c.control.controlWidth)
  (hstates' : ∀ c ∈ plan'.controls, IsPattern c.control.state c.control.controlWidth)
  (hwall : ∀ i ∈ wall, i.control.permeability = .hard) {op : Operator ℝ}
  (hpermeable : veil.control.permeability = .permeable op) (hresets : 0 < veil.control.resets)
include h hplan hplan' hstates hstates' hwall hpermeable hresets

/-- The states that both programs begin with are side by side. -/
theorem beside_start : Beside r false plan.layout.width
    (.basis plan.layout.width plan.startIndex) (.basis plan'.layout.width plan'.startIndex) := by
  have hshows' := hplan'.shows_startIndex hstates'
  rw [← h.latched_prepared hplan hplan' hstates hstates' hwall hpermeable hresets] at hshows'
  have hwidth : plan'.layout.width = plan.layout.width + r.width := h.width
  exact ⟨rfl, ⟨hwidth, by simp [StateVector.basis, hwidth], StateVector.norm_basis (index_lt _ _)⟩,
    _, hplan.shows_startIndex hstates, hshows'⟩

variable {ops ops' : List (Operation ℝ)} (hweave : Weaves r false false ops ops')
include hweave

/-- **Programs woven together** lead to the same amplitudes from what the two preparations leave, or
the outcomes are impossible. -/
theorem evolve_woven (outcomes : ℕ → Bool) :
    Operation.evolve (plan'.preparation ++ ops') outcomes (Wave.basis fun _ => false) = 0 ∨
      Operation.evolve (plan'.preparation ++ ops') outcomes (Wave.basis fun _ => false) =
        (Operation.evolve (plan.preparation ++ ops) (r.others (targetsOf ops') outcomes)
          (Wave.basis fun _ => false)).widened r := by
  rw [plan'.evolve_preparation, plan.evolve_preparation, ← Wave.latched_asks,
    ← h.latched_prepared hplan hplan' hstates hstates' hwall hpermeable hresets]
  exact (hweave.evolve h.start outcomes _).symm

/-- No outcomes of the first are missing. -/
theorem exists_outcomes_woven (outcomes : ℕ → Bool) : ∃ outcomes',
    r.others (targetsOf ops') outcomes' = outcomes ∧
    Operation.evolve (plan'.preparation ++ ops') outcomes' (Wave.basis fun _ => false) =
      (Operation.evolve (plan.preparation ++ ops) outcomes
        (Wave.basis fun _ => false)).widened r := by
  obtain ⟨outcomes', hothers, hevolve⟩ := hweave.exists_outcomes h.start outcomes
  refine ⟨outcomes', hothers, ?_⟩
  rw [plan'.evolve_preparation, plan.evolve_preparation, ← Wave.latched_asks,
    ← h.latched_prepared hplan hplan' hstates hstates' hwall hpermeable hresets]
  exact hevolve _

end Plan.Veiled

namespace Walk

variable {spec spec' : WalkSpec ℝ} {w₀ w₀' : Walk ℝ} (hbuild : build spec = .ok w₀)
  (hbuild' : build spec' = .ok w₀')
  (hstates : ∀ c ∈ spec.controls, IsPattern c.state c.controlWidth)
  (hstates' : ∀ c ∈ spec'.controls, IsPattern c.state c.controlWidth)
  (hderived : ∀ c ∈ spec.controls, ∀ op, c.permeability = .permeable op → op.Derived)
  (hderived' : ∀ c ∈ spec'.controls, ∀ op, c.permeability = .permeable op → op.Derived)
  {r : Register} {wall : Option (Installed ℝ)} {veil : Installed ℝ}
  {as bs as' bs' : List (Installed ℝ)}
  (hveiled : w₀.plan.Veiled r wall veil as bs as' bs' w₀'.plan) {v : Bool}
  (hshades : w₀.plan.Shades r v wall veil w₀'.plan)
  (hwall : ∀ i ∈ wall, i.control.permeability = .hard) {op : Operator ℝ}
  (hpermeable : veil.control.permeability = .permeable op) (hresets : 0 < veil.control.resets)
include hbuild hbuild' hstates hstates' hderived hderived' hveiled hshades hwall hpermeable hresets

/-- **A walk with a veil at one end of the range** is the walk without it, with the register of the
veil set in. -/
theorem staysWider_of_shades : w₀.StaysWider r w₀' := by
  have h := (build_eq_ok hbuild).1.plan
  have h' := (build_eq_ok hbuild').1.plan
  have hstates₀ := h.of_controls hstates
  have hstates₀' := h'.of_controls hstates'
  have hmem : veil ∈ w₀'.plan.controls := hveiled.mem_controls'.mpr (.inl rfl)
  have hveil : veil.control.Sound :=
    ⟨hstates₀' veil hmem, fun _ => ((h'.wired veil hmem).width_register hveiled.register).2⟩
  have hguarded : w₀.plan.Guarded ↔ w₀'.plan.Guarded :=
    hveiled.guarded_iff hstates₀ hstates₀' h' (fun i hi =>
      ⟨hstates₀ i (hveiled.mem_controls.mpr (.inl hi)), fun hsoft => absurd (hwall i hi) hsoft⟩)
      hveil
  refine fun n => ⟨?_, fun w w' hrun hrun' => ?_⟩
  · rw [addSteps_eq_ok_iff hbuild hstates, addSteps_eq_ok_iff hbuild' hstates', hguarded]
  have hweave : Weaves r false false (w₀.plan.stepsFrom 0 n) (w₀'.plan.stepsFrom 0 n) := by
    rcases (addSteps_eq_ok_iff hbuild hstates n).mp ⟨w, hrun⟩ with rfl | hg
    · exact .follow .nil
    · exact hveiled.weaves_stepsFrom h hshades hg n 0
  obtain ⟨-, hwidth, hops⟩ := operations_of_addSteps hbuild hstates hrun
  obtain ⟨-, hwidth', hops'⟩ := operations_of_addSteps hbuild' hstates' hrun'
  -- only the steps reset anything
  have htargets : targetsOf w'.program.operations = targetsOf (w₀'.plan.stepsFrom 0 n) := by
    rw [hops', Operation.targetsOf_append,
      Operation.targetsOf_eq_nil fun _ => Plan.isReset_of_preparation, List.nil_append]
  have hlib : ∀ op ∈ w₀'.plan.stepsFrom 0 n, op.OfLibrary := fun op hop =>
    ofLibrary_of_addSteps hbuild' hderived' hrun' op (hops' ▸ List.mem_append_right _ hop)
  have hmatched := hweave.matched hveiled.start (within_of_addSteps hbuild hstates hderived hrun)
    (hveiled.width ▸ within_of_addSteps hbuild' hstates' hderived' hrun') hlib _ _
    (hveiled.beside_start h h' hstates₀ hstates₀' hwall hpermeable hresets)
  refine ⟨fun outcomes => ?_, fun outcomes => ?_, fun v' => ?_, fun v => ?_⟩
  · rw [htargets, wave, wave, hops, hops']
    exact hveiled.evolve_woven h h' hstates₀ hstates₀' hwall hpermeable hresets hweave outcomes
  · rw [htargets]
    simp only [wave, hops, hops']
    exact hveiled.exists_outcomes_woven h h' hstates₀ hstates₀' hwall hpermeable hresets hweave
      outcomes
  · simp only [EndsIn, hops, hops', hwidth, hwidth', h.reaches_preparation hstates₀,
      h'.reaches_preparation hstates₀']
    exact fun hv' => (hmatched.2 v' hv').imp fun v hv => hv.imp_right (·.widens hveiled.start)
  · simp only [EndsIn, hops, hops', hwidth, hwidth', h.reaches_preparation hstates₀,
      h'.reaches_preparation hstates₀']
    exact fun hv => (hmatched.1 v hv).imp fun v' hv' => hv'.imp_right (·.widens hveiled.start)

end Walk

/-! ### The ends of the range -/

namespace WalkSpec

variable {spec : WalkSpec ℝ} {before behind : List (BoundaryControl ℝ)} {c : BoundaryControl ℝ}
  (hcontrols : spec.controls = before ++ c :: behind)
include hcontrols

theorem forall_withControls {P : BoundaryControl ℝ → Prop} (h : ∀ c ∈ spec.controls, P c)
    {hard? : Option (BoundaryControl ℝ)} (hhard : ∀ h ∈ hard?, P h) :
    ∀ c ∈ (spec.withControls (before ++ hard?.toList ++ behind)).controls, P c := by
  intro c' hc'
  simp only [withControls, List.mem_append, Option.mem_toList] at hc'
  rcases hc' with (hc' | hc') | hc'
  · exact h c' (by simp [hcontrols, hc'])
  · exact hhard c' hc'
  · exact h c' (by simp [hcontrols, hc'])

end WalkSpec

namespace Walk

variable {spec : WalkSpec ℝ} {before behind : List (BoundaryControl ℝ)} {c : BoundaryControl ℝ}
  {w₀' : Walk ℝ} (hbuild' : build spec = .ok w₀')
  (hcontrols : spec.controls = before ++ c :: behind) {n : ℕ} {p : ℝ} {op : Operator ℝ}
  (hop : Operator.permeability n p = .ok op) (hn : 1 ≤ n)
  (hpermeable : c.permeability = .permeable op) (hstate : c.state = Pattern.ones n)
  (hresets : 1 ≤ c.resets) (hstates : ∀ c ∈ spec.controls, IsPattern c.state c.controlWidth)
  (hderived : ∀ c ∈ spec.controls, ∀ op, c.permeability = .permeable op → op.Derived)
include hbuild' hcontrols hop hn hpermeable

theorem exists_register_of_permeability :
    ∃ r, w₀'.plan.layout.find? (.control before.length) = some r ∧ r.width = n := by
  have h' := (build_eq_ok hbuild').1.plan
  have hplaced := WalkSpec.plan_placed (plan_of_build hbuild')
  have hc : spec.controls[before.length]? = some c := by simp [hcontrols]
  obtain ⟨i, hi, rfl⟩ := h'.control_of_spec hc
  have hwidth : i.control.controlWidth = n := by
    rw [BoundaryControl.controlWidth, hpermeable]
    exact (Operator.plain_permeability hop).wires
  obtain ⟨r, hr, hrw⟩ := (h'.wired i (List.mem_of_getElem? hi)).exists_register (by omega)
  exact ⟨r, hplaced.control?_eq_some h' hi hr, hrw.trans hwidth⟩

include hresets hstates hderived

/-- **A wall or nothing in the place of the control**: the walk with the control stays wider, if its
plan has the control do what stands there does. -/
theorem staysWider_of_withControls {r : Register}
    (hr : w₀'.plan.layout.find? (.control before.length) = some r)
    {hard? : Option (BoundaryControl ℝ)} (hhard : ∀ h ∈ hard?, h.permeability = .hard)
    (hempty : ∀ h ∈ hard?, IsPattern h.state 0) {w₀ : Walk ℝ}
    (hbuild : build (spec.withControls (before ++ hard?.toList ++ behind)) = .ok w₀) {v : Bool}
    (hshades : ∀ wall veil as bs as' bs', w₀.plan.Veiled r wall veil as bs as' bs' w₀'.plan →
      wall.map Installed.control = hard? → veil.control = c → r.width = n →
      w₀.plan.Shades r v wall veil w₀'.plan) : w₀.StaysWider r w₀' := by
  have h' := (build_eq_ok hbuild').1.plan
  have hplan' := plan_of_build hbuild'
  have hwires := (Operator.plain_permeability hop).wires
  obtain ⟨r', wall, veil, as, bs, as', bs', hveiled, hwall, hveil, hlength, hwidth⟩ :=
    WalkSpec.veiled hcontrols hpermeable (by omega) hhard hplan' (plan_of_build hbuild)
  have hindex : w₀'.plan.controls[before.length]? = some veil := by
    simp [hveiled.controls', ← hlength]
  obtain rfl : r' = r := Option.some.inj
    (((WalkSpec.plan_placed hplan').control?_eq_some h' hindex hveiled.register).symm.trans hr)
  have hwallHard : ∀ i ∈ wall, i.control.permeability = .hard := fun i hi =>
    hhard _ (by rw [← hwall, hi]; rfl)
  refine staysWider_of_shades hbuild hbuild'
    (WalkSpec.forall_withControls hcontrols hstates fun h hh => ?_) hstates
    (WalkSpec.forall_withControls hcontrols hderived fun h hh op hop => ?_) hderived hveiled
    (hshades wall veil as bs as' bs' hveiled hwall hveil (hwidth.trans hwires)) hwallHard
    (hveil ▸ hpermeable) (hveil ▸ hresets)
  · rw [BoundaryControl.controlWidth, hhard h hh]
    exact hempty h hh
  · rw [hhard h hh] at hop
    cases hop

include hstate

/-- **Permeability spans from wall to no wall.** Take an accepted specification, and in it a control
with the permeability coin on `n ≥ 1` wires, with the state that it has from the start and at least
one reset a step. The other controls may be of any kind, with patterns as states and operators of
the library. Without transmission the walk is that with a hard control in place of this one, for the
same planes, and with full transmission that without the control and its planes, if these are
accepted: after any number of steps, and with the register of the control set in, at zero. -/
theorem permeability_spans :
    ∃ r, w₀'.plan.layout.find? (.control before.length) = some r ∧ r.width = n ∧
      (p = 0 → ∀ wall : BoundaryControl ℝ, wall.permeability = .hard → IsPattern wall.state 0 →
        wall.boundaries = c.boundaries → ∀ w₀,
          build (spec.withControls (before ++ wall :: behind)) = .ok w₀ → w₀.StaysWider r w₀') ∧
      (p = 1 → ∀ w₀,
        build (spec.withControls (before ++ behind)) = .ok w₀ → w₀.StaysWider r w₀') := by
  obtain ⟨r, hr, hwidth⟩ := exists_register_of_permeability hbuild' hcontrols hop hn hpermeable
  have h' := (build_eq_ok hbuild').1.plan
  refine ⟨r, hr, hwidth, ?_, ?_⟩
  · rintro rfl wall hhard hempty hboundaries w₀ hbuild
    have hreplaced : before ++ wall :: behind = before ++ (some wall).toList ++ behind := by simp
    rw [hreplaced] at hbuild
    refine staysWider_of_withControls hbuild' hcontrols hop hn hpermeable hresets hstates
      hderived hr (by simpa using hhard) (by simpa using hempty) hbuild (v := true) ?_
    intro i? veil as bs as' bs' hveiled hwall hveil hrw
    obtain ⟨i, rfl, rfl⟩ := Option.map_eq_some_iff.mp hwall
    subst hveil
    exact hveiled.shades_shut (build_eq_ok hbuild).1.plan (by omega) hpermeable (hrw ▸ hstate)
      hresets (hrw ▸ hop) rfl hhard hempty hboundaries
  · rintro rfl w₀ hbuild
    have hremoved : before ++ behind = before ++ Option.toList none ++ behind := by simp
    rw [hremoved] at hbuild
    refine staysWider_of_withControls hbuild' hcontrols hop hn hpermeable hresets hstates
      hderived hr (by simp) (by simp) hbuild (v := false) ?_
    intro i? veil as bs as' bs' hveiled hwall hveil hrw
    subst hveil
    exact hveiled.shades_open h' (by omega) hpermeable (hrw ▸ hstate) hresets (hrw ▸ hop)
      (Option.map_eq_none_iff.mp hwall)

end Walk

/-! ### A veil between two walls -/

namespace Walk

/-- The permeability coin on one wire. -/
noncomputable def oneWireCoin (p : ℝ) : Operator ℝ :=
  .ofGates ("Permeability Coin (p=" ++ Numeral.spell p ++ ")") .customUnitary 1
    (Operator.su2Gates 0 [Scalar.arccos (Scalar.sqrt p)] [0] [0])

/-- Four sites with a wall at three, the veil at one and a permeable wall at two. -/
noncomputable def veiledLine (p : ℝ) : WalkSpec ℝ where
  widths := [2]
  initial := some ["10"]
  controls := [BoundaryControl.hard.addBoundaries [⟨"11", 0, none⟩]] ++
    (BoundaryControl.permeable (oneWireCoin p)).addBoundaries [⟨"01", 0, none⟩] ::
    [(BoundaryControl.permeable (.hadamard 1)).addBoundaries [⟨"10", 0, none⟩]]

/-- The same with a hard wall at one. -/
noncomputable def walledLine : WalkSpec ℝ :=
  (veiledLine 0).withControls ([BoundaryControl.hard.addBoundaries [⟨"11", 0, none⟩]] ++
    BoundaryControl.hard.addBoundaries [⟨"01", 0, none⟩] ::
    [(BoundaryControl.permeable (.hadamard 1)).addBoundaries [⟨"10", 0, none⟩]])

/-- The same with nothing at one. -/
noncomputable def openLine : WalkSpec ℝ :=
  (veiledLine 1).withControls ([BoundaryControl.hard.addBoundaries [⟨"11", 0, none⟩]] ++
    [(BoundaryControl.permeable (.hadamard 1)).addBoundaries [⟨"10", 0, none⟩]])

theorem permeability_oneWireCoin {p : ℝ} (h : 0 ≤ p ∧ p ≤ 1) :
    Operator.permeability 1 p = .ok (oneWireCoin p) := if_pos h

theorem forall_veiledLine {p : ℝ} {P : BoundaryControl ℝ → Prop}
    (hwall : P (BoundaryControl.hard.addBoundaries [⟨"11", 0, none⟩]))
    (hveil : P ((BoundaryControl.permeable (oneWireCoin p)).addBoundaries [⟨"01", 0, none⟩]))
    (hbehind : P ((BoundaryControl.permeable (.hadamard 1)).addBoundaries [⟨"10", 0, none⟩])) :
    ∀ c ∈ (veiledLine p).controls, P c := by
  simp only [veiledLine, List.forall_mem_append, List.forall_mem_cons, List.not_mem_nil,
    false_imp_iff, implies_true, and_true]
  exact ⟨hwall, hveil, hbehind⟩

/-- The register of the veil is the wire three, in front of that of the permeable wall. -/
theorem permeability_spans_veiledLine : ∃ r : Register, r.wires = [3] ∧
    (∃ w₀ w₀' : Walk ℝ, build walledLine = .ok w₀ ∧ build (veiledLine 0) = .ok w₀' ∧
      ∀ n, ∃ w w', (addSteps n).outcome w₀ = (.ok (), w) ∧
        (addSteps n).outcome w₀' = (.ok (), w') ∧ w.Widens r w') ∧
    ∃ w₀ w₀' : Walk ℝ, build openLine = .ok w₀ ∧ build (veiledLine 1) = .ok w₀' ∧
      ∀ n, ∃ w w', (addSteps n).outcome w₀ = (.ok (), w) ∧
        (addSteps n).outcome w₀' = (.ok (), w') ∧ w.Widens r w' := by
  obtain ⟨r, hr, hfind⟩ : ∃ r : Register, r.wires = [3] ∧
      ∀ p, ∃ w₀' : Walk ℝ, build (veiledLine p) = .ok w₀' ∧
        w₀'.plan.layout.find? (.control 1) = some r :=
    ⟨⟨"boundary1 control", .control 1, 3, 1⟩, rfl, fun p => ⟨_, rfl, rfl⟩⟩
  have hsound : ∀ p, ∀ c ∈ (veiledLine p).controls, c.Sound := fun p => forall_veiledLine
    (BoundaryControl.sound_hard.addBoundaries _)
    ((BoundaryControl.sound_permeable one_pos).addBoundaries _)
    ((BoundaryControl.sound_permeable one_pos).addBoundaries _)
  have hderived : ∀ p, 0 ≤ p ∧ p ≤ 1 → ∀ c ∈ (veiledLine p).controls, ∀ op,
      c.permeability = .permeable op → op.Derived := fun p hp => forall_veiledLine
    (fun op hop => nomatch hop)
    (fun op hop => by cases hop; exact .permeability (permeability_oneWireCoin hp))
    (fun op hop => by cases hop; exact .hadamard 1)
  have hspans := fun p hp (w₀' : Walk ℝ) (hbuild' : build (veiledLine p) = .ok w₀') =>
    permeability_spans hbuild' rfl (permeability_oneWireCoin hp) le_rfl rfl rfl le_rfl
      (fun c hc => (hsound p c hc).state) (hderived p hp)
  have hsteps : ∀ (p : ℝ) (w₀ w₀' : Walk ℝ), build (veiledLine p) = .ok w₀' → w₀.StaysWider r w₀' →
      ∀ n, ∃ w w', (addSteps n).outcome w₀ = (.ok (), w) ∧
        (addSteps n).outcome w₀' = (.ok (), w') ∧ w.Widens r w' := by
    intro p w₀ w₀' hbuild' hwider n
    obtain ⟨w', hrun', -⟩ := addSteps_of_build hbuild' (hsound p) n
    obtain ⟨w, hrun⟩ := (hwider n).1.mpr ⟨w', hrun'⟩
    exact ⟨w, w', hrun, hrun', (hwider n).2 w w' hrun hrun'⟩
  refine ⟨r, hr, ?_, ?_⟩
  · obtain ⟨w₀, hbuild⟩ : ∃ w₀ : Walk ℝ, build walledLine = .ok w₀ := ⟨_, rfl⟩
    obtain ⟨w₀', hbuild', hfind⟩ := hfind 0
    obtain ⟨r', hr', -, hshut, -⟩ := hspans 0 ⟨le_rfl, zero_le_one⟩ w₀' hbuild'
    obtain rfl : r' = r := Option.some.inj (hr'.symm.trans hfind)
    exact ⟨w₀, w₀', hbuild, hbuild', hsteps 0 w₀ w₀' hbuild'
      (hshut rfl _ rfl (BoundaryControl.sound_hard.addBoundaries _).state rfl w₀ hbuild)⟩
  · obtain ⟨w₀, hbuild⟩ : ∃ w₀ : Walk ℝ, build openLine = .ok w₀ := ⟨_, rfl⟩
    obtain ⟨w₀', hbuild', hfind⟩ := hfind 1
    obtain ⟨r', hr', -, -, hopen⟩ := hspans 1 ⟨zero_le_one, le_rfl⟩ w₀' hbuild'
    obtain rfl : r' = r := Option.some.inj (hr'.symm.trans hfind)
    exact ⟨w₀, w₀', hbuild, hbuild', hsteps 1 w₀ w₀' hbuild' (hopen rfl w₀ hbuild)⟩

end Walk

end LatticeWalk
