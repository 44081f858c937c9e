import LatticeWalk.Proofs.Runs
import LatticeWalk.Proofs.Start
import LatticeWalk.Proofs.Translation

/-! # Translation invariance

Without boundaries and decoherence, a walk that starts elsewhere is the same walk elsewhere
(`Walk.translation_invariant`). Coin and shift commute with every advance of a position register, so
the steps do, and the two starts differ by such advances.

* `Plan.Sound.carries_steps`: from translated bits, steps lead to the translated wave.
* `WalkSpec.plan_of_initial`: the starting position changes nothing else in a plan.
* `Plan.Translated`: basis states that differ by a translation. -/

namespace LatticeWalk

open Operation (gatesOf)

/-! ### Steps without boundaries -/

namespace Plan.Sound

variable {R : Type} [Scalar R] {plan : Plan R} {spec : WalkSpec R} (h : plan.Sound spec)
include h

theorem controls_eq_nil (hcontrols : spec.controls = []) : plan.controls = [] := by
  rw [← List.map_eq_nil_iff, h.controls, hcontrols]

variable (hcontrols : spec.controls = []) (hcycle : spec.decoherence = none)
include hcontrols

theorem guarded_of_nil : plan.Guarded := by
  intro c hc
  rw [h.controls_eq_nil hcontrols] at hc
  cases hc

theorem gatesOf_coinOps_of_nil : gatesOf plan.coinOps = plan.coinGates :=
  gatesOf_coinOps fun c hc => by
    rw [h.controls_eq_nil hcontrols] at hc
    cases hc

theorem boundaryOps_of_nil : plan.boundaryOps = [.barrier] := by
  rw [boundaryOps, planes, Walk.planes, Walk.ofPlan, h.controls_eq_nil hcontrols]
  rfl

include hcycle

theorem resetOps_of_nil (step : ℕ) : plan.resetOps step = [] := by
  rw [resetOps, Walk.resetScript, Walk.decoherenceAfter, Walk.ofPlan, h.controls_eq_nil hcontrols,
    h.decoherence, hcycle]
  rfl

theorem gatesOf_stepOps_of_nil (step : ℕ) :
    gatesOf (plan.stepOps step) = plan.coinGates ++ gatesOf plan.moveOps := by
  rw [stepOps, Operation.gatesOf_append, Operation.gatesOf_append, Operation.gatesOf_append,
    h.gatesOf_coinOps_of_nil hcontrols, h.boundaryOps_of_nil hcontrols,
    h.resetOps_of_nil hcontrols hcycle]
  simp [gatesOf, Operation.gates]

theorem isReset_stepsFrom_of_nil {op : Operation R} : ∀ {n steps : ℕ},
    op ∈ plan.stepsFrom steps n → op.isReset = false
  | 0, _, hop => by cases hop
  | n + 1, steps, hop => by
    rw [stepsFrom, stepOps, h.resetOps_of_nil hcontrols hcycle, List.append_nil, List.mem_append,
      List.mem_append, List.mem_append] at hop
    rcases hop with ((hop | hop) | hop) | hop
    · exact isReset_coinOps hop
    · exact isReset_boundaryOps hop
    · exact Walk.isReset_moveOps op hop
    · exact isReset_stepsFrom_of_nil hop

end Plan.Sound

namespace Plan.Sound

variable {plan : Plan ℝ} {spec : WalkSpec ℝ} (h : plan.Sound spec) {ψ φ : Wave ℝ} {d t : ℕ}
include h

theorem spared_coinGates (hd : d < plan.positions.length) {g : Gate ℝ} (hg : g ∈ plan.coinGates) :
    g.Spared ((plan.positionOf d).advance t) := by
  have hout : ∀ q ∈ g.wires, q ∉ (plan.positionOf d).wires := fun q hq hq' =>
    h.coin_disjoint hd (Operator.wires_mem_of_gatesOn (Register.length_wires _)
      h.isCoin.plain.fits hg q hq) hq'
  exact ⟨fun q hq b => Register.advance_of_notMem (hout q hq) t b,
    fun b v => Register.advance_update (hout _ (by simp [Gate.wires])) v⟩

theorem carries_moveOps (hd : d < plan.positions.length)
    (hcarries : Wave.Carries ((plan.positionOf d).advance t) ψ φ) :
    Wave.Carries ((plan.positionOf d).advance t) (Gate.actAll (gatesOf plan.moveOps) ψ)
      (Gate.actAll (gatesOf plan.moveOps) φ) := by
  refine Gate.carries_flips (fun g hg => h.isFlip_moveOps hg) (fun b => ?_) hcarries
  rw [h.sendAll_moveOps, h.sendAll_moveOps]
  exact Shift.hop_advance (h.coin_disjoint hd)
    (fun e he => h.positionOf_eq_or_disjoint he hd) t b

variable (hcontrols : spec.controls = []) (hcycle : spec.decoherence = none)
include hcontrols hcycle

/-- **A step commutes with the advance of a position register**, -/
theorem carries_stepOps (hd : d < plan.positions.length) (step : ℕ)
    (hcarries : Wave.Carries ((plan.positionOf d).advance t) ψ φ) :
    Wave.Carries ((plan.positionOf d).advance t) (Gate.actAll (gatesOf (plan.stepOps step)) ψ)
      (Gate.actAll (gatesOf (plan.stepOps step)) φ) := by
  rw [h.gatesOf_stepOps_of_nil hcontrols hcycle, Gate.actAll_append, Gate.actAll_append]
  exact h.carries_moveOps hd (Gate.carries_actAll (fun g hg => h.spared_coinGates hd hg) hcarries)

theorem carries_stepsFrom (hd : d < plan.positions.length) : ∀ (n steps : ℕ) {ψ φ : Wave ℝ},
    Wave.Carries ((plan.positionOf d).advance t) ψ φ →
    Wave.Carries ((plan.positionOf d).advance t)
      (Gate.actAll (gatesOf (plan.stepsFrom steps n)) ψ)
      (Gate.actAll (gatesOf (plan.stepsFrom steps n)) φ)
  | 0, _, _, _, hcarries => hcarries
  | n + 1, steps, ψ, φ, hcarries => by
    rw [stepsFrom, Operation.gatesOf_append, Gate.actAll_append, Gate.actAll_append]
    exact carries_stepsFrom hd n (steps + 1)
      (h.carries_stepOps hcontrols hcycle hd (steps + 1) hcarries)

/-- **From translated bits, steps lead to the translated wave.** The dimensions are moved along one
by one. -/
theorem carries_steps (n steps : ℕ) (t : ℕ → ℕ) (b : ℕ → Bool) : ∀ {m : ℕ},
    m ≤ plan.positions.length →
    Wave.Carries (plan.translate t m)
      (Gate.actAll (gatesOf (plan.stepsFrom steps n)) (Wave.basis b))
      (Gate.actAll (gatesOf (plan.stepsFrom steps n)) (Wave.basis (plan.translate t m b)))
  | 0, _ => fun _ => rfl
  | _ + 1, hm => (carries_steps n steps t b (Nat.le_of_succ_le hm)).trans
      (h.carries_stepsFrom hcontrols hcycle hm n steps
        (Wave.Carries.basis (Register.advance_injective _ _) _))

end Plan.Sound

/-! ### The starting position -/

namespace WalkSpec

variable {R : Type}

/-- Along each dimension `d`, the walker of the second walk starts `t d` sites further. -/
def Displaced (spec spec' : WalkSpec R) (t : ℕ → ℕ) : Prop :=
  ∀ d width, spec.widths[d]? = some width → spec'.startOf d = (spec.startOf d + t d) % 2 ^ width

/-- The patterns of the starting position, moved along. -/
def displaced (spec : WalkSpec R) (t : ℕ → ℕ) : List String :=
  spec.widths.zipIdx.map fun w => Pattern.ofValue (spec.startOf w.2 + t w.2) w.1

theorem getElem?_displaced (spec : WalkSpec R) (t : ℕ → ℕ) (d : ℕ) :
    (spec.displaced t)[d]? = (spec.widths[d]?).map fun width =>
      Pattern.ofValue (spec.startOf d + t d) width := by
  rw [displaced, List.getElem?_map, List.getElem?_zipIdx, Option.map_map, Nat.zero_add]
  rfl

theorem checkInitial_displaced (spec : WalkSpec R) (t : ℕ → ℕ) :
    { spec with initial := some (spec.displaced t) }.checkInitial = .ok () := by
  refine checkInitial_eq_ok.mpr fun states hstates => ?_
  obtain rfl := Option.some.inj hstates
  refine ⟨by simp [displaced], fun p hp => ?_⟩
  obtain ⟨d, hd⟩ := List.mem_iff_getElem?.mp hp
  obtain ⟨hstate, hwidth⟩ := List.getElem?_zip_eq_some.mp hd
  rw [getElem?_displaced, hwidth, Option.map_some, Option.some.injEq] at hstate
  rw [← hstate]
  exact Pattern.isPattern_ofValue _ _

theorem displaced_displaced (spec : WalkSpec R) (t : ℕ → ℕ) :
    spec.Displaced { spec with initial := some (spec.displaced t) } t := by
  intro d width hwidth
  have hstate := spec.getElem?_displaced t d
  rw [hwidth, Option.map_some] at hstate
  show Pattern.value ((spec.displaced t).getD d "") = _
  rw [List.getD_eq_getElem?_getD, hstate, Option.getD_some, Pattern.value_ofValue]

theorem checkShape_of_initial {spec : WalkSpec R} (hshape : spec.checkShape = .ok ())
    {initial : Option (List String)}
    (hinitial : { spec with initial := initial }.checkInitial = .ok ()) :
    { spec with initial := initial }.checkShape = .ok () := by
  have h := checkShape_eq_ok.mp hshape
  exact checkShape_eq_ok.mpr ⟨h.nonempty, h.widths, checkInitial_eq_ok.mp hinitial, h.planes⟩

/-- **The starting position changes nothing else in a plan.** -/
theorem plan_of_initial [Scalar R] {spec : WalkSpec R} {plan : Plan R}
    (hplan : spec.plan = .ok plan) {initial : Option (List String)}
    (hinitial : { spec with initial := initial }.checkInitial = .ok ()) :
    { spec with initial := initial }.plan = .ok { plan with initial := initial } := by
  obtain ⟨a1, a2, a3, h⟩ := plan_eq_ok.mp hplan
  exact plan_eq_ok.mpr ⟨a1, a2, a3, checkShape_of_initial h.shape hinitial, h.moves, h.coin,
    h.cycle, h.positions, h.coinRegister, h.controls, h.layout, h.widths, rfl, h.decoherence⟩

end WalkSpec

/-! ### Translated basis states -/

namespace Plan

variable {R : Type}

/-- The steps are those of the plan with another starting position. -/
theorem stepsFrom_of_initial [Scalar R] (plan : Plan R) (initial : Option (List String)) :
    ∀ n steps : ℕ,
      { plan with initial := initial }.stepsFrom steps n = plan.stepsFrom steps n
  | 0, _ => rfl
  | n + 1, steps => by
    rw [stepsFrom, stepsFrom, stepsFrom_of_initial plan initial n]
    rfl

/-- **One basis state is another moved along**: the coin has the same value in both, and along each
dimension `d` the position is `t d` sites further, cyclically. -/
structure Translated (plan : Plan R) (t : ℕ → ℕ) (i j : ℕ) : Prop where
  coin : plan.coinRegister.valueIn j = plan.coinRegister.valueIn i
  positions : ∀ d r, plan.positions[d]? = some r →
    r.valueIn j = (r.valueIn i + t d) % 2 ^ r.width

/-- The basis state moved along. -/
def translateIndex (plan : Plan R) (t : ℕ → ℕ) (i : ℕ) : ℕ :=
  index plan.layout.width (plan.translate t plan.positions.length i.testBit)

namespace Sound

section bits
variable [Scalar R] {plan : Plan R} {spec : WalkSpec R} (h : plan.Sound spec) {t : ℕ → ℕ} {i : ℕ}
  (hi : i < 2 ^ plan.layout.width)
include h hi

theorem testBit_translateIndex : (plan.translateIndex t i).testBit =
    plan.translate t plan.positions.length i.testBit := by
  refine testBit_index_of_high fun q hq => ?_
  rw [translate_of_notMem fun d hd hq' => ?_]
  · exact Nat.testBit_lt_two_pow (hi.trans_le (Nat.pow_le_pow_right (by norm_num) hq))
  · have hstop := h.stop_positionOf hd
    have hlt := (Register.mem_wires.mp hq').2
    omega

theorem translated_translateIndex : plan.Translated t i (plan.translateIndex t i) where
  coin := by
    rw [← Register.read_testBit, ← Register.read_testBit, h.testBit_translateIndex hi]
    exact Register.read_congr fun q hq =>
      translate_of_notMem fun d hd hq' => h.coin_disjoint hd hq hq'
  positions d r hr := by
    obtain ⟨hd, rfl⟩ := eq_positionOf hr
    rw [← Register.read_testBit, ← Register.read_testBit, h.testBit_translateIndex hi]
    exact h.read_translate le_rfl hd

theorem eq_translateIndex (hcontrols : spec.controls = []) {j : ℕ}
    (hj : j < 2 ^ plan.layout.width) (hij : plan.Translated t i j) :
    j = plan.translateIndex t i := by
  have htranslated := h.translated_translateIndex (t := t) hi
  refine Layout.eq_of_valueIn hj (index_lt _ _) fun r hr => ?_
  rw [h.registers, h.controls_eq_nil hcontrols, List.flatMap_nil, List.mem_append,
    List.mem_singleton] at hr
  rcases hr with hr | rfl
  · obtain ⟨d, hd⟩ := List.mem_iff_getElem?.mp hr
    rw [hij.positions d r hd, htranslated.positions d r hd]
  · rw [hij.coin, htranslated.coin]

end bits

section start
variable [Scalar R] {plan : Plan R} {spec : WalkSpec R} (h : plan.Sound spec)
  (hcontrols : spec.controls = [])
include h hcontrols

theorem states_of_nil :
    ∀ c ∈ plan.controls, IsPattern c.control.state c.control.controlWidth := by
  intro c hc
  rw [h.controls_eq_nil hcontrols] at hc
  cases hc

theorem valueIn_startIndex_position {d : ℕ} (hd : d < plan.positions.length) :
    (plan.positionOf d).valueIn plan.startIndex = spec.startOf d := by
  rw [← Register.read_testBit, h.testBit_startIndex (h.states_of_nil hcontrols)]
  refine h.read_prepared (fun c hc => ?_) hd
  rw [h.controls_eq_nil hcontrols] at hc
  cases hc

theorem valueIn_startIndex_coin : plan.coinRegister.valueIn plan.startIndex = 0 := by
  rw [← Register.read_testBit, h.testBit_startIndex (h.states_of_nil hcontrols)]
  refine Register.read_eq_zero fun q hq =>
    h.prepared_eq_false (h.states_of_nil hcontrols) fun p hp hq' => ?_
  rw [marks, latches, h.controls_eq_nil hcontrols] at hp
  obtain ⟨d, hd⟩ := List.mem_iff_getElem?.mp (List.of_mem_zip hp).1
  obtain ⟨hd, hposition⟩ := eq_positionOf hd
  rw [hposition] at hq'
  exact h.coin_disjoint hd hq hq'

/-- **The two walks start in bits that differ by a translation.** -/
theorem prepared_of_displaced {plan' : Plan R} {spec' : WalkSpec R}
    (h' : plan'.Sound spec') (hcontrols' : spec'.controls = []) {t : ℕ → ℕ}
    (hpositions : plan'.positions = plan.positions)
    (hcoin : plan'.coinRegister = plan.coinRegister) (hlayout : plan'.layout = plan.layout)
    (hdisplaced : spec.Displaced spec' t) :
    plan'.prepared = plan.translate t plan.positions.length plan.prepared := by
  have hsame : plan'.positionOf = plan.positionOf := by
    funext d
    rw [positionOf, positionOf, hpositions, hcoin]
  have htranslated : plan.Translated t plan.startIndex plan'.startIndex := by
    refine ⟨?_, fun d r hr => ?_⟩
    · rw [h.valueIn_startIndex_coin hcontrols, ← hcoin, h'.valueIn_startIndex_coin hcontrols']
    · obtain ⟨hd, rfl⟩ := eq_positionOf hr
      rw [h.valueIn_startIndex_position hcontrols hd, ← hsame,
        h'.valueIn_startIndex_position hcontrols' (hpositions ▸ hd), hsame]
      exact hdisplaced d _ (h.width_positionOf hd)
  have hstart : plan.startIndex < 2 ^ plan.layout.width := index_lt _ _
  have hindex := h.eq_translateIndex hstart hcontrols (hlayout ▸ index_lt _ _) htranslated
  rw [← h'.testBit_startIndex (h'.states_of_nil hcontrols'), hindex,
    h.testBit_translateIndex hstart, h.testBit_startIndex (h.states_of_nil hcontrols)]

end start

end Sound

end Plan

/-! ### Translated walks -/

namespace Plan.Sound

variable {plan : Plan ℝ} {spec : WalkSpec ℝ} (h : plan.Sound spec)
  (hcontrols : spec.controls = []) (hcycle : spec.decoherence = none)
include h hcontrols hcycle

/-- A program without resets leads where its gates lead. -/
theorem run_steps_of_nil (n : ℕ) (draws : Draws ℝ) : ∃ v : StateVector ℝ,
    (Simulation.run (plan.preparation ++ plan.stepsFrom 0 n)).outcome
      ⟨.basis plan.layout.width 0, draws⟩ = (.ok (), ⟨v, draws⟩) ∧
    v.wires = plan.layout.width ∧
    v.Shows (Gate.actAll (gatesOf (plan.stepsFrom 0 n)) (Wave.basis plan.prepared)) := by
  have hstates := h.states_of_nil hcontrols
  have hnone : ∀ c ∈ plan.controls, False := by simp [h.controls_eq_nil hcontrols]
  rw [Simulation.run_append, Attempt.outcome_bind_of_ok (h.run_preparation hstates draws)]
  exact Simulation.run_gates (h.shows_startIndex hstates)
    (fun op hop => h.within_stepsFrom (fun c hc => (hnone c hc).elim)
      (fun c hc => (hnone c hc).elim) n hop)
    (fun op hop => h.isReset_stepsFrom_of_nil hcontrols hcycle hop) draws

end Plan.Sound

namespace Walk

theorem build_of_plan {R : Type} [Scalar R] {spec : WalkSpec R} {plan : Plan R}
    (hplan : spec.plan = .ok plan)
    (hstates : ∀ c ∈ plan.controls, IsPattern c.control.state c.control.controlWidth) :
    build spec = .ok ((ofPlan plan).push plan.preparation) := by
  have hprepare : prepare.outcome (ofPlan plan) =
      (.ok (), (ofPlan plan).push plan.preparation) := by
    rw [prepare, Attempt.outcome_bind_of_ok (Attempt.outcome_get _)]
    exact outcome_onProgram_addAll fun op hop =>
      ((WalkSpec.plan_sound hplan).within_marks hstates hop).wires
  rw [build, hplan]
  dsimp only [bind, Except.bind]
  rw [hprepare]
  rfl

/-- **A walk without boundaries is translation invariant.** Take an accepted specification without
boundary controls and decoherence, with any coin that can direct a walk. Its starting position may
be moved along by any numbers of sites `t`. If it is, then after any number of steps, the amplitude
at a position moved along by `t` is, for each value of the coin, what it was at the position in the
first walk. -/
theorem translation_invariant {spec : WalkSpec ℝ} (hcontrols : spec.controls = [])
    (hcycle : spec.decoherence = none) {w₀ : Walk ℝ} (hbuild : build spec = .ok w₀) (t : ℕ → ℕ) :
    (∃ initial w₀', build { spec with initial := initial } = .ok w₀' ∧
      spec.Displaced { spec with initial := initial } t) ∧
    ∀ initial w₀', build { spec with initial := initial } = .ok w₀' →
      spec.Displaced { spec with initial := initial } t →
      ∀ n, ∃ w w', (addSteps n).outcome w₀ = (.ok (), w) ∧
        (addSteps n).outcome w₀' = (.ok (), w') ∧ w'.program.layout = w.program.layout ∧
        ∀ draws : Draws ℝ, ∃ v v',
          (Simulation.run w.program.operations).outcome ⟨.basis w.program.width 0, draws⟩ =
            (.ok (), ⟨v, draws⟩) ∧
          (Simulation.run w'.program.operations).outcome ⟨.basis w'.program.width 0, draws⟩ =
            (.ok (), ⟨v', draws⟩) ∧
          ∀ i < 2 ^ w.program.width,
            (∃ j < 2 ^ w.program.width, w.plan.Translated t i j) ∧
            ∀ j < 2 ^ w.program.width, w.plan.Translated t i j →
              v'.amplitude j = v.amplitude i := by
  have hplan := plan_of_build hbuild
  have h := WalkSpec.plan_sound hplan
  refine ⟨?_, fun initial w₀' hbuild' hdisplaced n => ?_⟩
  · have hplan' := WalkSpec.plan_of_initial hplan (spec.checkInitial_displaced t)
    exact ⟨_, _, build_of_plan hplan' (h.states_of_nil hcontrols), spec.displaced_displaced t⟩
  have hplan' := plan_of_build hbuild'
  have h' := WalkSpec.plan_sound hplan'
  have hsame : w₀'.plan = { w₀.plan with initial := initial } :=
    Except.ok.inj (hplan'.symm.trans (WalkSpec.plan_of_initial hplan
      (WalkSpec.checkInitial_eq_ok.mpr h'.shape.initial)))
  obtain ⟨w, hrun, hw, hready, -, hops⟩ :=
    addSteps_of_guarded hbuild (h.guarded_of_nil hcontrols) n
  obtain ⟨w', hrun', hw', hready', -, hops'⟩ :=
    addSteps_of_guarded hbuild' (h'.guarded_of_nil hcontrols) n
  have hlayout : w₀'.plan.layout = w₀.plan.layout := by rw [hsame]
  have hprepared : w₀'.plan.prepared = w₀.plan.translate t w₀.plan.positions.length
      w₀.plan.prepared :=
    h.prepared_of_displaced hcontrols h' hcontrols (by rw [hsame]) (by rw [hsame]) hlayout
      hdisplaced
  have hsteps : w₀'.plan.stepsFrom 0 n = w₀.plan.stepsFrom 0 n := by
    rw [hsame, Plan.stepsFrom_of_initial]
  refine ⟨w, w', hrun, hrun', by rw [hready'.layout, hready.layout, hw, hw', hlayout],
    fun draws => ?_⟩
  obtain ⟨v, hv, hwires, hshows⟩ := h.run_steps_of_nil hcontrols hcycle n draws
  obtain ⟨v', hv', hwires', hshows'⟩ := h'.run_steps_of_nil hcontrols hcycle n draws
  rw [hsteps, hprepared] at hshows'
  rw [hops, hops', hready.width, hready'.width, hw, hw']
  refine ⟨v, v', hv, hv', fun i hi => ⟨⟨_, index_lt _ _, h.translated_translateIndex hi⟩,
    fun j hj hij => ?_⟩⟩
  rw [hshows'.amplitude j (by rwa [hwires', hlayout]), hshows.amplitude i (by rwa [hwires]),
    h.eq_translateIndex hi hcontrols hj hij,
    h.testBit_translateIndex hi]
  exact h.carries_steps hcontrols hcycle n 0 t _ le_rfl _

/-- Four by two sites, with the walker at the edge of the first dimension. -/
noncomputable def atEdge : WalkSpec ℝ := { widths := [2, 1], initial := some ["11", "0"] }

/-- Moved along over the edge by one site, and by three along the second dimension. -/
theorem translation_invariant_atEdge : ∃ w₀ w₀' : Walk ℝ, build atEdge = .ok w₀ ∧
    build { atEdge with initial := some ["00", "1"] } = .ok w₀' ∧
    ∀ n, ∃ w w', (addSteps n).outcome w₀ = (.ok (), w) ∧ (addSteps n).outcome w₀' = (.ok (), w') ∧
      ∀ draws : Draws ℝ, ∃ v v',
        (Simulation.run w.program.operations).outcome ⟨.basis w.program.width 0, draws⟩ =
          (.ok (), ⟨v, draws⟩) ∧
        (Simulation.run w'.program.operations).outcome ⟨.basis w'.program.width 0, draws⟩ =
          (.ok (), ⟨v', draws⟩) ∧
        ∀ i < 2 ^ w.program.width, ∃ j < 2 ^ w.program.width,
          w.plan.Translated (fun d => 2 * d + 1) i j ∧ v'.amplitude j = v.amplitude i := by
  obtain ⟨w₀, hbuild⟩ : ∃ w₀ : Walk ℝ, build atEdge = .ok w₀ := ⟨_, rfl⟩
  obtain ⟨w₀', hbuild'⟩ : ∃ w₀' : Walk ℝ,
      build { atEdge with initial := some ["00", "1"] } = .ok w₀' := ⟨_, rfl⟩
  have hdisplaced : atEdge.Displaced { atEdge with initial := some ["00", "1"] }
      fun d => 2 * d + 1 := by
    intro d width hwidth
    rcases d with _ | _ | d
    · obtain rfl := Option.some.inj hwidth
      rfl
    · obtain rfl := Option.some.inj hwidth
      rfl
    · cases hwidth
  refine ⟨w₀, w₀', hbuild, hbuild', fun n => ?_⟩
  obtain ⟨w, w', hrun, hrun', -, hsame⟩ := (translation_invariant rfl rfl hbuild
    fun d => 2 * d + 1).2 _ w₀' hbuild' hdisplaced n
  refine ⟨w, w', hrun, hrun', fun draws => ?_⟩
  obtain ⟨v, v', hv, hv', hamplitude⟩ := hsame draws
  refine ⟨v, v', hv, hv', fun i hi => ?_⟩
  obtain ⟨⟨j, hj, hij⟩, hall⟩ := hamplitude i hi
  exact ⟨j, hj, hij, hall j hj hij⟩

end Walk

end LatticeWalk
