import LatticeWalk.Proofs.Block
import LatticeWalk.Proofs.Compile
import LatticeWalk.Proofs.Undo

/-! # Steps

A step never fails if the controls with planes are sound, and it adds the operations that the plan
gives.

* `Plan.Guarded`: the controls with planes are sound.
* `Plan.stepOps`: the operations of a step, phase by phase; `Walk.outcome_guarded_step`.
* `Plan.stepsFrom`: those of several steps; `Walk.outcome_addSteps`.
* `Walk.guarded_of_step`: a step that was added had such controls. -/

namespace LatticeWalk

variable {R : Type} [Scalar R]

/-! ### The operations of the phases -/

/-- An operator on the wires of a program. -/
def Operator.bound (op : Operator R) (wires : List ℕ) : Operation R :=
  .apply op.name op.label wires (Operator.gatesOn wires op.gates)

omit [Scalar R] in
theorem Operator.bind_eq_ok {op : Operator R} {wires : List ℕ} (h : wires.length = op.wires) :
    op.bind wires = .ok (op.bound wires) := if_pos h

omit [Scalar R] in
theorem Operator.wellFormed_bound {op : Operator R} {r : Register} {n : ℕ}
    (hfits : AllFit r.width op.gates) (hstop : r.stop ≤ n) : (op.bound r.wires).WellFormed n :=
  wellFormed_apply (Register.nodup_wires r)
    (fun _ hq => (Register.mem_wires.mp hq).2.trans_le hstop) (by rwa [Register.length_wires])

theorem IsCoin.fits_inverse {n : ℕ} {op : Operator R} (h : IsCoin n op) :
    Operator.AllFit op.wires op.inverseGates := by
  rw [h.plain.wires, h.plain.inverse]
  exact h.plain.fits.undo

/-- The operator of a control on its register, if it has both. -/
def Installed.coinOps (c : Installed R) : List (Operation R) :=
  match c.control.coinOperator?, c.register with
  | some op, some register => [op.bound register.wires]
  | _, _ => []

theorem BoundaryControl.coinOperator?_eq_some {c : BoundaryControl R} {op : Operator R}
    (h : c.coinOperator? = some op) : c.permeability = .permeable op := by
  unfold BoundaryControl.coinOperator? BoundaryControl.operator? Permeability.operator? at h
  cases hp : c.permeability with
  | hard => rw [hp] at h; cases h
  | permeable op' =>
    rw [hp] at h
    obtain ⟨he, -⟩ := Option.filter_eq_some_iff.mp h
    rw [Option.some.injEq] at he
    rw [he]
  | oneWay bits => rw [hp] at h; cases h
  | absorbing wires => rw [hp] at h; cases h

theorem Installed.mem_coinOps {c : Installed R} {op : Operation R} (h : op ∈ c.coinOps) :
    ∃ o r, c.control.permeability = .permeable o ∧ c.register = some r ∧
      op = o.bound r.wires := by
  unfold coinOps at h
  cases ho : c.control.coinOperator? with
  | none =>
    rw [ho] at h
    cases h
  | some o =>
    cases hr : c.register with
    | none =>
      rw [ho, hr] at h
      cases h
    | some r =>
      rw [ho, hr, List.mem_singleton] at h
      exact ⟨o, r, BoundaryControl.coinOperator?_eq_some ho, rfl, h⟩

theorem Installed.coinOps_eq_nil {c : Installed R}
    (h : ∀ op, c.control.permeability ≠ .permeable op) : c.coinOps = [] := by
  unfold coinOps
  cases hop : c.control.coinOperator? with
  | none => rfl
  | some op => exact absurd (BoundaryControl.coinOperator?_eq_some hop) (h op)

omit [Scalar R] in
theorem BoundaryControl.eq_reset_of_resetScript {c : BoundaryControl R}
    {control ancilla : Option Register} {op : Operation R}
    (h : op ∈ c.resetScript control ancilla) : op = .reset (c.resetTargets control ancilla) := by
  unfold resetScript at h
  dsimp only at h
  split_ifs at h
  · cases h
  · exact List.eq_of_mem_replicate h

omit [Scalar R] in
theorem Installed.mem_resetTargets {c : Installed R} {q : ℕ}
    (h : q ∈ c.control.resetTargets c.register c.ancilla) : ∃ r ∈ c.registers, q ∈ r.wires := by
  have hopt : ∀ {o : Option Register}, q ∈ (o.map Register.wires).getD [] →
      ∃ r, o = some r ∧ q ∈ r.wires := by
    intro o ho
    cases o with
    | none => cases ho
    | some r => exact ⟨r, rfl, ho⟩
  unfold BoundaryControl.resetTargets at h
  rw [List.mem_append] at h
  rcases h with h | h
  · split_ifs at h
    · obtain ⟨r, hr, hq⟩ := hopt h
      exact ⟨r, by simp [registers, hr], hq⟩
    · cases h
  · obtain ⟨r, hr, hq⟩ := hopt h
    exact ⟨r, by simp [registers, hr], hq⟩

namespace Plan

/-- Every control with a plane is sound. The others have no block to build. -/
def Guarded (plan : Plan R) : Prop :=
  ∀ c ∈ plan.controls, c.control.boundaries ≠ [] → c.control.Sound

omit [Scalar R] in
theorem Guarded.of_sound {plan : Plan R} (h : ∀ c ∈ plan.controls, c.control.Sound) :
    plan.Guarded := fun c hc _ => h c hc

/-- The registers that the block of a plane is wired to. -/
def wiring (plan : Plan R) (c : Installed R) (plane : Boundary) : Wiring :=
  ⟨plan.positionOf plane.dimension, plan.coinRegister, c.register, c.ancilla⟩

/-- The block of a plane under the control of an index. -/
def planeOps (plan : Plan R) (p : ℕ × Boundary) : List (Operation R) :=
  match plan.controls[p.1]? with
  | some c => c.control.blockOps p.2 plan.coin (plan.wiring c p.2)
  | none => []

/-- The planes of all controls, each with the index of its control. -/
def planes (plan : Plan R) : List (ℕ × Boundary) := (Walk.ofPlan plan).planes

/-- The coins of a step. -/
def coinOps (plan : Plan R) : List (Operation R) :=
  plan.coin.bound plan.coinRegister.wires :: plan.controls.flatMap Installed.coinOps ++ [.barrier]

/-- The blocks of a step. -/
def boundaryOps (plan : Plan R) : List (Operation R) :=
  plan.planes.flatMap plan.planeOps ++ [.barrier]

/-- The blocks of a control, plane by plane. -/
def blocksOf (plan : Plan R) (c : Installed R) : List (Operation R) :=
  c.control.boundaries.flatMap fun plane =>
    c.control.blockOps plane plan.coin (plan.wiring c plane)

theorem boundaryOps_eq (plan : Plan R) :
    plan.boundaryOps = plan.controls.flatMap plan.blocksOf ++ [.barrier] := by
  have hplanes : plan.planes = plan.controls.zipIdx.flatMap fun c =>
      c.1.control.boundaries.map fun plane => (c.2, plane) := rfl
  have hblocks : ∀ c ∈ plan.controls.zipIdx,
      (c.1.control.boundaries.map fun plane => (c.2, plane)).flatMap plan.planeOps =
        plan.blocksOf c.1 := by
    intro c hc
    rw [List.flatMap_map, blocksOf]
    simp only [planeOps, List.mem_zipIdx_iff_getElem?.mp hc]
  rw [boundaryOps, hplanes, List.flatMap_assoc, List.flatMap_congr hblocks,
    ← List.flatMap_map Prod.fst, List.zipIdx_map_fst]

/-- The resets of the step with the given number. -/
def resetOps (plan : Plan R) (step : ℕ) : List (Operation R) :=
  (Walk.ofPlan plan).resetScript ++ (Walk.ofPlan plan).decoherenceAfter step

/-- The operations of the step with the given number. -/
def stepOps (plan : Plan R) (step : ℕ) : List (Operation R) :=
  plan.coinOps ++ plan.boundaryOps ++ plan.moveOps ++ plan.resetOps step

/-- The operations of `n` steps after the first `steps`. -/
def stepsFrom (plan : Plan R) : (steps n : ℕ) → List (Operation R)
  | _, 0 => []
  | steps, n + 1 => plan.stepOps (steps + 1) ++ plan.stepsFrom (steps + 1) n

/-- **The control is seated**: it has the registers that it asks for, apart from those of coin and
positions, and its planes lie in dimensions. Other controls of the plan do not matter for that, nor
does the order of its planes. -/
structure Seats (plan : Plan R) (c : Installed R) : Prop where
  suits : ∀ plane, (plan.wiring c plane).Suits c.control
  planes : ∀ plane ∈ c.control.boundaries, plane.dimension < plan.positions.length ∧
    IsPattern plane.pattern (plan.positionOf plane.dimension).width
  apart : ∀ plane, plane.dimension < plan.positions.length →
    (plan.wiring c plane).Apart plan.layout.width

/-- All controls are seated, and the coin is built for its register. -/
structure Seated (plan : Plan R) : Prop where
  coin : IsCoin plan.coinRegister.width plan.coin
  coin_pos : 0 < plan.coinRegister.width
  controls : ∀ c ∈ plan.controls, plan.Seats c

namespace Sound

variable {plan : Plan R} {spec : WalkSpec R} (h : plan.Sound spec)
include h

theorem isCoin : IsCoin plan.coinRegister.width plan.coin := by
  rw [h.coinRegister]
  exact WalkSpec.buildCoin_eq_ok h.coin

theorem coin_pos : 0 < plan.coinRegister.width := by
  obtain ⟨k, hk, -⟩ := h.coin_eq
  omega

/-- A plane of a control lies in a dimension, and its pattern has the width of that dimension. -/
theorem plane_ok {c : Installed R} (hc : c ∈ plan.controls) {plane : Boundary}
    (hp : plane ∈ c.control.boundaries) : plane.dimension < plan.positions.length ∧
      IsPattern plane.pattern (plan.positionOf plane.dimension).width := by
  have hmem : c.control ∈ spec.controls := by
    rw [← h.controls]
    exact List.mem_map_of_mem hc
  obtain ⟨w, hw, hpat⟩ := h.shape.planes plane (List.mem_flatMap.mpr ⟨_, hmem, hp⟩)
  obtain ⟨hd, -⟩ := List.getElem?_eq_some_iff.mp hw
  rw [← h.length_positions] at hd
  rw [h.width_positionOf hd, Option.some.injEq] at hw
  exact ⟨hd, hw ▸ hpat⟩

theorem suits {c : Installed R} (hc : c ∈ plan.controls) (plane : Boundary) :
    (plan.wiring c plane).Suits c.control :=
  ⟨(h.wired c hc).register, (h.wired c hc).ancilla⟩

theorem control_apart {c : Installed R} (hc : c ∈ plan.controls) :
    c.registers.Pairwise fun r s => r.stop ≤ s.start := by
  have hp := (List.pairwise_cons.mp (List.pairwise_append.mp h.apart).2.1).2
  exact (List.pairwise_flatMap.mp hp).1 c hc

theorem wiring_apart {c : Installed R} (hc : c ∈ plan.controls) {plane : Boundary}
    (hd : plane.dimension < plan.positions.length) :
    (plan.wiring c plane).Apart plan.layout.width := by
  constructor
  · rw [List.pairwise_cons, List.pairwise_cons]
    refine ⟨fun r hr => ?_, fun r hr => ?_, ?_⟩
    · rcases List.mem_cons.mp hr with rfl | hr
      · exact (h.coin_disjoint hd).symm
      · exact Register.disjoint_of_stop_le (h.position_control hd hc hr)
    · exact Register.disjoint_of_stop_le (h.coin_control hc hr)
    · exact (h.control_apart hc).imp Register.disjoint_of_stop_le
  · intro r hr
    rcases List.mem_cons.mp hr with rfl | hr
    · exact h.stop_positionOf hd
    · rcases List.mem_cons.mp hr with rfl | hr
      · exact h.stop_coin
      · exact h.stop_control hc hr

theorem seated : plan.Seated where
  coin := h.isCoin
  coin_pos := h.coin_pos
  controls _ hc := ⟨h.suits hc, fun _ hp => h.plane_ok hc hp, fun _ hd => h.wiring_apart hc hd⟩

omit [Scalar R] h in
theorem mem_planes {p : ℕ × Boundary} (hp : p ∈ plan.planes) :
    ∃ c, plan.controls[p.1]? = some c ∧ p.2 ∈ c.control.boundaries := by
  obtain ⟨⟨c, i⟩, hci, hp⟩ := List.mem_flatMap.mp hp
  obtain ⟨plane, hplane, rfl⟩ := List.mem_map.mp hp
  exact ⟨c, List.mem_zipIdx_iff_getElem?.mp hci, hplane⟩

theorem fits_coin_inverse : Operator.AllFit plan.coin.wires plan.coin.inverseGates :=
  h.isCoin.fits_inverse

theorem eq_reset_of_decoherence {step : ℕ} {op : Operation R}
    (hop : op ∈ (Walk.ofPlan plan).decoherenceAfter step) : ∃ cycle,
      spec.decoherence = some cycle ∧ op = .reset (cycle.targets.map plan.coinRegister.wire) := by
  unfold Walk.decoherenceAfter Walk.ofPlan at hop
  rw [← h.decoherence]
  cases hc : plan.decoherence with
  | none =>
    rw [hc] at hop
    cases hop
  | some cycle =>
    rw [hc] at hop
    simp only at hop
    split_ifs at hop
    · exact ⟨cycle, rfl, List.mem_singleton.mp hop⟩
    · cases hop

theorem target_lt {cycle : Decoherence} (hc : spec.decoherence = some cycle) {t : ℕ}
    (ht : t ∈ cycle.targets) : t < spec.coinWidth := by
  have hcycle := h.cycle
  unfold WalkSpec.checkDecoherence at hcycle
  rw [hc] at hcycle
  simp only at hcycle
  split_ifs at hcycle
  · cases hcycle
  · cases hfind : cycle.targets.find? fun wire => spec.coinWidth ≤ wire with
    | some wire =>
      rw [hfind] at hcycle
      cases hcycle
    | none => simpa using List.find?_eq_none.mp hfind t ht

/-- **What ends a step** are resets of wires of the coin and of the registers of controls. -/
theorem eq_reset_of_resetOps {step : ℕ} {op : Operation R} (hop : op ∈ plan.resetOps step) :
    ∃ targets, op = .reset targets ∧ ∀ q ∈ targets, q ∈ plan.coinRegister.wires ∨
      ∃ c ∈ plan.controls, ∃ r ∈ c.registers, q ∈ r.wires := by
  rcases List.mem_append.mp hop with hop | hop
  · obtain ⟨c, hc, hop⟩ := List.mem_flatMap.mp hop
    exact ⟨_, BoundaryControl.eq_reset_of_resetScript hop,
      fun q hq => .inr ⟨c, hc, Installed.mem_resetTargets hq⟩⟩
  · obtain ⟨cycle, hcycle, rfl⟩ := h.eq_reset_of_decoherence hop
    refine ⟨_, rfl, fun q hq => .inl ?_⟩
    obtain ⟨t, ht, rfl⟩ := List.mem_map.mp hq
    refine Register.wire_mem ?_
    rw [h.coinRegister]
    exact h.target_lt hcycle ht

theorem gates_resetOps {step : ℕ} {op : Operation R} (hop : op ∈ plan.resetOps step) :
    op.gates = [] := by
  obtain ⟨targets, rfl, -⟩ := h.eq_reset_of_resetOps hop
  rfl

end Sound

namespace Seated

variable {plan : Plan R} (h : plan.Seated)
include h

section plane
variable {p : ℕ × Boundary} {c : Installed R} (hc : plan.controls[p.1]? = some c)
  (hplane : p.2 ∈ c.control.boundaries) (hsound : c.control.Sound)
include hc hplane hsound

theorem within_planeOps_of_sound : ∀ op ∈ plan.planeOps p, op.Within plan.layout.width := by
  have hseats := h.controls c (List.mem_of_getElem? hc)
  obtain ⟨hd, hpat⟩ := hseats.planes p.2 hplane
  unfold planeOps
  rw [hc]
  exact BoundaryControl.within_blockOps hsound (hseats.suits p.2) (hseats.apart p.2 hd) hpat
    h.coin.plain.wires h.coin.fits_inverse h.coin_pos

/-- The block of a plane of a sound control is built. -/
theorem block_eq_ok_of_sound :
    c.control.block p.2 plan.coin (plan.wiring c p.2) = .ok (plan.planeOps p) := by
  have hseats := h.controls c (List.mem_of_getElem? hc)
  obtain ⟨hd, hpat⟩ := hseats.planes p.2 hplane
  unfold planeOps
  rw [hc]
  exact BoundaryControl.block_eq_ok hsound (hseats.suits p.2) hpat h.coin.plain.wires h.coin_pos

end plane

variable (hg : plan.Guarded)
include hg

theorem within_planeOps {p : ℕ × Boundary} (hp : p ∈ plan.planes) :
    ∀ op ∈ plan.planeOps p, op.Within plan.layout.width := by
  obtain ⟨c, hc, hplane⟩ := Sound.mem_planes hp
  exact h.within_planeOps_of_sound hc hplane
    (hg c (List.mem_of_getElem? hc) (List.ne_nil_of_mem hplane))

theorem within_boundaryOps {op : Operation R} (hop : op ∈ plan.boundaryOps) :
    op.Within plan.layout.width := by
  rcases List.mem_append.mp hop with hop | hop
  · obtain ⟨p, hp, hop⟩ := List.mem_flatMap.mp hop
    exact h.within_planeOps hg hp op hop
  · rw [List.mem_singleton.mp hop]
    exact Operation.within_barrier _

end Seated

end Plan

namespace Walk

variable {w : Walk R} {spec : WalkSpec R}

/-! ### The phases -/

theorem outcome_onProgram_append {op : Operator R} {wires : List ℕ} (hlen : wires.length = op.wires)
    (hlt : ∀ q ∈ wires, q < w.program.width) :
    (onProgram (Circuit.append op wires)).outcome w = (.ok (), w.push [op.bound wires]) := by
  simp only [onProgram, Attempt.within, Attempt.outcome_of,
    Circuit.outcome_append (Operator.bind_eq_ok hlen) hlt]
  rfl

omit [Scalar R] in
theorem outcome_onProgram_addBarrier (w : Walk R) :
    (onProgram Circuit.addBarrier).outcome w = (.ok (), w.push [.barrier]) := rfl

theorem Ready.control_lt (h : w.Ready spec) {c : Installed R} (hc : c ∈ w.plan.controls)
    {r : Register} (hr : r ∈ c.registers) {q : ℕ} (hq : q ∈ r.wires) : q < w.program.width := by
  rw [h.width]
  exact (Register.mem_wires.mp hq).2.trans_le (h.plan.stop_control hc hr)

theorem Ready.coin_lt (h : w.Ready spec) {q : ℕ} (hq : q ∈ w.plan.coinRegister.wires) :
    q < w.program.width := by
  rw [h.width]
  exact (Register.mem_wires.mp hq).2.trans_le h.plan.stop_coin

theorem outcome_addControlCoin (h : w.Ready spec) {c : Installed R} (hc : c ∈ w.plan.controls) :
    (addControlCoin c).outcome w = (.ok (), w.push c.coinOps) := by
  unfold addControlCoin Installed.coinOps
  cases hop : c.control.coinOperator? with
  | none => simp
  | some op =>
    cases hr : c.register with
    | none => simp
    | some r =>
      have hwidth := ((h.plan.wired c hc).width_register hr).1
      have hlen : r.wires.length = op.wires := by
        rw [Register.length_wires, hwidth, BoundaryControl.controlWidth,
          BoundaryControl.coinOperator?_eq_some hop]
        rfl
      exact outcome_onProgram_append hlen fun q hq =>
        h.control_lt hc (by simp [Installed.registers, hr]) hq

theorem outcome_addControlCoins : ∀ {cs : List (Installed R)} {w : Walk R}, w.Ready spec →
    (∀ c ∈ cs, c ∈ w.plan.controls) →
    (addControlCoins cs).outcome w = (.ok (), w.push (cs.flatMap Installed.coinOps))
  | [], w, _, _ => by simp [addControlCoins]
  | c :: cs, w, h, hcs => by
    rw [addControlCoins, Attempt.outcome_bind_of_ok (outcome_addControlCoin h (hcs c (by simp))),
      outcome_addControlCoins (h.push _) fun c' hc' => hcs c' (by simp [hc'])]
    simp

theorem outcome_addCoins (h : w.Ready spec) (hphase : w.phase = .idle) :
    addCoins.outcome w = (.ok (), { w.push w.plan.coinOps with phase := .coined }) := by
  set w1 : Walk R := { w with phase := .coined } with hw1
  have h1 : w1.Ready spec := ⟨h.plan, h.layout⟩
  have hadvance : (advance .idle .coined).outcome w = (.ok (), w1) := by
    simp only [advance, Attempt.outcome_of, hphase, if_true, hw1]
  have hcoin : (onProgram (Circuit.append w1.plan.coin w1.plan.coinRegister.wires)).outcome w1 =
      (.ok (), w1.push [w1.plan.coin.bound w1.plan.coinRegister.wires]) :=
    outcome_onProgram_append (by rw [Register.length_wires, h.plan.isCoin.plain.wires])
      fun q hq => h1.coin_lt hq
  set w2 := w1.push [w1.plan.coin.bound w1.plan.coinRegister.wires] with hw2
  have hcontrols : (addControlCoins w1.plan.controls).outcome w2 =
      (.ok (), w2.push (w1.plan.controls.flatMap Installed.coinOps)) :=
    outcome_addControlCoins (h1.push _) fun c hc => hc
  rw [addCoins, Attempt.outcome_bind_of_ok hadvance,
    Attempt.outcome_bind_of_ok (Attempt.outcome_get w1), Attempt.outcome_bind_of_ok hcoin,
    Attempt.outcome_bind_of_ok hcontrols, outcome_onProgram_addBarrier]
  simp [hw1, hw2, push, Plan.coinOps]

section seated
variable (hs : w.plan.Seated) (hl : w.program.layout = w.plan.layout)
include hs hl

theorem outcome_applyBoundary_of_sound {p : ℕ × Boundary} {c : Installed R}
    (hc : w.plan.controls[p.1]? = some c) (hplane : p.2 ∈ c.control.boundaries)
    (hsound : c.control.Sound) :
    (applyBoundary p.1 p.2).outcome w = (.ok (), w.push (w.plan.planeOps p)) := by
  have hblock : w.blockOf p.1 p.2 = .ok (w.plan.planeOps p) := by
    obtain ⟨hd, -⟩ := (hs.controls c (List.mem_of_getElem? hc)).planes p.2 hplane
    simp only [blockOf, hc]
    exact Except.bind_eq_ok.mpr ⟨_, position_eq_ok hd, hs.block_eq_ok_of_sound hc hplane hsound⟩
  have hcheck : (Attempt.check (w.blockOf p.1 p.2)).outcome w = (.ok (w.plan.planeOps p), w) := by
    rw [Attempt.outcome_check, hblock]
  rw [applyBoundary, Attempt.outcome_bind_of_ok (Attempt.outcome_get w),
    Attempt.outcome_bind_of_ok hcheck]
  refine outcome_onProgram_addAll fun op hop => ?_
  rw [Circuit.width, hl]
  exact (hs.within_planeOps_of_sound hc hplane hsound op hop).wires

omit hs hl in
theorem outcome_applyPlanes : ∀ {ps : List (ℕ × Boundary)} {w : Walk R}, w.plan.Seated →
    w.program.layout = w.plan.layout → w.plan.Guarded → (∀ p ∈ ps, p ∈ w.plan.planes) →
    (applyPlanes ps).outcome w = (.ok (), w.push (ps.flatMap w.plan.planeOps))
  | [], w, _, _, _, _ => by simp [applyPlanes]
  | p :: ps, w, hs, hl, hg, hps => by
    obtain ⟨c, hc, hplane⟩ := Plan.Sound.mem_planes (hps p (by simp))
    have hfirst := outcome_applyBoundary_of_sound hs hl hc hplane
      (hg c (List.mem_of_getElem? hc) (List.ne_nil_of_mem hplane))
    have hrest : (applyPlanes ps).outcome (w.push (w.plan.planeOps p)) = _ :=
      outcome_applyPlanes hs hl hg fun p' hp' => hps p' (by simp [hp'])
    rw [applyPlanes, Attempt.outcome_bind_of_ok hfirst, hrest]
    simp

/-- **The boundary phase succeeds if the controls with planes are sound**, and adds the blocks. -/
theorem outcome_applyBoundaries_of_seated (hg : w.plan.Guarded) (hphase : w.phase = .coined) :
    applyBoundaries.outcome w = (.ok (), { w.push w.plan.boundaryOps with phase := .bounded }) := by
  set w1 : Walk R := { w with phase := .bounded } with hw1
  have hadvance : (advance .coined .bounded).outcome w = (.ok (), w1) := by
    simp only [advance, Attempt.outcome_of, hphase, if_true, hw1]
  have hplanes : (applyPlanes w1.planes).outcome w1 =
      (.ok (), w1.push (w1.planes.flatMap w1.plan.planeOps)) :=
    outcome_applyPlanes hs hl hg fun p hp => hp
  rw [applyBoundaries, Attempt.outcome_bind_of_ok hadvance,
    Attempt.outcome_bind_of_ok (Attempt.outcome_get w1), Attempt.outcome_bind_of_ok hplanes,
    outcome_onProgram_addBarrier]
  simp [hw1, push, Plan.boundaryOps, Plan.planes, Walk.planes, ofPlan]

end seated

section guarded
variable (h : w.Ready spec) (hg : w.plan.Guarded)
include h hg

theorem outcome_applyBoundaries (hphase : w.phase = .coined) :
    applyBoundaries.outcome w = (.ok (), { w.push w.plan.boundaryOps with phase := .bounded }) :=
  outcome_applyBoundaries_of_seated h.plan.seated h.layout hg hphase

omit hg in
theorem resetOps_lt (step : ℕ) : ∀ op ∈ w.plan.resetOps step, ∀ q ∈ op.wires,
    q < w.program.width := by
  intro op hop q hq
  obtain ⟨targets, rfl, htargets⟩ := h.plan.eq_reset_of_resetOps hop
  rcases htargets q hq with hcoin | ⟨c, hc, r, hr, hcontrol⟩
  · exact h.coin_lt hcoin
  · exact h.control_lt hc hr hcontrol

omit hg in
theorem outcome_resetBoundaries (hphase : w.phase = .shifted) :
    resetBoundaries.outcome w = (.ok (), { w.push w.resetScript with phase := .idle }) := by
  set w1 : Walk R := { w with phase := .reset } with hw1
  have hadvance : (advance .shifted .reset).outcome w = (.ok (), w1) := by
    simp only [advance, Attempt.outcome_of, hphase, if_true, hw1]
  have hscript : (onProgram (Circuit.addAll w1.resetScript)).outcome w1 =
      (.ok (), w1.push w1.resetScript) := by
    refine outcome_onProgram_addAll fun op hop => ?_
    exact resetOps_lt h 0 op (List.mem_append_left _ hop)
  rw [resetBoundaries, Attempt.outcome_bind_of_ok hadvance,
    Attempt.outcome_bind_of_ok (Attempt.outcome_get w1), Attempt.outcome_bind_of_ok hscript]
  rfl

/-! ### Whole steps -/

/-- **A step never fails**, and adds the operations that the plan gives. -/
theorem outcome_guarded_step (hphase : w.phase = .idle) : step.outcome w = (.ok (),
    { w.push (w.plan.stepOps (w.steps + 1)) with steps := w.steps + 1, results := none }) := by
  have hcoins := outcome_addCoins h hphase
  set w1 : Walk R := { w.push w.plan.coinOps with phase := .coined } with hw1
  have h1 : w1.Ready spec := ⟨h.plan, h.layout⟩
  have hbounds := outcome_applyBoundaries h1 hg rfl
  set w2 : Walk R := { w1.push w1.plan.boundaryOps with phase := .bounded } with hw2
  have h2 : w2.Ready spec := ⟨h.plan, h.layout⟩
  have hshifts := outcome_addShifts h2 rfl
  set w3 : Walk R := { w2.push w2.plan.moveOps with phase := .shifted } with hw3
  have h3 : w3.Ready spec := ⟨h.plan, h.layout⟩
  have hresets := outcome_resetBoundaries h3 rfl
  set w4 : Walk R := { w3.push w3.resetScript with phase := .idle } with hw4
  set w5 : Walk R := { w4 with steps := w4.steps + 1 } with hw5
  have h5 : w5.Ready spec := ⟨h.plan, h.layout⟩
  have hcount : (modify fun w : Walk R => { w with steps := w.steps + 1 } :
      Attempt (Walk R) Unit).outcome w4 = (.ok (), w5) := rfl
  have hdecohere : (onProgram (Circuit.addAll (w5.decoherenceAfter w5.steps))).outcome w5 =
      (.ok (), w5.push (w5.decoherenceAfter w5.steps)) := by
    refine outcome_onProgram_addAll fun op hop => ?_
    exact resetOps_lt h5 w5.steps op (List.mem_append_right _ hop)
  rw [step, Attempt.outcome_bind_of_ok hcoins, Attempt.outcome_bind_of_ok hbounds,
    Attempt.outcome_bind_of_ok hshifts, Attempt.outcome_bind_of_ok hresets,
    Attempt.outcome_bind_of_ok hcount, Attempt.outcome_bind_of_ok (Attempt.outcome_get w5),
    Attempt.outcome_bind_of_ok hdecohere, Attempt.outcome_modify]
  simp only [hw1, hw2, hw3, hw4, hw5, push, Plan.stepOps, Plan.resetOps, List.append_assoc,
    hphase]
  rfl

end guarded

theorem outcome_step (h : w.Ready spec) (hg : ∀ c ∈ w.plan.controls, c.control.Sound)
    (hphase : w.phase = .idle) : step.outcome w = (.ok (),
    { w.push (w.plan.stepOps (w.steps + 1)) with steps := w.steps + 1, results := none }) :=
  outcome_guarded_step h (.of_sound hg) hphase

/-- **Steps never fail**, and add the operations that the plan gives. -/
theorem outcome_addSteps : ∀ {n : ℕ} {w : Walk R}, w.Ready spec → w.plan.Guarded →
    w.phase = .idle →
    ∃ w', (addSteps n).outcome w = (.ok (), w') ∧ w'.plan = w.plan ∧
      w'.program = (w.push (w.plan.stepsFrom w.steps n)).program ∧ w'.phase = .idle ∧
      w'.steps = w.steps + n
  | 0, w, _, _, hphase => ⟨w, rfl, rfl, by rw [Plan.stepsFrom, push_nil], hphase, rfl⟩
  | n + 1, w, h, hg, hphase => by
    set w1 : Walk R := { w.push (w.plan.stepOps (w.steps + 1)) with
      steps := w.steps + 1, results := none } with hw1
    obtain ⟨w', hrun, hplan, hprogram, hphase', hsteps⟩ := outcome_addSteps (n := n) (w := w1)
      ⟨h.plan, h.layout⟩ hg hphase
    refine ⟨w', ?_, hplan, ?_, hphase', ?_⟩
    · rw [addSteps, Attempt.outcome_bind_of_ok (outcome_guarded_step h hg hphase)]
      exact hrun
    · rw [hprogram]
      simp [hw1, push, Plan.stepsFrom]
    · rw [hsteps]
      simp only [hw1]
      omega

/-! ### Steps that fail -/

omit [Scalar R] in
theorem position_of_eq_ok {w : Walk R} {d : ℕ} {r : Register} (h : w.position d = .ok r) :
    d < w.plan.positions.length ∧ r = w.plan.positionOf d := by
  unfold position at h
  cases hr : w.plan.positions[d]? with
  | none => simp [hr, refuse] at h
  | some r' =>
    rw [hr] at h
    obtain rfl := Except.ok.inj h
    exact Plan.eq_positionOf hr

theorem blockOf_eq_ok {w : Walk R} {i : ℕ} {plane : Boundary} {ops : List (Operation R)}
    (h : w.blockOf i plane = .ok ops) : ∃ c,
      w.plan.controls[i]? = some c ∧ plane.dimension < w.plan.positions.length ∧
      c.control.block plane w.plan.coin (w.plan.wiring c plane) = .ok ops := by
  unfold blockOf at h
  cases hc : w.plan.controls[i]? with
  | none => simp [hc, refuse] at h
  | some c =>
    rw [hc] at h
    obtain ⟨r, hr, hblock⟩ := Except.bind_eq_ok.mp h
    obtain ⟨hd, rfl⟩ := position_of_eq_ok hr
    exact ⟨c, rfl, hd, hblock⟩

theorem applyBoundary_eq_ok {i : ℕ} {plane : Boundary} {w w' : Walk R} {u : Unit}
    (h : (applyBoundary i plane).outcome w = (.ok u, w')) :
    (∃ ops, w.blockOf i plane = .ok ops) ∧ w'.plan = w.plan := by
  obtain ⟨_, _, hget, h⟩ := Attempt.outcome_bind_eq_ok h
  cases hget
  obtain ⟨ops, w1, hcheck, h⟩ := Attempt.outcome_bind_eq_ok h
  rw [Attempt.outcome_check] at hcheck
  obtain ⟨hblock, rfl⟩ := Prod.mk.inj hcheck
  exact ⟨⟨ops, hblock⟩, congrArg (fun r => r.2.plan) h.symm⟩

theorem applyPlanes_eq_ok : ∀ {ps : List (ℕ × Boundary)} {w w' : Walk R} {u : Unit},
    (applyPlanes ps).outcome w = (.ok u, w') → ∀ p ∈ ps, ∃ ops, w.blockOf p.1 p.2 = .ok ops
  | [], _, _, _, _ => by simp
  | p :: ps, w, w', u, h => by
    obtain ⟨_, w1, hfirst, h⟩ := Attempt.outcome_bind_eq_ok h
    obtain ⟨hblock, hplan⟩ := applyBoundary_eq_ok hfirst
    have hsame : ∀ i plane, w1.blockOf i plane = w.blockOf i plane := fun i plane => by
      simp only [blockOf, position, hplan]
    refine List.forall_mem_cons.mpr ⟨hblock, fun p' hp' => ?_⟩
    rw [← hsame]
    exact applyPlanes_eq_ok h p' hp'

omit [Scalar R] in
theorem mem_planes_of_control {plan : Plan R} {j : ℕ} {c : Installed R}
    (hj : plan.controls[j]? = some c) {plane : Boundary} (hplane : plane ∈ c.control.boundaries) :
    (j, plane) ∈ plan.planes :=
  List.mem_flatMap.mpr ⟨(c, j), List.mem_zipIdx_iff_getElem?.mpr hj, List.mem_map_of_mem hplane⟩

/-- If the blocks of all planes are built, then a control with planes has one of them. -/
theorem exists_block {w : Walk R} (h : ∀ p ∈ w.plan.planes, ∃ ops, w.blockOf p.1 p.2 = .ok ops)
    {c : Installed R} (hc : c ∈ w.plan.controls) (hne : c.control.boundaries ≠ []) :
    ∃ plane ∈ c.control.boundaries, ∃ ops,
      c.control.block plane w.plan.coin (w.plan.wiring c plane) = .ok ops := by
  obtain ⟨plane, hplane⟩ := List.exists_mem_of_ne_nil _ hne
  obtain ⟨j, hj⟩ := List.mem_iff_getElem?.mp hc
  obtain ⟨ops, hops⟩ := h _ (mem_planes_of_control hj hplane)
  obtain ⟨c', hj', -, hblock⟩ := blockOf_eq_ok hops
  obtain rfl := Option.some.inj (hj.symm.trans hj')
  exact ⟨plane, hplane, ops, hblock⟩

theorem blocks_of_applyBoundaries {w w' : Walk R} {u : Unit}
    (h : applyBoundaries.outcome w = (.ok u, w')) :
    w.phase = .coined ∧ ∀ p ∈ w.plan.planes, ∃ ops, w.blockOf p.1 p.2 = .ok ops := by
  obtain ⟨_, w1, hadvance, h⟩ := Attempt.outcome_bind_eq_ok h
  simp only [advance, Attempt.outcome_of] at hadvance
  split_ifs at hadvance with hphase
  · cases hadvance
    obtain ⟨_, w2, hget, h⟩ := Attempt.outcome_bind_eq_ok h
    cases hget
    obtain ⟨_, w3, hplanes, -⟩ := Attempt.outcome_bind_eq_ok h
    exact ⟨hphase, fun p hp => applyPlanes_eq_ok hplanes p hp⟩
  · cases hadvance

theorem blocks_of_step {w w' : Walk R} {spec : WalkSpec R} (h : w.Ready spec)
    (hphase : w.phase = .idle) {u : Unit} (hstep : step.outcome w = (.ok u, w')) :
    ∀ p ∈ w.plan.planes, ∃ ops, w.blockOf p.1 p.2 = .ok ops := by
  obtain ⟨_, w1, hcoins, hstep⟩ := Attempt.outcome_bind_eq_ok hstep
  rw [outcome_addCoins h hphase] at hcoins
  cases hcoins
  obtain ⟨_, w2, hbounds, -⟩ := Attempt.outcome_bind_eq_ok hstep
  exact (blocks_of_applyBoundaries hbounds).2

/-- **A step fails unless the controls with planes are sound.** -/
theorem guarded_of_step {w w' : Walk R} {spec : WalkSpec R} (h : w.Ready spec)
    (hstates : ∀ c ∈ w.plan.controls, IsPattern c.control.state c.control.controlWidth)
    (hphase : w.phase = .idle) {u : Unit} (hstep : step.outcome w = (.ok u, w')) :
    w.plan.Guarded := by
  intro c hc hne
  obtain ⟨plane, -, ops, hblock⟩ := exists_block (blocks_of_step h hphase hstep) hc hne
  -- so the control has the register of its operator
  obtain ⟨_, hwires, -⟩ := Except.bind_eq_ok.mp hblock
  exact ⟨hstates c hc, BoundaryControl.pos_of_controlWires (h.plan.suits hc plane) hwires⟩

end Walk

end LatticeWalk
