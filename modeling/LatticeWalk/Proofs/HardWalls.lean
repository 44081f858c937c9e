import LatticeWalk.Proofs.Preparation

/-! # Hard walls

A walker that starts between two hard walls of a dimension never leaves the space between them
(`Walk.hardWalls_confine`). Whether it stands on a wall is tied to its coin:

* `Plan.Confined`: at the start of a step, a walker on a wall has the move that led onto it.
* `Plan.Inward`: before the shift, a walker on a wall has the move that leads away from it.

The coin and the blocks of the planes lead from the first to the second, the shift from the second
to the first. No walker touches two planes, since its coin would hold two moves. -/

namespace LatticeWalk

open Operation (gatesOf)

/-- The values at which the controls place planes in a dimension, each as often as it is listed. -/
def WalkSpec.planesOf {R : Type} (spec : WalkSpec R) (d : ℕ) : List ℕ :=
  ((spec.controls.flatMap BoundaryControl.boundaries).filter fun p => p.dimension == d).map
    fun p => Pattern.value p.pattern

/-- **A walk between hard walls.** There are two planes in each dimension of `D`, and no others, and
the walker starts between them. -/
structure WalkSpec.Walled {R : Type} (spec : WalkSpec R) (D : Set ℕ) (lower upper : ℕ → ℕ) :
    Prop where
  hard : ∀ c ∈ spec.controls, c.permeability = .hard
  sound : ∀ c ∈ spec.controls, c.Sound
  calm : spec.decoherence = none
  planes : ∀ d ∈ D, (spec.planesOf d).Perm [lower d, upper d]
  bare : ∀ d ∉ D, spec.planesOf d = []
  between : ∀ d ∈ D, lower d < spec.startOf d ∧ spec.startOf d < upper d

namespace WalkSpec.Walled

variable {R : Type} {spec : WalkSpec R} {D : Set ℕ} {lower upper : ℕ → ℕ}
  (h : spec.Walled D lower upper)
include h

theorem lower_lt_upper {d : ℕ} (hd : d ∈ D) : lower d < upper d :=
  (h.between d hd).1.trans (h.between d hd).2

theorem nodup_planesOf (d : ℕ) : (spec.planesOf d).Nodup := by
  by_cases hd : d ∈ D
  · rw [(h.planes d hd).nodup_iff]
    simpa using (h.lower_lt_upper hd).ne
  · rw [h.bare d hd]
    exact List.nodup_nil

theorem mem_planesOf {d v : ℕ} (hd : d ∈ D) : v ∈ spec.planesOf d ↔ v = lower d ∨ v = upper d := by
  rw [(h.planes d hd).mem_iff]
  simp

theorem pairwise_planes : (spec.controls.flatMap BoundaryControl.boundaries).Pairwise fun p p' =>
    ¬ (p.dimension = p'.dimension ∧ Pattern.value p.pattern = Pattern.value p'.pattern) := by
  rw [List.pairwise_iff_forall_sublist]
  rintro p p' hsub ⟨hdim, hvalue⟩
  have hfilter := (hsub.filter fun q : Boundary => q.dimension == p.dimension).map
    fun q : Boundary => Pattern.value q.pattern
  simp only [List.filter_cons, hdim, beq_self_eq_true, if_true, List.filter_nil, List.map_cons,
    List.map_nil, hvalue] at hfilter
  have hnd := (h.nodup_planesOf p'.dimension).sublist hfilter
  simp at hnd

end WalkSpec.Walled

/-! ### The blocks of hard planes -/

namespace Plan

variable {R : Type} [Scalar R]

/-- The gates of the blocks of hard planes. -/
def turnGates (plan : Plan R) : List (Gate R) := plan.planes.flatMap fun p =>
  (BoundaryControl.turnBack plan.coin plan.coinRegister).map (Gate.under (plan.askPlane p.2))

namespace Sound

variable {plan : Plan R} {spec : WalkSpec R} (h : plan.Sound spec)
include h

theorem target_turnGates {g : Gate R} (hg : g ∈ plan.turnGates) :
    g.target ∈ plan.coinRegister.wires := by
  obtain ⟨p, -, hg⟩ := List.mem_flatMap.mp hg
  obtain ⟨g', hg', rfl⟩ := List.mem_map.mp hg
  exact (h.target_turnBack hg' : g'.target ∈ _)

variable (hhard : ∀ c ∈ plan.controls, c.control.permeability = .hard)
include hhard

theorem gatesOf_planeOps_hard (hg : ∀ c ∈ plan.controls, c.control.Sound) {p : ℕ × Boundary}
    (hp : p ∈ plan.planes) : gatesOf (plan.planeOps p) =
      (BoundaryControl.turnBack plan.coin plan.coinRegister).map
        (Gate.under (plan.askPlane p.2)) := by
  obtain ⟨c, hc, hplane⟩ := mem_planes hp
  have hmem := List.mem_of_getElem? hc
  obtain ⟨hd, hpat⟩ := h.plane_ok hmem hplane
  have hlen := (h.suits hmem p.2).length_controlWires
  have hstate : IsPattern c.control.state (plan.wiring c p.2).controlWires.length :=
    hlen ▸ (hg c hmem).state
  have hnil : (plan.wiring c p.2).controlWires = [] := by
    rw [← List.length_eq_zero_iff, hlen, BoundaryControl.controlWidth, hhard c hmem]
    rfl
  have hops : plan.planeOps p = c.control.reflectionOps p.2 plan.coin (plan.wiring c p.2)
      (plan.wiring c p.2).controlWires (p.2.label.or c.control.label) := by
    simp only [planeOps, hc, BoundaryControl.blockOps, hhard c hmem]
  rw [hops, BoundaryControl.gatesOf_reflectionOps hpat hstate, hnil]
  rfl

theorem gatesOf_boundaryOps_hard (hg : ∀ c ∈ plan.controls, c.control.Sound) :
    gatesOf plan.boundaryOps = plan.turnGates := by
  rw [boundaryOps, Operation.gatesOf_append, Operation.gatesOf_flatMap]
  refine (List.append_nil _).trans (List.flatMap_congr fun p hp => ?_)
  exact h.gatesOf_planeOps_hard hhard hg hp

end Sound

end Plan

/-! ### On a wall -/

namespace Plan

/-- The walker is between the walls, and on a wall its coin has the given value. -/
structure Between {R : Type} (plan : Plan R) (D : Set ℕ) (lower upper onLower onUpper : ℕ → ℕ)
    (b : ℕ → Bool) : Prop where
  above : ∀ d ∈ D, lower d ≤ (plan.positionOf d).read b
  below : ∀ d ∈ D, (plan.positionOf d).read b ≤ upper d
  atLower : ∀ d ∈ D, (plan.positionOf d).read b = lower d → plan.coinRegister.read b = onLower d
  atUpper : ∀ d ∈ D, (plan.positionOf d).read b = upper d → plan.coinRegister.read b = onUpper d

/-- **Between steps**, a walker on a wall has the move that led onto it. -/
def Confined {R : Type} (plan : Plan R) (D : Set ℕ) (lower upper : ℕ → ℕ) : (ℕ → Bool) → Prop :=
  plan.Between D lower upper (plan.half + ·) id

/-- **Before the shift**, a walker on a wall has the move that leads away from it. -/
def Inward {R : Type} (plan : Plan R) (D : Set ℕ) (lower upper : ℕ → ℕ) : (ℕ → Bool) → Prop :=
  plan.Between D lower upper id (plan.half + ·)

end Plan

theorem countP_le_one {α : Type} {p : α → Bool} : ∀ {l : List α},
    l.Pairwise (fun a b => ¬ (p a = true ∧ p b = true)) → l.countP p ≤ 1
  | [], _ => by simp
  | a :: l, h => by
    obtain ⟨ha, hl⟩ := List.pairwise_cons.mp h
    by_cases hp : p a = true
    · have hnone : l.countP p = 0 := List.countP_eq_zero.mpr fun b hb hpb => ha b hb ⟨hp, hpb⟩
      rw [List.countP_cons_of_pos hp, hnone]
    · rw [List.countP_cons_of_neg hp]
      exact countP_le_one hl

namespace Plan.Sound

variable {R : Type} [Scalar R] {plan : Plan R} {spec : WalkSpec R} (h : plan.Sound spec)
  {D : Set ℕ} {lower upper : ℕ → ℕ} (hwall : spec.Walled D lower upper)
include h hwall

/-- A plane is the lower or the upper one of its dimension. -/
theorem value_of_mem_planes {p : ℕ × Boundary} (hp : p ∈ plan.planes) : p.2.dimension ∈ D ∧
    (Pattern.value p.2.pattern = lower p.2.dimension ∨
      Pattern.value p.2.pattern = upper p.2.dimension) := by
  have hmem : Pattern.value p.2.pattern ∈ spec.planesOf p.2.dimension :=
    List.mem_map_of_mem (List.mem_filter.mpr ⟨h.mem_boundaries hp, beq_self_eq_true _⟩)
  have hD : p.2.dimension ∈ D := by
    by_contra hD
    rw [hwall.bare _ hD] at hmem
    cases hmem
  exact ⟨hD, (hwall.mem_planesOf hD).mp hmem⟩

theorem exists_plane {d v : ℕ} (hd : d ∈ D) (hv : v = lower d ∨ v = upper d) :
    ∃ p ∈ plan.planes, p.2.dimension = d ∧ Pattern.value p.2.pattern = v := by
  obtain ⟨q, hq, rfl⟩ := List.mem_map.mp ((hwall.mem_planesOf hd).mpr hv)
  obtain ⟨hq, hdim⟩ := List.mem_filter.mp hq
  rw [← h.controls, ← plan.map_planes] at hq
  obtain ⟨p, hp, rfl⟩ := List.mem_map.mp hq
  exact ⟨p, hp, by simpa using hdim, rfl⟩

theorem lt_of_mem {d : ℕ} (hd : d ∈ D) : d < plan.positions.length := by
  obtain ⟨p, hp, rfl, -⟩ := h.exists_plane hwall hd (.inl rfl)
  obtain ⟨c, hc, hplane⟩ := mem_planes hp
  exact (h.plane_ok (List.mem_of_getElem? hc) hplane).1

theorem upper_lt {d : ℕ} (hd : d ∈ D) : upper d < 2 ^ (plan.positionOf d).width := by
  obtain ⟨p, hp, rfl, hv⟩ := h.exists_plane hwall hd (.inr rfl)
  obtain ⟨c, hc, hplane⟩ := mem_planes hp
  rw [← hv]
  exact Pattern.value_lt_of (h.plane_ok (List.mem_of_getElem? hc) hplane).2

/-- **No walker touches two planes**: its coin would hold two moves. -/
theorem countP_onPlane {b : ℕ → Bool} (hb : plan.Confined D lower upper b) :
    plan.planes.countP (fun p => Met (plan.askPlane p.2) b) ≤ 1 := by
  refine countP_le_one ?_
  have hpair := hwall.pairwise_planes
  rw [← h.controls, ← plan.map_planes, List.pairwise_map] at hpair
  refine hpair.imp_of_mem fun {p p'} hp hp' hne => ?_
  simp only [decide_eq_true_eq, h.met_askPlane hp, h.met_askPlane hp', OnPlane]
  rintro ⟨hx, hx'⟩
  have hhalf := h.length_le_half
  have hmoves : ∀ q ∈ plan.planes, (plan.positionOf q.2.dimension).read b =
      Pattern.value q.2.pattern → q.2.dimension < plan.half ∧
        (plan.coinRegister.read b = plan.half + q.2.dimension ∨
          plan.coinRegister.read b = q.2.dimension) := by
    intro q hq hxq
    obtain ⟨hD, hv⟩ := h.value_of_mem_planes hwall hq
    refine ⟨(h.lt_of_mem hwall hD).trans_le hhalf, hv.imp (fun hv => ?_) fun hv => ?_⟩
    · exact hb.atLower _ hD (hxq.trans hv)
    · exact hb.atUpper _ hD (hxq.trans hv)
  obtain ⟨hlt, hc⟩ := hmoves p hp hx
  obtain ⟨hlt', hc'⟩ := hmoves p' hp' hx'
  have hdim : p.2.dimension = p'.2.dimension := by omega
  exact hne ⟨hdim, by rw [← hx, ← hx', hdim]⟩

end Plan.Sound

/-! ### One step -/

namespace Plan.Sound

/-- Each plane on which the walker stands turns it round once. -/
theorem actAll_turnGates {plan : Plan ℝ} {spec : WalkSpec ℝ} (h : plan.Sound spec) (ψ : Wave ℝ)
    (b : ℕ → Bool) : Gate.actAll plan.turnGates ψ b =
      (Gate.actAll (BoundaryControl.turnBack plan.coin plan.coinRegister))^[
        plan.planes.countP fun p => Met (plan.askPlane p.2) b] ψ b := by
  have hask : ∀ p ∈ plan.planes, ∀ g ∈ BoundaryControl.turnBack plan.coin plan.coinRegister,
      ∀ e ∈ plan.askPlane p.2, e.wire ≠ g.target := by
    intro p hp g hg e he
    obtain ⟨c, hc, hplane⟩ := mem_planes hp
    have hd := (h.plane_ok (List.mem_of_getElem? hc) hplane).1
    exact ne_of_mem_of_not_mem (Operator.wire_mem_of_controlsOn he)
      fun hq => h.coin_disjoint hd (h.target_turnBack hg) hq
  rw [turnGates, Gate.actAll_blocks (fun p : ℕ × Boundary => plan.askPlane p.2) hask]

/-- The amplitudes after the blocks come from walkers in the same place. -/
theorem exists_before {plan : Plan ℝ} {spec : WalkSpec ℝ} (h : plan.Sound spec) {ψ : Wave ℝ}
    {b : ℕ → Bool} (hb : Gate.actAll plan.turnGates (Gate.actAll plan.coinGates ψ) b ≠ 0) :
    ∃ e, AgreeOff plan.coinRegister.wires b e ∧ ψ e ≠ 0 := by
  rw [← Gate.actAll_append] at hb
  refine Gate.exists_of_actAll_ne_zero (fun g hg => ?_) hb
  rcases List.mem_append.mp hg with hg | hg
  · exact h.target_coinGates hg
  · exact h.target_turnGates hg

variable {plan : Plan ℝ} {spec : WalkSpec ℝ} (h : plan.Sound spec) {D : Set ℕ}
  {lower upper : ℕ → ℕ} (hwall : spec.Walled D lower upper)
include h hwall

theorem read_of_agreeOff {b c : ℕ → Bool} (hbc : AgreeOff plan.coinRegister.wires b c) {d : ℕ}
    (hd : d ∈ D) : (plan.positionOf d).read c = (plan.positionOf d).read b :=
  hbc.read (h.coin_disjoint (h.lt_of_mem hwall hd))

theorem countP_of_agreeOff {b e : ℕ → Bool} (hbe : AgreeOff plan.coinRegister.wires b e) :
    plan.planes.countP (fun p => Met (plan.askPlane p.2) b) =
      plan.planes.countP fun p => Met (plan.askPlane p.2) e := by
  refine List.countP_congr fun p hp => ?_
  have hD := (h.value_of_mem_planes hwall hp).1
  simp only [decide_eq_true_eq, h.met_askPlane hp, OnPlane, h.read_of_agreeOff hwall hbe hD]

theorem inward_of_untouched {b e : ℕ → Bool} (hbe : AgreeOff plan.coinRegister.wires b e)
    (he : plan.Confined D lower upper e)
    (hzero : plan.planes.countP (fun p => Met (plan.askPlane p.2) b) = 0) :
    plan.Inward D lower upper b := by
  have hsame : ∀ d ∈ D, (plan.positionOf d).read e = (plan.positionOf d).read b :=
    fun d hd => h.read_of_agreeOff hwall hbe hd
  have hnot : ∀ d ∈ D, ∀ v, v = lower d ∨ v = upper d → (plan.positionOf d).read b ≠ v := by
    intro d hd v hv hx
    obtain ⟨p, hp, rfl, rfl⟩ := h.exists_plane hwall hd hv
    have hunmet := List.countP_eq_zero.mp hzero p hp
    simp only [decide_eq_true_eq, h.met_askPlane hp, OnPlane] at hunmet
    exact hunmet hx
  exact ⟨fun d hd => hsame d hd ▸ he.above d hd, fun d hd => hsame d hd ▸ he.below d hd,
    fun d hd hx => absurd hx (hnot d hd _ (.inl rfl)),
    fun d hd hx => absurd hx (hnot d hd _ (.inr rfl))⟩

/-- **Turning round exchanges the two conditions.** -/
theorem inward_of_turned {b : ℕ → Bool} (hb : plan.Confined D lower upper (plan.turned b)) :
    plan.Inward D lower upper b := by
  have hplace : ∀ d ∈ D, (plan.positionOf d).read (plan.turned b) = (plan.positionOf d).read b :=
    fun d hd => h.read_of_agreeOff hwall (h.agreeOff_turned b) hd
  have hcoin : ∀ d ∈ D, _ := fun d hd =>
    h.read_turned ((h.lt_of_mem hwall hd).trans_le h.length_le_half) b
  exact ⟨fun d hd => hplace d hd ▸ hb.above d hd, fun d hd => hplace d hd ▸ hb.below d hd,
    fun d hd hx => (hcoin d hd).2.mp (hb.atLower d hd ((hplace d hd).trans hx)),
    fun d hd hx => (hcoin d hd).1.mp (hb.atUpper d hd ((hplace d hd).trans hx))⟩

/-- **The blocks of hard planes** turn the walker round where it stands on a plane. -/
theorem inward_of_confined {ψ : Wave ℝ} (hψ : ψ.Supported (plan.Confined D lower upper)) :
    (Gate.actAll plan.turnGates (Gate.actAll plan.coinGates ψ)).Supported
      (plan.Inward D lower upper) := by
  intro b hb
  obtain ⟨e, hbe, he⟩ := h.exists_before hb
  have hconfined := hψ e he
  have honce : plan.planes.countP (fun p => Met (plan.askPlane p.2) b) ≤ 1 :=
    (h.countP_of_agreeOff hwall hbe).trans_le (h.countP_onPlane hwall hconfined)
  rcases Nat.le_one_iff_eq_zero_or_eq_one.mp honce with hzero | hone
  · exact h.inward_of_untouched hwall hbe hconfined hzero
  · -- the coin is taken back, and what was there before it is turned round
    rw [h.actAll_turnGates, hone, Function.iterate_one, h.turnBack_eq, Gate.actAll_append,
      h.undo_coin, Gate.actAll_cons, Gate.actAll_nil, Gate.act_plain_flip] at hb
    exact h.inward_of_turned hwall (hψ _ hb)

/-- **The shift** leads a walker on a wall away from it, and none across. -/
theorem confined_of_inward {b : ℕ → Bool} (hb : plan.Inward D lower upper b) :
    plan.Confined D lower upper (plan.hopped b) := by
  have hmove : ∀ d ∈ D, (lower d ≤ (plan.positionOf d).read (plan.hopped b) ∧
      (plan.positionOf d).read (plan.hopped b) ≤ upper d) ∧
      ((plan.positionOf d).read (plan.hopped b) = lower d →
        plan.coinRegister.read b = plan.half + d) ∧
      ((plan.positionOf d).read (plan.hopped b) = upper d → plan.coinRegister.read b = d) := by
    intro d hd
    have hlt := h.lt_of_mem hwall hd
    have hhalf := hlt.trans_le h.length_le_half
    have hwalls := hwall.lower_lt_upper hd
    have hsize := h.upper_lt hwall hd
    have hx := h.read_hop hlt b
    have habove := hb.above d hd
    have hbelow := hb.below d hd
    have hlow : (plan.positionOf d).read b = lower d → plan.coinRegister.read b = d :=
      hb.atLower d hd
    have hup : (plan.positionOf d).read b = upper d → plan.coinRegister.read b = plan.half + d :=
      hb.atUpper d hd
    by_cases hright : plan.coinRegister.read b = d
    · rw [if_pos hright, Nat.mod_eq_of_lt (by omega)] at hx
      omega
    · by_cases hleft : plan.coinRegister.read b = plan.half + d
      · have hback : (plan.positionOf d).read b + 2 ^ (plan.positionOf d).width - 1 =
            (plan.positionOf d).read b - 1 + 2 ^ (plan.positionOf d).width := by omega
        rw [if_neg hright, if_pos hleft, hback, Nat.add_mod_right,
          Nat.mod_eq_of_lt (by omega)] at hx
        omega
      · rw [if_neg hright, if_neg hleft] at hx
        omega
  exact ⟨fun d hd => (hmove d hd).1.1, fun d hd => (hmove d hd).1.2,
    fun d hd hx => (h.read_coin_hop b).trans ((hmove d hd).2.1 hx),
    fun d hd hx => (h.read_coin_hop b).trans ((hmove d hd).2.2 hx)⟩

theorem hard_of_walled : ∀ c ∈ plan.controls, c.control.permeability = .hard :=
  h.of_controls hwall.hard

theorem sound_of_walled : ∀ c ∈ plan.controls, c.control.Sound := h.of_controls hwall.sound

theorem coinOps_of_walled : ∀ c ∈ plan.controls, c.coinOps = [] := fun c hc =>
  Installed.coinOps_eq_nil fun op hop => by
    rw [h.hard_of_walled hwall c hc] at hop
    cases hop

theorem preparation_of_walled : ∀ c ∈ plan.controls, c.control.preparation c.register = [] :=
  fun c hc => BoundaryControl.preparation_eq_nil (fun wires hw => by
    rw [h.hard_of_walled hwall c hc] at hw
    cases hw) _

theorem resetOps_of_walled (step : ℕ) : plan.resetOps step = [] := by
  have hcontrols : (Walk.ofPlan plan).resetScript = [] := by
    refine List.flatMap_eq_nil_iff.mpr fun c hc => ?_
    have hhard := h.hard_of_walled hwall c hc
    have hancilla : c.ancilla = none := by
      have hwidth := (h.wired c hc).ancilla
      rw [BoundaryControl.ancillaWidth, hhard] at hwidth
      exact Option.map_eq_none_iff.mp hwidth
    simp [BoundaryControl.resetScript, BoundaryControl.resetTargets,
      BoundaryControl.resetsRegister, hhard, hancilla]
  have hcalm : (Walk.ofPlan plan).decoherenceAfter step = [] := by
    simp only [Walk.decoherenceAfter, Walk.ofPlan, h.decoherence, hwall.calm]
  rw [resetOps, hcontrols, hcalm, List.append_nil]

/-- **One step** keeps the walker between the walls. -/
theorem confined_step {ψ : Wave ℝ} (hψ : ψ.Supported (plan.Confined D lower upper)) (step : ℕ) :
    (Gate.actAll (gatesOf (plan.stepOps step)) ψ).Supported (plan.Confined D lower upper) := by
  rw [stepOps, h.resetOps_of_walled hwall, List.append_nil, Operation.gatesOf_append,
    Operation.gatesOf_append, gatesOf_coinOps (h.coinOps_of_walled hwall),
    h.gatesOf_boundaryOps_hard (h.hard_of_walled hwall) (h.sound_of_walled hwall),
    Gate.actAll_append, Gate.actAll_append]
  exact h.actAll_moveOps (h.inward_of_confined hwall hψ) fun b hb => h.confined_of_inward hwall hb

/-- **All steps** keep the walker between the walls. -/
theorem confined_steps : ∀ (n steps : ℕ) {ψ : Wave ℝ},
    ψ.Supported (plan.Confined D lower upper) →
    (Gate.actAll (gatesOf (plan.stepsFrom steps n)) ψ).Supported (plan.Confined D lower upper)
  | 0, _, _, hψ => hψ
  | n + 1, steps, ψ, hψ => by
    rw [stepsFrom, Operation.gatesOf_append, Gate.actAll_append]
    exact confined_steps n _ (h.confined_step hwall hψ _)

theorem confined_prepared : plan.Confined D lower upper plan.prepared := by
  have hstart : ∀ d ∈ D, (plan.positionOf d).read plan.prepared = spec.startOf d := fun d hd =>
    h.read_prepared (h.preparation_of_walled hwall) (h.lt_of_mem hwall hd)
  constructor
  · intro d hd
    rw [hstart d hd]
    exact (hwall.between d hd).1.le
  · intro d hd
    rw [hstart d hd]
    exact (hwall.between d hd).2.le
  · intro d hd hx
    rw [hstart d hd] at hx
    exact absurd hx (hwall.between d hd).1.ne'
  · intro d hd hx
    rw [hstart d hd] at hx
    exact absurd hx (hwall.between d hd).2.ne

theorem isReset_stepOps_of_walled {step : ℕ} {op : Operation ℝ} (hop : op ∈ plan.stepOps step) :
    op.isReset = false := by
  rw [stepOps, h.resetOps_of_walled hwall, List.append_nil, List.mem_append, List.mem_append] at hop
  rcases hop with (hop | hop) | hop
  · exact isReset_coinOps hop
  · exact isReset_boundaryOps hop
  · exact Walk.isReset_moveOps op hop

theorem isReset_stepsFrom_of_walled {op : Operation ℝ} : ∀ (n : ℕ) {steps : ℕ},
    op ∈ plan.stepsFrom steps n → op.isReset = false
  | 0, _, hop => by cases hop
  | n + 1, _, hop => (List.mem_append.mp hop).elim (h.isReset_stepOps_of_walled hwall)
      (isReset_stepsFrom_of_walled n)

end Plan.Sound

namespace Walk

/-- **Hard walls confine the walker.** However many steps are added to a walk between hard walls,
its program runs, and no amplitude of the state that results stands outside the walls. -/
theorem hardWalls_confine {spec : WalkSpec ℝ} {w₀ : Walk ℝ} {D : Set ℕ} {lower upper : ℕ → ℕ}
    (hbuild : build spec = .ok w₀) (hwall : spec.Walled D lower upper) (n : ℕ) (draws : Draws ℝ) :
    ∃ w v, (addSteps n).outcome w₀ = (.ok (), w) ∧
      (Simulation.run w.program.operations).outcome ⟨.basis w.program.width 0, draws⟩ =
        (.ok (), ⟨v, draws⟩) ∧ v.wires = w.program.width ∧
      ∀ i < 2 ^ v.wires, v.amplitude i ≠ 0 → ∀ d ∈ D, ∃ r, w.plan.positions[d]? = some r ∧
        lower d ≤ r.valueIn i ∧ r.valueIn i ≤ upper d := by
  obtain ⟨w, hrun, hready, -, hops⟩ := addSteps_of_build hbuild hwall.sound n
  have h := hready.plan
  have hlatch := h.preparation_of_walled hwall
  have hwithin : ∀ op ∈ w.program.operations, op.Within w.program.width := by
    intro op hop
    rw [hready.width]
    exact h.within_program hlatch (h.coinOps_of_walled hwall) (h.sound_of_walled hwall) n
      (hops ▸ hop)
  have hreset : ∀ op ∈ w.program.operations, op.isReset = false := by
    intro op hop
    rw [hops] at hop
    exact (List.mem_append.mp hop).elim (Plan.isReset_preparation hlatch)
      (h.isReset_stepsFrom_of_walled hwall n)
  obtain ⟨v, hv, hwires, hshows⟩ := Simulation.run_gates
    (StateVector.shows_start w.program.width) hwithin hreset draws
  rw [hops, Operation.gatesOf_append, Gate.actAll_append,
    Gate.actAll_basis (fun g hg => Plan.isFlip_preparation hlatch hg)] at hshows
  have hconfined := h.confined_steps hwall n 0 (Wave.supported_basis (h.confined_prepared hwall))
  refine ⟨w, v, hrun, hv, hwires, fun i hi hne d hd => ?_⟩
  have hb := hconfined i.testBit (hshows.amplitude i hi ▸ hne)
  refine ⟨w.plan.positionOf d, Plan.getElem?_positions (h.lt_of_mem hwall hd), ?_, ?_⟩
  · rw [← Register.read_testBit]
    exact hb.above d hd
  · rw [← Register.read_testBit]
    exact hb.below d hd

/-- Eight sites with walls at one and six, and a walker that starts at three. -/
noncomputable def betweenOneAndSix : WalkSpec ℝ where
  widths := [3]
  initial := some ["011"]
  controls := [BoundaryControl.hard.addBoundaries [⟨"001", 0, none⟩, ⟨"110", 0, none⟩]]

theorem walled_betweenOneAndSix :
    betweenOneAndSix.Walled {0} (fun _ => 1) (fun _ => 6) where
  hard := by simp [betweenOneAndSix, BoundaryControl.addBoundaries, BoundaryControl.hard,
    BoundaryControl.ofPermeability]
  sound := by
    intro c hc
    rw [List.mem_singleton.mp hc]
    exact BoundaryControl.sound_hard.addBoundaries _
  calm := rfl
  planes := by
    rintro d rfl
    exact List.Perm.refl _
  bare := by
    intro d hd
    have hne : (0 == d) = false := beq_false_of_ne fun h => hd h.symm
    simp [WalkSpec.planesOf, betweenOneAndSix, BoundaryControl.addBoundaries, BoundaryControl.hard,
      BoundaryControl.ofPermeability, hne]
  between := by
    rintro d rfl
    decide

/-- The walker that starts at three stays between one and six. -/
theorem hardWalls_confine_betweenOneAndSix : ∃ w₀ : Walk ℝ, build betweenOneAndSix = .ok w₀ ∧
    betweenOneAndSix.Walled {0} (fun _ => 1) (fun _ => 6) ∧
    ∀ (n : ℕ) (draws : Draws ℝ), ∃ w v, (addSteps n).outcome w₀ = (.ok (), w) ∧
      (Simulation.run w.program.operations).outcome ⟨.basis w.program.width 0, draws⟩ =
        (.ok (), ⟨v, draws⟩) ∧ v.wires = w.program.width ∧
      ∀ i < 2 ^ v.wires, v.amplitude i ≠ 0 → ∀ d ∈ ({0} : Set ℕ), ∃ r,
        w.plan.positions[d]? = some r ∧ 1 ≤ r.valueIn i ∧ r.valueIn i ≤ 6 := by
  obtain ⟨w₀, h⟩ : ∃ w₀ : Walk ℝ, build betweenOneAndSix = .ok w₀ := ⟨_, rfl⟩
  exact ⟨w₀, h, walled_betweenOneAndSix, hardWalls_confine h walled_betweenOneAndSix⟩

end Walk

end LatticeWalk
